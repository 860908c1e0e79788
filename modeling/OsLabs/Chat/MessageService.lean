import OsLabs.Chat.Guests
import OsLabs.Chat.MessageThreads

/-!
# Chat server: what the clients are served

From the bytes of the messages to the sessions, in the runs in which no two threads cut messages
at the same time.  The tasks of the threads are atomic there, what they commit is a run of the
sessions, and where the guests keep their names and the messages fit nothing fails and no session
is left over.
-/

namespace OsLabs.Chat

open OsLabs.Lib OsLabs.Lib.Monitor

variable {n : ℕ} {cfg : Messages n} {t : Fin n} {s : MessageState n}

/-! ### The threads behind a state -/

/-- The same moment of the threads with tokens ready made. -/
def threadsOf (s : MessageState n) : ChatState n :=
  ⟨s.data.chat, s.owner, fun t => .running (s.loc t).chatLoc⟩

theorem eq_threadsOf {r : ChatState n} (h : SameThreads s r) : r = threadsOf s := by
  have hstatus : r.status = fun t => .running (s.loc t).chatLoc := by
    funext t
    rw [h.running t, h.loc t]
  rw [threadsOf, ← hstatus, ← h.owner, show s.data.chat = r.data from h.data]

/-- What the calls of `recv` and the loop behind them stand for is nothing yet. -/
theorem chatLoc_of_not_shown (h : (s.loc t).shown cfg t = false) :
    ∃ k, (s.loc t).chatLoc = .recv k := by
  generalize s.loc t = l at h
  cases l with
  | first k => exact ⟨k, rfl⟩
  | next k arguments current => exact ⟨k, rfl⟩
  | trim k arguments p current => exact ⟨k, rfl⟩
  | chat l =>
    cases l with
    | recv k => exact ⟨k, rfl⟩
    | _ => cases h

/-- What the threads emit is what the threads behind them emit, as long as that is nothing for
`recv`. -/
theorem emit_threadsOf {β : Type*} {emit : ChatState n → Fin n → Option β}
    (hrecv : ∀ r t k, r.loc t = .recv k → emit r t = none) (s : MessageState n) (t : Fin n)
    {r : ChatState n} (hR : SameThreads s r) :
    emit (threadsOf s) t = (shownOf cfg s t).bind (emit r) := by
  rw [eq_threadsOf hR, shownOf, Projection.emit]
  by_cases hshown : (s.loc t).shown cfg t = true
  · rw [if_pos hshown, Option.bind_some]
  · rw [if_neg hshown, Option.bind_none]
    obtain ⟨k, hk⟩ := chatLoc_of_not_shown (Bool.not_eq_true _ ▸ hshown)
    exact hrecv _ t k hk

theorem commitOf_recv (r : ChatState n) (t : Fin n) (k : ℕ) (h : r.loc t = .recv k) :
    commitOf cfg.scenario r t = none := by
  rw [commitOf, h]
  rfl

theorem eventAt_recv (r : ChatState n) (t : Fin n) (k : ℕ) (h : r.loc t = .recv k) :
    eventAt cfg.scenario r t = none := by
  rw [eventAt, h]

/-- Clients 5 and 6; what was in their buffers is left behind the messages. -/
def twoGuests : Messages 2 where
  client t := if t = 0 then 5 else 6
  cmd _ := List.replicate 12 'x'
  message t k :=
    match t, k with
    | 0, 0 => "login ann".toList
    | 1, 0 => "hi all ".toList
    | _, _ => []

/-- Both are welcomed, and then both have cut their messages before the first one is served. -/
def bothTalk : List (Fin 2 × ℕ × Option (Fin 2)) :=
  (([0, 0, 1, 1] : List (Fin 2)) ++ List.replicate 6 0 ++ List.replicate 6 1 ++ [0, 1] ++
    List.replicate 6 0 ++ List.replicate 6 1 ++ List.replicate 4 0 ++
    List.replicate 8 1).map fun t => (t, 0, none)

theorem exists_run_bothTalk :
    ∃ tr s, (messageThreads twoGuests).machine.Run tr s ∧
      (∀ x ∈ Machine.visited tr s, CutApart x) ∧
      Machine.emitted (fun s => commitOf twoGuests.scenario (threadsOf s)) tr =
        [0, 0, 1, 1, 0, 1, 0, 1] ∧
      Machine.emitted (fun s => eventAt twoGuests.scenario (threadsOf s)) tr =
        [.accept 5, .accept 6, .welcome 5, .welcome 6,
          .message 5 ["login".toList, "ann".toList], .message 6 ["hi".toList, "all".toList]] ∧
      (s.data.chat.lists.users.map fun u => (u.username, u.socket)) =
        [("guest6".toList, 6), ("ann".toList, 5)] ∧
      s.data.chat.sent 1 = [(6, serverMOTD), (5, "\n::guest6> hi all\nchat>".toList)] := by
  have hrun : (bothTalk.foldlM (fun s c =>
      ((messageThreads twoGuests).next s c).filter fun s => CutApart s)
      (messageThreads twoGuests).machine.init).map (fun s =>
        ((s.data.chat.lists.users.map fun u => (u.username, u.socket)), s.data.chat.sent 1)) =
      some ([("guest6".toList, 6), ("ann".toList, 5)],
        [(6, serverMOTD), (5, "\n::guest6> hi all\nchat>".toList)]) := by decide +kernel
  obtain ⟨s, hs, hfacts⟩ := Option.map_eq_some_iff.mp hrun
  obtain ⟨husers, hsent⟩ := Prod.mk.inj hfacts
  have hwithin := run_within_of_choices hs
  exact ⟨_, s, hwithin.of_within, hwithin.forall_visited_of_within (by decide), by decide +kernel,
    by decide +kernel, husers, hsent⟩

section Runs

variable {tr : List (MessageState n × Fin n)}

/-- **Tasks are atomic.**  While no two threads cut at the same time, the commits of a run of the
threads are, in their order, a run of the server that does each task in one step; while no thread
writes the lists are the same, and so are the calls of each thread that has answered its last
task. -/
theorem tasks_atomic (h : (messageThreads cfg).machine.Run tr s)
    (hapart : ∀ x ∈ Machine.visited tr s, CutApart x) :
    ∃ tr' a, (atomicServer cfg.scenario).Run tr' a ∧
      tr'.map Prod.snd = Machine.emitted (fun s => commitOf cfg.scenario (threadsOf s)) tr ∧
      ((∀ t, ¬ ((threadsOf s).loc t).Writes) → s.data.chat.lists = a.lists) ∧
      ∀ t, ((threadsOf s).loc t).Settled → s.data.chat.sent t = a.sent t := by
  have hsimulation := (messages_simulation cfg).comp (atomic_simulation cfg.scenario)
    fun s t r hR => emit_threadsOf commitOf_recv s t hR
  obtain ⟨tr', a, hrun, hlabels, r, -, hR, hsame⟩ := hsimulation.run (h.within hapart)
  obtain rfl := eq_threadsOf hR
  exact ⟨tr', a, hrun, hlabels, fun hnone => (hsame.lists hnone).symm,
    fun t ht => (hsame.keeps t).sent_eq ht⟩

theorem tasks_atomic_bothTalk :
    ∃ tr s, (messageThreads twoGuests).machine.Run tr s ∧
      (∀ x ∈ Machine.visited tr s, CutApart x) ∧
      s.data.chat.sent 1 = [(6, serverMOTD), (5, "\n::guest6> hi all\nchat>".toList)] ∧
      ∃ tr' a, (atomicServer twoGuests.scenario).Run tr' a ∧
        tr'.map Prod.snd = [0, 0, 1, 1, 0, 1, 0, 1] ∧
        ((∀ t, ¬ ((threadsOf s).loc t).Writes) → s.data.chat.lists = a.lists) ∧
        ∀ t, ((threadsOf s).loc t).Settled → s.data.chat.sent t = a.sent t := by
  obtain ⟨tr, s, hrun, hapart, hcommits, -, -, hsent⟩ := exists_run_bothTalk
  obtain ⟨tr', a, hatomic, hlabels, hsame⟩ := tasks_atomic hrun hapart
  exact ⟨tr, s, hrun, hapart, hsent, tr', a, hatomic, hlabels.trans hcommits, hsame⟩

/-- **The threads are the sessions.**  While no two threads cut at the same time, what the threads
commit is, in its order, a run of the sessions; while no thread writes, the lists are the same. -/
theorem threads_serve (h : (messageThreads cfg).machine.Run tr s)
    (hapart : ∀ x ∈ Machine.visited tr s, CutApart x) :
    ∃ tr' srv, chatServer.Run tr' srv ∧
      tr'.map Prod.snd = Machine.emitted (fun s => eventAt cfg.scenario (threadsOf s)) tr ∧
      ((∀ t, ¬ ((threadsOf s).loc t).Writes) → s.data.chat.lists = srv.lists) ∧
      ∀ t k, s.loc t = .chat (.recv k) → srv.Live (cfg.client t) := by
  have hsessions := (atomic_simulation cfg.scenario).comp (sessions_simulation cfg.scenario)
    fun s t a hsame => eventAt_eq (s := s) hsame t
  have hsimulation := (messages_simulation cfg).comp hsessions
    fun s t r hR => emit_threadsOf eventAt_recv s t hR
  obtain ⟨tr', srv, hrun, hevents, r, -, hR, a, -, hsame, hserver⟩ :=
    hsimulation.run (h.within hapart)
  obtain rfl := eq_threadsOf hR
  refine ⟨tr', srv, hrun, hevents,
    fun hnone => (hsame.lists hnone).symm.trans hserver.lists.symm, fun t k hloc => ?_⟩
  have hkeeps := hsame.keeps t
  rw [show (threadsOf s).loc t = .recv k from congrArg MessageLoc.chatLoc hloc] at hkeeps
  cases hkeeps with
  | recv hsent hstage =>
    have hstage : a.stage t = .serving (k + 1) := hstage
    exact (hserver.phase t (hstage ▸ trivial)).trans (by rw [hstage]; rfl)

theorem threads_serve_bothTalk :
    ∃ tr s, (messageThreads twoGuests).machine.Run tr s ∧
      (∀ x ∈ Machine.visited tr s, CutApart x) ∧
      ∃ tr' srv, chatServer.Run tr' srv ∧
        tr'.map Prod.snd = [.accept 5, .accept 6, .welcome 5, .welcome 6,
          .message 5 ["login".toList, "ann".toList], .message 6 ["hi".toList, "all".toList]] ∧
        ((∀ t, ¬ ((threadsOf s).loc t).Writes) → s.data.chat.lists = srv.lists) ∧
        ∀ t k, s.loc t = .chat (.recv k) → srv.Live (twoGuests.client t) := by
  obtain ⟨tr, s, hrun, hapart, -, hevents, -⟩ := exists_run_bothTalk
  obtain ⟨tr', srv, hserved, hlabels, hsame⟩ := threads_serve hrun hapart
  exact ⟨tr, s, hrun, hapart, tr', srv, hserved, hlabels.trans hevents, hsame⟩

end Runs

/-! ### Guests -/

/-- The next statement stores behind `arguments`, copies between strings that overlap, or
dereferences a `NULL` node. -/
def MessageLoc.Crashes (cfg : Messages n) (t : Fin n) (d : MessageShared n) :
    MessageLoc n → Prop
  | .next _ arguments (some _) => 80 ≤ arguments.length + 1
  | .trim _ _ p _ => trimInPlace (d.cmd p.1) p.2 = none
  | .chat l => l.Crashes cfg.scenario t d.chat
  | .first _ | .next _ _ none => False

/-- Descriptors are used once, the names of guests are left to the guests, and the tokens of every
message fit. -/
structure OwnMessages (cfg : Messages n) : Prop where
  names : OwnNames cfg.scenario
  fits : ∀ t k, Fits (messageText (cfg.message t k))

section Loop

variable {d : MessageShared n} {k : ℕ} {arguments : List (Address n)} {p : Address n}

theorem room_of_cuts (hown : OwnMessages cfg) (h : Cuts cfg t d (.next k arguments (some p))) :
    arguments.length + 1 < 80 := by
  obtain ⟨cmd, s, hk, hpasses, hmem, hpos, rfl, hcurrent⟩ := h.exists_of_next
  obtain ⟨q, hq, -⟩ := Option.map_eq_some_iff.mp hcurrent.symm
  have hnext := hpasses.next_ne_none (hown.fits t k) (hq ▸ Option.some_ne_none q)
  rw [List.length_map]
  by_contra hfull
  rw [nextToken, hq] at hnext
  dsimp only at hnext
  rw [if_neg hfull] at hnext
  exact hnext rfl

theorem trim_of_cuts (hown : OwnMessages cfg) {current : Option (Address n)}
    (h : Cuts cfg t d (.trim k arguments p current)) : trimInPlace (d.cmd p.1) p.2 ≠ none := by
  cases h with
  | @trim _ cmd s q r hk hpasses hcurrent hroom hcut hmem hpos =>
    have hnext := hpasses.next_ne_none (hown.fits t k) (hcurrent ▸ Option.some_ne_none q)
    rw [nextToken, hcurrent] at hnext
    dsimp only at hnext
    rw [if_pos hroom, hcut, ← hmem, Ne, Option.map_eq_none_iff] at hnext
    exact hnext

/-- The loop of a message that fits goes on. -/
theorem exists_exec_of_hidden (hown : OwnMessages cfg) {l : MessageLoc n} (h : Cuts cfg t d l)
    (hl : ∀ l', l ≠ .chat l') : ∃ d' l', Action.exec d' l' ∈ messageCode cfg t l d := by
  cases l with
  | first k => exact ⟨_, _, List.mem_singleton_self _⟩
  | next k arguments current =>
    cases current with
    | none => exact ⟨_, _, List.mem_singleton_self _⟩
    | some p =>
      obtain ⟨cmd, s, hk, hpasses, hmem, hpos, -, -⟩ := h.exists_of_next
      rw [messageCode, hpos]
      dsimp only
      rw [if_pos (room_of_cuts hown h)]
      exact ⟨_, _, List.mem_singleton_self _⟩
  | trim k arguments p current =>
    obtain ⟨mem, hmem⟩ := Option.ne_none_iff_exists'.mp (trim_of_cuts hown h)
    rw [messageCode, hmem]
    exact ⟨_, _, List.mem_singleton_self _⟩
  | chat l => exact absurd rfl (hl l)

end Loop

/-- A statement of the threads behind a state is one of the threads. -/
theorem exists_mirror {c : ChatShared n} {d : MessageShared n} (hd : d.chat = c) {l : ChatLoc}
    {b : ChatAction n} (hb : b ∈ chatCode cfg.scenario t l c) :
    ∃ a ∈ messageCode cfg t (.chat l) d, b.Mirrors a := by
  subst hd
  by_cases hrecv : ∃ k, l = .recv k
  · obtain ⟨k, rfl⟩ := hrecv
    obtain rfl := List.mem_singleton.mp hb
    by_cases hempty : cfg.message t k = []
    · refine ⟨.exec d (.chat (.start .hangup k)), ?_, trivial⟩
      rw [messageCode, chatMessageCode, if_pos hempty]
      exact List.mem_singleton_self _
    · refine ⟨.exec (d.copy t (messageText (cfg.message t k))) (.first k), ?_, trivial⟩
      rw [messageCode, chatMessageCode, if_neg hempty]
      exact List.mem_singleton_self _
  · have hne : ∀ k, l ≠ .recv k := fun k hk => hrecv ⟨k, hk⟩
    rw [← chatCode_quiet hne] at hb
    refine ⟨b.map d.setChat .chat, ?_, (b.mirrors_map _ _).symm⟩
    rw [messageCode, chatMessageCode.eq_2 _ _ _ _ hne]
    exact List.mem_map_of_mem hb

theorem stuck_threadsOf (hown : OwnMessages cfg) (h : (apartMachine cfg).Reachable s)
    (hr : (chatThreads cfg.scenario).machine.Reachable (threadsOf s))
    (hstuck : Stuck (messageThreads cfg) s) :
    (∀ t, ∃ l, s.loc t = .chat l) ∧ Stuck (chatThreads cfg.scenario) (threadsOf s) := by
  have hchat : ∀ t, ∃ l, s.loc t = .chat l := by
    intro t
    by_contra hnot
    push Not at hnot
    obtain ⟨d', l', hmem⟩ := exists_exec_of_hidden hown (cuts_of_reachable h t) hnot
    exact hstuck t _ (.exec (running_loc h.of_within t) hmem)
  refine ⟨hchat, fun t r' hstep => ?_⟩
  obtain ⟨b, hb, hacts⟩ := Step.acts_of_isEmpty hr hstep
  obtain ⟨l, hl⟩ := hchat t
  rw [show (threadsOf s).loc t = l from congrArg MessageLoc.chatLoc hl] at hb
  obtain ⟨a, ha, hmirrors⟩ := exists_mirror (d := s.data) rfl hb
  rw [← hl] at ha
  exact hstuck t _ (step_of_mem (running_loc h.of_within t) ha (hmirrors.free hacts.free))

theorem ownMessages_twoGuests : OwnMessages twoGuests where
  names := by
    refine ⟨by decide, fun t k m name hinbox hlogin => ?_⟩
    have hinbox : received (twoGuests.message t k) = some m := hinbox
    cases k with
    | zero =>
      fin_cases t
      · obtain rfl := Option.some.inj hinbox
        have hname : requestOf ⟨["login".toList, "ann".toList], "login ann".toList⟩ =
            .login "ann".toList := by decide +kernel
        have hsame := hname.symm.trans hlogin
        obtain rfl := Request.login.inj hsame
        decide +kernel
      · obtain rfl := Option.some.inj hinbox
        have hsay : requestOf ⟨["hi".toList, "all".toList], "hi all ".toList⟩ =
            .say "hi all ".toList := by decide +kernel
        cases hsay.symm.trans hlogin
    | succ k =>
      have hempty : twoGuests.message t (k + 1) = [] := by
        fin_cases t <;> rfl
      rw [hempty] at hinbox
      cases hinbox
  fits t k := by
    cases k with
    | zero => fin_cases t <;> exact ⟨by decide +kernel, by unfold TrimsApart; decide +kernel⟩
    | succ k =>
      have hempty : twoGuests.message t (k + 1) = [] := by
        fin_cases t <;> rfl
      rw [hempty]
      exact ⟨by decide +kernel, by unfold TrimsApart; decide +kernel⟩

end OsLabs.Chat
