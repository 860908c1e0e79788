import OsLabs.Chat.DmRelation
import OsLabs.Chat.Service

/-!
# Chat server: guests with names of their own

A session is without a node when another client has taken its guest name, and then `connect` and
`disconnect` dereference `NULL`.  Where no descriptor is used twice and nobody takes a name that
the server gives to a guest, every session has its node, the server never crashes, and it never
comes to a stop before every session has ended.
-/

namespace OsLabs.Chat

open OsLabs.Lib OsLabs.Lib.Monitor

variable {n : ℕ} {cfg : Scenario n} {t : Fin n} {a a' : AtomicState n} {lists lists' : Lists}

/-- No descriptor is used twice, and no client takes the guest name of a client. -/
structure OwnNames (cfg : Scenario n) : Prop where
  client : Function.Injective cfg.client
  login : ∀ t k m name, cfg.inbox t k = some m → requestOf m = .login name →
    ∀ u, strncpy 30 name ≠ guestName (cfg.client u)

/-- The session has not started yet. -/
def Stage.Early : Stage → Prop
  | .incoming | .greeting | .serving 0 => True
  | .serving (_ + 1) | .leaving | .gone => False

/-! ### The nodes of the guests -/

/-- The lists while the sessions of some threads have not started. -/
structure Guests (cfg : Scenario n) (early : Fin n → Prop) (lists : Lists) : Prop where
  fresh : ∀ t, early t → cfg.client t ∉ sockets lists.users
  own : ∀ key ∈ keys lists.users, ∀ t, key.1 = guestName (cfg.client t) → key.2 = cfg.client t
  dms : DmOk lists.users

namespace Guests

variable {early early' : Fin n → Prop}

theorem nil (early : Fin n → Prop) (rooms : List RoomNode) : Guests cfg early ⟨[], rooms⟩ where
  fresh _ _ := nofun
  own _ := nofun
  dms := dmOk_nil

theorem mono (h : Guests cfg early lists) (hearly : ∀ t, early' t → early t) :
    Guests cfg early' lists :=
  ⟨fun t ht => h.fresh t (hearly t ht), h.own, h.dms⟩

/-- Fewer nodes. -/
theorem sublist (h : Guests cfg early lists)
    (hkeys : (keys lists'.users).Sublist (keys lists.users)) (hdms : DmOk lists'.users) :
    Guests cfg early lists' where
  fresh t ht hmem := by
    rw [← map_snd_keys] at hmem
    have hsub := (hkeys.map Prod.snd).subset hmem
    rw [map_snd_keys] at hsub
    exact h.fresh t ht hsub
  own key hkey := h.own key (hkeys.subset hkey)
  dms := hdms

/-- The guest name of a session that starts is free. -/
theorem free (h : Guests cfg early lists) (ht : early t) :
    findU lists.users (guestName (cfg.client t)) = none := by
  rw [findU_eq_none_iff, ← map_fst_keys, List.mem_map]
  rintro ⟨key, hkey, hname⟩
  refine h.fresh t ht ?_
  rw [← h.own key hkey t hname, ← map_snd_keys]
  exact List.mem_map_of_mem hkey

theorem welcome (h : Guests cfg early lists) (hnames : OwnNames cfg) (ht : early t) :
    Guests cfg (fun u => early u ∧ u ≠ t) (welcome (cfg.client t) lists) where
  fresh u hu := by
    rw [sockets_welcome_of_free (h.free ht), List.mem_cons, not_or]
    exact ⟨fun heq => hu.2 (hnames.client heq), h.fresh u hu.1⟩
  own key hkey u hname := by
    rw [keys_welcome_of_free (h.free ht)] at hkey
    rcases List.mem_cons.mp hkey with rfl | hkey
    · exact guestName_injective hname
    · exact h.own key hkey u hname
  dms := by
    show DmOk (insertFirstU lists.users (cfg.client t) (guestName (cfg.client t)))
    rw [insertFirstU, h.free ht]
    exact h.dms.insert rfl (h.fresh t ht)

/-- A lost connection finds its own node or none. -/
theorem hangup (h : Guests cfg early lists) (t : Fin n) :
    Guests cfg early (disconnected (cfg.client t) lists) := by
  refine h.sublist (keys_disconnected_sublist _ _) ?_
  rw [disconnected]
  split
  · rename_i u hu
    have hname : u.username = guestName (cfg.client t) := by simpa using List.find?_some hu
    exact h.dms.leave (h.own (u.username, u.socket)
      (List.mem_map_of_mem (List.mem_of_find?_eq_some hu)) t hname)
  · exact h.dms

theorem exit (h : Guests cfg early lists) (c : Socket) :
    Guests cfg early (exited c lists) := by
  refine h.sublist (keys_exited_sublist c lists) ?_
  rw [exited]
  split
  · rename_i u hu
    exact h.dms.leave (by simpa using List.find?_some hu)
  · exact h.dms

/-- The names of guests stay theirs by any command. -/
theorem serve (h : Guests cfg early lists) {c : Socket} {command : Command}
    (hexit : command ≠ .exit)
    (hlogin : ∀ name, command = .login name → ∀ u, strncpy 30 name ≠ guestName (cfg.client u))
    (hserve : serve c command lists = some lists') : Guests cfg early lists' := by
  have hdms := h.dms.serve hexit hserve
  refine ⟨?_, ?_, hdms⟩
  · rw [sockets_serve hexit hserve]
    exact h.fresh
  · by_cases hname : ∃ name, command = .login name
    · obtain ⟨name, rfl⟩ := hname
      obtain rfl := Option.some.inj hserve
      intro key hkey u hu
      obtain ⟨v, hv, rfl⟩ := List.mem_map.mp hkey
      rcases mem_updateFirst hv with hmem | ⟨w, -, rfl⟩
      · exact h.own _ (List.mem_map_of_mem hmem) u hu
      · exact absurd hu (hlogin name rfl u)
    · rw [keys_serve hexit (fun name heq => hname ⟨name, heq⟩) hserve]
      exact h.own

end Guests

/-! ### The sessions -/

structure Orderly (cfg : Scenario n) (a : AtomicState n) : Prop where
  guests : Guests cfg (fun t => (a.stage t).Early) a.lists
  live : ∀ t k, a.stage t = .serving (k + 1) → cfg.client t ∈ sockets a.lists.users
  opened : ∀ c ∈ a.opened, ∃ t, (a.stage t).InSession ∧ cfg.client t = c

/-- The stages of the other threads stay. -/
theorem stage_move_of_ne (a : AtomicState n) (calls : List Call) (stage : Stage) {u : Fin n}
    (hu : u ≠ t) : (a.move t calls stage).stage u = a.stage u :=
  Function.update_of_ne hu _ _

theorem stage_move_self (a : AtomicState n) (calls : List Call) (stage : Stage) :
    (a.move t calls stage).stage t = stage :=
  Function.update_self _ _ _

/-- A thread that had started before, or that starts now, is not early behind its step. -/
theorem early_of_move {calls : List Call} {stage : Stage} (hstage : ¬ stage.Early) {u : Fin n}
    (hu : ((a.move t calls stage).stage u).Early) : (a.stage u).Early ∧ u ≠ t := by
  by_cases hut : u = t
  · subst hut
    rw [stage_move_self] at hu
    exact absurd hu hstage
  · rw [stage_move_of_ne a calls stage hut] at hu
    exact ⟨hu, hut⟩

namespace Orderly

/-- A step that leaves the lists, and that starts no session. -/
theorem idle (h : Orderly cfg a) {o : Finset Socket} {calls : List Call} {stage : Stage}
    (hearly : stage.Early → (a.stage t).Early) (hlive : ∀ k, stage ≠ .serving (k + 1))
    (hopened : ∀ c ∈ o, ∃ u, ((a.move t calls stage).stage u).InSession ∧ cfg.client u = c) :
    Orderly cfg ({ a with opened := o }.move t calls stage) where
  guests := by
    refine h.guests.mono fun u hu => ?_
    by_cases hut : u = t
    · subst hut
      rw [stage_move_self] at hu
      exact hearly hu
    · rwa [stage_move_of_ne _ _ _ hut] at hu
  live u k hu := by
    by_cases hut : u = t
    · subst hut
      rw [stage_move_self] at hu
      exact absurd hu (hlive k)
    · rw [stage_move_of_ne _ _ _ hut] at hu
      exact h.live u k hu
  opened := hopened

/-- The open descriptors still have their sessions when a session goes on. -/
theorem opened_move (h : Orderly cfg a) (calls : List Call) {stage : Stage}
    (hstage : stage.InSession) (c : Socket) (hc : c ∈ a.opened) :
    ∃ u, ((a.move t calls stage).stage u).InSession ∧ cfg.client u = c := by
  obtain ⟨u, hu, rfl⟩ := h.opened c hc
  refine ⟨u, ?_, rfl⟩
  by_cases hut : u = t
  · subst hut
    rwa [stage_move_self]
  · rwa [stage_move_of_ne _ _ _ hut]

end Orderly

theorem eq_exit_of_command {q : Request} (h : q.command = .exit) : q = .exit := by
  cases q <;> first | rfl | cases h

theorem eq_login_of_command {q : Request} {name : CString} (h : q.command = .login name) :
    q = .login name := by
  cases q <;> first | (obtain rfl := Command.login.inj h; rfl) | cases h

/-- What a task does to the nodes: those of the other sessions stay, and that of its own session
unless it ends it. -/
structure KeepsNodes (cfg : Scenario n) (t : Fin n) (early : Fin n → Prop) (task : Task)
    (lists lists' : Lists) : Prop where
  guests : Guests cfg (fun u => early u ∧ u ≠ t) lists'
  others : ∀ u, u ≠ t → cfg.client u ∈ sockets lists.users → cfg.client u ∈ sockets lists'.users
  self : ¬ task.Ends → cfg.client t ∈ sockets lists'.users

theorem keepsNodes_welcome (hnames : OwnNames cfg) {early : Fin n → Prop}
    (h : Guests cfg early lists) (ht : early t) :
    KeepsNodes cfg t early .welcome lists (welcome (cfg.client t) lists) where
  guests := h.welcome hnames ht
  others u _ hu := by
    rw [sockets_welcome_of_free (h.free ht)]
    exact List.mem_cons_of_mem _ hu
  self _ := by
    rw [sockets_welcome_of_free (h.free ht)]
    exact List.mem_cons_self

theorem keepsNodes_hangup (hnames : OwnNames cfg) {early : Fin n → Prop}
    (h : Guests cfg early lists) :
    KeepsNodes cfg t early .hangup lists (disconnected (cfg.client t) lists) where
  guests := (h.hangup t).mono fun _ hu => hu.1
  others u hut hu := by
    have hne : cfg.client u ≠ cfg.client t := fun heq => hut (hnames.client heq)
    rw [← List.count_pos_iff, count_sockets_disconnected hne, List.count_pos_iff]
    exact hu
  self hends := absurd trivial hends

theorem keepsNodes_request (hnames : OwnNames cfg) {early : Fin n → Prop}
    (h : Guests cfg early lists) {k : ℕ} {m : Received} (hinbox : cfg.inbox t k = some m)
    (ht : cfg.client t ∈ sockets lists.users)
    (hserve : serve (cfg.client t) (requestOf m).command lists = some lists') :
    KeepsNodes cfg t early (.request (requestOf m)) lists lists' := by
  by_cases hexit : (requestOf m).command = .exit
  · rw [hexit] at hserve
    obtain rfl := Option.some.inj hserve
    refine ⟨(h.exit _).mono fun _ hu => hu.1, fun u hut hu => ?_, fun hends => ?_⟩
    · have hne : cfg.client u ≠ cfg.client t := fun heq => hut (hnames.client heq)
      rw [sockets_exited, List.mem_erase_of_ne hne]
      exact hu
    · rw [eq_exit_of_command hexit] at hends
      exact absurd trivial hends
  · have hsockets := sockets_serve hexit hserve
    refine ⟨(h.serve hexit (fun name hlogin => ?_) hserve).mono fun _ hu => hu.1,
      fun u _ hu => hsockets ▸ hu, fun _ => hsockets ▸ ht⟩
    exact hnames.login t k m name hinbox (eq_login_of_command hlogin)

namespace Orderly

theorem keepsNodes (h : Orderly cfg a) (hnames : OwnNames cfg) {j : ℕ} {calls : List Call}
    (hstage : a.stage t = .serving j)
    (hperform : perform (cfg.client t) a.lists (cfg.task t j) = some (lists, calls)) :
    KeepsNodes cfg t (fun u => (a.stage u).Early) (cfg.task t j) a.lists lists := by
  cases j with
  | zero =>
    obtain ⟨rfl, -⟩ := Prod.mk.inj (Option.some.inj hperform)
    exact keepsNodes_welcome hnames h.guests (by rw [hstage]; trivial)
  | succ k =>
    have ht := h.live t k hstage
    rw [Scenario.task] at hperform ⊢
    cases hinbox : cfg.inbox t k with
    | none =>
      rw [hinbox] at hperform
      obtain ⟨rfl, -⟩ := Prod.mk.inj (Option.some.inj hperform)
      exact keepsNodes_hangup hnames h.guests
    | some m =>
      rw [hinbox] at hperform
      obtain ⟨lists', hserve, heq⟩ := Option.map_eq_some_iff.mp hperform
      obtain ⟨rfl, -⟩ := Prod.mk.inj heq
      exact keepsNodes_request hnames h.guests hinbox ht hserve

theorem serve (h : Orderly cfg a) (hnames : OwnNames cfg) {j : ℕ} {calls : List Call}
    (hstage : a.stage t = .serving j)
    (hperform : perform (cfg.client t) a.lists (cfg.task t j) = some (lists, calls)) :
    Orderly cfg ({ a with lists := lists }.move t calls ((cfg.task t j).stage j)) := by
  obtain ⟨hguests, hothers, hself⟩ := h.keepsNodes hnames hstage hperform
  refine ⟨hguests.mono fun u hu => ?_, fun u k hu => ?_, ?_⟩
  · refine early_of_move (a := { a with lists := lists }) ?_ hu
    rw [Task.stage]
    split <;> exact id
  · by_cases hut : u = t
    · subst hut
      refine hself fun hends => ?_
      rw [stage_move_self, Task.stage, if_pos hends] at hu
      cases hu
    · rw [stage_move_of_ne _ _ _ hut] at hu
      exact hothers u hut (h.live u k hu)
  · refine h.opened_move calls ?_
    rw [Task.stage]
    split <;> trivial

theorem step (h : Orderly cfg a) (hnames : OwnNames cfg) (hstep : AtomicStep cfg a t a') :
    Orderly cfg a' := by
  cases hstep with
  | accept hstage hclient hfree =>
    refine h.idle (fun _ => hstage ▸ trivial) nofun fun c hc => ?_
    rcases Finset.mem_insert.mp hc with rfl | hc
    · exact ⟨t, by rw [stage_move_self]; trivial, rfl⟩
    · exact h.opened_move [] (show Stage.greeting.InSession from trivial) c hc
  | greet hstage =>
    exact h.idle (fun _ => hstage ▸ trivial) (fun k => nofun) (h.opened_move _ trivial)
  | serve hstage hperform => exact h.serve hnames hstage hperform
  | leave hstage =>
    refine h.idle (fun hearly => hearly.elim) nofun fun c hc => ?_
    obtain ⟨hne, hc⟩ := Finset.mem_erase.mp hc
    obtain ⟨u, hu, rfl⟩ := h.opened c hc
    have hut : u ≠ t := fun heq => hne (congrArg cfg.client heq)
    exact ⟨u, by rwa [stage_move_of_ne _ _ _ hut], rfl⟩

end Orderly

theorem orderly_of_reachable (hnames : OwnNames cfg) (h : (atomicServer cfg).Reachable a) :
    Orderly cfg a := by
  refine h.invariant (I := Orderly cfg) ⟨.nil _ _, fun t k hstage => ?_, fun c hc => ?_⟩ ?_
  · cases hstage
  · cases hc
  · intro a t a' _ hI hstep
    exact hI.step hnames (atomicStep_of_step hstep)

/-! ### The threads -/

/-- Only `connect` and `disconnect` without a node of their own fail. -/
theorem perform_ne_none (task : Task) {c : Socket} (h : c ∈ sockets lists.users) :
    perform c lists task ≠ none := by
  have hnode : findSocketNode lists.users c ≠ none := by
    rw [Ne, findSocketNode_eq_none_iff, not_not]
    exact h
  cases task with
  | welcome => exact Option.some_ne_none _
  | hangup => exact Option.some_ne_none _
  | request q =>
    have hserve : serve c q.command lists ≠ none := by
      cases q with
      | connect name =>
        show serve c (.connect name) lists ≠ none
        rw [serve]
        split
        · exact Option.some_ne_none _
        · rename_i hnone
          exact absurd hnone hnode
        · exact Option.some_ne_none _
      | disconnect name =>
        show serve c (.disconnect name) lists ≠ none
        rw [serve]
        split
        · exact Option.some_ne_none _
        · rename_i hnone
          exact absurd hnone hnode
        · exact Option.some_ne_none _
      | _ => exact Option.some_ne_none _
    rw [perform, Ne, Option.map_eq_none_iff]
    exact hserve

/-- A statement that dereferences `NULL` keeps the task from being done. -/
theorem perform_eq_none {client : Socket} {task : Task} {pc : ℕ} {now : Lists} {v : Locals}
    {out : List Call} {statement : Statement}
    (hsame : task.statements client now = task.statements client lists)
    (hexecute : execute ((task.statements client lists).take pc) lists .start =
      some (now, v, out))
    (hstatement : (task.statements client now)[pc]? = some statement)
    (hnone : statement now v = none) : perform client lists task = none := by
  rw [hsame] at hstatement
  obtain ⟨hlt, hget⟩ := List.getElem?_eq_some_iff.mp hstatement
  rw [← execute_statements, ← List.take_append_drop pc (task.statements client lists),
    execute_append, hexecute, Option.bind_some, List.drop_eq_getElem_cons hlt, hget, execute]
  dsimp only
  rw [hnone]
  rfl

variable {s : ChatState n}

theorem not_crashes (hnames : OwnNames cfg) (h : (chatThreads cfg).machine.Reachable s)
    (t : Fin n) : ¬ (s.loc t).Crashes cfg t s.data := by
  intro hcrash
  obtain ⟨a, ha, hsame⟩ := (atomic_simulation cfg).reachable h
  have hkeeps := hsame.keeps t
  have hsection := fun task k pc v (hbody : s.loc t = .body task k pc v) => mode_of_body h hbody
  have hreads : (s.loc t).Reads → a.lists = s.data.lists := by
    intro hreads
    refine hsame.lists fun u hu => ?_
    by_cases hut : u = t
    · exact ChatLoc.not_reads_of_writes hu (hut ▸ hreads)
    · exact (alone_of_writes h hu (Ne.symm hut)).2 hreads
  generalize s.loc t = l at hcrash hkeeps hsection hreads
  cases hkeeps with
  | @body task k pc v out htask hstage hexecute hsent =>
    obtain ⟨statement, hstatement, hnone⟩ := hcrash
    have hstage : a.stage t = .serving (task.turn k) := hstage
    have hstatements : task.statements (cfg.client t) s.data.lists =
        task.statements (cfg.client t) a.lists := by
      rcases hsection task k pc v rfl with hread | hwrite
      · rw [hreads hread]
      · exact statements_eq hwrite _ _
    have hperform := perform_eq_none hstatements hexecute hstatement hnone
    cases task with
    | welcome => cases hperform
    | hangup => cases hperform
    | request q =>
      exact perform_ne_none _ ((orderly_of_reachable hnames ha).live t k hstage) hperform
  | _ => exact hcrash.elim

theorem stage_of_not_inSession {l : ChatLoc} {sent : List Call} {p : Progress}
    (h : Keeps cfg t lists sent p l) (hl : ¬ l.InSession) : ¬ p.stage.InSession := by
  cases h with
  | accept hsent hstage => exact hstage ▸ id
  | done hsent hstage => exact hstage ▸ id
  | _ => exact absurd trivial hl

/-- Where no thread can step, every session has ended. -/
theorem done_of_stuck (hnames : OwnNames cfg) (h : (chatThreads cfg).machine.Reachable s)
    (hstuck : Stuck (chatThreads cfg) s) (t : Fin n) :
    s.loc t = .done ∨ cfg.client t = -1 := by
  have hidle := not_inSession_of_stuck h hstuck (not_crashes hnames h)
  obtain ⟨a, ha, hsame⟩ := (atomic_simulation cfg).reachable h
  have hclosed : s.data.opened = ∅ := by
    refine Finset.eq_empty_of_forall_notMem fun c hc => ?_
    rw [← hsame.opened] at hc
    obtain ⟨u, hu, -⟩ := (orderly_of_reachable hnames ha).opened c hc
    exact stage_of_not_inSession (hsame.keeps u) (hidle u) hu
  have hrun := running_loc h t
  cases hloc : s.loc t with
  | done => exact Or.inl rfl
  | accept =>
    refine Or.inr ?_
    by_contra hclient
    have hmem : Action.exec { s.data with opened := insert (cfg.client t) s.data.opened } .motd ∈
        chatCode cfg t .accept s.data := by
      rw [chatCode, if_pos ⟨hclient, by rw [hclosed]; exact Finset.notMem_empty _⟩]
      exact List.mem_singleton_self _
    rw [hloc] at hrun
    exact hstuck t _ (.exec hrun hmem)
  | _ =>
    have hsession := hidle t
    rw [hloc] at hsession
    exact absurd trivial hsession

/-- What the lists are like while nobody writes. -/
structure ListsInOrder (cfg : Scenario n) (lists : Lists) (s : ChatState n) : Prop where
  dms : DmsMatch lists.users
  /-- A session that waits for its client has its own node. -/
  node : ∀ t k, s.loc t = .recv k → (sockets lists.users).count (cfg.client t) = 1

theorem listsInOrder (hnames : OwnNames cfg) (h : (chatThreads cfg).machine.Reachable s)
    (hnone : ∀ t, ¬ (s.loc t).Writes) : ListsInOrder cfg s.data.lists s := by
  obtain ⟨a, ha, hsame⟩ := (atomic_simulation cfg).reachable h
  have horderly := orderly_of_reachable hnames ha
  rw [← hsame.lists hnone]
  refine ⟨horderly.guests.dms.dmsMatch, fun t k hloc => ?_⟩
  have hkeeps := hsame.keeps t
  rw [hloc] at hkeeps
  cases hkeeps with
  | recv hsent hstage =>
    exact List.count_eq_one_of_mem horderly.guests.dms.nodup (horderly.live t k hstage)

end OsLabs.Chat
