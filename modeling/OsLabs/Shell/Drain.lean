import OsLabs.Lib.Ranking
import OsLabs.Shell.Connected

/-!
# Shell: pipelines come to their end

What the last command of a pipeline writes does not depend on the order in which the processes
run.  In a state without a step nobody waits for anybody, so a pipeline of programs that come to
an end on every input comes to its end.
-/

namespace OsLabs.Shell

open OsLabs.Lib OsLabs.Shell.Pipeline

variable {α β σ : Type}

/-! ### What has been read and written -/

structure Streams (n : ℕ) (cfg : Setting β σ) (a : Active α β σ) : Prop where
  ran : ∀ i r, a.running i = some r →
    ∃ s₀, cfg.boot i = some s₀ ∧ Ran cfg.act s₀ (a.got i) (a.put i) r.state
  idle : ∀ i, a.running i = none → a.got i = [] ∧ a.put i = []
  failed : ∀ i, a.running i = none → a.plumbing.hasExited i = true → cfg.boot i = none
  gives : ∀ i, (a.feed n cfg i).Gives (a.got i)
  pipe : ∀ j, (a.sent n cfg j).items = a.taken cfg j ++ a.pipe j
  /-- Only a program whose output nobody reads is ended by a signal. -/
  killed : ∀ i r, a.running i = some r → a.plumbing.hasExited i = true →
    (cfg.act r.state).isExit = false → cfg.pipedOut n i = true ∧ a.Departed cfg (i + 1)

section StreamSteps

variable {n : ℕ} {cfg : Setting β σ} {a a' : Active α β σ}

theorem items_sent (j : ℕ) :
    (a.sent n cfg j).items = if cfg.pipedOut n j then a.put j else [] := by
  rw [Active.sent]
  split_ifs <;> rfl

theorem ended_of_executing (cfg : Setting β σ) {i : ℕ} (hexec : a.executing i = true) :
    a.ended cfg i = false := by
  rw [Active.ended, hasExited_of_executing hexec, Bool.false_and]

theorem feed_grows (h : ∀ k, (a.output cfg k).Grows (a'.output cfg k)) (i : ℕ) :
    (a.feed n cfg i).Grows (a'.feed n cfg i) := by
  rw [Active.feed, Active.feed]
  split_ifs
  · rw [Active.sent, Active.sent]
    split_ifs
    · exact h (i - 1)
    · exact Feed.Grows.refl _
  · exact Feed.Grows.refl _

/-- The output of one child, which has not come to its end, may have grown. -/
theorem outputs_grow {i : ℕ} (hended : a.ended cfg i = false) (hput : a.put i <+: a'.put i)
    (hother : ∀ k, k ≠ i → a'.output cfg k = a.output cfg k) (k : ℕ) :
    (a.output cfg k).Grows (a'.output cfg k) := by
  by_cases hki : k = i
  · subst hki
    exact ⟨hput, fun hclosed => absurd (hclosed.symm.trans hended) (by decide)⟩
  · rw [hother k hki]
    exact Feed.Grows.refl _

theorem streams_start (fds : FdTable α) (pipefd : ℕ → ℕ) :
    Streams n cfg (Active.start fds pipefd) where
  ran i r hrun := by cases hrun
  idle i _ := ⟨rfl, rfl⟩
  failed i _ hexited := by cases hexited
  gives i := Feed.Gives.nil _
  pipe j := by
    rw [items_sent, Active.taken]
    split_ifs <;> rfl
  killed i r hrun := by cases hrun

theorem Active.Departed.mono {k : ℕ} (h : a.Departed cfg k)
    (hexited : a.plumbing.hasExited k = true → a'.plumbing.hasExited k = true)
    (hrun : ∀ r, a.running k = some r → ∃ r', a'.running k = some r') : a'.Departed cfg k :=
  h.imp hexited (And.imp_left fun ⟨r, hr⟩ => hrun r hr)

variable (h : Streams n cfg a)

include h

theorem Streams.plumb {plumbing : State α} (hkeeps : Keeps a.plumbing plumbing) :
    Streams n cfg { a with plumbing := plumbing } := by
  have hended : ∀ k, Active.ended cfg { a with plumbing := plumbing } k = a.ended cfg k := by
    intro k
    rw [Active.ended, Active.ended, hkeeps.exited]
  have houtput : ∀ k, (a.output cfg k).Grows
      (Active.output cfg { a with plumbing := plumbing } k) := by
    intro k
    rw [Active.output, Active.output, hended]
    exact Feed.Grows.refl _
  refine ⟨h.ran, h.idle, fun i hrun hexited => ?_, fun i => (h.gives i).mono (feed_grows houtput i),
    fun j => ?_, fun i r hrun hexited hact => ?_⟩
  · exact h.failed i hrun ((hkeeps.exited i).symm.trans hexited)
  · have hpipe := h.pipe j
    rw [items_sent] at hpipe ⊢
    exact hpipe
  · obtain ⟨hpiped, hdeparted⟩ := h.killed i r hrun ((hkeeps.exited i).symm.trans hexited) hact
    exact ⟨hpiped, hdeparted.mono (hkeeps.exited (i + 1)).trans fun r hr => ⟨r, hr⟩⟩

theorem Streams.exits {i : ℕ} {c : Child α} (hexec : a.executing i = true)
    (hfailed : a.running i = none → cfg.boot i = none)
    (hkilled : ∀ r, a.running i = some r → (cfg.act r.state).isExit = false →
      cfg.pipedOut n i = true ∧ a.Departed cfg (i + 1)) : Streams n cfg (a.exits i c) := by
  have hexited : ∀ k, k ≠ i → (a.exits i c).plumbing.hasExited k = a.plumbing.hasExited k := by
    intro k hki
    rw [hasExited_exits, if_neg hki]
  have houtput : ∀ k, (a.output cfg k).Grows ((a.exits i c).output cfg k) :=
    outputs_grow (ended_of_executing cfg hexec) List.prefix_rfl fun k hki => by
      rw [Active.output, Active.output, Active.ended, Active.ended, hexited k hki]
      rfl
  have hdeparted : ∀ {k : ℕ}, a.Departed cfg k → (a.exits i c).Departed cfg k := by
    intro k hk
    refine hk.mono (fun hk => ?_) fun r hr => ⟨r, hr⟩
    rw [hasExited_exits, hk, ite_self]
  refine ⟨h.ran, h.idle, fun k hrun hk => ?_, fun k => (h.gives k).mono (feed_grows houtput k),
    fun j => ?_, fun k r hrun hk hact => ?_⟩
  · by_cases hki : k = i
    · subst hki
      exact hfailed hrun
    · exact h.failed k hrun ((hexited k hki).symm.trans hk)
  · have hpipe := h.pipe j
    rw [items_sent] at hpipe ⊢
    exact hpipe
  · by_cases hki : k = i
    · subst hki
      exact (hkilled r hrun hact).imp_right hdeparted
    · exact (h.killed k r hrun ((hexited k hki).symm.trans hk) hact).imp_right hdeparted

theorem Streams.boot {i : ℕ} {s : σ} {exec : Exec} (hexec : a.executing i = true)
    (hrun : a.running i = none) (hboot : cfg.boot i = some s) :
    Streams n cfg { a with running := Function.update a.running i (some ⟨exec, s⟩) } := by
  have hold : ∀ {k : ℕ} {r : Option (Running σ)}, k ≠ i →
      Function.update a.running i (some ⟨exec, s⟩) k = r → a.running k = r := by
    intro k r hki hr
    rwa [Function.update_of_ne hki] at hr
  have hstays : ∀ k r, a.running k = some r →
      ∃ r', Function.update a.running i (some ⟨exec, s⟩) k = some r' := by
    intro k r hr
    by_cases hki : k = i
    · subst hki
      exact ⟨_, Function.update_self _ _ _⟩
    · exact ⟨r, (Function.update_of_ne hki _ _).trans hr⟩
  have houtput : ∀ k, (a.output cfg k).Grows
      (Active.output cfg { a with running := Function.update a.running i (some ⟨exec, s⟩) } k) :=
    outputs_grow (ended_of_executing cfg hexec) List.prefix_rfl fun k hki => by
      rw [Active.output, Active.output, Active.ended, Active.ended]
      dsimp only
      rw [Function.update_of_ne hki]
  refine ⟨fun k r hr => ?_, fun k hr => ?_, fun k hr hk => ?_,
    fun k => (h.gives k).mono (feed_grows houtput k), fun j => ?_, fun k r hr hk hact => ?_⟩
  · by_cases hki : k = i
    · subst hki
      dsimp only at hr ⊢
      rw [Function.update_self] at hr
      cases hr
      rw [(h.idle k hrun).1, (h.idle k hrun).2]
      exact ⟨s, hboot, .start⟩
    · exact h.ran k r (hold hki hr)
  · by_cases hki : k = i
    · subst hki
      exact h.idle k hrun
    · exact h.idle k (hold hki hr)
  · by_cases hki : k = i
    · subst hki
      dsimp only at hr
      rw [Function.update_self] at hr
      cases hr
    · exact h.failed k (hold hki hr) hk
  · have hpipe := h.pipe j
    rw [items_sent] at hpipe ⊢
    exact hpipe
  · by_cases hki : k = i
    · subst hki
      rw [hasExited_of_executing hexec] at hk
      cases hk
    · exact (h.killed k r (hold hki hr) hk hact).imp_right (·.mono id (hstays (k + 1)))

/-- A program has taken a step. -/
theorem Streams.withState {i : ℕ} {r : Running σ} {s : σ} {pipe : ℕ → List β}
    {got : ℕ → List (Option β)} {put : ℕ → List β} (hexec : a.executing i = true)
    (hrun : a.running i = some r)
    (hran : ∀ s₀, Ran cfg.act s₀ (a.got i) (a.put i) r.state →
      Ran cfg.act s₀ (got i) (put i) s)
    (hgot : ∀ k, k ≠ i → got k = a.got k) (hput : ∀ k, k ≠ i → put k = a.put k)
    (hgrown : a.put i <+: put i) (hgives : (a.feed n cfg i).Gives (got i))
    (hpipe : ∀ j, (if cfg.pipedOut n j then put j else []) =
      (if cfg.pipedIn (j + 1) then (got (j + 1)).reduceOption else []) ++ pipe j) :
    Streams n cfg { a.withState i s with pipe := pipe, got := got, put := put } := by
  have hself : (a.withState i s).running i = some { r with state := s } := by
    rw [Active.withState]
    dsimp only
    rw [Function.update_self, hrun]
    rfl
  have hother : ∀ k, k ≠ i → (a.withState i s).running k = a.running k :=
    fun k hki => Function.update_of_ne hki _ _
  have houtput : ∀ k, (a.output cfg k).Grows
      (Active.output cfg { a.withState i s with pipe := pipe, got := got, put := put } k) :=
    outputs_grow (ended_of_executing cfg hexec) hgrown fun k hki => by
      rw [Active.output, Active.output, Active.ended, Active.ended]
      dsimp only
      rw [hput k hki, hother k hki]
      rfl
  have hstays : ∀ k r, a.running k = some r → ∃ r', (a.withState i s).running k = some r' := by
    intro k r' hr
    by_cases hki : k = i
    · subst hki
      exact ⟨_, hself⟩
    · exact ⟨r', (hother k hki).trans hr⟩
  refine ⟨fun k r' hr => ?_, fun k hr => ?_, fun k hr hk => ?_, fun k => ?_, fun j => ?_,
    fun k r' hr hk hact => ?_⟩
  · by_cases hki : k = i
    · subst hki
      obtain ⟨s₀, hboot, hold⟩ := h.ran k r hrun
      dsimp only at hr ⊢
      rw [hself] at hr
      cases hr
      exact ⟨s₀, hboot, hran s₀ hold⟩
    · dsimp only at hr ⊢
      rw [hother k hki] at hr
      rw [hgot k hki, hput k hki]
      exact h.ran k r' hr
  · by_cases hki : k = i
    · subst hki
      dsimp only at hr
      rw [hself] at hr
      cases hr
    · dsimp only at hr ⊢
      rw [hother k hki] at hr
      rw [hgot k hki, hput k hki]
      exact h.idle k hr
  · by_cases hki : k = i
    · subst hki
      dsimp only at hr
      rw [hself] at hr
      cases hr
    · exact h.failed k ((hother k hki).symm.trans hr) hk
  · refine Feed.Gives.mono ?_ (feed_grows houtput k)
    by_cases hki : k = i
    · subst hki
      exact hgives
    · dsimp only
      rw [hgot k hki]
      exact h.gives k
  · rw [items_sent, Active.taken]
    exact hpipe j
  · by_cases hki : k = i
    · subst hki
      rw [show (a.withState k s).plumbing.hasExited k = false from
        hasExited_of_executing hexec] at hk
      cases hk
    · obtain ⟨hpiped, hdeparted⟩ := h.killed k r' ((hother k hki).symm.trans hr) hk hact
      exact ⟨hpiped, hdeparted.mono id (hstays (k + 1))⟩

/-- The program of child `i` has read what comes next. -/
theorem Streams.hasRead {i : ℕ} {r : Running σ} {next : Option β → σ} (hexec : a.executing i = true)
    (hrun : a.running i = some r) (hact : cfg.act r.state = .read next) {x : Option β}
    {pipe : ℕ → List β} (hgives : (a.feed n cfg i).Gives (a.got i ++ [x]))
    (hpipe : ∀ j, a.taken cfg j ++ a.pipe j =
      (if cfg.pipedIn (j + 1) then
        (Function.update a.got i (a.got i ++ [x]) (j + 1)).reduceOption else []) ++ pipe j) :
    Streams n cfg { a.hasRead i x (next x) with pipe := pipe } := by
  have hself : (a.hasRead i x (next x)).got i = a.got i ++ [x] := Function.update_self _ _ _
  refine h.withState hexec hrun (fun s₀ hran => ?_) (fun k hki => Function.update_of_ne hki _ _)
    (fun _ _ => rfl) List.prefix_rfl ?_ fun j => ?_
  · rw [hself]
    exact hran.read x hact
  · rw [hself]
    exact hgives
  · have hold := h.pipe j
    rw [items_sent] at hold
    exact hold.trans (hpipe j)

/-- The program of child `i` has written `b`. -/
theorem Streams.hasWritten {i : ℕ} {r : Running σ} {b : β} {s : σ} (hexec : a.executing i = true)
    (hrun : a.running i = some r) (hact : cfg.act r.state = .write b s) {pipe : ℕ → List β}
    (hpipe : ∀ j, (if cfg.pipedOut n j then Function.update a.put i (a.put i ++ [b]) j else []) =
      a.taken cfg j ++ pipe j) :
    Streams n cfg { a.hasWritten i b s with pipe := pipe } := by
  have hself : (a.hasWritten i b s).put i = a.put i ++ [b] := Function.update_self _ _ _
  refine h.withState hexec hrun (fun s₀ hran => ?_) (fun _ _ => rfl)
    (fun k hki => Function.update_of_ne hki _ _) ?_ (h.gives i) hpipe
  · rw [hself]
    exact hran.write hact
  · rw [hself]
    exact List.prefix_append _ _

variable {fds : FdTable α} (hconn : Connected n fds cfg a) (hin : fds.lookup 0 ≠ none)
  (hout : fds.lookup 1 ≠ none)

include hconn hin hout

/-- Where a child finds its pipe empty and without a write end, nothing more will come. -/
theorem Streams.closed_of_eof {i : ℕ} (hexec : a.executing i = true)
    (hpiped : cfg.pipedIn i = true) (hheld : a.held n (isWriteEnd (i - 1)) = false) :
    (a.feed n cfg i).closed = true := by
  have hpos : 0 < i := by
    rw [Setting.pipedIn, Bool.and_eq_true, decide_eq_true_iff] at hpiped
    exact hpiped.1
  obtain ⟨j, rfl⟩ := Nat.exists_eq_succ_of_ne_zero hpos.ne'
  rw [Nat.succ_sub_one] at hheld
  rw [Active.feed, if_pos hpiped, Nat.succ_sub_one, Active.sent]
  cases hsends : cfg.pipedOut n j with
  | false => rfl
  | true =>
    obtain ⟨c, hc, -⟩ := executing_iff.mp hexec
    have hexited : a.plumbing.hasExited j = true :=
      hconn.exited hin hout (by rw [hc]; exact Option.some_ne_none c) (hconn.lt hexec) hsends hheld
    show a.ended cfg j = true
    rw [Active.ended, hexited, Bool.true_and]
    cases hrun : a.running j with
    | none => rfl
    | some r =>
      rw [Option.all_some]
      by_contra hexit
      obtain ⟨-, hdeparted⟩ := h.killed j r hrun hexited (Bool.eq_false_iff.mpr hexit)
      obtain hgone | ⟨-, hnot⟩ := hdeparted
      · rw [hasExited_of_executing hexec] at hgone
        cases hgone
      · rw [hpiped] at hnot
        cases hnot

theorem Streams.programStep {i : ℕ} (hexec : a.executing i = true)
    (hstep : ProgramStep n cfg a i a') : Streams n cfg a' := by
  -- the pipe that child `i` reads
  have hfeed : cfg.pipedIn i = true →
      ∃ j, i = j + 1 ∧ (a.feed n cfg i).items = (a.got i).reduceOption ++ a.pipe j := by
    intro hpiped
    have hpos := hpiped
    rw [Setting.pipedIn, Bool.and_eq_true, decide_eq_true_iff] at hpos
    obtain ⟨j, rfl⟩ := Nat.exists_eq_succ_of_ne_zero hpos.1.ne'
    refine ⟨j, rfl, ?_⟩
    have hpipe := h.pipe j
    rw [Active.taken, if_pos hpiped] at hpipe
    rwa [Active.feed, if_pos hpiped]
  -- what another child has taken
  have hother : ∀ (x : Option β) {j : ℕ}, j + 1 ≠ i → a.taken cfg j =
      if cfg.pipedIn (j + 1) then
        (Function.update a.got i (a.got i ++ [x]) (j + 1)).reduceOption else [] := by
    intro x j hne
    rw [Active.taken, Function.update_of_ne hne]
  cases hstep with
  | failed c hc hrun hboot =>
    refine h.exits hexec (fun _ => hboot) fun r hr => ?_
    rw [hrun] at hr
    cases hr
  | boot exec s hrun hboot hcommand => exact h.boot hexec hrun hboot
  | file r next hrun hact hpiped =>
    have hfile : a.feed n cfg i = ⟨cfg.input i, true⟩ := by
      rw [Active.feed, hpiped, if_neg Bool.false_ne_true]
    have hgives := (h.gives i).next (by rw [hfile]; exact fun hopen => by cases hopen)
    rw [hfile] at hgives
    refine h.hasRead hexec hrun hact (hfile.symm ▸ hgives) fun j => ?_
    by_cases hji : j + 1 = i
    · subst hji
      rw [Active.taken, hpiped, if_neg Bool.false_ne_true, if_neg Bool.false_ne_true]
      rfl
    · rw [← hother _ hji]
      rfl
  | item r next b rest hrun hact hpiped hpipe =>
    obtain ⟨j, rfl, hitems⟩ := hfeed hpiped
    rw [Nat.add_sub_cancel] at hpipe
    rw [hpipe] at hitems
    obtain ⟨hitem, hlt⟩ := (h.gives (j + 1)).getElem?_length hitems
    have hgives := (h.gives (j + 1)).next fun _ => hlt (List.cons_ne_nil b rest)
    rw [hitem, List.head?_cons] at hgives
    refine h.hasRead hexec hrun hact hgives fun k => ?_
    by_cases hkj : k = j
    · subst hkj
      rw [Active.taken, if_pos hpiped, if_pos hpiped, hpipe, Nat.add_sub_cancel,
        Function.update_self, Function.update_self, List.reduceOption_append, List.append_assoc]
      rfl
    · rw [← hother _ (by omega), Nat.add_sub_cancel, Function.update_of_ne hkj]
  | eof r next hrun hact hpiped hpipe hheld =>
    have hclosed := h.closed_of_eof hconn hin hout hexec hpiped hheld
    obtain ⟨j, rfl, hitems⟩ := hfeed hpiped
    rw [Nat.add_sub_cancel] at hpipe
    rw [hpipe] at hitems
    obtain ⟨hitem, -⟩ := (h.gives (j + 1)).getElem?_length hitems
    have hgives := (h.gives (j + 1)).next fun hopen => absurd (hclosed.symm.trans hopen) (by decide)
    rw [hitem, List.head?_nil] at hgives
    refine h.hasRead hexec hrun hact hgives fun k => ?_
    by_cases hkj : k = j
    · subst hkj
      rw [Active.taken, if_pos hpiped, if_pos hpiped, Function.update_self,
        List.reduceOption_append]
      rw [show [(none : Option β)].reduceOption = [] from rfl, List.append_nil]
      rfl
    · rw [← hother _ (by omega)]
      rfl
  | output r b s hrun hact hpiped =>
    refine h.hasWritten hexec hrun hact fun j => ?_
    have hpipe := h.pipe j
    rw [items_sent] at hpipe
    by_cases hji : j = i
    · subst hji
      rw [hpiped, if_neg Bool.false_ne_true] at hpipe ⊢
      exact hpipe
    · rw [Function.update_of_ne hji]
      exact hpipe
  | send r b s hrun hact hpiped =>
    refine h.hasWritten hexec hrun hact fun j => ?_
    have hpipe := h.pipe j
    rw [items_sent] at hpipe
    by_cases hji : j = i
    · subst hji
      rw [if_pos hpiped] at hpipe ⊢
      rw [Function.update_self, Function.update_self, hpipe, List.append_assoc]
    · rw [Function.update_of_ne hji, Function.update_of_ne hji]
      exact hpipe
  | killed r b s c hc hrun hact hpiped hheld =>
    have hlast := hpiped
    rw [Setting.pipedOut, Bool.and_eq_true, decide_eq_true_iff] at hlast
    have hdeparted := hconn.departed hin hout (by rw [hc]; exact Option.some_ne_none c) hlast.1 hheld
    refine h.exits hexec (fun hnone => ?_) fun _ _ _ => ⟨hpiped, hdeparted⟩
    rw [hrun] at hnone
    cases hnone
  | exit r c hc hrun hact =>
    refine h.exits hexec (fun hnone => ?_) fun r' hr' hnot => ?_
    · rw [hrun] at hnone
      cases hnone
    · rw [hrun] at hr'
      cases hr'
      rw [hact] at hnot
      cases hnot

theorem Streams.next {e : ActiveEvent} (hnext : a.next n cfg e = some a') : Streams n cfg a' := by
  obtain ⟨plumbing, e', hplumbing, hsetup, rfl⟩ | ⟨i, hexec, hstep⟩ :=
    next_cases hconn hin hout hnext
  · exact h.plumb (keeps_of_next hconn.plumbing hplumbing hsetup)
  · exact h.programStep hconn hin hout hexec hstep

end StreamSteps

/-! ### Determinacy -/

section Determinacy

variable {n : ℕ} {fds : FdTable α} {cfg : Setting β σ} {a a' : Active α β σ}

theorem invariants_of_reachable (hin : fds.lookup 0 ≠ none) (hout : fds.lookup 1 ≠ none)
    {pipefd : ℕ → ℕ} (h : (runPipeline n cfg fds pipefd).Reachable a) :
    Connected n fds cfg a ∧ Streams n cfg a := by
  refine h.invariant (I := fun a => Connected n fds cfg a ∧ Streams n cfg a)
    ⟨?_, streams_start fds pipefd⟩ fun s e s' _ hinv hstep => ⟨hinv.1.next hin hout hstep, hinv.2.next hinv.1 hin hout hstep⟩
  refine ⟨inv_start pipefd, fun i _ _ => Set.mem_univ i, fun k hk => ?_, fun i r hrun => ?_⟩
  · cases hk
  · cases hrun

/-- At any two moments of any two runs, what a child has written is one stream. -/
theorem Streams.agrees (h : Streams n cfg a) (h' : Streams n cfg a') (i : ℕ) :
    (a.output cfg i).Agrees (a'.output cfg i) := by
  induction i using Nat.strong_induction_on with
  | _ i ih =>
    have hfeed : (a.feed n cfg i).Agrees (a'.feed n cfg i) := by
      rw [Active.feed, Active.feed]
      cases hpiped : cfg.pipedIn i with
      | false => exact Feed.Agrees.refl _
      | true =>
        rw [Setting.pipedIn, Bool.and_eq_true, decide_eq_true_iff] at hpiped
        rw [if_pos rfl, if_pos rfl, Active.sent, Active.sent]
        split_ifs
        · exact ih (i - 1) (Nat.sub_lt hpiped.1 one_pos)
        · exact Feed.Agrees.refl _
    -- a child without a program has written nothing, and if it has exited it never gets to one
    have hidle : ∀ {a a' : Active α β σ}, Streams n cfg a → Streams n cfg a' →
        a.running i = none → (a.output cfg i).Agrees (a'.output cfg i) := by
      intro a a' h h' hrun
      rw [Active.output, (h.idle i hrun).2]
      refine ⟨Or.inl List.nil_prefix, fun hended => ?_, fun _ => List.nil_prefix⟩
      have hboot := h.failed i hrun (Bool.and_eq_true_iff.mp hended).1
      cases hrun' : a'.running i with
      | none =>
        rw [Active.output, (h'.idle i hrun').2]
      | some r =>
        obtain ⟨s₀, hboot', -⟩ := h'.ran i r hrun'
        rw [hboot] at hboot'
        cases hboot'
    cases hrun : a.running i with
    | none => exact hidle h h' hrun
    | some r =>
      cases hrun' : a'.running i with
      | none => exact (hidle h' h hrun').symm
      | some r' =>
        obtain ⟨s₀, hboot, hran⟩ := h.ran i r hrun
        obtain ⟨s₀', hboot', hran'⟩ := h'.ran i r' hrun'
        rw [hboot] at hboot'
        cases hboot'
        refine (hran.agrees hran' hfeed (h.gives i) (h'.gives i)).weaken rfl rfl (fun hended => ?_)
          fun hended => ?_
        · have hexit := (Bool.and_eq_true_iff.mp hended).2
          rwa [hrun] at hexit
        · have hexit := (Bool.and_eq_true_iff.mp hended).2
          rwa [hrun'] at hexit

/-- A child whose output is no pipe comes to its end by itself. -/
theorem Streams.ended (h : Streams n cfg a) {i : ℕ} (hexited : a.plumbing.hasExited i = true)
    (hpiped : cfg.pipedOut n i = false) : a.ended cfg i = true := by
  rw [Active.ended, hexited, Bool.true_and]
  cases hrun : a.running i with
  | none => rfl
  | some r =>
    rw [Option.all_some]
    by_contra hexit
    have hkilled := (h.killed i r hrun hexited (Bool.eq_false_iff.mpr hexit)).1
    rw [hpiped] at hkilled
    cases hkilled

/-- Whatever the order of the steps in two runs, of the outputs of a child one is the beginning of
the other; and when both are over, what has not gone into a pipe is the same. -/
theorem outputs_determinate (hin : fds.lookup 0 ≠ none) (hout : fds.lookup 1 ≠ none)
    {pipefd pipefd' : ℕ → ℕ} (ha : (runPipeline n cfg fds pipefd).Reachable a)
    (ha' : (runPipeline n cfg fds pipefd').Reachable a') :
    (∀ i, a.put i <+: a'.put i ∨ a'.put i <+: a.put i) ∧
      (a.Finished n → a'.Finished n → ∀ i < n, cfg.pipedOut n i = false → a.put i = a'.put i) := by
  have h := (invariants_of_reachable hin hout ha).2
  have h' := (invariants_of_reachable hin hout ha').2
  refine ⟨fun i => (h.agrees h' i).items, fun hfinished hfinished' i hi hpiped => ?_⟩
  exact (h.agrees h' i).eq_of_closed (h.ended (hfinished.child i hi) hpiped)
    (h'.ended (hfinished'.child i hi) hpiped)

end Determinacy

/-! ### No pipeline hangs -/

section Stuck

variable {n : ℕ} {fds : FdTable α} {cfg : Setting β σ} {a : Active α β σ}
  (h : Connected n fds cfg a) (hin : fds.lookup 0 ≠ none) (hout : fds.lookup 1 ≠ none)

/-- The parent waits, and all children have started their programs or exited. -/
structure Settled (n : ℕ) (a : Active α β σ) : Prop where
  parent : ∃ k, a.plumbing.parent = .waiting k
  child : ∀ i < n, a.plumbing.hasExited i = true ∨
    a.executing i = true ∧ ∃ r, a.running i = some r

theorem plumb_next {e : Event} {s' : State α} (hnext : a.plumbing.next n e = some s')
    (hsetup : ∀ i, e = .child i → a.executing i = false) :
    a.next n cfg (.plumb e) = some { a with plumbing := s' } := by
  have hmap : (a.plumbing.next n e).map (fun plumbing => { a with plumbing := plumbing }) =
      some { a with plumbing := s' } := by
    rw [hnext]
    rfl
  cases e with
  | pipe r w => exact hmap
  | parent => exact hmap
  | child i =>
    rw [Active.next, hsetup i rfl]
    exact hmap

include h

theorem Connected.settled (hstuck : ∀ e, a.next n cfg e = none) : Settled n a := by
  have hplumb : ∀ e s', a.plumbing.next n e = some s' →
      ∃ i, e = .child i ∧ a.executing i = true := by
    intro e s' hnext
    by_contra hnot
    have hsetup : ∀ i, e = .child i → a.executing i = false :=
      fun i he => Bool.eq_false_iff.mpr fun hexec => hnot ⟨i, he, hexec⟩
    have hnone := hstuck (.plumb e)
    rw [plumb_next hnext hsetup] at hnone
    cases hnone
  -- the parent cannot be in front of its first call of `waitpid`
  have hparent : ∃ k, a.plumbing.parent = .waiting k := by
    by_contra hnot
    have hleft : 0 < a.plumbing.parent.left n := by
      cases hloc : a.plumbing.parent with
      | piping j => exact Nat.succ_pos _
      | forking j => exact Nat.succ_pos _
      | closing j => exact Nat.succ_pos _
      | waiting k => exact absurd ⟨k, hloc⟩ hnot
    obtain ⟨e, s', hnext, hlt⟩ := exists_parent_next hleft
    obtain ⟨i, rfl, -⟩ := hplumb e s' hnext
    obtain ⟨c, c', -, -, rfl⟩ := next_child_eq_some hnext
    exact lt_irrefl _ hlt
  refine ⟨hparent, fun i hi => ?_⟩
  obtain ⟨k, hwait⟩ := hparent
  have hforked := h.forked i hi
  rw [hwait] at hforked
  obtain ⟨c, hc⟩ := Option.ne_none_iff_exists'.mp fun hnone => Set.notMem_empty i (hforked hnone)
  by_cases hleft : 0 < c.loc.left n
  · obtain ⟨c', hnext, -⟩ := Child.exists_next hleft i
    have hstep : a.plumbing.next n (.child i) =
        some { a.plumbing with child := Function.update a.plumbing.child i (some c') } := by
      rw [State.next, hc, Option.bind_eq_bind, Option.bind_some, hnext]
      rfl
    obtain ⟨j, he, hexec⟩ := hplumb _ _ hstep
    cases he
    obtain ⟨c'', hc'', hloc⟩ := executing_iff.mp hexec
    rw [hc] at hc''
    cases hc''
    rw [hloc] at hleft
    exact absurd hleft (lt_irrefl 0)
  · cases hloc : c.loc with
    | dupIn =>
      rw [hloc] at hleft
      exact absurd (Nat.succ_pos _) hleft
    | dupOut =>
      rw [hloc] at hleft
      exact absurd (Nat.succ_pos _) hleft
    | closing j =>
      rw [hloc] at hleft
      exact absurd (Nat.succ_pos _) hleft
    | exited => exact Or.inl (hasExited_iff.mpr ⟨c, hc, hloc⟩)
    | executing =>
      have hexec := executing_iff.mpr ⟨c, hc, hloc⟩
      refine Or.inr ⟨hexec, ?_⟩
      cases hrun : a.running i with
      | some r => exact ⟨r, rfl⟩
      | none =>
        have hnone := hstuck (.exec i)
        rw [Active.next, hexec, hrun, Active.exec, exit_eq_some hc hloc] at hnone
        cases hcommand : executeCommand cfg.opens (cfg.arguments i)
            (streams (a.plumbing.fds (.child i))) with
        | none =>
          rw [hcommand] at hnone
          cases hnone
        | some exec =>
          rw [hcommand, if_pos (by rfl)] at hnone
          dsimp only at hnone
          cases hstart : cfg.execvp exec.argv with
          | none =>
            rw [hstart] at hnone
            cases hnone
          | some s =>
            rw [hstart] at hnone
            cases hnone

include hin hout

/-- A program without a step waits for a byte, or for room for one. -/
theorem Connected.waits {i : ℕ} {r : Running σ} (hexec : a.executing i = true)
    (hrun : a.running i = some r) (hstuck : a.next n cfg (.act i) = none) :
    cfg.pipedIn i = true ∧ a.pipe (i - 1) = [] ∧ a.held n (isWriteEnd (i - 1)) = true ∨
      cfg.pipedOut n i = true ∧ a.pipe i ≠ [] ∧ a.held n (isReadEnd i) = true := by
  obtain ⟨c, hc, hloc⟩ := executing_iff.mp hexec
  rw [Active.next, hexec, if_pos rfl, Active.act, hrun] at hstuck
  dsimp only at hstuck
  cases hact : cfg.act r.state with
  | read next =>
    rw [hact] at hstuck
    dsimp only at hstuck
    rw [Active.read, h.inPipe hin hout hrun hexec] at hstuck
    cases hpiped : cfg.pipedIn i with
    | false =>
      rw [hpiped] at hstuck
      cases hstuck
    | true =>
      rw [hpiped, if_pos rfl] at hstuck
      dsimp only at hstuck
      cases hpipe : a.pipe (i - 1) with
      | nil =>
        rw [hpipe] at hstuck
        dsimp only at hstuck
        split_ifs at hstuck with hheld
        exact Or.inl ⟨rfl, rfl, hheld⟩
      | cons b rest =>
        rw [hpipe] at hstuck
        cases hstuck
  | write b s =>
    rw [hact] at hstuck
    dsimp only at hstuck
    rw [Active.write, h.outPipe hin hout hrun hexec] at hstuck
    cases hpiped : cfg.pipedOut n i with
    | false =>
      rw [hpiped] at hstuck
      cases hstuck
    | true =>
      rw [hpiped, if_pos rfl] at hstuck
      dsimp only at hstuck
      split_ifs at hstuck with hheld hlt
      · refine Or.inr ⟨rfl, fun hempty => hlt ?_, hheld⟩
        rw [hempty]
        exact cfg.capacity_pos
      · rw [exit_eq_some hc hloc] at hstuck
        cases hstuck
  | exit =>
    rw [hact] at hstuck
    dsimp only at hstuck
    rw [exit_eq_some hc hloc] at hstuck
    cases hstuck

/-- In a settled pipeline, an end is held by the program that uses it. -/
theorem Connected.holder (hsettled : Settled n a) {isEnd : Handle α → Bool}
    (hpipe : ∀ handle, isEnd handle = true → handle.isPipe = true)
    (hheld : a.held n isEnd = true) : ∃ i, a.executing i = true ∧
      (cfg.pipedIn i = true ∧ isEnd (.readEnd (i - 1)) = true ∨
        cfg.pipedOut n i = true ∧ isEnd (.writeEnd i) = true) := by
  obtain ⟨p, hp, handle, hmem, hend⟩ := Active.held_iff.mp hheld
  obtain rfl | ⟨i, hi, rfl⟩ := mem_procs.mp hp
  · obtain ⟨k, hwait⟩ := hsettled.parent
    obtain ⟨fd, hopen⟩ := (FdTable.mem_reduceOption_slots _).mp hmem
    have hfree := h.plumbing.parent_free hwait hopen
    rw [hpipe handle hend] at hfree
    cases hfree
  · obtain hexited | ⟨hexec, r, hrun⟩ := hsettled.child i hi
    · -- what has exited holds nothing
      obtain ⟨c, hc, hloc⟩ := hasExited_iff.mp hexited
      have hclosed := (h.plumbing.child i c hc).2
      rw [hloc] at hclosed
      have hnone : ∀ fd, (a.plumbing.fds (.child i)).lookup fd = none := by
        intro fd
        rw [fds_child hc]
        exact hclosed fd
      cases hrun : a.running i with
      | none =>
        rw [Active.handles, hrun] at hmem
        obtain ⟨fd, hopen⟩ := (FdTable.mem_reduceOption_slots _).mp hmem
        rw [hnone] at hopen
        cases hopen
      | some r =>
        rw [Active.handles, hrun] at hmem
        obtain ⟨fd, htarget⟩ := Exec.mem_handles.mp hmem
        obtain ⟨stream, -, hstream⟩ := Option.bind_eq_some_iff.mp htarget
        cases stream with
        | file path mode => cases hstream
        | inherited number =>
          dsimp only at hstream
          rw [hnone] at hstream
          cases hstream
    · refine ⟨i, hexec, ?_⟩
      obtain ⟨hpiped, rfl⟩ | ⟨hpiped, rfl⟩ :=
        h.pipe_of_mem hin hout hrun hexec hmem (hpipe handle hend)
      · exact Or.inl ⟨hpiped, hend⟩
      · exact Or.inr ⟨hpiped, hend⟩

theorem Connected.writer (hsettled : Settled n a) {j : ℕ}
    (hheld : a.held n (isWriteEnd j) = true) : a.executing j = true := by
  obtain ⟨i, hexec, ⟨-, hend⟩ | ⟨-, hend⟩⟩ := h.holder hin hout hsettled
    (fun handle hend => by rw [isWriteEnd_iff.mp hend]; rfl) hheld
  · cases hend
  · cases isWriteEnd_iff.mp hend
    exact hexec

theorem Connected.reader (hsettled : Settled n a) {j : ℕ}
    (hheld : a.held n (isReadEnd j) = true) :
    a.executing (j + 1) = true ∧ cfg.pipedIn (j + 1) = true := by
  obtain ⟨i, hexec, ⟨hpiped, hend⟩ | ⟨-, hend⟩⟩ := h.holder hin hout hsettled
    (fun handle hend => by rw [isReadEnd_iff.mp hend]; rfl) hheld
  · have hpos := hpiped
    rw [Setting.pipedIn, Bool.and_eq_true, decide_eq_true_iff] at hpos
    have heq := Handle.readEnd.inj (isReadEnd_iff.mp hend)
    obtain rfl : i = j + 1 := by omega
    exact ⟨hexec, hpiped⟩
  · cases hend

/-- Nobody waits for room: the reader of a full pipe would have to wait for room as well, and the
last command does not write to a pipe. -/
theorem Connected.not_full (hsettled : Settled n a) (hstuck : ∀ e, a.next n cfg e = none) {i : ℕ}
    (hexec : a.executing i = true) :
    ¬ (cfg.pipedOut n i = true ∧ a.pipe i ≠ [] ∧ a.held n (isReadEnd i) = true) := by
  induction hd : n - i generalizing i with
  | zero =>
    have hi := h.lt hexec
    omega
  | succ d ih =>
    rintro ⟨-, hfull, hheld⟩
    obtain ⟨hreads, hpiped⟩ := h.reader hin hout hsettled hheld
    have hi := h.lt hreads
    obtain hexited | ⟨-, r, hrun⟩ := hsettled.child (i + 1) hi
    · rw [hasExited_of_executing hreads] at hexited
      cases hexited
    · obtain ⟨-, hempty, -⟩ | hwaits := h.waits hin hout hreads hrun (hstuck _)
      · exact hfull hempty
      · exact ih hreads (by omega) hwaits

/-- All children have exited: the first that has not would have to wait for one in front of it. -/
theorem Connected.all_exited (hsettled : Settled n a) (hstuck : ∀ e, a.next n cfg e = none) {i : ℕ}
    (hi : i < n) : a.plumbing.hasExited i = true := by
  induction i using Nat.strong_induction_on with
  | _ i ih =>
    obtain hexited | ⟨hexec, r, hrun⟩ := hsettled.child i hi
    · exact hexited
    · exfalso
      obtain ⟨hpiped, -, hheld⟩ | hwaits := h.waits hin hout hexec hrun (hstuck _)
      · rw [Setting.pipedIn, Bool.and_eq_true, decide_eq_true_iff] at hpiped
        have hwrites := h.writer hin hout hsettled hheld
        have hexited := ih (i - 1) (Nat.sub_lt hpiped.1 one_pos) (by omega)
        rw [hasExited_of_executing hwrites] at hexited
        cases hexited
      · exact h.not_full hin hout hsettled hstuck hexec hwaits

theorem Connected.finished (hstuck : ∀ e, a.next n cfg e = none) : a.Finished n := by
  have hsettled := h.settled hstuck
  have hchild : ∀ i < n, a.plumbing.hasExited i = true :=
    fun i hi => h.all_exited hin hout hsettled hstuck hi
  refine ⟨hchild, ?_⟩
  obtain ⟨k, hwait⟩ := hsettled.parent
  have hk := h.waited k hwait
  by_cases hlt : k < n
  · have hnone := hstuck (.plumb .parent)
    rw [Active.next, State.next, State.parentNext, hwait] at hnone
    · dsimp only at hnone
      rw [if_pos ⟨hlt, hchild k hlt⟩] at hnone
      cases hnone
    · exact fun i hi => by cases hi
  · rw [hwait, show k = n by omega]

end Stuck

/-! ### Every run comes to its end -/

/-- The program of child `i` that has read `k` bytes has taken at most `bound i k` steps. -/
structure Terminates (cfg : Setting β σ) (bound : ℕ → ℕ → ℕ) : Prop where
  mono : ∀ i, Monotone (bound i)
  steps : ∀ i s₀ g o s, cfg.boot i = some s₀ → Ran cfg.act s₀ g o s →
    g.length + o.length ≤ bound i g.reduceOption.length

/-- The steps of the programs, each on the output of the one before it. -/
def Setting.steps (cfg : Setting β σ) (bound : ℕ → ℕ → ℕ) : ℕ → ℕ
  | 0 => bound 0 (cfg.input 0).length
  | i + 1 => bound (i + 1) (max (cfg.input (i + 1)).length (cfg.steps bound i))

theorem Streams.length_le {n : ℕ} {cfg : Setting β σ} {a : Active α β σ} (h : Streams n cfg a)
    {bound : ℕ → ℕ → ℕ} (hbound : Terminates cfg bound) (i : ℕ) :
    (a.got i).length + (a.put i).length ≤ cfg.steps bound i := by
  have hran : ∀ i k, (a.feed n cfg i).items.length ≤ k →
      (a.got i).length + (a.put i).length ≤ bound i k := by
    intro i k hk
    cases hrun : a.running i with
    | none =>
      rw [(h.idle i hrun).1, (h.idle i hrun).2]
      exact Nat.zero_le _
    | some r =>
      obtain ⟨s₀, hboot, hran⟩ := h.ran i r hrun
      refine (hbound.steps i s₀ _ _ _ hboot hran).trans (hbound.mono i (le_trans ?_ hk))
      rw [(h.gives i).reduceOption, List.length_take]
      exact min_le_right _ _
  induction i with
  | zero => exact hran 0 _ le_rfl
  | succ i ih =>
    refine hran (i + 1) _ ?_
    rw [Active.feed]
    split_ifs
    · refine le_max_of_le_right ?_
      rw [Nat.add_sub_cancel, items_sent]
      split_ifs
      · exact (Nat.le_add_left _ _).trans ih
      · exact Nat.zero_le _
    · exact le_max_left _ _

/-- The waits of the parent that are still to come. -/
def Pipeline.ParentLoc.waits (n : ℕ) : ParentLoc → ℕ
  | .waiting k => n - k
  | .piping _ | .forking _ | .closing _ => n

/-- The steps that child `i` has still to take, with its fork. -/
def Active.childLeft (n : ℕ) (steps : ℕ → ℕ) (a : Active α β σ) (i : ℕ) : ℕ :=
  match a.plumbing.child i with
  | none => 2 * (n - 1) + 6 + steps i
  | some c =>
    if c.loc = .exited then 0
    else
      c.loc.left n +
        match a.running i with
        | none => 2 + steps i
        | some _ => 1 + (steps i - ((a.got i).length + (a.put i).length))

/-- The steps that are still to come. -/
def Active.left (n : ℕ) (steps : ℕ → ℕ) (a : Active α β σ) : ℕ :=
  a.plumbing.parent.left n + a.plumbing.parent.waits n +
    ∑ i ∈ Finset.range n, a.childLeft n steps i

section Left

variable {n : ℕ} {fds : FdTable α} {cfg : Setting β σ} {a a' : Active α β σ} {steps : ℕ → ℕ}

theorem childLeft_none {i : ℕ} (hc : a.plumbing.child i = none) :
    a.childLeft n steps i = 2 * (n - 1) + 6 + steps i := by
  rw [Active.childLeft, hc]

theorem childLeft_exited {i : ℕ} {c : Child α} (hc : a.plumbing.child i = some c)
    (hloc : c.loc = .exited) : a.childLeft n steps i = 0 := by
  rw [Active.childLeft, hc]
  exact if_pos hloc

theorem childLeft_idle {i : ℕ} {c : Child α} (hc : a.plumbing.child i = some c)
    (hloc : c.loc ≠ .exited) (hrun : a.running i = none) :
    a.childLeft n steps i = c.loc.left n + (2 + steps i) := by
  rw [Active.childLeft, hc]
  dsimp only
  rw [if_neg hloc, hrun]

theorem childLeft_plumb {s' : State α} {i : ℕ} {c : Child α} (hc : s'.child i = some c)
    (hloc : c.loc ≠ .exited) (hrun : a.running i = none) :
    Active.childLeft n steps { a with plumbing := s' } i = c.loc.left n + (2 + steps i) :=
  childLeft_idle hc hloc hrun

theorem childLeft_running (steps : ℕ → ℕ) {i : ℕ} {r : Running σ} (hexec : a.executing i = true)
    (hrun : a.running i = some r) :
    a.childLeft n steps i = 1 + (steps i - ((a.got i).length + (a.put i).length)) := by
  obtain ⟨c, hc, hloc⟩ := executing_iff.mp hexec
  rw [Active.childLeft, hc]
  dsimp only
  rw [if_neg (by rw [hloc]; decide), hrun, hloc]
  exact Nat.zero_add _

/-- One child has fewer steps to come, or the parent has. -/
theorem left_lt_of_child {i : ℕ} (hi : i < n)
    (hparent : a'.plumbing.parent.left n + a'.plumbing.parent.waits n ≤
      a.plumbing.parent.left n + a.plumbing.parent.waits n)
    (hchild : a'.childLeft n steps i < a.childLeft n steps i)
    (hother : ∀ k, k ≠ i → a'.childLeft n steps k = a.childLeft n steps k) :
    a'.left n steps < a.left n steps := by
  refine Nat.add_lt_add_of_le_of_lt hparent (Finset.sum_lt_sum (fun k _ => ?_) ?_)
  · by_cases hki : k = i
    · subst hki
      exact hchild.le
    · exact (hother k hki).le
  · exact ⟨i, Finset.mem_range.mpr hi, hchild⟩

theorem left_lt_of_parent
    (hparent : a'.plumbing.parent.left n + a'.plumbing.parent.waits n <
      a.plumbing.parent.left n + a.plumbing.parent.waits n)
    (hchild : ∀ i, a'.childLeft n steps i = a.childLeft n steps i) :
    a'.left n steps < a.left n steps := by
  rw [Active.left, Active.left, Finset.sum_congr rfl fun i _ => hchild i]
  exact Nat.add_lt_add_right hparent _

variable (h : Connected n fds cfg a) (hstreams : Streams n cfg a)

/-- A child in front of its exit. -/
theorem childLeft_pos {i : ℕ} (hexec : a.executing i = true) :
    0 < a.childLeft n steps i := by
  obtain ⟨c, hc, hloc⟩ := executing_iff.mp hexec
  cases hrun : a.running i with
  | none =>
    rw [childLeft_idle hc (by rw [hloc]; decide) hrun]
    omega
  | some r =>
    rw [childLeft_running steps hexec hrun]
    omega

include h

theorem Connected.exits_left_lt {i : ℕ} {c : Child α} (hexec : a.executing i = true) :
    (a.exits i c).left n steps < a.left n steps := by
  refine left_lt_of_child (h.lt hexec) le_rfl ?_ fun k hki => ?_
  · rw [childLeft_exited (Function.update_self _ _ _) rfl]
    exact childLeft_pos hexec
  · rw [Active.childLeft, Active.childLeft]
    dsimp only [Active.exits]
    rw [Function.update_of_ne hki]

/-- A program has taken a step, and it takes no more than `steps`. -/
theorem Connected.withState_left_lt {i : ℕ} {r : Running σ} {s : σ} {pipe : ℕ → List β}
    {got : ℕ → List (Option β)} {put : ℕ → List β} (hexec : a.executing i = true)
    (hrun : a.running i = some r) (hgot : ∀ k, k ≠ i → got k = a.got k)
    (hput : ∀ k, k ≠ i → put k = a.put k)
    (hlength : (a.got i).length + (a.put i).length < (got i).length + (put i).length)
    (hsteps : (got i).length + (put i).length ≤ steps i) :
    Active.left n steps { a.withState i s with pipe := pipe, got := got, put := put } <
      a.left n steps := by
  have hself : (a.withState i s).running i = some { r with state := s } := by
    rw [Active.withState]
    dsimp only
    rw [Function.update_self, hrun]
    rfl
  refine left_lt_of_child (h.lt hexec) le_rfl ?_ fun k hki => ?_
  · have hnew : Active.childLeft n steps
        { a.withState i s with pipe := pipe, got := got, put := put } i = _ :=
      childLeft_running steps hexec hself
    rw [childLeft_running steps hexec hrun, hnew]
    dsimp only
    omega
  · rw [Active.childLeft, Active.childLeft]
    dsimp only
    rw [hgot k hki, hput k hki, show (a.withState i s).running k = a.running k from
      Function.update_of_ne hki _ _]
    rfl

theorem Connected.programStep_left_lt {i : ℕ}
    (hexec : a.executing i = true) (hstep : ProgramStep n cfg a i a')
    (hsteps : (a'.got i).length + (a'.put i).length ≤ steps i) :
    a'.left n steps < a.left n steps := by
  have hread : ∀ x s, (a.hasRead i x s).got i = a.got i ++ [x] :=
    fun x s => Function.update_self _ _ _
  have hwritten : ∀ b s, (a.hasWritten i b s).put i = a.put i ++ [b] :=
    fun b s => Function.update_self _ _ _
  have hafterRead : ∀ {r : Running σ} (x : Option β) (s : σ) (pipe : ℕ → List β),
      a.running i = some r → ((a.hasRead i x s).got i).length + (a.put i).length ≤ steps i →
        Active.left n steps { a.hasRead i x s with pipe := pipe } < a.left n steps := by
    intro r x s pipe hrun hsteps
    refine h.withState_left_lt hexec hrun (fun k hki => Function.update_of_ne hki _ _)
      (fun _ _ => rfl) ?_ hsteps
    rw [hread, List.length_append, List.length_singleton]
    exact Nat.add_lt_add_right (Nat.lt_succ_self _) _
  have hafterWrite : ∀ {r : Running σ} (b : β) (s : σ) (pipe : ℕ → List β),
      a.running i = some r → (a.got i).length + ((a.hasWritten i b s).put i).length ≤ steps i →
        Active.left n steps { a.hasWritten i b s with pipe := pipe } < a.left n steps := by
    intro r b s pipe hrun hsteps
    refine h.withState_left_lt hexec hrun (fun _ _ => rfl)
      (fun k hki => Function.update_of_ne hki _ _) ?_ hsteps
    rw [hwritten, List.length_append, List.length_singleton]
    exact Nat.add_lt_add_left (Nat.lt_succ_self _) _
  cases hstep with
  | failed c hc hrun hboot => exact h.exits_left_lt hexec
  | boot exec s hrun hboot hcommand =>
    obtain ⟨c, hc, hloc⟩ := executing_iff.mp hexec
    refine left_lt_of_child (h.lt hexec) le_rfl ?_ fun k hki => ?_
    · have hnew : Active.childLeft n steps
          { a with running := Function.update a.running i (some ⟨exec, s⟩) } i = _ :=
        childLeft_running steps hexec (Function.update_self _ _ _)
      rw [hnew, childLeft_idle hc (by rw [hloc]; decide) hrun]
      dsimp only
      omega
    · rw [Active.childLeft, Active.childLeft]
      dsimp only
      rw [Function.update_of_ne hki]
  | file r next hrun hact hpiped => exact hafterRead _ _ _ hrun hsteps
  | item r next b rest hrun hact hpiped hpipe => exact hafterRead _ _ _ hrun hsteps
  | eof r next hrun hact hpiped hpipe hheld => exact hafterRead _ _ _ hrun hsteps
  | output r b s hrun hact hpiped => exact hafterWrite _ _ _ hrun hsteps
  | send r b s hrun hact hpiped => exact hafterWrite _ _ _ hrun hsteps
  | killed r b s c hc hrun hact hpiped hheld => exact h.exits_left_lt hexec
  | exit r c hc hrun hact => exact h.exits_left_lt hexec

/-- A step of the plumbing. -/
theorem Connected.plumb_left_lt {e : Event} {s' : State α} (hnext : a.plumbing.next n e = some s')
    (hsetup : ∀ i c, e = .child i → a.plumbing.child i = some c → c.loc ≠ .executing) :
    Active.left n steps { a with plumbing := s' } < a.left n steps := by
  have hparent : s'.child = a.plumbing.child →
      s'.parent.left n + s'.parent.waits n <
        a.plumbing.parent.left n + a.plumbing.parent.waits n →
      Active.left n steps { a with plumbing := s' } < a.left n steps := by
    intro hchild hlt
    refine left_lt_of_parent hlt fun i => ?_
    rw [Active.childLeft, Active.childLeft]
    dsimp only
    rw [hchild]
  cases e with
  | pipe r w =>
    obtain ⟨j, hloc, hj, -, rfl⟩ := next_pipe_eq_some hnext
    refine hparent rfl ?_
    rw [hloc]
    show n - 1 - (j + 1) + 1 + (n + 1) + (2 * (n - 1) + 1) + n <
      n - 1 - j + 1 + (n + 1) + (2 * (n - 1) + 1) + n
    omega
  | parent =>
    have hnext : a.plumbing.parentNext n = some s' := hnext
    cases parentStep_of_next hnext with
    | piped j hloc hj =>
      refine hparent rfl ?_
      rw [hloc]
      show n - 0 + 1 + (2 * (n - 1) + 1) + n <
        n - 1 - j + 1 + (n + 1) + (2 * (n - 1) + 1) + n
      omega
    | fork j hloc hj =>
      have hnone := h.plumbing.unforked j
      rw [hloc] at hnone
      have hnone := hnone (Set.mem_Ici.mpr le_rfl)
      refine left_lt_of_child hj ?_ ?_ fun k hki => ?_
      · rw [hloc]
        show n - (j + 1) + 1 + (2 * (n - 1) + 1) + n ≤ n - j + 1 + (2 * (n - 1) + 1) + n
        omega
      · have hrun : a.running j = none := by
          by_contra hrun
          obtain ⟨r, hrun⟩ := Option.ne_none_iff_exists'.mp hrun
          obtain ⟨c, hc, -⟩ := h.running j r hrun
          rw [hnone] at hc
          cases hc
        have hforked : Function.update a.plumbing.child j (some ⟨.dupIn, a.plumbing.image⟩) j =
            some ⟨.dupIn, a.plumbing.image⟩ := Function.update_self _ _ _
        rw [childLeft_none hnone, childLeft_plumb hforked (by simp) hrun]
        show 2 * (n - 1) + 3 + (2 + steps j) < _
        omega
      · rw [Active.childLeft, Active.childLeft]
        dsimp only
        rw [Function.update_of_ne hki]
    | forked j hloc hj =>
      refine hparent rfl ?_
      rw [hloc]
      show 2 * (n - 1) - 0 + 1 + n < n - j + 1 + (2 * (n - 1) + 1) + n
      omega
    | close j hloc hj =>
      refine hparent rfl ?_
      rw [hloc]
      show 2 * (n - 1) - (j + 1) + 1 + n < 2 * (n - 1) - j + 1 + n
      omega
    | closed j hloc hj =>
      refine hparent rfl ?_
      rw [hloc]
      show 0 + (n - 0) < 2 * (n - 1) - j + 1 + n
      omega
    | wait j hloc =>
      have hj : j < n := by
        have hlt := waited_next h.waited (e := .parent) hnext (j + 1) rfl
        omega
      refine hparent rfl ?_
      rw [hloc]
      show 0 + (n - (j + 1)) < 0 + (n - j)
      omega
  | child i =>
    obtain ⟨c, c', hc, hc', rfl⟩ := next_child_eq_some hnext
    have hloc := hsetup i c rfl hc
    obtain ⟨hold, hnew⟩ := Child.next_loc hc' hloc
    have hrun : a.running i = none := by
      by_contra hrun
      obtain ⟨r, hrun⟩ := Option.ne_none_iff_exists'.mp hrun
      obtain ⟨d, hd, hcases⟩ := h.running i r hrun
      rw [hc] at hd
      cases hd
      exact hcases.elim (fun hexec => hloc hexec.1) hold
    have hleft : c'.loc.left n < c.loc.left n := by
      have hpos : 0 < c.loc.left n := by
        cases hc'' : c.loc with
        | dupIn => exact Nat.succ_pos _
        | dupOut => exact Nat.succ_pos _
        | closing j => exact Nat.succ_pos _
        | executing => exact absurd hc'' hloc
        | exited => exact absurd hc'' hold
      obtain ⟨d, hd, hlt⟩ := Child.exists_next hpos i
      rw [hc'] at hd
      cases hd
      exact hlt
    refine left_lt_of_child (h.plumbing.child i c hc).1 le_rfl ?_ fun k hki => ?_
    · have hself : Function.update a.plumbing.child i (some c') i = some c' :=
        Function.update_self _ _ _
      rw [childLeft_idle hc hold hrun, childLeft_plumb hself hnew hrun]
      exact Nat.add_lt_add_right hleft _
    · rw [Active.childLeft, Active.childLeft]
      dsimp only
      rw [Function.update_of_ne hki]

end Left

section Ending

variable {n : ℕ} {cfg : Setting β σ} {fds : FdTable α} {a : Active α β σ}
  (hin : fds.lookup 0 ≠ none) (hout : fds.lookup 1 ≠ none) {pipefd : ℕ → ℕ}
  (h : (runPipeline n cfg fds pipefd).Reachable a)

include hin hout h

/-- A state without a step is one in which all children have exited and the parent has waited for
them. -/
theorem finished_of_ends (hends : (runPipeline n cfg fds pipefd).Ends a) : a.Finished n := by
  refine (invariants_of_reachable hin hout h).1.finished hin hout fun e => ?_
  cases hnext : a.next n cfg e with
  | none => rfl
  | some a' => exact absurd hnext (hends e a')

/-- If the programs come to an end on every input, then each step brings the end nearer. -/
theorem left_lt_of_step {bound : ℕ → ℕ → ℕ} (hbound : Terminates cfg bound) {e : ActiveEvent}
    {a' : Active α β σ} (hstep : (runPipeline n cfg fds pipefd).step a e a') :
    a'.left n (cfg.steps bound) < a.left n (cfg.steps bound) := by
  obtain ⟨hconn, hstreams⟩ := invariants_of_reachable hin hout h
  have hsteps := (hstreams.next hconn hin hout hstep).length_le hbound
  obtain ⟨s', e', hnext, hsetup, rfl⟩ | ⟨i, hexec, hprogram⟩ := next_cases hconn hin hout hstep
  · exact hconn.plumb_left_lt hnext hsetup
  · exact hconn.programStep_left_lt hexec hprogram (hsteps i)

end Ending

end OsLabs.Shell
