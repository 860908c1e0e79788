import Mathlib.Algebra.Order.BigOperators.Group.Finset
import OsLabs.Lib.Transition

/-!
# Threads with mutexes and condition variables

A program gives each thread a start location and, at each location, the atomic statements
that the thread may execute there on the shared data; no statement means that the thread has
finished.  Threads interleave freely.  A mutex has at most one owner; a wait on a condition
variable releases its mutex and sleeps until a signal or a broadcast of that variable, and
then has to own the mutex again before it goes on.  A signal wakes one sleeping thread, any
of them, and does nothing when there is none.  A program says whether a wait may also end
without a signal.

The rules below derive facts about every interleaving from facts about single statements:
assertions about one thread's location, balances between the data and all locations, mutual
exclusion, and the data invariant of a mutex.
-/

namespace OsLabs.Lib.Monitor

open Function

/-- A statement, with the location at which its thread goes on. -/
inductive Action (Lock Cond Data Loc : Type*)
  | lock (m : Lock) (next : Loc)
  | unlock (m : Lock) (next : Loc)
  | wait (c : Cond) (m : Lock) (next : Loc)
  | signal (c : Cond) (next : Loc)
  | broadcast (c : Cond) (next : Loc)
  | exec (data : Data) (next : Loc)

/-- What a thread is doing.  A waiting or woken thread resumes at its location when it owns
the mutex again. -/
inductive Status (Lock Cond Loc : Type*)
  | running (l : Loc)
  | waiting (c : Cond) (m : Lock) (l : Loc)
  | woken (m : Lock) (l : Loc)

structure Program (Thread Lock Cond Data : Type*) (Loc : Thread → Type*) where
  start : ∀ t, Loc t
  data : Data
  code : ∀ t, Loc t → Data → List (Action Lock Cond Data (Loc t))
  spurious : Bool

structure State (Thread Lock Cond Data : Type*) (Loc : Thread → Type*) where
  data : Data
  owner : Lock → Option Thread
  status : ∀ t, Status Lock Cond (Loc t)

section Semantics

variable {Thread Lock Cond Data : Type*} {Loc : Thread → Type*}

namespace Action

variable {L : Type*}

def next : Action Lock Cond Data L → L
  | lock _ l | unlock _ l | wait _ _ l | signal _ l | broadcast _ l | exec _ l => l

def effect (d : Data) : Action Lock Cond Data L → Data
  | exec d' _ => d'
  | _ => d

/-- The status of the thread after the action. -/
def status : Action Lock Cond Data L → Status Lock Cond L
  | wait c m l => .waiting c m l
  | a => .running a.next

/-- The owners of the mutexes after the action of thread `t`. -/
def owner {Thread : Type*} [DecidableEq Lock] (t : Thread) (o : Lock → Option Thread) :
    Action Lock Cond Data L → Lock → Option Thread
  | lock m _ => update o m (some t)
  | unlock m _ | wait _ m _ => update o m none
  | _ => o

/-- The action locks, unlocks or waits with `m`. -/
def Uses (m : Lock) : Action Lock Cond Data L → Prop
  | lock m' _ | unlock m' _ | wait _ m' _ => m' = m
  | _ => False

/-- The conditions that the action signals or broadcasts. -/
def Wakes (c : Cond) : Action Lock Cond Data L → Prop
  | signal c' _ | broadcast c' _ => c' = c
  | _ => False

end Action

namespace Status

variable {L : Type*}

def loc : Status Lock Cond L → L
  | running l | waiting _ _ l | woken _ l => l

def IsWaiting : Status Lock Cond L → Prop
  | waiting _ _ _ => True
  | _ => False

def WaitsOn (c : Cond) : Status Lock Cond L → Prop
  | waiting c' _ _ => c' = c
  | _ => False

instance decidableWaitsOn [DecidableEq Cond] (c : Cond) :
    ∀ st : Status Lock Cond L, Decidable (st.WaitsOn c)
  | waiting c' _ _ => inferInstanceAs (Decidable (c' = c))
  | running _ | woken _ _ => inferInstanceAs (Decidable False)

/-- The thread owns `m`, when `holds` are the locations at which it does; a waiting or woken
thread has released its mutex. -/
def Holds (m : Lock) (holds : L → Prop) : Status Lock Cond L → Prop
  | running l => holds l
  | waiting _ m' l | woken m' l => m' ≠ m ∧ holds l

/-- The status after a wakeup. -/
def wake : Status Lock Cond L → Status Lock Cond L
  | waiting _ m l => woken m l
  | st => st

theorem not_waitsOn_wake (c : Cond) (st : Status Lock Cond L) : ¬ st.wake.WaitsOn c := by
  cases st <;> exact id

theorem WaitsOn.isWaiting {c : Cond} {st : Status Lock Cond L} (h : st.WaitsOn c) :
    st.IsWaiting := by
  cases st with
  | waiting c' m l => trivial
  | running l => exact h
  | woken m l => exact h

theorem WaitsOn.unique {c c' : Cond} {st : Status Lock Cond L} (h : st.WaitsOn c)
    (h' : st.WaitsOn c') : c = c' := by
  cases st with
  | waiting c₀ m l => exact h.symm.trans h'
  | running l => exact h.elim
  | woken m l => exact h.elim

theorem not_isWaiting_wake (st : Status Lock Cond L) : ¬ st.wake.IsWaiting := by
  cases st <;> exact id

theorem loc_wake (st : Status Lock Cond L) : st.wake.loc = st.loc := by
  cases st <;> rfl

theorem holds_wake (m : Lock) (holds : L → Prop) (st : Status Lock Cond L) :
    st.wake.Holds m holds ↔ st.Holds m holds := by
  cases st <;> exact Iff.rfl

theorem loc_actionStatus (a : Action Lock Cond Data L) : a.status.loc = a.next := by
  cases a <;> rfl

end Status

variable [DecidableEq Thread] [DecidableEq Lock] [DecidableEq Cond]

/-- Every thread that waits on `c` is woken. -/
def wakeAll (c : Cond) (st : ∀ t, Status Lock Cond (Loc t)) (t : Thread) :
    Status Lock Cond (Loc t) :=
  if (st t).WaitsOn c then (st t).wake else st t

/-- One step of thread `t`. -/
inductive Step (P : Program Thread Lock Cond Data Loc) :
    State Thread Lock Cond Data Loc → Thread → State Thread Lock Cond Data Loc → Prop
  | lock {s : State Thread Lock Cond Data Loc} {t : Thread} {l k : Loc t} {m : Lock} :
      s.status t = .running l → .lock m k ∈ P.code t l s.data → s.owner m = none →
      Step P s t { s with
        owner := update s.owner m (some t), status := update s.status t (.running k) }
  | unlock {s : State Thread Lock Cond Data Loc} {t : Thread} {l k : Loc t} {m : Lock} :
      s.status t = .running l → .unlock m k ∈ P.code t l s.data →
      Step P s t { s with
        owner := update s.owner m none, status := update s.status t (.running k) }
  | wait {s : State Thread Lock Cond Data Loc} {t : Thread} {l k : Loc t} {c : Cond} {m : Lock} :
      s.status t = .running l → .wait c m k ∈ P.code t l s.data →
      Step P s t { s with
        owner := update s.owner m none, status := update s.status t (.waiting c m k) }
  | signal {s : State Thread Lock Cond Data Loc} {t u : Thread} {l k : Loc t} {c : Cond} :
      s.status t = .running l → .signal c k ∈ P.code t l s.data → (s.status u).WaitsOn c →
      Step P s t { s with
        status := update (update s.status u (s.status u).wake) t (.running k) }
  | signalLost {s : State Thread Lock Cond Data Loc} {t : Thread} {l k : Loc t} {c : Cond} :
      s.status t = .running l → .signal c k ∈ P.code t l s.data →
      (∀ u, ¬ (s.status u).WaitsOn c) →
      Step P s t { s with status := update s.status t (.running k) }
  | broadcast {s : State Thread Lock Cond Data Loc} {t : Thread} {l k : Loc t} {c : Cond} :
      s.status t = .running l → .broadcast c k ∈ P.code t l s.data →
      Step P s t { s with status := update (wakeAll c s.status) t (.running k) }
  | exec {s : State Thread Lock Cond Data Loc} {t : Thread} {l k : Loc t} {d : Data} :
      s.status t = .running l → .exec d k ∈ P.code t l s.data →
      Step P s t { s with data := d, status := update s.status t (.running k) }
  | resume {s : State Thread Lock Cond Data Loc} {t : Thread} {m : Lock} {k : Loc t} :
      s.status t = .woken m k → s.owner m = none →
      Step P s t { s with
        owner := update s.owner m (some t), status := update s.status t (.running k) }
  | spurious {s : State Thread Lock Cond Data Loc} {t : Thread} {c : Cond} {m : Lock}
      {k : Loc t} :
      P.spurious = true → s.status t = .waiting c m k →
      Step P s t { s with status := update s.status t (.woken m k) }

/-- The interleavings of a program. -/
def Program.machine (P : Program Thread Lock Cond Data Loc) :
    Machine (State Thread Lock Cond Data Loc) Thread where
  init := ⟨P.data, fun _ => none, fun t => .running (P.start t)⟩
  step := Step P

/-- The state after the action of a running thread `t`, where `u` is the thread that a signal
wakes, if it wakes one.  `none` when `t` cannot take the action in this way. -/
def State.act [Fintype Thread] (s : State Thread Lock Cond Data Loc) (t : Thread)
    (u : Option Thread) : Action Lock Cond Data (Loc t) → Option (State Thread Lock Cond Data Loc)
  | .lock m k =>
    if s.owner m = none then some { s with
      owner := update s.owner m (some t), status := update s.status t (.running k) }
    else none
  | .unlock m k => some { s with
      owner := update s.owner m none, status := update s.status t (.running k) }
  | .wait c m k => some { s with
      owner := update s.owner m none, status := update s.status t (.waiting c m k) }
  | .signal c k =>
    match u with
    | some u =>
      if (s.status u).WaitsOn c then some { s with
        status := update (update s.status u (s.status u).wake) t (.running k) }
      else none
    | none =>
      if ∀ u, ¬ (s.status u).WaitsOn c then some { s with
        status := update s.status t (.running k) }
      else none
  | .broadcast c k => some { s with status := update (wakeAll c s.status) t (.running k) }
  | .exec d k => some { s with data := d, status := update s.status t (.running k) }

/-- A step of thread `t`, with its `i`-th statement if it is running. -/
def Program.next [Fintype Thread] (P : Program Thread Lock Cond Data Loc)
    (s : State Thread Lock Cond Data Loc) (choice : Thread × ℕ × Option Thread) :
    Option (State Thread Lock Cond Data Loc) :=
  match s.status choice.1 with
  | .running l => (P.code choice.1 l s.data)[choice.2.1]?.bind (s.act choice.1 choice.2.2)
  | .woken m k =>
    if s.owner m = none then some { s with
      owner := update s.owner m (some choice.1)
      status := update s.status choice.1 (.running k) }
    else none
  | .waiting _ m k =>
    if P.spurious then some { s with status := update s.status choice.1 (.woken m k) } else none

theorem step_of_act [Fintype Thread] {P : Program Thread Lock Cond Data Loc}
    {s s' : State Thread Lock Cond Data Loc} {t : Thread} {u : Option Thread} {l : Loc t}
    {a : Action Lock Cond Data (Loc t)} (hrun : s.status t = .running l)
    (ha : a ∈ P.code t l s.data) (h : s.act t u a = some s') : Step P s t s' := by
  cases a with
  | lock m k =>
    rw [State.act] at h
    split at h
    · rename_i hfree
      obtain rfl := Option.some.inj h
      exact .lock hrun ha hfree
    · cases h
  | unlock m k =>
    obtain rfl := Option.some.inj h
    exact .unlock hrun ha
  | wait c m k =>
    obtain rfl := Option.some.inj h
    exact .wait hrun ha
  | signal c k =>
    cases u with
    | some u =>
      rw [State.act] at h
      split at h
      · rename_i hwaits
        obtain rfl := Option.some.inj h
        exact .signal hrun ha hwaits
      · cases h
    | none =>
      rw [State.act] at h
      split at h
      · rename_i hnone
        obtain rfl := Option.some.inj h
        exact .signalLost hrun ha hnone
      · cases h
  | broadcast c k =>
    obtain rfl := Option.some.inj h
    exact .broadcast hrun ha
  | exec d k =>
    obtain rfl := Option.some.inj h
    exact .exec hrun ha

/-- The executable steps are steps. -/
theorem step_of_next [Fintype Thread] {P : Program Thread Lock Cond Data Loc}
    {s s' : State Thread Lock Cond Data Loc} {choice : Thread × ℕ × Option Thread}
    (h : P.next s choice = some s') : Step P s choice.1 s' := by
  rw [Program.next] at h
  split at h
  · rename_i l hrun
    obtain ⟨a, ha, hact⟩ := Option.bind_eq_some_iff.mp h
    exact step_of_act hrun (List.mem_of_getElem? ha) hact
  · rename_i m k hwoken
    split at h
    · rename_i hfree
      obtain rfl := Option.some.inj h
      exact .resume hwoken hfree
    · cases h
  · rename_i c m k hwait
    split at h
    · rename_i hspurious
      obtain rfl := Option.some.inj h
      exact .spurious hspurious hwait
    · cases h

theorem reachable_of_choices [Fintype Thread] {P : Program Thread Lock Cond Data Loc}
    {s : State Thread Lock Cond Data Loc} {choices : List (Thread × ℕ × Option Thread)}
    (h : choices.foldlM P.next P.machine.init = some s) : P.machine.Reachable s :=
  Machine.reachable_init.foldlM (fun _ _ _ hnext => ⟨_, step_of_next hnext⟩) h

/-- The run of a list of choices from the initial state. -/
theorem run_of_choices [Fintype Thread] {P : Program Thread Lock Cond Data Loc}
    {s : State Thread Lock Cond Data Loc} {choices : List (Thread × ℕ × Option Thread)}
    (h : choices.foldlM P.next P.machine.init = some s) :
    P.machine.Run (Machine.steps P.next Prod.fst P.machine.init choices) s :=
  Machine.Run.start.steps (fun _ _ _ hnext => step_of_next hnext) h

/-- The run of a list of choices that stays among the states with `Q`. -/
theorem run_within_of_choices [Fintype Thread] {P : Program Thread Lock Cond Data Loc}
    {Q : State Thread Lock Cond Data Loc → Prop} [DecidablePred Q]
    {s : State Thread Lock Cond Data Loc} {choices : List (Thread × ℕ × Option Thread)}
    (h : choices.foldlM (fun s c => (P.next s c).filter fun s => Q s) P.machine.init = some s) :
    (P.machine.within Q).Run (Machine.steps (fun s c => (P.next s c).filter fun s => Q s) Prod.fst
      P.machine.init choices) s := by
  refine Machine.Run.start.steps (m := P.machine.within Q) (fun s c s' hnext => ?_) h
  obtain ⟨hstep, hQ⟩ := Option.filter_eq_some_iff.mp hnext
  exact ⟨step_of_next hstep, of_decide_eq_true hQ⟩

/-! ### What a step does -/

/-- The effect of action `a` of thread `t`. -/
structure Acts (s : State Thread Lock Cond Data Loc) (t : Thread)
    (a : Action Lock Cond Data (Loc t)) (s' : State Thread Lock Cond Data Loc) : Prop where
  free : ∀ m k, a = .lock m k → s.owner m = none
  data : s'.data = a.effect s.data
  owner : s'.owner = a.owner t s.owner
  self : s'.status t = a.status
  other : ∀ u, u ≠ t → s'.status u = s.status u ∨
    ∃ c, a.Wakes c ∧ (s.status u).WaitsOn c ∧ s'.status u = (s.status u).wake
  signal : ∀ c k, a = .signal c k →
    (∃ u, u ≠ t ∧ (s.status u).WaitsOn c ∧ s'.status u = (s.status u).wake) ∨
      ∀ u, ¬ (s'.status u).WaitsOn c
  broadcast : ∀ c k, a = .broadcast c k → ∀ u, ¬ (s'.status u).WaitsOn c

/-- Thread `t` owns its mutex again and goes on. -/
def Resumes (s : State Thread Lock Cond Data Loc) (t : Thread)
    (s' : State Thread Lock Cond Data Loc) : Prop :=
  ∃ m k, s.status t = .woken m k ∧ s.owner m = none ∧ s' = { s with
    owner := update s.owner m (some t), status := update s.status t (.running k) }

/-- The wait of thread `t` ends without a signal. -/
def Awakes (s : State Thread Lock Cond Data Loc) (t : Thread)
    (s' : State Thread Lock Cond Data Loc) : Prop :=
  ∃ c m k, s.status t = .waiting c m k ∧
    s' = { s with status := update s.status t (.woken m k) }

variable {P : Program Thread Lock Cond Data Loc} {s s' : State Thread Lock Cond Data Loc}
  {t : Thread}

omit [DecidableEq Cond] in
/-- An action that wakes nobody changes the status of its own thread only. -/
theorem acts_of_update {a : Action Lock Cond Data (Loc t)}
    (hfree : ∀ m k, a = .lock m k → s.owner m = none)
    (hsignal : ∀ c k, a = .signal c k → ∀ u, ¬ (s.status u).WaitsOn c)
    (hbroadcast : ∀ c k, a ≠ .broadcast c k) :
    Acts s t a ⟨a.effect s.data, a.owner t s.owner, update s.status t a.status⟩ where
  free := hfree
  data := rfl
  owner := rfl
  self := update_self t a.status s.status
  other u hu := Or.inl (update_of_ne hu a.status s.status)
  signal c k ha := by
    refine Or.inr fun u => ?_
    show ¬ (update s.status t a.status u).WaitsOn c
    by_cases hu : u = t
    · subst hu
      rw [update_self, ha]
      exact id
    · rw [update_of_ne hu]
      exact hsignal c k ha u
  broadcast c k ha := absurd ha (hbroadcast c k)

/-- **Step inversion.**  A step is an action of the running thread, a resumption or the end of
a wait without a signal. -/
theorem Step.acts_or_resumes (h : Step P s t s') :
    (∃ l a, s.status t = .running l ∧ a ∈ P.code t l s.data ∧ Acts s t a s') ∨
      Resumes s t s' ∨ Awakes s t s' := by
  cases h with
  | @lock l k m hrun ha hfree =>
    refine Or.inl ⟨l, .lock m k, hrun, ha, acts_of_update ?_ nofun nofun⟩
    intro m' k' heq
    obtain ⟨rfl, -⟩ := Action.lock.inj heq
    exact hfree
  | @unlock l k m hrun ha =>
    exact Or.inl ⟨l, .unlock m k, hrun, ha, acts_of_update nofun nofun nofun⟩
  | @wait l k c m hrun ha =>
    exact Or.inl ⟨l, .wait c m k, hrun, ha, acts_of_update nofun nofun nofun⟩
  | @signal u l k c hrun ha hu =>
    have hne : u ≠ t := by
      intro heq
      subst heq
      rw [hrun] at hu
      exact hu
    refine Or.inl ⟨l, .signal c k, hrun, ha, ⟨nofun, rfl, rfl, update_self .., ?_, ?_, nofun⟩⟩
    · intro v hv
      by_cases hvu : v = u
      · subst hvu
        refine Or.inr ⟨c, rfl, hu, ?_⟩
        show update (update s.status v _) t _ v = _
        rw [update_of_ne hv, update_self]
      · apply Or.inl
        show update (update s.status u _) t _ v = _
        rw [update_of_ne hv, update_of_ne hvu]
    · intro c' k' heq
      obtain ⟨rfl, -⟩ := Action.signal.inj heq
      refine Or.inl ⟨u, hne, hu, ?_⟩
      show update (update s.status u _) t _ u = _
      rw [update_of_ne hne, update_self]
  | @signalLost l k c hrun ha hnone =>
    refine Or.inl ⟨l, .signal c k, hrun, ha, acts_of_update nofun ?_ nofun⟩
    intro c' k' heq
    obtain ⟨rfl, -⟩ := Action.signal.inj heq
    exact hnone
  | @broadcast l k c hrun ha =>
    refine Or.inl ⟨l, .broadcast c k, hrun, ha,
      ⟨nofun, rfl, rfl, ?_, ?_, nofun, ?_⟩⟩
    · exact update_self t _ (wakeAll c s.status)
    · intro v hv
      show update (wakeAll c s.status) t _ v = _ ∨
        ∃ c', _ ∧ _ ∧ update (wakeAll c s.status) t _ v = _
      rw [update_of_ne hv]
      by_cases hw : (s.status v).WaitsOn c
      · exact Or.inr ⟨c, rfl, hw, if_pos hw⟩
      · exact Or.inl (if_neg hw)
    · intro c' k' heq v
      obtain ⟨rfl, -⟩ := Action.broadcast.inj heq
      show ¬ (update (wakeAll c s.status) t _ v).WaitsOn c
      by_cases hv : v = t
      · subst hv
        rw [update_self]
        exact id
      · rw [update_of_ne hv, wakeAll]
        split
        · exact Status.not_waitsOn_wake c _
        · assumption
  | @exec l k d hrun ha =>
    exact Or.inl ⟨l, .exec d k, hrun, ha, acts_of_update nofun nofun nofun⟩
  | @resume m k hwoken hfree => exact Or.inr (Or.inl ⟨m, k, hwoken, hfree, rfl⟩)
  | @spurious c m k _ hwait => exact Or.inr (Or.inr ⟨c, m, k, hwait, rfl⟩)

/-- The locations at which the threads are or will resume. -/
def State.loc (s : State Thread Lock Cond Data Loc) (t : Thread) : Loc t := (s.status t).loc

omit [DecidableEq Cond] in
theorem Acts.loc {a : Action Lock Cond Data (Loc t)} (h : Acts s t a s') :
    s'.loc = update s.loc t a.next := by
  funext u
  by_cases hu : u = t
  · subst hu
    rw [update_self, State.loc, h.self, Status.loc_actionStatus]
  · rw [update_of_ne hu, State.loc]
    rcases h.other u hu with hsame | ⟨c, -, -, hwake⟩
    · rw [hsame]
      rfl
    · rw [hwake, Status.loc_wake]
      rfl

omit [DecidableEq Thread] [DecidableEq Cond] in
/-- Another thread that waits after an action has not moved. -/
theorem Acts.status_of_isWaiting {a : Action Lock Cond Data (Loc t)} (h : Acts s t a s')
    {u : Thread} (hu : u ≠ t) (hw : (s'.status u).IsWaiting) : s'.status u = s.status u := by
  rcases h.other u hu with hsame | ⟨c, -, -, hwake⟩
  · exact hsame
  · rw [hwake] at hw
    exact absurd hw (Status.not_isWaiting_wake _)

/-- No statement is executed, and no thread starts to wait. -/
structure Quiet (s s' : State Thread Lock Cond Data Loc) : Prop where
  data : s'.data = s.data
  loc : s'.loc = s.loc
  waits : ∀ u, (s'.status u).IsWaiting → s'.status u = s.status u

omit [DecidableEq Lock] [DecidableEq Cond] in
/-- The status of one thread changes to another with its location. -/
theorem quiet_of_update {o : Lock → Option Thread} {st : Status Lock Cond (Loc t)}
    (hloc : st.loc = s.loc t) (hmove : ¬ st.IsWaiting) :
    Quiet s ⟨s.data, o, update s.status t st⟩ where
  data := rfl
  loc := by
    funext u
    show (update s.status t st u).loc = (s.status u).loc
    by_cases hu : u = t
    · subst hu
      rw [update_self]
      exact hloc
    · rw [update_of_ne hu]
  waits u hw := by
    change (update s.status t st u).IsWaiting at hw
    by_cases hu : u = t
    · subst hu
      rw [update_self] at hw
      exact absurd hw hmove
    · exact update_of_ne hu _ _

omit [DecidableEq Cond] in
theorem Resumes.quiet (h : Resumes s t s') : Quiet s s' := by
  obtain ⟨m, k, hwoken, -, rfl⟩ := h
  exact quiet_of_update (by rw [State.loc, hwoken]; rfl) id

omit [DecidableEq Lock] [DecidableEq Cond] in
theorem Awakes.quiet (h : Awakes s t s') : Quiet s s' := by
  obtain ⟨c, m, k, hwait, rfl⟩ := h
  exact quiet_of_update (by rw [State.loc, hwait]; rfl) id

theorem Step.acts_or_quiet (h : Step P s t s') :
    (∃ l a, s.status t = .running l ∧ a ∈ P.code t l s.data ∧ Acts s t a s') ∨ Quiet s s' := by
  rcases h.acts_or_resumes with hacts | hres | hawake
  · exact Or.inl hacts
  · exact Or.inr hres.quiet
  · exact Or.inr hawake.quiet

/-! ### Assertions about one thread -/

/-- An assertion about the status of each thread, kept by its actions, by a wakeup and when
it resumes. -/
theorem status_invariant {I : ∀ t, Status Lock Cond (Loc t) → Prop}
    (hstart : ∀ t, I t (.running (P.start t)))
    (hcode : ∀ t l d a, a ∈ P.code t l d → I t (.running l) → I t a.status)
    (hwake : ∀ t c m l, I t (.waiting c m l) → I t (.woken m l))
    (hresume : ∀ t m l, I t (.woken m l) → I t (.running l))
    (h : P.machine.Reachable s) (t : Thread) : I t (s.status t) := by
  refine Machine.Reachable.invariant (I := fun s => ∀ t, I t (s.status t)) hstart ?_ h t
  intro s t s' _ ih hstep u
  have hwakes : ∀ st : Status Lock Cond (Loc u), I u st → I u st.wake := by
    intro st hst
    cases st with
    | running l => exact hst
    | waiting c m l => exact hwake u c m l hst
    | woken m l => exact hst
  have hupdate : ∀ st : Status Lock Cond (Loc t), I t st → I u (update s.status t st u) := by
    intro st hst
    by_cases hu : u = t
    · subst hu
      rw [update_self]
      exact hst
    · rw [update_of_ne hu]
      exact ih u
  rcases Step.acts_or_resumes hstep with
    ⟨l, a, hrun, ha, hacts⟩ | ⟨m, k, hwoken, -, rfl⟩ | ⟨c, m, k, hwait, rfl⟩
  · by_cases hu : u = t
    · subst hu
      rw [hacts.self]
      exact hcode u l s.data a ha (hrun ▸ ih u)
    · rcases hacts.other u hu with hsame | ⟨c, -, -, hwoken⟩
      · rw [hsame]
        exact ih u
      · rw [hwoken]
        exact hwakes _ (ih u)
  · exact hupdate _ (hresume t m k (hwoken ▸ ih t))
  · exact hupdate _ (hwake t c m k (hwait ▸ ih t))

/-- An assertion about the location of each thread that the actions keep. -/
theorem loc_invariant {I : ∀ t, Loc t → Prop} (hstart : ∀ t, I t (P.start t))
    (hcode : ∀ t l d a, a ∈ P.code t l d → I t l → I t a.next)
    (h : P.machine.Reachable s) (t : Thread) : I t (s.loc t) := by
  refine status_invariant (I := fun t st => I t st.loc) hstart ?_ (fun _ _ _ _ => id)
    (fun _ _ _ => id) h t
  intro t l d a ha hl
  rw [Status.loc_actionStatus]
  exact hcode t l d a ha hl

/-- An assertion about the data that the actions keep. -/
theorem data_invariant {I : Data → Prop} (hinit : I P.data)
    (hcode : ∀ t l d a, a ∈ P.code t l d → I d → I (a.effect d))
    (h : P.machine.Reachable s) : I s.data := by
  refine Machine.Reachable.invariant (I := fun s => I s.data) hinit ?_ h
  intro s t s' _ ih hstep
  rcases Step.acts_or_quiet hstep with ⟨l, a, -, ha, hacts⟩ | hquiet
  · rw [hacts.data]
    exact hcode t l s.data a ha ih
  · rw [hquiet.data]
    exact ih

/-- **Non-interference.**  Each thread has an assertion about its location and the data, which
its own actions carry from location to location and the actions of the others keep. -/
theorem assertion_invariant {I : ∀ t, Loc t → Data → Prop}
    (hstart : ∀ t, I t (P.start t) P.data)
    (hown : ∀ t l d a, a ∈ P.code t l d → I t l d → I t a.next (a.effect d))
    (hother : ∀ t l d a, a ∈ P.code t l d → I t l d →
      ∀ u, u ≠ t → ∀ k, I u k d → I u k (a.effect d))
    (h : P.machine.Reachable s) (t : Thread) : I t (s.loc t) s.data := by
  refine Machine.Reachable.invariant (I := fun s => ∀ t, I t (s.loc t) s.data) hstart ?_ h t
  intro s t s' _ ih hstep u
  rcases Step.acts_or_quiet hstep with ⟨l, a, hrun, ha, hacts⟩ | hquiet
  · have hl : I t l s.data := by
      have ht := ih t
      rw [State.loc, hrun] at ht
      exact ht
    rw [hacts.data, hacts.loc]
    by_cases hu : u = t
    · subst hu
      rw [update_self]
      exact hown u l s.data a ha hl
    · rw [update_of_ne hu]
      exact hother t l s.data a ha hl u hu (s.loc u) (ih u)
  · rw [hquiet.data, hquiet.loc]
    exact ih u

/-! ### Programs without condition variables -/

theorem running_loc [IsEmpty Cond] (h : P.machine.Reachable s) (t : Thread) :
    s.status t = .running (s.loc t) := by
  have hrun := status_invariant (P := P) (s := s) (I := fun _ st => ∃ l, st = .running l)
    (fun t => ⟨P.start t, rfl⟩) ?_ (fun _ c => isEmptyElim c) ?_ h t
  · obtain ⟨l, hl⟩ := hrun
    rw [State.loc, hl]
    rfl
  · intro t l d a _ _
    cases a with
    | wait c m l => exact isEmptyElim c
    | _ => exact ⟨_, rfl⟩
  · rintro t m l ⟨l', hl⟩
    cases hl

/-- Without condition variables every step is an action at the location of its thread. -/
theorem Step.acts_of_isEmpty [IsEmpty Cond] (h : P.machine.Reachable s) (hstep : Step P s t s') :
    ∃ a ∈ P.code t (s.loc t) s.data, Acts s t a s' := by
  have hloc := running_loc h t
  rcases hstep.acts_or_resumes with
    ⟨l, a, hrun, ha, hacts⟩ | ⟨m, k, hwoken, -, -⟩ | ⟨c, -, -, -, -⟩
  · obtain rfl : l = s.loc t := Status.running.inj (hrun.symm.trans hloc)
    exact ⟨a, ha, hacts⟩
  · rw [hloc] at hwoken
    cases hwoken
  · exact isEmptyElim c

/-! ### Balances -/

omit [DecidableEq Lock] [DecidableEq Cond] in
theorem sum_update_add {M : Type*} [AddCommMonoid M] [Fintype Thread] (w : ∀ t, Loc t → M)
    (f : ∀ t, Loc t) (t : Thread) (x : Loc t) :
    ∑ u, w u (update f t x u) + w t (f t) = ∑ u, w u (f u) + w t x := by
  have hrest : ∑ u ∈ Finset.univ.erase t, w u (update f t x u) =
      ∑ u ∈ Finset.univ.erase t, w u (f u) := by
    refine Finset.sum_congr rfl fun u hu => ?_
    rw [update_of_ne (Finset.ne_of_mem_erase hu)]
  rw [← Finset.sum_erase_add _ _ (Finset.mem_univ t), hrest, update_self,
    ← Finset.sum_erase_add _ (fun u => w u (f u)) (Finset.mem_univ t), add_right_comm]

omit [DecidableEq Lock] [DecidableEq Cond] in
/-- Where no other thread's share shrinks, the sum shrinks by the share of `t` at most. -/
theorem sum_le_of_others [Fintype Thread] {f g : Thread → ℤ} (t : Thread)
    (h : ∀ u, u ≠ t → f u ≤ g u) : ∑ u, f u + g t ≤ ∑ u, g u + f t := by
  have hrest : ∑ u ∈ Finset.univ.erase t, f u ≤ ∑ u ∈ Finset.univ.erase t, g u :=
    Finset.sum_le_sum fun u hu => h u (Finset.ne_of_mem_erase hu)
  rw [← Finset.sum_erase_add _ _ (Finset.mem_univ t),
    ← Finset.sum_erase_add _ g (Finset.mem_univ t)]
  omega

omit [DecidableEq Lock] [DecidableEq Cond] in
theorem sum_lt_of_others [Fintype Thread] {f g : Thread → ℤ} (t : Thread)
    (h : ∀ u, u ≠ t → f u ≤ g u) {u : Thread} (hu : u ≠ t) (hlt : f u < g u) :
    ∑ u, f u + g t < ∑ u, g u + f t := by
  have hrest : ∑ u ∈ Finset.univ.erase t, f u < ∑ u ∈ Finset.univ.erase t, g u :=
    Finset.sum_lt_sum (fun v hv => h v (Finset.ne_of_mem_erase hv))
      ⟨u, Finset.mem_erase.mpr ⟨hu, Finset.mem_univ u⟩, hlt⟩
  rw [← Finset.sum_erase_add _ _ (Finset.mem_univ t),
    ← Finset.sum_erase_add _ g (Finset.mem_univ t)]
  omega

/-- What has been produced is what has been consumed and what the threads have in hand. -/
theorem account {M : Type*} [AddCancelCommMonoid M] [Fintype Thread]
    {p q : Data → M} {w : ∀ t, Loc t → M} {I : ∀ t, Loc t → Prop}
    (hI : ∀ s, P.machine.Reachable s → ∀ t, I t (s.loc t))
    (hinit : p P.data = q P.data + ∑ t, w t (P.start t))
    (hcode : ∀ t l d a, I t l → a ∈ P.code t l d →
      p (a.effect d) + (q d + w t l) =
        p d + (q (a.effect d) + w t a.next))
    (h : P.machine.Reachable s) :
    p s.data = q s.data + ∑ t, w t (s.loc t) := by
  refine Machine.Reachable.invariant
    (I := fun s => p s.data = q s.data + ∑ t, w t (s.loc t)) hinit ?_ h
  intro s t s' hreach ih hstep
  rcases Step.acts_or_quiet hstep with ⟨l, a, hrun, ha, hacts⟩ | hquiet
  · have hl : s.loc t = l := by rw [State.loc, hrun]; rfl
    have hbal := hcode t l s.data a (hl ▸ hI s hreach t) ha
    have hsum := sum_update_add w s.loc t a.next
    rw [← hacts.loc, hl] at hsum
    rw [← hacts.data, ih] at hbal
    refine add_right_cancel (b := q s.data + w t l) ?_
    calc p s'.data + (q s.data + w t l)
        = q s.data + q s'.data +
            (∑ u, w u (s.loc u) + w t a.next) := by rw [hbal]; ac_rfl
      _ = q s.data + q s'.data +
            (∑ u, w u (s'.loc u) + w t l) := by rw [hsum]
      _ = q s'.data + ∑ u, w u (s'.loc u) +
            (q s.data + w t l) := by ac_rfl
  · rw [hquiet.loc, hquiet.data]
    exact ih

/-! ### Mutual exclusion -/

/-- `holds` are the locations at which a thread owns `m`: the code gets there by locking `m`
and leaves by unlocking it or by waiting. -/
structure Guarded (P : Program Thread Lock Cond Data Loc) (m : Lock)
    (holds : ∀ t, Loc t → Prop) : Prop where
  start : ∀ t, ¬ holds t (P.start t)
  lock : ∀ t l d k, .lock m k ∈ P.code t l d → holds t k
  unlock : ∀ t l d k, .unlock m k ∈ P.code t l d → holds t l ∧ ¬ holds t k
  wait : ∀ t l d c k, .wait c m k ∈ P.code t l d → holds t l ∧ holds t k
  other : ∀ t l d a, a ∈ P.code t l d → ¬ a.Uses m → (holds t a.next ↔ holds t l)

variable {m : Lock} {holds : ∀ t, Loc t → Prop}

omit [DecidableEq Thread] [DecidableEq Cond] in
theorem Action.owner_of_not_uses {L : Type*} {a : Action Lock Cond Data L} (h : ¬ a.Uses m)
    (t : Thread) (o : Lock → Option Thread) : a.owner t o m = o m := by
  cases a with
  | lock m' k => exact update_of_ne (Ne.symm h) _ _
  | unlock m' k => exact update_of_ne (Ne.symm h) _ _
  | wait c m' k => exact update_of_ne (Ne.symm h) _ _
  | signal c k => rfl
  | broadcast c k => rfl
  | exec d k => rfl

omit [DecidableEq Thread] [DecidableEq Cond] in
theorem Acts.owner_of_not_uses {a : Action Lock Cond Data (Loc t)} (h : Acts s t a s')
    (huse : ¬ a.Uses m) : s'.owner m = s.owner m := by
  rw [h.owner, Action.owner_of_not_uses huse]

omit [DecidableEq Thread] [DecidableEq Cond] in
/-- The thread of an action owns `m` afterwards exactly if its new status says so. -/
theorem Guarded.owner_self (hg : Guarded P m holds) {l : Loc t}
    {a : Action Lock Cond Data (Loc t)} {d : Data} (ha : a ∈ P.code t l d)
    {o : Lock → Option Thread} (ho : o m = some t ↔ holds t l) :
    a.owner t o m = some t ↔ a.status.Holds m (holds t) := by
  by_cases huse : a.Uses m
  · cases a with
    | lock m' k =>
      obtain rfl : m' = m := huse
      show update o m' (some t) m' = some t ↔ holds t k
      rw [update_self]
      exact iff_of_true rfl (hg.lock t l d k ha)
    | unlock m' k =>
      obtain rfl : m' = m := huse
      show update o m' none m' = some t ↔ holds t k
      rw [update_self]
      exact iff_of_false (by simp) (hg.unlock t l d k ha).2
    | wait c m' k =>
      obtain rfl : m' = m := huse
      show update o m' none m' = some t ↔ m' ≠ m' ∧ holds t k
      rw [update_self]
      simp
    | signal c k => exact huse.elim
    | broadcast c k => exact huse.elim
    | exec d k => exact huse.elim
  · rw [Action.owner_of_not_uses huse, ho, ← hg.other t l d a ha huse]
    cases a with
    | wait c m' k => exact (and_iff_right huse).symm
    | lock m' k => exact Iff.rfl
    | unlock m' k => exact Iff.rfl
    | signal c k => exact Iff.rfl
    | broadcast c k => exact Iff.rfl
    | exec d k => exact Iff.rfl

omit [DecidableEq Thread] [DecidableEq Cond] in
/-- No other thread gains or loses `m` by an action of `t`. -/
theorem Guarded.owner_other (hg : Guarded P m holds) {l : Loc t}
    {a : Action Lock Cond Data (Loc t)} {d : Data} (ha : a ∈ P.code t l d)
    {o : Lock → Option Thread} (ho : o m = some t ↔ holds t l)
    (hfree : ∀ k, a = .lock m k → o m = none) {u : Thread} (hu : u ≠ t) :
    a.owner t o m = some u ↔ o m = some u := by
  have hlost : ∀ o' : Option Thread, o' ≠ some u → holds t l → (o' = some u ↔ o m = some u) := by
    intro o' ho' hl
    rw [ho.mpr hl]
    exact iff_of_false ho' fun h => hu (Option.some.inj h).symm
  by_cases huse : a.Uses m
  · cases a with
    | lock m' k =>
      obtain rfl : m' = m := huse
      show update o m' (some t) m' = some u ↔ _
      rw [update_self, hfree k rfl]
      exact iff_of_false (fun h => hu (Option.some.inj h).symm) (by simp)
    | unlock m' k =>
      obtain rfl : m' = m := huse
      show update o m' none m' = some u ↔ _
      rw [update_self]
      exact hlost none (by simp) (hg.unlock t l d k ha).1
    | wait c m' k =>
      obtain rfl : m' = m := huse
      show update o m' none m' = some u ↔ _
      rw [update_self]
      exact hlost none (by simp) (hg.wait t l d c k ha).1
    | signal c k => exact huse.elim
    | broadcast c k => exact huse.elim
    | exec d k => exact huse.elim
  · rw [Action.owner_of_not_uses huse]

/-- **Mutual exclusion.**  The owner of `m` is the thread at a location that holds it. -/
theorem Guarded.owner_eq_some_iff (hg : Guarded P m holds) (h : P.machine.Reachable s)
    (t : Thread) : s.owner m = some t ↔ (s.status t).Holds m (holds t) := by
  have hwaits : ∀ s : State Thread Lock Cond Data Loc, P.machine.Reachable s →
      ∀ t, ∀ k, s.status t = .woken m k → holds t k := by
    intro s hs t k hwoken
    have := status_invariant (P := P) (s := s) (t := t) (I := fun t st => match st with
      | .running _ => True
      | .waiting _ m' k | .woken m' k => m' = m → holds t k) (fun _ => trivial)
      (by
        intro t l d a ha _
        cases a <;> try trivial
        intro heq
        subst heq
        exact (hg.wait t l d _ _ ha).2)
      (fun _ _ _ _ => id) (fun _ _ _ _ => trivial) hs
    rw [hwoken] at this
    exact this rfl
  refine Machine.Reachable.invariant
    (I := fun s => ∀ t, s.owner m = some t ↔ (s.status t).Holds m (holds t)) ?_ ?_ h t
  · intro t
    exact iff_of_false (by simp [Program.machine]) (hg.start t)
  · intro s t s' hreach ih hstep u
    rcases Step.acts_or_resumes hstep with
      ⟨l, a, hrun, ha, hacts⟩ | ⟨m', k, hwoken, hfree, rfl⟩ | ⟨c, m', k, hwait, rfl⟩
    · have ho : s.owner m = some t ↔ holds t l := by
        rw [ih t, hrun]
        exact Iff.rfl
      rw [hacts.owner]
      by_cases hu : u = t
      · subst hu
        rw [hacts.self]
        exact hg.owner_self ha ho
      · rw [hg.owner_other ha ho (hacts.free m) hu, ih u]
        rcases hacts.other u hu with hsame | ⟨c, -, -, hwake⟩
        · rw [hsame]
        · rw [hwake, Status.holds_wake]
    · show update s.owner m' (some t) m = some u ↔
        (update s.status t (.running k) u).Holds m (holds u)
      by_cases hm : m' = m
      · subst hm
        rw [update_self]
        by_cases hu : u = t
        · subst hu
          rw [update_self]
          exact iff_of_true rfl (hwaits s hreach u k hwoken)
        · rw [update_of_ne hu, ← ih u, hfree]
          exact iff_of_false (fun heq => hu (Option.some.inj heq).symm) (by simp)
      · rw [update_of_ne (Ne.symm hm), ih u]
        by_cases hu : u = t
        · subst hu
          rw [update_self, hwoken]
          exact and_iff_right hm
        · rw [update_of_ne hu]
    · show s.owner m = some u ↔ (update s.status t (.woken m' k) u).Holds m (holds u)
      by_cases hu : u = t
      · subst hu
        rw [update_self, ih u, hwait]
        exact Iff.rfl
      · rw [update_of_ne hu]
        exact ih u

/-! ### The data invariant of a mutex -/

/-- `R` holds of the data while `m` is free, and `A t l` while `t` owns it at `l`. -/
structure Protects (P : Program Thread Lock Cond Data Loc) (m : Lock)
    (holds : ∀ t, Loc t → Prop) (R : Data → Prop) (A : ∀ t, Loc t → Data → Prop) : Prop
    extends Guarded P m holds where
  init : R P.data
  acquire : ∀ t l d k, .lock m k ∈ P.code t l d → R d → A t k d
  release : ∀ t l d k, .unlock m k ∈ P.code t l d → A t l d → R d
  sleep : ∀ t l d c k, .wait c m k ∈ P.code t l d → A t l d → R d
  wakeup : ∀ t l d c k, .wait c m k ∈ P.code t l d → ∀ d', R d' → A t k d'
  inside : ∀ t l d a, a ∈ P.code t l d → ¬ a.Uses m → holds t l → A t l d →
    A t a.next (a.effect d)
  outside : ∀ t l d a, a ∈ P.code t l d → ¬ holds t l →
    (R d → R (a.effect d)) ∧ ∀ u k, A u k d → A u k (a.effect d)

variable {R : Data → Prop} {A : ∀ t, Loc t → Data → Prop}

/-- The assertion about the data that the owner of `m` decides. -/
def LockInv (m : Lock) (R : Data → Prop) (A : ∀ t, Loc t → Data → Prop)
    (s : State Thread Lock Cond Data Loc) : Prop :=
  match s.owner m with
  | none => R s.data
  | some t => A t (s.loc t) s.data

omit [DecidableEq Thread] [DecidableEq Lock] [DecidableEq Cond] in
theorem lockInv_none (h : s.owner m = none) : LockInv m R A s ↔ R s.data := by
  rw [LockInv, h]

omit [DecidableEq Thread] [DecidableEq Lock] [DecidableEq Cond] in
theorem lockInv_some (h : s.owner m = some t) : LockInv m R A s ↔ A t (s.loc t) s.data := by
  rw [LockInv, h]

/-- A thread that has to own `m` again finds its assertion from `R` alone. -/
theorem Protects.woken (hp : Protects P m holds R A) (h : P.machine.Reachable s) {k : Loc t}
    (hwoken : s.status t = .woken m k) : ∀ d, R d → A t k d := by
  have hinv := status_invariant (P := P) (s := s) (t := t) (I := fun t st => match st with
    | .running _ => True
    | .waiting _ m' k | .woken m' k => m' = m → ∀ d, R d → A t k d) (fun _ => trivial)
    (by
      intro t l d a ha _
      cases a with
      | wait c m' k =>
        intro heq
        subst heq
        exact hp.wakeup t l d c k ha
      | _ => trivial)
    (fun _ _ _ _ => id) (fun _ _ _ _ => trivial) h
  rw [hwoken] at hinv
  exact hinv rfl

/-- **Monitor rule.** -/
theorem Protects.lockInv (hp : Protects P m holds R A) (h : P.machine.Reachable s) :
    LockInv m R A s := by
  refine Machine.Reachable.invariant (I := LockInv m R A) ((lockInv_none rfl).mpr hp.init) ?_ h
  intro s t s' hreach ih hstep
  have howner := hp.owner_eq_some_iff hreach t
  rcases Step.acts_or_resumes hstep with
    ⟨l, a, hrun, ha, hacts⟩ | ⟨m', k, hwoken, hfree, rfl⟩ | hawake
  · have hl : s.loc t = l := by rw [State.loc, hrun]; rfl
    have hself : s'.loc t = a.next := by rw [hacts.loc, update_self]
    have ho : s.owner m = some t ↔ holds t l := by
      rw [howner, hrun]
      exact Iff.rfl
    have hown : s'.owner m = a.owner t s.owner m := by rw [hacts.owner]
    by_cases huse : a.Uses m
    · cases a with
      | lock m' k =>
        obtain rfl : m' = m := huse
        have hR := (lockInv_none (hacts.free m' k rfl)).mp ih
        have hown' : s'.owner m' = some t := by rw [hown]; exact update_self ..
        rw [lockInv_some hown', hself, hacts.data]
        exact hp.acquire t l s.data k ha hR
      | unlock m' k =>
        obtain rfl : m' = m := huse
        have hA := (lockInv_some (ho.mpr (hp.unlock t l s.data k ha).1)).mp ih
        have hown' : s'.owner m' = none := by rw [hown]; exact update_self ..
        rw [lockInv_none hown', hacts.data]
        exact hp.release t l s.data k ha (hl ▸ hA)
      | wait c m' k =>
        obtain rfl : m' = m := huse
        have hA := (lockInv_some (ho.mpr (hp.wait t l s.data c k ha).1)).mp ih
        have hown' : s'.owner m' = none := by rw [hown]; exact update_self ..
        rw [lockInv_none hown', hacts.data]
        exact hp.sleep t l s.data c k ha (hl ▸ hA)
      | signal c k => exact huse.elim
      | broadcast c k => exact huse.elim
      | exec d k => exact huse.elim
    · rw [Action.owner_of_not_uses huse] at hown
      by_cases hl' : holds t l
      · have hA := (lockInv_some (ho.mpr hl')).mp ih
        rw [lockInv_some (hown.trans (ho.mpr hl')), hself, hacts.data]
        exact hp.inside t l s.data a ha huse hl' (hl ▸ hA)
      · have hframe := hp.outside t l s.data a ha hl'
        cases hu : s.owner m with
        | none =>
          rw [lockInv_none (hown.trans hu), hacts.data]
          exact hframe.1 ((lockInv_none hu).mp ih)
        | some u =>
          have hne : u ≠ t := fun heq => hl' (ho.mp (heq ▸ hu))
          have hloc : s'.loc u = s.loc u := by rw [hacts.loc, update_of_ne hne]
          rw [lockInv_some (hown.trans hu), hloc, hacts.data]
          exact hframe.2 u _ ((lockInv_some hu).mp ih)
  · have hloc := (Resumes.quiet (s := s) (t := t) ⟨m', k, hwoken, hfree, rfl⟩).loc
    by_cases hm : m' = m
    · subst hm
      have hR := (lockInv_none hfree).mp ih
      rw [lockInv_some (update_self m' (some t) s.owner), hloc, State.loc, hwoken]
      exact hp.woken hreach hwoken _ hR
    · rw [LockInv, hloc]
      show match update s.owner m' (some t) m with
        | none => R s.data
        | some u => A u (s.loc u) s.data
      rw [update_of_ne (Ne.symm hm)]
      exact ih
  · rw [LockInv, hawake.quiet.loc]
    obtain ⟨c, m', k, -, rfl⟩ := hawake
    exact ih

/-! ### Deadlocks -/

/-- No thread can take a step. -/
def Stuck (P : Program Thread Lock Cond Data Loc) (s : State Thread Lock Cond Data Loc) : Prop :=
  ∀ t s', ¬ Step P s t s'

def Finished (P : Program Thread Lock Cond Data Loc) (s : State Thread Lock Cond Data Loc)
    (t : Thread) : Prop :=
  ∃ l, s.status t = .running l ∧ P.code t l s.data = []

instance decidableFinished (P : Program Thread Lock Cond Data Loc)
    (s : State Thread Lock Cond Data Loc) (t : Thread) : Decidable (Finished P s t) :=
  match hst : s.status t with
  | .running l =>
    decidable_of_iff ((P.code t l s.data).isEmpty = true) (by simp [Finished, hst])
  | .waiting _ _ _ => isFalse (by simp [Finished, hst])
  | .woken _ _ => isFalse (by simp [Finished, hst])

/-- Only a mutex with an owner keeps a running thread from its action. -/
theorem Stuck.running (h : Stuck P s) {l : Loc t} (hrun : s.status t = .running l)
    {a : Action Lock Cond Data (Loc t)} (ha : a ∈ P.code t l s.data) :
    ∃ m k, a = .lock m k ∧ s.owner m ≠ none := by
  cases a with
  | lock m k => exact ⟨m, k, rfl, fun hfree => h t _ (.lock hrun ha hfree)⟩
  | unlock m k => exact absurd (.unlock hrun ha) (h t _)
  | wait c m k => exact absurd (.wait hrun ha) (h t _)
  | signal c k =>
    by_cases hsome : ∃ u, (s.status u).WaitsOn c
    · obtain ⟨u, hu⟩ := hsome
      exact absurd (.signal hrun ha hu) (h t _)
    · exact absurd (.signalLost hrun ha fun u hu => hsome ⟨u, hu⟩) (h t _)
  | broadcast c k => exact absurd (.broadcast hrun ha) (h t _)
  | exec d k => exact absurd (.exec hrun ha) (h t _)

theorem finished_iff [IsEmpty Cond] (h : P.machine.Reachable s) (t : Thread) :
    Finished P s t ↔ P.code t (s.loc t) s.data = [] := by
  constructor
  · rintro ⟨l, hrun, hcode⟩
    rw [State.loc, hrun]
    exact hcode
  · intro hcode
    exact ⟨s.loc t, running_loc h t, hcode⟩

/-- Where one mutex serves all threads and no thread finishes or locks again while it owns
it, only waiting can keep a thread from finishing in a stuck state. -/
theorem Guarded.stuck [Subsingleton Lock] (hg : Guarded P m holds)
    (hbusy : ∀ t l d, holds t l → ∃ a ∈ P.code t l d, ∀ m' k, a ≠ .lock m' k)
    (h : P.machine.Reachable s) (hstuck : Stuck P s) :
    s.owner m = none ∧ ∀ t, Finished P s t ∨ ∃ c k, s.status t = .waiting c m k := by
  have hfree : s.owner m = none := by
    cases hown : s.owner m with
    | none => rfl
    | some t =>
      have hholds := (hg.owner_eq_some_iff h t).mp hown
      cases hst : s.status t with
      | running l =>
        rw [hst] at hholds
        obtain ⟨a, ha, hne⟩ := hbusy t l s.data hholds
        obtain ⟨m', k, heq, -⟩ := hstuck.running hst ha
        exact absurd heq (hne m' k)
      | waiting c m' k =>
        rw [hst] at hholds
        exact absurd (Subsingleton.elim m' m) hholds.1
      | woken m' k =>
        rw [hst] at hholds
        exact absurd (Subsingleton.elim m' m) hholds.1
  refine ⟨hfree, fun t => ?_⟩
  cases hst : s.status t with
  | running l =>
    refine Or.inl ⟨l, hst, List.eq_nil_iff_forall_not_mem.mpr fun a ha => ?_⟩
    obtain ⟨m', k, -, hown⟩ := hstuck.running hst ha
    rw [Subsingleton.elim m' m] at hown
    exact hown hfree
  | waiting c m' k =>
    rw [Subsingleton.elim m' m]
    exact Or.inr ⟨c, k, rfl⟩
  | woken m' k =>
    have hfree' : s.owner m' = none := by rw [Subsingleton.elim m' m, hfree]
    exact absurd (.resume hst hfree') (hstuck t _)

end Semantics

end OsLabs.Lib.Monitor
