import OsLabs.Lib.Monitor
import OsLabs.Lib.Simulation

/-!
# Projections of threads

A program without condition variables may do the locking of a simpler program over the same
threads and mutexes, with statements of its own in between.  A projection relates the locations
and the data: a visible statement does what a statement of the simpler program does, and a hidden
one touches no mutex and stays at the related location.
-/

namespace OsLabs.Lib.Monitor

open Function

variable {Thread Lock Cond Data Data' : Type*} {Loc Loc' : Thread → Type*} [DecidableEq Thread]
  [DecidableEq Lock] [DecidableEq Cond]

/-! ### Steps without condition variables -/

section Steps

variable {P : Program Thread Lock Cond Data Loc} {s s' : State Thread Lock Cond Data Loc}
  {t : Thread} [IsEmpty Cond]

theorem step_of_mem {l : Loc t} {a : Action Lock Cond Data (Loc t)}
    (hrun : s.status t = .running l) (ha : a ∈ P.code t l s.data)
    (hfree : ∀ m k, a = .lock m k → s.owner m = none) :
    Step P s t ⟨a.effect s.data, a.owner t s.owner, update s.status t a.status⟩ := by
  cases a with
  | lock m k => exact .lock hrun ha (hfree m k rfl)
  | unlock m k => exact .unlock hrun ha
  | exec d k => exact .exec hrun ha
  | wait c m k => exact isEmptyElim c
  | signal c k => exact isEmptyElim c
  | broadcast c k => exact isEmptyElim c

end Steps

/-! ### Visible and hidden statements -/

/-- Both statements do the same to the mutexes. -/
def Action.Mirrors {L L' : Type*} : Action Lock Cond Data L → Action Lock Cond Data' L' → Prop
  | lock m _, lock m' _ | unlock m _, unlock m' _ => m = m'
  | exec _ _, exec _ _ => True
  | _, _ => False

namespace Action.Mirrors

variable {L L' : Type*} {a : Action Lock Cond Data L} {b : Action Lock Cond Data' L'}

omit [DecidableEq Thread] [DecidableEq Cond] in
theorem owner (h : a.Mirrors b) (t : Thread) (o : Lock → Option Thread) :
    b.owner t o = a.owner t o := by
  cases a <;> cases b <;> first | rfl | exact h.elim | (obtain rfl := h; rfl)

omit [DecidableEq Thread] [DecidableEq Lock] [DecidableEq Cond] in
theorem symm (h : a.Mirrors b) : b.Mirrors a := by
  cases a <;> cases b <;> first | trivial | exact h.elim | exact Eq.symm h

omit [DecidableEq Thread] [DecidableEq Lock] [DecidableEq Cond] in
theorem free (h : a.Mirrors b) {o : Lock → Option Thread}
    (hfree : ∀ m k, a = .lock m k → o m = none) (m : Lock) (k : L') (hb : b = .lock m k) :
    o m = none := by
  subst hb
  cases a with
  | lock m' k' =>
    obtain rfl : m' = m := h
    exact hfree m' k' rfl
  | unlock m' k' => exact h.elim
  | wait c m' k' => exact h.elim
  | signal c k' => exact h.elim
  | broadcast c k' => exact h.elim
  | exec d k' => exact h.elim

end Action.Mirrors

/-- The statement over other data and locations. -/
def Action.map {L L' : Type*} (f : Data → Data') (g : L → L') :
    Action Lock Cond Data L → Action Lock Cond Data' L'
  | lock m l => .lock m (g l)
  | unlock m l => .unlock m (g l)
  | wait c m l => .wait c m (g l)
  | signal c l => .signal c (g l)
  | broadcast c l => .broadcast c (g l)
  | exec d l => .exec (f d) (g l)

namespace Action

variable {L L' : Type*} (f : Data → Data') (g : L → L') (a : Action Lock Cond Data L)

omit [DecidableEq Thread] [DecidableEq Lock] [DecidableEq Cond] in
theorem next_map : (a.map f g).next = g a.next := by
  cases a <;> rfl

omit [DecidableEq Thread] [DecidableEq Lock] [DecidableEq Cond] in
theorem effect_map (d : Data) : (a.map f g).effect (f d) = f (a.effect d) := by
  cases a <;> rfl

omit [DecidableEq Thread] [DecidableEq Lock] [DecidableEq Cond] in
theorem mirrors_map [IsEmpty Cond] : (a.map f g).Mirrors a := by
  cases a with
  | wait c m l => exact isEmptyElim c
  | signal c l => exact isEmptyElim c
  | broadcast c l => exact isEmptyElim c
  | exec d l => trivial
  | _ => rfl

end Action

structure Projection (P : Program Thread Lock Cond Data Loc)
    (P' : Program Thread Lock Cond Data' Loc') (visible : ∀ t, Loc t → Data → Bool)
    (At : ∀ t, Loc t → Loc' t → Prop) (D : Data → Data' → Prop) : Prop where
  start : ∀ t, At t (P.start t) (P'.start t)
  data : D P.data P'.data
  hidden : ∀ t l d a l' d', a ∈ P.code t l d → visible t l d = false → At t l l' → D d d' →
    (∀ m, ¬ a.Uses m) ∧ At t a.next l' ∧ D (a.effect d) d'
  shown : ∀ t l d a l' d', a ∈ P.code t l d → visible t l d = true → At t l l' → D d d' →
    ∃ b ∈ P'.code t l' d', a.Mirrors b ∧ At t a.next b.next ∧ D (a.effect d) (b.effect d')

/-- The states of both programs at the same moment. -/
structure Projects (At : ∀ t, Loc t → Loc' t → Prop) (D : Data → Data' → Prop)
    (s : State Thread Lock Cond Data Loc) (r : State Thread Lock Cond Data' Loc') : Prop where
  owner : r.owner = s.owner
  data : D s.data r.data
  loc : ∀ t, At t (s.loc t) (r.loc t)
  running : ∀ t, r.status t = .running (r.loc t)

section Steps

variable {P : Program Thread Lock Cond Data Loc} {P' : Program Thread Lock Cond Data' Loc'}
  {At : ∀ t, Loc t → Loc' t → Prop} {D : Data → Data' → Prop}
  {s s' : State Thread Lock Cond Data Loc} {r : State Thread Lock Cond Data' Loc'} {t : Thread}
  {a : Action Lock Cond Data (Loc t)}

omit [DecidableEq Cond] in
/-- The simpler program waits at a statement that touches no mutex. -/
theorem Projects.hidden (h : Projects At D s r) (hacts : Acts s t a s')
    (huse : ∀ m, ¬ a.Uses m) (hAt : At t a.next (r.loc t)) (hD : D (a.effect s.data) r.data) :
    Projects At D s' r where
  owner := by
    funext m
    rw [hacts.owner_of_not_uses (huse m), h.owner]
  data := hacts.data ▸ hD
  loc u := by
    rw [hacts.loc]
    by_cases hu : u = t
    · subst hu
      rw [update_self]
      exact hAt
    · rw [update_of_ne hu]
      exact h.loc u
  running := h.running

/-- The simpler program follows a statement that it mirrors. -/
theorem Projects.shown [IsEmpty Cond] (h : Projects At D s r) (hacts : Acts s t a s')
    {b : Action Lock Cond Data' (Loc' t)} (hb : b ∈ P'.code t (r.loc t) r.data)
    (hmirrors : a.Mirrors b) (hAt : At t a.next b.next)
    (hD : D (a.effect s.data) (b.effect r.data)) :
    ∃ r', P'.machine.step r t r' ∧ Projects At D s' r' := by
  have hfree := hmirrors.free (o := r.owner) (by rw [h.owner]; exact hacts.free)
  refine ⟨_, step_of_mem (h.running t) hb hfree, ?_, hacts.data ▸ hD, fun u => ?_, fun u => ?_⟩
  · show b.owner t r.owner = s'.owner
    rw [hmirrors.owner, h.owner, hacts.owner]
  · show At u (s'.loc u) (update r.status t b.status u).loc
    rw [hacts.loc]
    by_cases hu : u = t
    · subst hu
      rw [update_self, update_self, Status.loc_actionStatus]
      exact hAt
    · rw [update_of_ne hu, update_of_ne hu]
      exact h.loc u
  · show update r.status t b.status u = .running (update r.status t b.status u).loc
    by_cases hu : u = t
    · subst hu
      rw [update_self]
      cases b with
      | wait c m k => exact isEmptyElim c
      | lock m k => rfl
      | unlock m k => rfl
      | signal c k => rfl
      | broadcast c k => rfl
      | exec d k => rfl
    · rw [update_of_ne hu]
      exact h.running u

end Steps

namespace Projection

variable {P : Program Thread Lock Cond Data Loc} {P' : Program Thread Lock Cond Data' Loc'}
  {visible : ∀ t, Loc t → Data → Bool} {At : ∀ t, Loc t → Loc' t → Prop}
  {D : Data → Data' → Prop}

/-- The step that a visible statement stands for. -/
def emit (visible : ∀ t, Loc t → Data → Bool) (s : State Thread Lock Cond Data Loc)
    (t : Thread) : Option Thread :=
  if visible t (s.loc t) s.data then some t else none

omit [DecidableEq Thread] [DecidableEq Lock] [DecidableEq Cond] in
theorem emit_eq_none {s : State Thread Lock Cond Data Loc} {t : Thread}
    (h : emit visible s t = none) : visible t (s.loc t) s.data = false := by
  rw [emit] at h
  split at h
  · cases h
  · rename_i hnot
    exact Bool.eq_false_iff.mpr hnot

omit [DecidableEq Thread] [DecidableEq Lock] [DecidableEq Cond] in
theorem emit_eq_some {s : State Thread Lock Cond Data Loc} {t u : Thread}
    (h : emit visible s t = some u) : visible t (s.loc t) s.data = true ∧ u = t := by
  rw [emit] at h
  split at h
  · rename_i hvisible
    exact ⟨hvisible, (Option.some.inj h).symm⟩
  · cases h

/-- **Projections are simulations.** -/
theorem simulation [IsEmpty Cond] (h : Projection P P' visible At D) :
    Machine.Simulation P.machine P'.machine (emit visible) (Projects At D) where
  init := ⟨rfl, h.data, h.start, fun _ => rfl⟩
  silent s t s' r hreach hR hstep hemit := by
    obtain ⟨a, ha, hacts⟩ := Step.acts_of_isEmpty hreach hstep
    obtain ⟨huse, hAt, hD⟩ :=
      h.hidden t _ _ a _ _ ha (emit_eq_none hemit) (hR.loc t) hR.data
    exact hR.hidden hacts huse hAt hD
  matched s t s' r e hreach hR hstep hemit := by
    obtain ⟨hvisible, rfl⟩ := emit_eq_some hemit
    obtain ⟨a, ha, hacts⟩ := Step.acts_of_isEmpty hreach hstep
    obtain ⟨b, hb, hmirrors, hAt, hD⟩ := h.shown _ _ _ a _ _ ha hvisible (hR.loc _) hR.data
    exact hR.shown hacts hb hmirrors hAt hD

end Projection

end OsLabs.Lib.Monitor
