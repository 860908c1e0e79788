import OsLabs.Lib.Monitor

/-!
# Binary semaphores and exclusive regions

A semaphore is a counter in the shared data: `sem_wait` takes one from it and is not possible
at zero, `sem_post` adds one.  One that starts at one lets one thread at a time into the region
between the two; there the thread may rely on what it has read of the shared data.
-/

namespace OsLabs.Lib.Monitor

variable {Thread Lock Cond Data : Type*} {Loc : Thread → Type*}
  [DecidableEq Thread] [DecidableEq Lock] [DecidableEq Cond]
  {P : Program Thread Lock Cond Data Loc} {s : State Thread Lock Cond Data Loc}

/-- Where the permits that are left and the threads inside always add up to one, one thread at
most is inside. -/
theorem semaphore_exclusive [Fintype Thread] (permits : Data → ℕ) (inside : ∀ t, Loc t → Prop)
    [∀ t, DecidablePred (inside t)] (hinit : permits P.data = 1)
    (hstart : ∀ t, ¬ inside t (P.start t))
    (hcode : ∀ t l d a, a ∈ P.code t l d →
      permits (a.effect d) + (if inside t a.next then 1 else 0) =
        permits d + (if inside t l then 1 else 0))
    (h : P.machine.Reachable s) {t u : Thread} (ht : inside t (s.loc t))
    (hu : inside u (s.loc u)) : t = u := by
  have hsum := account (P := P) (p := fun _ => 1) (q := permits)
    (w := fun t l => if inside t l then 1 else 0) (I := fun _ _ => True)
    (fun _ _ _ => trivial) ?_ ?_ h
  · by_contra hne
    have hpair : ∑ v ∈ {t, u}, (if inside v (s.loc v) then 1 else 0) ≤
        ∑ v, if inside v (s.loc v) then 1 else 0 :=
      Finset.sum_le_sum_of_subset (Finset.subset_univ {t, u})
    rw [Finset.sum_pair hne, if_pos ht, if_pos hu] at hpair
    change 1 = permits s.data + ∑ t, _ at hsum
    omega
  · rw [hinit, Finset.sum_eq_zero fun t _ => if_neg (hstart t), Nat.add_zero]
  · intro t l d a _ ha
    have hbal := hcode t l d a ha
    omega

/-- `R` holds of the data while no thread is inside the region, and `A t l` while `t` is inside
at `l`: the steps into the region, inside of it, out of it, and elsewhere keep this. -/
structure Region (P : Program Thread Lock Cond Data Loc) (inside : ∀ t, Loc t → Prop)
    (R : Data → Prop) (A : ∀ t, Loc t → Data → Prop) : Prop where
  start : ∀ t, ¬ inside t (P.start t)
  init : R P.data
  enter : ∀ t l d a, a ∈ P.code t l d → ¬ inside t l → inside t a.next → R d →
    A t a.next (a.effect d)
  stay : ∀ t l d a, a ∈ P.code t l d → inside t l → inside t a.next → A t l d →
    A t a.next (a.effect d)
  leave : ∀ t l d a, a ∈ P.code t l d → inside t l → ¬ inside t a.next → A t l d →
    R (a.effect d)
  elsewhere : ∀ t l d a, a ∈ P.code t l d → ¬ inside t l → ¬ inside t a.next → a.effect d = d

variable {inside : ∀ t, Loc t → Prop} {R : Data → Prop} {A : ∀ t, Loc t → Data → Prop}

/-- The assertions of a region. -/
def RegionInv (inside : ∀ t, Loc t → Prop) (R : Data → Prop) (A : ∀ t, Loc t → Data → Prop)
    (s : State Thread Lock Cond Data Loc) : Prop :=
  ((∀ t, ¬ inside t (s.loc t)) → R s.data) ∧ ∀ t, inside t (s.loc t) → A t (s.loc t) s.data

/-- **Region rule.**  In a region with one thread at most the assertions always hold. -/
theorem Region.regionInv (hr : Region P inside R A)
    (hone : ∀ s, P.machine.Reachable s → ∀ t u, inside t (s.loc t) → inside u (s.loc u) → t = u)
    (h : P.machine.Reachable s) : RegionInv inside R A s := by
  have hinit : RegionInv inside R A P.machine.init :=
    ⟨fun _ => hr.init, fun t ht => absurd ht (hr.start t)⟩
  refine Machine.Reachable.invariant (I := RegionInv inside R A) hinit ?_ h
  intro s t s' hreach ih hstep
  have hone' := hone s' (hreach.step hstep)
  rcases Step.acts_or_quiet hstep with ⟨l, a, hrun, ha, hacts⟩ | hquiet
  · have hl : s.loc t = l := by rw [State.loc, hrun]; rfl
    subst hl
    have hself : s'.loc t = a.next := by rw [hacts.loc, Function.update_self]
    have hother : ∀ u, u ≠ t → s'.loc u = s.loc u := by
      intro u hu
      rw [hacts.loc, Function.update_of_ne hu]
    rw [RegionInv, hacts.data]
    by_cases hnext : inside t a.next
    · -- `t` is the thread inside afterwards, and the only one
      have hinside : inside t (s'.loc t) := hself ▸ hnext
      refine ⟨fun hnone => absurd hinside (hnone t), fun u hu => ?_⟩
      obtain rfl : t = u := hone' t u hinside hu
      rw [hself]
      by_cases hnow : inside t (s.loc t)
      · exact hr.stay t _ s.data a ha hnow hnext (ih.2 t hnow)
      · refine hr.enter t _ s.data a ha hnow hnext (ih.1 fun v hv => ?_)
        have hne : v ≠ t := fun heq => hnow (heq ▸ hv)
        exact hne (hone' v t (by rw [hother v hne]; exact hv) hinside)
    · by_cases hnow : inside t (s.loc t)
      · refine ⟨fun _ => hr.leave t _ s.data a ha hnow hnext (ih.2 t hnow), fun u hu => ?_⟩
        have hne : u ≠ t := by
          rintro rfl
          exact hnext (hself ▸ hu)
        rw [hother u hne] at hu
        exact absurd (hone s hreach u t hu hnow) hne
      · have hinsides : ∀ u, inside u (s'.loc u) ↔ inside u (s.loc u) := by
          intro u
          by_cases hu : u = t
          · subst hu
            rw [hself]
            exact iff_of_false hnext hnow
          · rw [hother u hu]
        rw [hr.elsewhere t _ s.data a ha hnow hnext]
        refine ⟨fun hnone => ih.1 fun u hu => hnone u ((hinsides u).mpr hu), fun u hu => ?_⟩
        have hin := (hinsides u).mp hu
        have hne : u ≠ t := by
          rintro rfl
          exact hnow hin
        rw [hother u hne]
        exact ih.2 u hin
  · rw [RegionInv, hquiet.loc, hquiet.data]
    exact ih

end OsLabs.Lib.Monitor
