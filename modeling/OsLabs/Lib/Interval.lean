import Mathlib.Order.Lattice
import Mathlib.Data.List.Chain
import Mathlib.Tactic

/-!
# Lists of intervals with gaps between them

An interval is the pair of its first and its last point.  A list of nonempty intervals, each
behind the one before it with a point left out in between, is determined by the set of points
that it covers, over any linear order.
-/

namespace OsLabs.Lib

variable {α : Type*} [LinearOrder α]

namespace Interval

/-- The point `x` lies between the two ends, both included. -/
def Covers (i : α × α) (x : α) : Prop := i.1 ≤ x ∧ x ≤ i.2

/-- Some point lies behind `i` and before `j`. -/
def Gap (i j : α × α) : Prop := ∃ c, i.2 < c ∧ c < j.1

/-- Some interval of the list covers the point. -/
def Covered (l : List (α × α)) (x : α) : Prop := ∃ i ∈ l, Covers i x

@[simp] theorem covered_nil (x : α) : ¬ Covered [] x := by simp [Covered]

@[simp] theorem covered_cons (i : α × α) (l : List (α × α)) (x : α) :
    Covered (i :: l) x ↔ Covers i x ∨ Covered l x := by
  simp [Covered]

/-- Nonempty intervals with gaps between neighbours have gaps between any two. -/
theorem pairwise_gap {l : List (α × α)} (hne : ∀ i ∈ l, i.1 ≤ i.2) (h : l.IsChain Gap) :
    l.Pairwise Gap := by
  induction l with
  | nil => exact List.Pairwise.nil
  | cons i l ih =>
    have hl := ih (fun j hj => hne j (List.mem_cons_of_mem _ hj)) h.tail
    refine List.pairwise_cons.mpr ⟨?_, hl⟩
    cases l with
    | nil => simp
    | cons k l =>
      obtain ⟨c, hic, hck⟩ : Gap i k := (List.isChain_cons_cons.mp h).1
      intro j hj
      rcases List.mem_cons.mp hj with rfl | hj
      · exact ⟨c, hic, hck⟩
      · -- the whole of `k` lies between `c` and `j`
        obtain ⟨d, hkd, hdj⟩ := (List.pairwise_cons.mp hl).1 j hj
        have hk : k.1 ≤ k.2 := hne k (by simp)
        exact ⟨c, hic, hck.trans_le (hk.trans (hkd.le.trans hdj.le))⟩

section

variable {i j : α × α} {l l' : List (α × α)}

/-- Behind the first interval and up to any later point there is a point that the other
intervals leave out. -/
theorem exists_not_covered (h : (i :: l).Pairwise Gap) (hne : ∀ k ∈ l, k.1 ≤ k.2) {y : α}
    (hy : i.2 < y) : ∃ x, i.2 < x ∧ x ≤ y ∧ ¬ Covered l x := by
  cases l with
  | nil => exact ⟨y, hy, le_rfl, covered_nil y⟩
  | cons k l =>
    obtain ⟨hi, hk⟩ := List.pairwise_cons.mp h
    obtain ⟨c, hic, hck⟩ := hi k (by simp)
    refine ⟨min c y, lt_min hic hy, min_le_right c y, ?_⟩
    rintro ⟨m, hm, hle, -⟩
    have hmin : min c y < m.1 := by
      rcases List.mem_cons.mp hm with rfl | hm
      · exact (min_le_left c y).trans_lt hck
      · obtain ⟨d, hkd, hdm⟩ := (List.pairwise_cons.mp hk).1 m hm
        have hkne : k.1 ≤ k.2 := hne k (by simp)
        exact (min_le_left c y).trans_lt (hck.trans (hkne.trans_lt (hkd.trans hdm)))
    exact absurd hle (not_le.mpr hmin)

/-- A covered point is not before the first interval. -/
theorem start_le (h : (i :: l).Pairwise Gap) (hi : i.1 ≤ i.2) {x : α}
    (hx : Covered (i :: l) x) : i.1 ≤ x := by
  rcases (covered_cons i l x).mp hx with hx | ⟨k, hk, hkx, -⟩
  · exact hx.1
  · obtain ⟨c, hic, hck⟩ := (List.pairwise_cons.mp h).1 k hk
    exact hi.trans (hic.le.trans (hck.le.trans hkx))

/-- The intervals behind the first one cover what is covered behind its last point. -/
theorem covered_tail (h : (i :: l).Pairwise Gap) (x : α) :
    Covered l x ↔ Covered (i :: l) x ∧ i.2 < x := by
  constructor
  · rintro ⟨k, hk, hkx⟩
    obtain ⟨c, hic, hck⟩ := (List.pairwise_cons.mp h).1 k hk
    exact ⟨⟨k, List.mem_cons_of_mem _ hk, hkx⟩, hic.trans (hck.trans_le hkx.1)⟩
  · rintro ⟨hx, hlt⟩
    rcases (covered_cons i l x).mp hx with hx | hx
    · exact absurd hx.2 (not_le.mpr hlt)
    · exact hx

/-- The first interval ends no earlier than one with the same start whose points are covered. -/
theorem end_le (h : (i :: l).Pairwise Gap) (hi : i.1 ≤ i.2) (hne : ∀ k ∈ l, k.1 ≤ k.2)
    (hstart : j.1 = i.1) (hj : ∀ x, Covers j x → Covered (i :: l) x) : j.2 ≤ i.2 := by
  by_contra hlt
  obtain ⟨x, hix, hxj, hnot⟩ := exists_not_covered h hne (not_le.mp hlt)
  have hjx : Covers j x := ⟨hstart.trans_le (hi.trans hix.le), hxj⟩
  rcases (covered_cons i l x).mp (hj x hjx) with hx | hx
  · exact absurd hx.2 (not_le.mpr hix)
  · exact hnot hx

end

/-- **Uniqueness.**  Two lists of nonempty intervals with gaps that cover the same points are
equal. -/
theorem eq_of_covered {l l' : List (α × α)} (hne : ∀ i ∈ l, i.1 ≤ i.2)
    (hne' : ∀ i ∈ l', i.1 ≤ i.2) (h : l.Pairwise Gap) (h' : l'.Pairwise Gap)
    (hcov : ∀ x, Covered l x ↔ Covered l' x) : l = l' := by
  induction l generalizing l' with
  | nil =>
    cases l' with
    | nil => rfl
    | cons j l' =>
      have hj : Covered (j :: l') j.1 := ⟨j, by simp, le_rfl, hne' j (by simp)⟩
      exact absurd ((hcov j.1).mpr hj) (covered_nil j.1)
  | cons i l ih =>
    have hi : i.1 ≤ i.2 := hne i (by simp)
    have hcovi : Covered (i :: l) i.1 := ⟨i, by simp, le_rfl, hi⟩
    cases l' with
    | nil => exact absurd ((hcov i.1).mp hcovi) (covered_nil i.1)
    | cons j l' =>
      have hj : j.1 ≤ j.2 := hne' j (by simp)
      have hcovj : Covered (j :: l') j.1 := ⟨j, by simp, le_rfl, hj⟩
      have hnel : ∀ k ∈ l, k.1 ≤ k.2 := fun k hk => hne k (List.mem_cons_of_mem _ hk)
      have hnel' : ∀ k ∈ l', k.1 ≤ k.2 := fun k hk => hne' k (List.mem_cons_of_mem _ hk)
      have hstart : i.1 = j.1 :=
        le_antisymm (start_le h hi ((hcov _).mpr hcovj)) (start_le h' hj ((hcov _).mp hcovi))
      have hend : i.2 = j.2 := by
        apply le_antisymm
        · exact end_le h' hj hnel' hstart fun x hx =>
            (hcov x).mp ((covered_cons i l x).mpr (Or.inl hx))
        · exact end_le h hi hnel hstart.symm fun x hx =>
            (hcov x).mpr ((covered_cons j l' x).mpr (Or.inl hx))
      have htail : ∀ x, Covered l x ↔ Covered l' x := by
        intro x
        rw [covered_tail h, covered_tail h', hcov x, hend]
      rw [Prod.ext hstart hend, ih hnel hnel' h.tail h'.tail htail]

end Interval

end OsLabs.Lib
