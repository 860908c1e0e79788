import Mathlib.Data.List.Sort

/-!
# Exact covers by lists of pieces

A list of pieces, each covering some points, covers a region exactly when every point of
the region lies in one piece and no other point lies in any.  Counting how many pieces
cover a point turns this into an additive statement, so that splitting a piece, merging
two of them or moving one between lists is a computation with `coverCount`.

The last section inserts into a sorted list by a test that may be stricter than the order.
-/

namespace OsLabs.Lib

variable {α ι : Type*} (covers : α → ι → Prop) [∀ a, DecidablePred (covers a)]

/-- How many pieces of the list cover the point `x`. -/
def coverCount (x : ι) (l : List α) : ℕ := l.countP fun a => decide (covers a x)

@[simp] theorem coverCount_nil (x : ι) : coverCount covers x [] = 0 := rfl

@[simp] theorem coverCount_cons (x : ι) (a : α) (l : List α) :
    coverCount covers x (a :: l) = coverCount covers x l + if covers a x then 1 else 0 := by
  simp [coverCount, List.countP_cons]

@[simp] theorem coverCount_append (x : ι) (l₁ l₂ : List α) :
    coverCount covers x (l₁ ++ l₂) = coverCount covers x l₁ + coverCount covers x l₂ :=
  List.countP_append

variable {covers}

theorem coverCount_perm {l₁ l₂ : List α} (h : l₁.Perm l₂) (x : ι) :
    coverCount covers x l₁ = coverCount covers x l₂ :=
  h.countP_eq _

theorem coverCount_pos_iff {x : ι} {l : List α} :
    0 < coverCount covers x l ↔ ∃ a ∈ l, covers a x := by
  simp [coverCount, List.countP_pos_iff]

/-- No point is covered twice exactly when the pieces are pairwise disjoint. -/
theorem pairwise_disjoint_iff {l : List α} :
    l.Pairwise (fun a b => ∀ x, ¬(covers a x ∧ covers b x)) ↔
      ∀ x, coverCount covers x l ≤ 1 := by
  induction l with
  | nil => simp
  | cons a l ih =>
    simp only [List.pairwise_cons, ih, coverCount_cons]
    constructor
    · rintro ⟨hd, hl⟩ x
      by_cases hx : covers a x
      · have h0 : ¬ 0 < coverCount covers x l := by
          rw [coverCount_pos_iff]
          rintro ⟨b, hb, hbx⟩
          exact hd b hb x ⟨hx, hbx⟩
        simp only [hx, if_true]
        omega
      · simpa [hx] using hl x
    · intro h
      refine ⟨?_, fun x => le_trans (Nat.le_add_right _ _) (h x)⟩
      rintro b hb x ⟨hax, hbx⟩
      have hpos : 0 < coverCount covers x l := coverCount_pos_iff.mpr ⟨b, hb, hbx⟩
      have hx := h x
      simp only [hax, if_true] at hx
      omega

variable (covers)

/-- Every point of `region` lies in exactly one piece, every other point in none. -/
def ExactCover (region : ι → Prop) [DecidablePred region] (l : List α) : Prop :=
  ∀ x, coverCount covers x l = if region x then 1 else 0

variable {covers} {region : ι → Prop} [DecidablePred region]

/-- Lists that cover every point equally often are exact covers of the same regions. -/
theorem ExactCover.congr {l₁ l₂ : List α} (h : ExactCover covers region l₁)
    (hcount : ∀ x, coverCount covers x l₂ = coverCount covers x l₁) :
    ExactCover covers region l₂ :=
  fun x => (hcount x).trans (h x)

theorem ExactCover.le_one {l : List α} (h : ExactCover covers region l) (x : ι) :
    coverCount covers x l ≤ 1 := by
  rw [h x]
  split <;> omega

theorem ExactCover.disjoint {l : List α} (h : ExactCover covers region l) :
    l.Pairwise (fun a b => ∀ x, ¬(covers a x ∧ covers b x)) :=
  pairwise_disjoint_iff.mpr h.le_one

theorem ExactCover.mem_region {l : List α} (h : ExactCover covers region l) (x : ι) :
    region x ↔ ∃ a ∈ l, covers a x := by
  rw [← coverCount_pos_iff, h x]
  split <;> simp_all

/-! ### Insertion into a sorted list -/

/-- `orderedInsert` keeps a list sorted by `s` whenever its test `r` implies `s` and a
failed test implies the converse of `s`. -/
theorem pairwise_orderedInsert {r s : α → α → Prop} [DecidableRel r]
    (himp : ∀ a b, r a b → s a b) (hnot : ∀ a b, ¬ r a b → s b a)
    (htrans : ∀ a b c, s a b → s b c → s a c) (a : α) {l : List α} (h : l.Pairwise s) :
    (l.orderedInsert r a).Pairwise s := by
  induction l with
  | nil => simp
  | cons b l ih =>
    obtain ⟨hb, hl⟩ := List.pairwise_cons.mp h
    rw [List.orderedInsert_cons]
    split
    · rename_i hab
      refine List.pairwise_cons.mpr ⟨?_, h⟩
      intro c hc
      rcases List.mem_cons.mp hc with rfl | hc
      · exact himp a c hab
      · exact htrans a b c (himp a b hab) (hb c hc)
    · rename_i hab
      refine List.pairwise_cons.mpr ⟨?_, ih hl⟩
      intro c hc
      rcases (List.mem_orderedInsert r).mp hc with rfl | hc
      · exact hnot c b hab
      · exact hb c hc

end OsLabs.Lib
