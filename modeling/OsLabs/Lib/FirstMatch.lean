import Mathlib.Tactic

/-!
# Updating the first match

`updateFirst p f l` applies `f` to the first element of `l` that satisfies `p`, as code does
that searches a linked list for a node and then changes that node.
-/

namespace OsLabs.Lib

variable {α β : Type*} {p : α → Bool} {f : α → α} {l : List α}

def updateFirst (p : α → Bool) (f : α → α) : List α → List α
  | [] => []
  | a :: l => if p a then f a :: l else a :: updateFirst p f l

theorem updateFirst_cons_of_pos {a : α} (h : p a = true) :
    updateFirst p f (a :: l) = f a :: l := by
  rw [updateFirst, if_pos h]

theorem updateFirst_cons_of_neg {a : α} (h : ¬ p a = true) :
    updateFirst p f (a :: l) = a :: updateFirst p f l := by
  rw [updateFirst, if_neg h]

/-- A column that `f` keeps is kept. -/
theorem map_updateFirst (g : α → β) (h : ∀ a, p a = true → g (f a) = g a) (l : List α) :
    (updateFirst p f l).map g = l.map g := by
  induction l with
  | nil => rfl
  | cons a l ih =>
    by_cases hp : p a = true
    · rw [updateFirst_cons_of_pos hp, List.map_cons, List.map_cons, h a hp]
    · rw [updateFirst_cons_of_neg hp, List.map_cons, List.map_cons, ih]

theorem mem_updateFirst {b : α} (h : b ∈ updateFirst p f l) :
    b ∈ l ∨ ∃ a, l.find? p = some a ∧ b = f a := by
  induction l with
  | nil => cases h
  | cons a l ih =>
    by_cases hp : p a = true
    · rw [updateFirst_cons_of_pos hp] at h
      rcases List.mem_cons.mp h with rfl | hb
      · exact Or.inr ⟨a, List.find?_cons_of_pos hp, rfl⟩
      · exact Or.inl (List.mem_cons_of_mem a hb)
    · rw [updateFirst_cons_of_neg hp] at h
      rw [List.find?_cons_of_neg hp]
      rcases List.mem_cons.mp h with rfl | hb
      · exact Or.inl List.mem_cons_self
      · exact (ih hb).imp_left (List.mem_cons_of_mem a)

theorem updateFirst_of_find?_eq_none (h : l.find? p = none) : updateFirst p f l = l := by
  induction l with
  | nil => rfl
  | cons a l ih =>
    by_cases ha : p a = true
    · rw [List.find?_cons_of_pos ha] at h
      cases h
    · rw [List.find?_cons_of_neg ha] at h
      rw [updateFirst_cons_of_neg ha, ih h]

theorem find?_updateFirst {a : α} (h : l.find? p = some a) (hp : p (f a) = true) :
    (updateFirst p f l).find? p = some (f a) := by
  induction l with
  | nil => cases h
  | cons b l ih =>
    by_cases hb : p b = true
    · rw [List.find?_cons_of_pos hb] at h
      obtain rfl := Option.some.inj h
      rw [updateFirst_cons_of_pos hb, List.find?_cons_of_pos hp]
    · rw [List.find?_cons_of_neg hb] at h
      rw [updateFirst_cons_of_neg hb, List.find?_cons_of_neg hb]
      exact ih h

/-- A search that neither the old nor the new value of the element meets is not changed. -/
theorem find?_updateFirst_of_not {q : α → Bool}
    (hq : ∀ a, p a = true → ¬ q a = true ∧ ¬ q (f a) = true) (l : List α) :
    (updateFirst p f l).find? q = l.find? q := by
  induction l with
  | nil => rfl
  | cons a l ih =>
    by_cases hp : p a = true
    · rw [updateFirst_cons_of_pos hp, List.find?_cons_of_neg (hq a hp).1,
        List.find?_cons_of_neg (hq a hp).2]
    · rw [updateFirst_cons_of_neg hp, List.find?_cons, List.find?_cons, ih]

/-- Where at most one element matches, the update is a map. -/
theorem updateFirst_eq_map (h : l.Pairwise fun a b => p a = true → ¬ p b = true) :
    updateFirst p f l = l.map fun a => if p a then f a else a := by
  induction l with
  | nil => rfl
  | cons a l ih =>
    obtain ⟨hfirst, hrest⟩ := List.pairwise_cons.mp h
    rw [List.map_cons]
    by_cases hp : p a = true
    · rw [updateFirst_cons_of_pos hp, if_pos hp]
      apply congrArg (f a :: ·)
      calc l = l.map id := (List.map_id l).symm
        _ = l.map fun a => if p a then f a else a :=
          List.map_congr_left fun b hb => (if_neg (hfirst b hb hp)).symm
    · rw [updateFirst_cons_of_neg hp, if_neg hp, ih hrest]

/-- The elements around the first match are kept. -/
theorem exists_updateFirst_eq_append {a : α} (h : l.find? p = some a) (f : α → α) :
    ∃ before after, l = before ++ a :: after ∧
      updateFirst p f l = before ++ f a :: after := by
  induction l with
  | nil => cases h
  | cons b l ih =>
    by_cases hb : p b = true
    · rw [List.find?_cons_of_pos hb] at h
      obtain rfl := Option.some.inj h
      exact ⟨[], l, rfl, updateFirst_cons_of_pos hb⟩
    · rw [List.find?_cons_of_neg hb] at h
      obtain ⟨before, after, hl, hupdate⟩ := ih h
      refine ⟨b :: before, after, by rw [hl, List.cons_append], ?_⟩
      rw [updateFirst_cons_of_neg hb, hupdate, List.cons_append]

/-- A column without repetitions stays so if the new value is the old one or not in it. -/
theorem nodup_map_updateFirst (g : α → β) (hl : (l.map g).Nodup) {a : α}
    (h : l.find? p = some a) :
    ((updateFirst p f l).map g).Nodup ↔ (g (f a) ∈ l.map g → g (f a) = g a) := by
  obtain ⟨before, after, rfl, hupdate⟩ := exists_updateFirst_eq_append h f
  rw [hupdate]
  rw [List.map_append, List.map_cons, List.nodup_middle, List.nodup_cons] at hl ⊢
  rw [List.map_append, List.map_cons, List.perm_middle.mem_iff, List.mem_cons]
  obtain ⟨hold, hrest⟩ := hl
  constructor
  · intro hnew hmem
    exact hmem.resolve_right hnew.1
  · intro hsame
    refine ⟨fun hmem => ?_, hrest⟩
    rw [hsame (Or.inr hmem)] at hmem
    exact hold hmem

/-- The sum of a column changes at the first match only. -/
theorem sum_map_updateFirst (g : α → ℕ) {a : α} (h : l.find? p = some a) :
    ((updateFirst p f l).map g).sum + g a = (l.map g).sum + g (f a) := by
  induction l with
  | nil => cases h
  | cons b l ih =>
    by_cases hp : p b = true
    · rw [List.find?_cons_of_pos hp] at h
      obtain rfl := Option.some.inj h
      rw [updateFirst_cons_of_pos hp, List.map_cons, List.map_cons, List.sum_cons,
        List.sum_cons]
      omega
    · rw [List.find?_cons_of_neg hp] at h
      rw [updateFirst_cons_of_neg hp, List.map_cons, List.map_cons, List.sum_cons,
        List.sum_cons]
      have := ih h
      omega

end OsLabs.Lib
