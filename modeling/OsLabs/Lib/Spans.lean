import Mathlib.Data.List.TakeWhile
import Mathlib.Tactic

/-!
# Spans

A list that starts with elements of one kind and goes on with an element that is not of it: what
`takeWhile`, `dropWhile` and `all` make of it.
-/

namespace OsLabs.Lib

variable {α : Type*} {p : α → Bool}

/-- With an element that is not of the kind in it, a list goes on behind its span. -/
theorem exists_takeWhile_append_cons {sep : α} (hsep : p sep = false) (front back : List α) :
    ∃ c rest, p c = false ∧ front ++ sep :: back = front.takeWhile p ++ c :: rest := by
  induction front with
  | nil => exact ⟨sep, back, hsep, rfl⟩
  | cons d front ih =>
    cases hd : p d with
    | false => exact ⟨d, front ++ sep :: back, hd, by rw [List.takeWhile_cons, hd]; rfl⟩
    | true =>
      obtain ⟨c, rest, hc, heq⟩ := ih
      refine ⟨c, rest, hc, ?_⟩
      rw [List.takeWhile_cons, hd, List.cons_append, heq]
      rfl

variable {front rest : List α} (hfront : ∀ c ∈ front, p c = true)
  (hrest : ∀ c ∈ rest.head?, p c = false)

include hfront hrest

theorem dropWhile_append_of_all : (front ++ rest).dropWhile p = rest := by
  rw [List.dropWhile_append_of_pos hfront]
  cases rest with
  | nil => rfl
  | cons c rest =>
    rw [List.dropWhile_cons_of_neg]
    rw [hrest c rfl]
    exact Bool.false_ne_true

theorem takeWhile_append_of_all : (front ++ rest).takeWhile p = front := by
  rw [List.takeWhile_append_of_pos hfront]
  cases rest with
  | nil => rw [List.takeWhile_nil, List.append_nil]
  | cons c rest =>
    rw [List.takeWhile_cons_of_neg, List.append_nil]
    rw [hrest c rfl]
    exact Bool.false_ne_true

theorem all_append_of_all : (front ++ rest).all p = rest.isEmpty := by
  rw [List.all_append, List.all_eq_true.mpr hfront, Bool.true_and]
  cases rest with
  | nil => rfl
  | cons c rest =>
    rw [List.all_cons, hrest c rfl]
    rfl

end OsLabs.Lib
