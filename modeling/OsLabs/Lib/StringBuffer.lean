import Mathlib.Tactic

/-!
# Strings in buffers of a fixed size

`sprintf` and `strcat` into an array check no bound.  Here a store that goes beyond the array has no
result, so a computation made of them has one exactly if every string fits, with its `NUL`.
-/

namespace OsLabs.Lib

variable {α : Type*} {capacity size : ℕ}

/-- A string in an array, with its `NUL`. -/
def store (capacity : ℕ) (str : List Char) : Option (List Char) :=
  if str.length < capacity then some str else none

def strcat (capacity : ℕ) (dest src : List Char) : Option (List Char) :=
  store capacity (dest ++ src)

@[simp] theorem store_eq_some_iff {str str' : List Char} :
    store capacity str = some str' ↔ str.length < capacity ∧ str = str' := by
  simp [store]

@[simp] theorem strcat_eq_some_iff {dest src str : List Char} :
    strcat capacity dest src = some str ↔ (dest ++ src).length < capacity ∧ dest ++ src = str :=
  store_eq_some_iff

/-- A piece printed into a small array, and appended. -/
def appendPiece (capacity size : ℕ) (piece : α → List Char) (buffer : List Char) (x : α) :
    Option (List Char) := do
  let temp ← store size (piece x)
  strcat capacity buffer temp

theorem appendPiece_eq_some_iff {piece : α → List Char} {buffer str : List Char} {x : α} :
    appendPiece capacity size piece buffer x = some str ↔
      (piece x).length < size ∧ (buffer ++ piece x).length < capacity ∧ buffer ++ piece x = str := by
  simp [appendPiece, Option.bind_eq_some_iff]

/-- Pieces appended one after the other: the last string is the longest. -/
theorem foldlM_appendPiece_eq_some_iff {piece : α → List Char} {xs : List α}
    {buffer str : List Char} (hbuffer : buffer.length < capacity) :
    xs.foldlM (appendPiece capacity size piece) buffer = some str ↔
      (∀ x ∈ xs, (piece x).length < size) ∧ str.length < capacity ∧
        buffer ++ xs.flatMap piece = str := by
  induction xs generalizing buffer with
  | nil =>
    rw [List.foldlM_nil, List.flatMap_nil, List.append_nil]
    constructor
    · intro h
      obtain rfl := Option.some.inj h
      exact ⟨nofun, hbuffer, rfl⟩
    · intro h
      exact congrArg some h.2.2
  | cons x xs ih =>
    rw [List.foldlM_cons, List.flatMap_cons, List.forall_mem_cons]
    constructor
    · intro h
      obtain ⟨next, hfirst, hrest⟩ := Option.bind_eq_some_iff.mp h
      obtain ⟨hpiece, hnext, rfl⟩ := appendPiece_eq_some_iff.mp hfirst
      obtain ⟨hpieces, hfits, hstr⟩ := (ih hnext).mp hrest
      exact ⟨⟨hpiece, hpieces⟩, hfits, by rw [← hstr, List.append_assoc]⟩
    · intro ⟨⟨hpiece, hpieces⟩, hfits, hstr⟩
      have hnext : (buffer ++ piece x).length < capacity := by
        rw [← hstr, ← List.append_assoc, List.length_append] at hfits
        omega
      refine Option.bind_eq_some_iff.mpr
        ⟨buffer ++ piece x, appendPiece_eq_some_iff.mpr ⟨hpiece, hnext, rfl⟩, ?_⟩
      exact (ih hnext).mpr ⟨hpieces, hfits, by rw [← hstr, List.append_assoc]⟩

end OsLabs.Lib
