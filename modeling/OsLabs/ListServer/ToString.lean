import OsLabs.LinkedList.ToString
import OsLabs.Lib.MachineInt
import OsLabs.ListServer.Agreement

/-!
# The string of a list and its buffer

`listToString` of the list server, and the lists whose strings fit the 1024 bytes of the buffers of
the two libraries.  The server's `sendBuf` has the same size.
-/

namespace OsLabs.ListServer

open OsLabs.Lib
open OsLabs.LinkedList (ListT Represents printList listText)

def listToString (fuel : ℕ) (l : ListT) : Option (List Char) := printList " -> ".toList 32 fuel l

variable {separator : List Char} {size fuel : ℕ} {l : ListT} {xs : List ℤ}

/-- The string is printed, with at most 1023 characters. -/
def Fits (str : Option (List Char)) : Prop := ∃ s, str = some s ∧ s.length ≤ 1023

theorem length_listText (separator : List Char) (xs : List ℤ) :
    (listText separator xs).length =
      (xs.map fun x => decimalWidth x + separator.length).sum + 4 := by
  rw [listText, List.length_append, List.length_flatMap]
  congr 3
  funext x
  rw [List.length_append, length_decimal]

theorem decimalWidth_le {x : ℤ} (hx : InInt x) : decimalWidth x ≤ 11 := by
  rw [← length_decimal]
  obtain ⟨hlow, hhigh⟩ := hx
  exact length_decimal_le (by omega) (by omega)

theorem printList_fits_iff (hr : Represents l xs) (hfuel : xs.length ≤ fuel)
    (hint : ∀ x ∈ xs, InInt x) (hsize : 11 + separator.length < size) :
    Fits (printList separator size fuel l) ↔
      (xs.map fun x => decimalWidth x + separator.length).sum ≤ 1019 := by
  have hlength := length_listText separator xs
  have hpieces : ∀ x ∈ xs, (decimal x ++ separator).length < size := by
    intro x hx
    have hwidth := decimalWidth_le (hint x hx)
    rw [List.length_append, length_decimal]
    omega
  constructor
  · intro ⟨str, hprint, hle⟩
    obtain ⟨-, -, rfl⟩ := (LinkedList.printList_eq_some_iff hr hfuel).mp hprint
    omega
  · intro hsum
    refine ⟨listText separator xs, ?_, by omega⟩
    exact (LinkedList.printList_eq_some_iff hr hfuel).mpr ⟨hpieces, by omega, rfl⟩

/-- **Lists that fit their buffer.**  The string of a list stays in the buffer just when the widths
of the elements leave room for the arrows, with two characters for each in the linked-list library
and four in the server, and for the `NULL` at the end. -/
theorem listToString_fits_iff (hr : Represents l xs) (hfuel : xs.length ≤ fuel)
    (hint : ∀ x ∈ xs, InInt x) :
    (Fits (LinkedList.listToString fuel l) ↔
        (xs.map fun x => decimalWidth x + 2).sum ≤ 1019) ∧
      (Fits (listToString fuel l) ↔ (xs.map fun x => decimalWidth x + 4).sum ≤ 1019) :=
  ⟨printList_fits_iff hr hfuel hint (by decide), printList_fits_iff hr hfuel hint (by decide)⟩

theorem listToString_fits_sample :
    ∃ l, (LinkedList.listAddToFront (Allocator.above _) LinkedList.listAlloc (-12) >>= fun l =>
          LinkedList.listAddToFront (Allocator.above _) l 7) = some l ∧
      (Fits (LinkedList.listToString 2 l) ↔
          ([7, -12].map fun x => decimalWidth x + 2).sum ≤ 1019) ∧
        (Fits (listToString 2 l) ↔ ([7, -12].map fun x => decimalWidth x + 4).sum ≤ 1019) := by
  obtain ⟨l, hadd, hr⟩ :=
    LinkedList.listAddToFront_spec (Allocator.above _) LinkedList.represents_listAlloc (-12)
  obtain ⟨l', hadd', hr'⟩ := LinkedList.listAddToFront_spec (Allocator.above _) hr 7
  refine ⟨l', ?_, listToString_fits_iff hr' (by decide) (by decide)⟩
  rw [hadd, Option.bind_eq_bind, Option.bind_some, hadd']

/-- `add_front -2147483648`, 79 times. -/
def manyAdditions : List CommonOp := List.replicate 79 (.addToFront (-2147483648))

theorem manyAdditions_overflow :
    ∃ l l' answers, (commonLibrary (Allocator.above _) 79).run manyAdditions = some (l, answers) ∧
      (serverLibrary (Allocator.above _) 79).run manyAdditions = some (l', answers) ∧
      ¬ Fits (LinkedList.listToString 79 l) ∧ ¬ Fits (listToString 79 l') := by
  have hcontents : contents manyAdditions = List.replicate 79 (-2147483648) := by decide +kernel
  have hint : ∀ x ∈ contents manyAdditions, InInt x := by
    intro x hx
    rw [hcontents] at hx
    rw [List.eq_of_mem_replicate hx]
    decide
  have hlength : manyAdditions.length ≤ 79 := by decide +kernel
  have hfuel : (contents manyAdditions).length ≤ 79 := by
    rw [hcontents, List.length_replicate]
  obtain ⟨l, hrun, hr⟩ := commonLibrary_run (Allocator.above _) hlength
  obtain ⟨l', hrun', hr'⟩ := serverLibrary_run (Allocator.above _) hlength
  have hanswers : (serverSequence.run manyAdditions).2 = (commonSequence.run manyAdditions).2 := by
    decide +kernel
  rw [hanswers] at hrun'
  refine ⟨l, l', _, hrun, hrun', fun hfits => ?_, fun hfits => ?_⟩
  · have hsum := (printList_fits_iff hr hfuel hint (by decide)).mp hfits
    rw [hcontents] at hsum
    revert hsum
    decide +kernel
  · have hsum := (printList_fits_iff hr' hfuel hint (by decide)).mp hfits
    rw [hcontents] at hsum
    revert hsum
    decide +kernel

end OsLabs.ListServer
