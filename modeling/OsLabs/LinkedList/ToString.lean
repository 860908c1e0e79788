import OsLabs.LinkedList.Sequence
import OsLabs.Lib.ScanDecimal
import OsLabs.Lib.StringBuffer

/-!
# The string of a list

`listToString` prints the elements one after the other into a buffer of 1024 bytes, without a look
at what is left of it.  Its string determines the list: an arrow starts like a negative number,
but it stands behind the digits of the number before.
-/

namespace OsLabs.LinkedList

open OsLabs.Lib

section

variable (separator : List Char) (size fuel : ℕ) (l : ListT)

/-- The body of the loop: an element printed into `temp`, which has `size` bytes, and appended. -/
def appendElement (s : Ptr × List Char) : Option (Ptr × List Char) := do
  let temp ← store size (decimal (← value l.heap s.1) ++ separator)
  let buffer ← strcat 1024 s.2 temp
  return (← next l.heap s.1, buffer)

/-- What the `listToString` of the two libraries share; `none` is a store behind an array. -/
def printList : Option (List Char) := do
  let (_, buffer) ← whileLoopM (fun s => some s.1.isSome) (appendElement separator size l) fuel
    (l.head, [])
  strcat 1024 buffer "NULL".toList

def listToString : Option (List Char) := printList "->".toList 50 fuel l

end

/-- The text of a list. -/
def listText (separator : List Char) (xs : List ℤ) : List Char :=
  xs.flatMap (fun x => decimal x ++ separator) ++ "NULL".toList

variable {separator : List Char} {size fuel : ℕ} {l : ListT} {xs : List ℤ}

theorem appendElement_some {a : ℕ} {x : ℤ} {r : Ptr} (ha : l.heap.lookup a = some ⟨x, r⟩)
    (buffer : List Char) :
    appendElement separator size l (some a, buffer) =
      (appendPiece 1024 size (fun x => decimal x ++ separator) buffer x).map
        fun buffer => (r, buffer) := by
  simp only [appendElement, appendPiece, value_some ha, next_some ha, Option.bind_eq_bind,
    Option.bind_some, Option.map_eq_bind, Option.bind_assoc]
  rfl

/-- The text is printed if it fits, and so does each element in `temp`. -/
theorem printList_eq_some_iff (hr : Represents l xs) (hfuel : xs.length ≤ fuel)
    {str : List Char} :
    printList separator size fuel l = some str ↔
      (∀ x ∈ xs, (decimal x ++ separator).length < size) ∧ str.length < 1024 ∧
        listText separator xs = str := by
  obtain ⟨cells, ho, rfl⟩ := hr
  rw [List.length_map] at hfuel
  have hwalk : whileLoopM (fun s => some s.1.isSome) (appendElement separator size l) fuel
      (l.head, []) =
      ((cells.map Prod.snd).foldlM (appendPiece 1024 size fun x => decimal x ++ separator) []).map
        fun buffer => (none, buffer) :=
    ho.linked.whileLoopM_foldlM _ (fun _ _ => rfl)
      (fun a x r buffer ha => appendElement_some ha buffer) hfuel []
  rw [printList, hwalk]
  simp only [Option.bind_eq_bind, Option.bind_map, Option.bind_eq_some_iff, Function.comp_apply]
  constructor
  · intro ⟨buffer, hfold, hlast⟩
    rw [foldlM_appendPiece_eq_some_iff (by decide)] at hfold
    obtain ⟨hpieces, -, rfl⟩ := hfold
    obtain ⟨hfits, rfl⟩ := strcat_eq_some_iff.mp hlast
    exact ⟨hpieces, hfits, rfl⟩
  · intro ⟨hpieces, hfits, hstr⟩
    rw [← hstr, listText] at hfits ⊢
    have hbuffer : ((cells.map Prod.snd).flatMap fun x => decimal x ++ separator).length < 1024 := by
      rw [List.length_append] at hfits
      omega
    refine ⟨_, (foldlM_appendPiece_eq_some_iff (by decide)).mpr ⟨hpieces, hbuffer, rfl⟩, ?_⟩
    exact strcat_eq_some_iff.mpr ⟨hfits, rfl⟩

/-! ### Reading a list back -/

/-- Reads at most `fuel` elements, each with the arrow behind it. -/
def parseElements : ℕ → List Char → Option (List ℤ)
  | 0, _ => none
  | fuel + 1, str =>
    match (fileAt str).scanInt with
    | (some x, f) =>
      match f.rest with
      | '-' :: '>' :: rest => (parseElements fuel rest).map (x :: ·)
      | _ => none
    | (none, _) => if str = "NULL".toList then some [] else none

def parseList (str : List Char) : Option (List ℤ) := parseElements str.length str

theorem parseElements_listText {fuel : ℕ} (hfuel : xs.length < fuel) :
    parseElements fuel (listText "->".toList xs) = some xs := by
  induction xs generalizing fuel with
  | nil =>
    obtain ⟨fuel, rfl⟩ := Nat.exists_eq_add_one.mpr (Nat.zero_lt_of_lt hfuel)
    rfl
  | cons x xs ih =>
    obtain ⟨fuel, rfl⟩ := Nat.exists_eq_add_one.mpr (Nat.zero_lt_of_lt hfuel)
    have htext : (fileAt (listText "->".toList (x :: xs))).rest =
        decimal x ++ ('-' :: '>' :: listText "->".toList xs) := by
      show listText "->".toList (x :: xs) = _
      rw [listText, List.flatMap_cons, List.append_assoc, List.append_assoc]
      rfl
    have hstop : NoDigitFirst ('-' :: '>' :: listText "->".toList xs) := by
      intro c hc
      obtain rfl : '-' = c := Option.mem_some_iff.mp hc
      rfl
    rw [parseElements, File.scanInt_decimal htext hstop]
    show (parseElements fuel (listText "->".toList xs)).map (x :: ·) = _
    rw [ih (Nat.lt_of_succ_lt_succ hfuel)]
    rfl

theorem length_lt_length_listText (separator : List Char) (xs : List ℤ) :
    xs.length < (listText separator xs).length := by
  induction xs with
  | nil => exact Nat.succ_pos 3
  | cons x xs ih =>
    have hx : 0 < (decimal x).length := List.length_pos_iff.mpr (decimal_ne_nil x)
    rw [listText, List.length_append] at ih ⊢
    rw [List.flatMap_cons, List.length_append, List.length_append, List.length_cons]
    omega

/-- **The string of a list determines it.**  The parser reads the elements back, so two lists with
the same string have the same elements. -/
theorem listToString_determines {l l' : ListT} {xs ys : List ℤ} {fuel fuel' : ℕ}
    {str : List Char} (hr : Represents l xs) (hr' : Represents l' ys)
    (hfuel : xs.length ≤ fuel) (hfuel' : ys.length ≤ fuel')
    (hstr : listToString fuel l = some str) (hstr' : listToString fuel' l' = some str) :
    parseList str = some xs ∧ xs = ys := by
  obtain ⟨-, -, htext⟩ := (printList_eq_some_iff hr hfuel).mp hstr
  obtain ⟨-, -, htext'⟩ := (printList_eq_some_iff hr' hfuel').mp hstr'
  have hparse : parseList str = some xs := by
    rw [parseList, ← htext]
    exact parseElements_listText (length_lt_length_listText _ xs)
  have hparse' : parseList str = some ys := by
    rw [parseList, ← htext']
    exact parseElements_listText (length_lt_length_listText _ ys)
  exact ⟨hparse, Option.some.inj (hparse.symm.trans hparse')⟩

/-- 12 and -5, added to the front of one list and to the back of another one. -/
theorem listToString_determines_sample :
    ∃ l l', (listAddToFront (Allocator.above _) listAlloc (-5) >>= fun l =>
          listAddToFront (Allocator.above _) l 12) = some l ∧
      (listAddToBack (Allocator.above _) 2 listAlloc 12 >>= fun l =>
          listAddToBack (Allocator.above _) 2 l (-5)) = some l' ∧
      l.head = some 2 ∧ l'.head = some 1 ∧
      listToString 2 l = some "12->-5->NULL".toList ∧
      listToString 2 l' = some "12->-5->NULL".toList ∧
      parseList "12->-5->NULL".toList = some [12, -5] ∧ [12, -5] = [12, (-5 : ℤ)] := by
  obtain ⟨l₁, hfront₁, hr₁⟩ := listAddToFront_spec (Allocator.above _) represents_listAlloc (-5)
  obtain ⟨l, hfront, hr⟩ := listAddToFront_spec (Allocator.above _) hr₁ 12
  obtain ⟨l₂, hback₂, hr₂⟩ :=
    listAddToBack_spec (Allocator.above _) represents_listAlloc (Nat.zero_le 2) 12
  obtain ⟨l', hback, hr'⟩ :=
    listAddToBack_spec (Allocator.above _) hr₂ (Nat.le_succ 1 : [12].length ≤ 2) (-5)
  have hstr : ∀ {l : ListT}, Represents l [12, -5] →
      listToString 2 l = some "12->-5->NULL".toList := fun hl =>
    (printList_eq_some_iff hl (by decide)).mpr ⟨by decide, by decide, by decide⟩
  have hfronts : (listAddToFront (Allocator.above _) listAlloc (-5) >>= fun l =>
      listAddToFront (Allocator.above _) l 12) = some l := by
    rw [hfront₁, Option.bind_eq_bind, Option.bind_some, hfront]
  have hbacks : (listAddToBack (Allocator.above _) 2 listAlloc 12 >>= fun l =>
      listAddToBack (Allocator.above _) 2 l (-5)) = some l' := by
    rw [hback₂, Option.bind_eq_bind, Option.bind_some, hback]
  have hhead : ((listAddToFront (Allocator.above _) listAlloc (-5) >>= fun l =>
      listAddToFront (Allocator.above _) l 12).map ListT.head) = some (some 2) := by
    decide +kernel
  have hhead' : ((listAddToBack (Allocator.above _) 2 listAlloc 12 >>= fun l =>
      listAddToBack (Allocator.above _) 2 l (-5)).map ListT.head) = some (some 1) := by
    decide +kernel
  rw [hfronts] at hhead
  rw [hbacks] at hhead'
  exact ⟨l, l', hfronts, hbacks, Option.some.inj hhead, Option.some.inj hhead', hstr hr, hstr hr',
    listToString_determines hr hr' (by decide) (by decide) (hstr hr) (hstr hr')⟩

end OsLabs.LinkedList
