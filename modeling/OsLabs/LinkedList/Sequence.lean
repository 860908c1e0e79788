import OsLabs.LinkedList.List

/-!
# The linked-list library refines a sequence

A sequence of integers with the ten operations of the library, and the chain of nodes as its
implementation: after any operations the nodes on the heap are the ones of the chain, in the
order of the sequence, and every answer is the one of the sequence.
-/

namespace OsLabs.LinkedList

open OsLabs.Lib

inductive ListOp
  | addToBack (value : ℤ)
  | addToFront (value : ℤ)
  | addAtIndex (value index : ℤ)
  | removeFromBack
  | removeFromFront
  | removeAtIndex (index : ℤ)
  | length
  | isIn (value : ℤ)
  | getElemAt (index : ℤ)
  | getIndexOf (value : ℤ)

inductive Answer
  | void
  | int (n : ℤ)
  | bool (b : Bool)
  deriving DecidableEq

/-! ### The sequence -/

/-- The operations on the sequence; `index.toNat` is `max index 0`. -/
def intSequence : AbstractType (List ℤ) ListOp Answer where
  init := []
  step xs
    | .addToBack value => (xs ++ [value], .void)
    | .addToFront value => (value :: xs, .void)
    | .addAtIndex value index => (xs.insertIdx (min index.toNat xs.length) value, .void)
    | .removeFromBack => (xs.dropLast, .int (xs.getLast?.getD (-1)))
    | .removeFromFront => (xs.tail, .int (xs.head?.getD (-1)))
    | .removeAtIndex index =>
      if h : index.toNat < xs.length then
        (xs.eraseIdx index.toNat, .int xs[index.toNat])
      else (xs, .int (-1))
    | .length => (xs, .int xs.length)
    | .isIn value => (xs, .bool (decide (value ∈ xs)))
    | .getElemAt index =>
      (xs, .int (if index < 0 then -1 else xs[index.toNat]?.getD (-1)))
    | .getIndexOf value => (xs, .int (if value ∈ xs then xs.idxOf value else -1))

/-- Erasing an index that does not exist leaves the sequence as it is. -/
theorem intSequence_removeAtIndex (xs : List ℤ) (index : ℤ) :
    intSequence.step xs (.removeAtIndex index) =
      (xs.eraseIdx index.toNat, .int (xs[index.toNat]?.getD (-1))) := by
  simp only [intSequence]
  split
  · rename_i hlt
    rw [List.getElem?_eq_getElem hlt, Option.getD_some]
  · rename_i hge
    rw [List.eraseIdx_of_length_le (not_lt.mp hge), List.getElem?_eq_none (not_lt.mp hge),
      Option.getD_none]

/-! ### The chain -/

def library (alloc : Allocator (Node ℤ)) (fuel : ℕ) : Component ListT ListOp Answer where
  init := listAlloc
  step l
    | .addToBack value => (listAddToBack alloc fuel l value).map fun l => (l, .void)
    | .addToFront value => (listAddToFront alloc l value).map fun l => (l, .void)
    | .addAtIndex value index => (listAddAtIndex alloc fuel l value index).map fun l => (l, .void)
    | .removeFromBack => (listRemoveFromBack fuel l).map fun p => (p.1, .int p.2)
    | .removeFromFront => (listRemoveFromFront l).map fun p => (p.1, .int p.2)
    | .removeAtIndex index => (listRemoveAtIndex fuel l index).map fun p => (p.1, .int p.2)
    | .length => (listLength fuel l).map fun n => (l, .int n)
    | .isIn value => (listIsIn fuel l value).map fun b => (l, .bool b)
    | .getElemAt index => (listGetElemAt fuel l index).map fun x => (l, .int x)
    | .getIndexOf value => (listGetIndexOf fuel l value).map fun n => (l, .int n)

/-- The nodes of the heap are the chain from the head, with the values of the sequence. -/
def Represents (l : ListT) (xs : List ℤ) : Prop :=
  ∃ cells, Owns l.heap l.head cells ∧ cells.map Prod.snd = xs

theorem Represents.unique {l : ListT} {xs ys : List ℤ} (hxs : Represents l xs)
    (hys : Represents l ys) : xs = ys := by
  obtain ⟨cs, hcs, rfl⟩ := hxs
  obtain ⟨ds, hds, rfl⟩ := hys
  rw [hcs.linked.unique hds.linked]

theorem represents_listAlloc : Represents listAlloc [] := ⟨[], Owns.nil, rfl⟩

variable (alloc : Allocator (Node ℤ)) {fuel : ℕ} {l : ListT} {h : Heap (Node ℤ)} {head : Ptr}
  {cells : List (ℕ × ℤ)} {xs : List ℤ}

theorem exists_append_cons_of_lt (cells : List (ℕ × ℤ)) {k : ℕ} (hk : k < cells.length) :
    ∃ cs a x ds, cells = cs ++ (a, x) :: ds ∧ cs.length = k :=
  ⟨cells.take k, cells[k].1, cells[k].2, cells.drop (k + 1), by simp, by simp; omega⟩

theorem exists_append_of_drop {n : ℕ} {c : ℕ × ℤ} {ds : List (ℕ × ℤ)}
    (hdrop : cells.drop n = c :: ds) : ∃ cs, cells = cs ++ c :: ds ∧ cs.length = n := by
  refine ⟨cells.take n, by rw [← hdrop, List.take_append_drop], List.length_take_of_le ?_⟩
  by_contra hlt
  rw [List.drop_of_length_le (not_le.mp hlt).le] at hdrop
  cases hdrop

theorem insertIdx_append_cons (xs ys : List ℤ) (x y : ℤ) :
    (xs ++ x :: ys).insertIdx (xs.length + 1) y = xs ++ x :: y :: ys := by
  induction xs with
  | nil => rfl
  | cons z xs ih => simpa using ih

/-! ### Walks -/

theorem advance_some {a k : ℕ} {x : ℤ} {r : Ptr} (ha : l.heap.lookup a = some ⟨x, r⟩) :
    advance l (some a, (k : ℤ)) = some (r, ((k + 1 : ℕ) : ℤ)) := by
  simp [advance, next_some ha]

/-- A loop that advances and counts. -/
theorem whileLoopM_advance {guard : Ptr × ℤ → Option Bool} {p q : Ptr}
    (hl : Linked l.heap p cells q)
    (hpass : ∀ cs a x ds r, cells = cs ++ (a, x) :: ds → l.heap.lookup a = some ⟨x, r⟩ →
      Linked l.heap r ds q → guard (some a, cs.length) = some true)
    (hstop : guard (q, cells.length) = some false) (hfuel : cells.length ≤ fuel) :
    whileLoopM guard (advance l) fuel (p, 0) = some (q, (cells.length : ℤ)) :=
  hl.whileLoopM_eq (fun p k => (p, (k : ℤ))) (fun _ _ _ _ ha => advance_some ha) hpass hstop hfuel

/-- The walk to the node behind which an index is. -/
theorem findBefore_spec (hl : Linked l.heap l.head cells none) (hne : cells ≠ []) {index : ℤ}
    (hpos : 0 < index) (hfuel : cells.length ≤ fuel) :
    ∃ cs a x ds, cells = cs ++ (a, x) :: ds ∧ findBefore fuel l index = some (some a) ∧
      cs.length + 1 = min index.toNat cells.length := by
  have hlen := List.length_pos_iff.mpr hne
  obtain ⟨cs, a, x, ds, rfl, hk⟩ :=
    exists_append_cons_of_lt cells (k := min index.toNat cells.length - 1) (by omega)
  refine ⟨cs, a, x, ds, rfl, ?_, by omega⟩
  obtain ⟨hcs, r, ha, hds⟩ := linked_append_cons.mp hl
  rw [List.length_append, List.length_cons] at hk hfuel
  rw [findBefore, whileLoopM_advance hcs ?_ ?_ (by omega)]
  · rfl
  · intro cs' b y ds' r' hsplit hb hds'
    have hlt : (cs'.length : ℤ) < index - 1 := by
      have := congrArg List.length hsplit
      rw [List.length_append, List.length_cons] at this
      omega
    simp [next_some hb, hds'.isSome, hlt]
  · rcases Nat.eq_zero_or_pos ds.length with hnil | hcons
    · obtain rfl := List.length_eq_zero_iff.mp hnil
      obtain rfl : r = none := hds
      simp [next_some ha]
    · have hge : ¬ (cs.length : ℤ) < index - 1 := by omega
      simp [next_some ha, hge]

/-! ### Adding -/

theorem listAddToFront_spec (hr : Represents l xs) (value : ℤ) :
    ∃ l', listAddToFront alloc l value = some l' ∧ Represents l' (value :: xs) := by
  obtain ⟨cells, ho, rfl⟩ := hr
  refine ⟨⟨some (alloc.pick l.heap), l.heap.insert (alloc.pick l.heap) ⟨value, l.head⟩⟩, ?_,
    (alloc.pick l.heap, value) :: cells, ho.push (alloc.pick_notMem _) value, rfl⟩
  simp [listAddToFront, getNode, Heap.malloc, setNext_some (Finmap.lookup_insert l.heap),
    Finmap.insert_insert]

theorem findLast_spec {a : ℕ} {x : ℤ} (hl : Linked h head (cells ++ [(a, x)]) none)
    (hfuel : cells.length ≤ fuel) : findLast fuel h head = some (some a) := by
  obtain ⟨hcs, r, ha, hnil⟩ := linked_append_cons.mp hl
  obtain rfl : r = none := hnil
  rw [findLast]
  refine hcs.whileLoopM_eq (fun p _ => p) (fun _ _ _ _ hb => next_some hb)
    (fun cs' b y ds' r' _ hb hds' => ?_) ?_ hfuel
  · simp [next_some hb, hds'.isSome]
  · simp [next_some ha]

theorem listAddToBack_spec (hr : Represents l xs) (hfuel : xs.length ≤ fuel) (value : ℤ) :
    ∃ l', listAddToBack alloc fuel l value = some l' ∧ Represents l' (xs ++ [value]) := by
  obtain ⟨cells, ho, rfl⟩ := hr
  have hpick := alloc.pick_notMem l.heap
  rw [listAddToBack, getNode, Heap.malloc]
  generalize alloc.pick l.heap = n at hpick ⊢
  rcases List.eq_nil_or_concat' cells with rfl | ⟨cs, ⟨a, x⟩, rfl⟩
  · have hnone : l.head = none := ho.linked
    have hpush := ho.push hpick value
    rw [hnone] at hpush
    exact ⟨⟨some n, l.heap.insert n ⟨value, none⟩⟩, if_pos hnone, [(n, value)], hpush, rfl⟩
  · obtain ⟨hcs, r, ha, hnil⟩ := linked_append_cons.mp ho.linked
    obtain rfl : r = none := hnil
    have hsome : l.head ≠ none := Option.isSome_iff_ne_none.mp hcs.isSome
    have ha' := Heap.lookup_insert_of_notMem ha hpick ⟨value, none⟩
    -- the walk is on the heap that has the new node already
    have hlast : findLast fuel (l.heap.insert n ⟨value, none⟩) l.head = some (some a) :=
      findLast_spec (ho.linked.insert hpick ⟨value, none⟩) (by simp at hfuel; omega)
    refine ⟨⟨l.head, (l.heap.insert n ⟨value, none⟩).insert a ⟨x, some n⟩⟩, ?_,
      cs ++ (a, x) :: [(n, value)], ho.insertAfter ha hpick value, by simp⟩
    simp only [if_neg hsome]
    simp [hlast, setNext_some ha']

/-- A new node behind a node inserts its value behind that node's. -/
theorem represents_insertAfter {a n : ℕ} {x : ℤ} {r : Ptr} {cs ds : List (ℕ × ℤ)}
    (ho : Owns l.heap l.head (cs ++ (a, x) :: ds)) (ha : l.heap.lookup a = some ⟨x, r⟩)
    (hn : n ∉ l.heap) (value : ℤ) :
    Represents ⟨l.head, (l.heap.insert n ⟨value, r⟩).insert a ⟨x, some n⟩⟩
      (((cs ++ (a, x) :: ds).map Prod.snd).insertIdx (cs.length + 1) value) := by
  refine ⟨cs ++ (a, x) :: (n, value) :: ds, ho.insertAfter ha hn value, ?_⟩
  have hinsert := insertIdx_append_cons (cs.map Prod.snd) (ds.map Prod.snd) x value
  rw [List.length_map] at hinsert
  simp [hinsert]

theorem listAddAtIndex_spec (hr : Represents l xs) (hfuel : xs.length ≤ fuel)
    (value index : ℤ) :
    ∃ l', listAddAtIndex alloc fuel l value index = some l' ∧
      Represents l' (xs.insertIdx (min index.toNat xs.length) value) := by
  obtain ⟨cells, ho, rfl⟩ := hr
  rw [listAddAtIndex]
  split
  · rename_i hfront
    have hmin : min index.toNat (cells.map Prod.snd).length = 0 := by
      rcases hfront with hindex | hnone
      · omega
      · simp [ho.eq_none_iff.mp hnone]
    rw [hmin, List.insertIdx_zero]
    exact listAddToFront_spec alloc ⟨cells, ho, rfl⟩ value
  · rename_i hback
    obtain ⟨hpos, hsome⟩ := not_or.mp hback
    have hne : cells ≠ [] := mt ho.eq_none_iff.mpr hsome
    obtain ⟨cs, a, x, ds, rfl, hfind, hlen⟩ :=
      findBefore_spec ho.linked hne (not_le.mp hpos) (by simpa using hfuel)
    obtain ⟨r, ha, -⟩ := ho.lookup
    have hpick := alloc.pick_notMem l.heap
    rw [hfind, getNode, Heap.malloc]
    generalize alloc.pick l.heap = n at hpick ⊢
    have ha' := Heap.lookup_insert_of_notMem ha hpick
    rw [List.length_map, ← hlen]
    refine ⟨_, ?_, represents_insertAfter ho ha hpick value⟩
    simp [setNext_some (Finmap.lookup_insert l.heap), next_some (ha' _), setNext_some (ha' _),
      Finmap.insert_insert]

/-! ### Removing -/

theorem listRemoveFromFront_spec (hr : Represents l xs) :
    ∃ l', listRemoveFromFront l = some (l', xs.head?.getD (-1)) ∧ Represents l' xs.tail := by
  obtain ⟨cells, ho, rfl⟩ := hr
  cases cells with
  | nil =>
    have hnone : l.head = none := ho.linked
    exact ⟨l, if_pos hnone, [], ho, rfl⟩
  | cons c cells =>
    obtain ⟨hhead, r, ha, -⟩ := ho.linked
    rw [hhead] at ho
    refine ⟨⟨r, l.heap.erase c.1⟩, ?_, cells, ho.pop ha, rfl⟩
    simp [listRemoveFromFront, hhead, value_some ha, next_some ha, Heap.free_some ha]

theorem findLastButOne_spec {a b : ℕ} {x y : ℤ}
    (hl : Linked l.heap l.head (cells ++ [(a, x), (b, y)]) none) (hfuel : cells.length ≤ fuel) :
    findLastButOne fuel l = some (some a) := by
  obtain ⟨hcs, p, ha, rfl, r, hb, hnil⟩ := linked_append_cons.mp hl
  obtain rfl : r = none := hnil
  rw [findLastButOne]
  refine hcs.whileLoopM_eq (fun p _ => p) (fun _ _ _ _ hc => next_some hc)
    (fun cs' c z ds' r' _ hc hds' => ?_) ?_ hfuel
  · cases ds' with
    | nil =>
      obtain rfl : r' = some a := hds'
      simp [next_some hc, next_some ha]
    | cons d ds' =>
      obtain ⟨rfl, r'', hd, hrest⟩ := hds'
      simp [next_some hc, next_some hd, hrest.isSome]
  · simp [next_some ha, next_some hb]

theorem listRemoveFromBack_spec (hr : Represents l xs) (hfuel : xs.length ≤ fuel) :
    ∃ l', listRemoveFromBack fuel l = some (l', xs.getLast?.getD (-1)) ∧
      Represents l' xs.dropLast := by
  obtain ⟨cells, ho, rfl⟩ := hr
  rcases List.eq_nil_or_concat' cells with rfl | ⟨cs, ⟨b, y⟩, rfl⟩
  · have hnone : l.head = none := ho.linked
    exact ⟨l, if_pos hnone, [], ho, rfl⟩
  obtain ⟨hcs, r, hb, hnil⟩ := linked_append_cons.mp ho.linked
  obtain rfl : r = none := hnil
  have hsome : l.head ≠ none := Option.isSome_iff_ne_none.mp hcs.isSome
  rcases List.eq_nil_or_concat' cs with rfl | ⟨cs, ⟨a, x⟩, rfl⟩
  · have hhead : l.head = some b := hcs
    have hpop := ho
    rw [hhead] at hpop
    refine ⟨⟨none, l.heap.erase b⟩, ?_, [], hpop.pop hb, rfl⟩
    simp [listRemoveFromBack, hhead, value_some hb, next_some hb, Heap.free_some hb]
  · obtain ⟨-, r, ha, rfl⟩ := linked_append_cons.mp hcs
    have ho' : Owns l.heap l.head (cs ++ (a, x) :: (b, y) :: []) := by simpa using ho
    have hfind : findLastButOne fuel l = some (some a) :=
      findLastButOne_spec ho'.linked (by simp at hfuel; omega)
    obtain ⟨second, hsecond⟩ := hcs.next_eq_some (by simp)
    have hne : a ≠ b := (ho'.ne_of_mem (c := (b, y)) (by simp)).symm
    have ha' : (l.heap.erase b).lookup a = some ⟨x, some b⟩ := by
      rw [Finmap.lookup_erase_ne hne, ha]
    refine ⟨⟨l.head, (l.heap.insert a ⟨x, none⟩).erase b⟩, ?_, cs ++ [(a, x)],
      ho'.removeAfter hb, by simp⟩
    simp [listRemoveFromBack, hsome, hsecond, hfind, next_some ha, value_some hb,
      Heap.free_some hb, setNext_some ha', Heap.erase_insert_of_ne hne]

theorem listRemoveAtIndex_spec (hr : Represents l xs) (hfuel : xs.length ≤ fuel) (index : ℤ) :
    ∃ l', listRemoveAtIndex fuel l index = some (l', xs[index.toNat]?.getD (-1)) ∧
      Represents l' (xs.eraseIdx index.toNat) := by
  obtain ⟨cells, ho, rfl⟩ := hr
  rcases eq_or_ne cells [] with rfl | hne
  · have hnone : l.head = none := ho.linked
    exact ⟨l, if_pos hnone, [], ho, rfl⟩
  have hsome : l.head ≠ none := mt ho.eq_none_iff.mp hne
  rw [listRemoveAtIndex, if_neg hsome]
  split
  · rename_i hfront
    have hzero : index.toNat = 0 := by omega
    rw [hzero, ← List.head?_eq_getElem?, List.eraseIdx_zero]
    exact listRemoveFromFront_spec ⟨cells, ho, rfl⟩
  · rename_i hpos
    obtain ⟨cs, a, x, ds, rfl, hfind, hlen⟩ :=
      findBefore_spec ho.linked hne (not_le.mp hpos) (by simpa using hfuel)
    rw [List.length_append, List.length_cons] at hlen
    obtain ⟨r, ha, hds⟩ := ho.lookup
    cases ds with
    | nil =>
      obtain rfl : r = none := hds
      have hge : ((cs ++ [(a, x)]).map Prod.snd).length ≤ index.toNat := by
        simp at hlen ⊢
        omega
      rw [List.getElem?_eq_none hge, List.eraseIdx_of_length_le hge]
      exact ⟨l, by simp [hfind, next_some ha], _, ho, rfl⟩
    | cons d ds =>
      obtain ⟨b, y⟩ := d
      obtain ⟨rfl, r, hb, -⟩ := hds
      have hindex : index.toNat = cs.length + 1 := by
        simp at hlen
        omega
      refine ⟨⟨l.head, (l.heap.insert a ⟨x, r⟩).erase b⟩, ?_, cs ++ (a, x) :: ds,
        ho.removeAfter hb, ?_⟩
      · have hne' : b ≠ a := ho.ne_of_mem (c := (b, y)) (by simp)
        have hb' : (l.heap.insert a ⟨x, r⟩).lookup b = some ⟨y, r⟩ := by
          rw [Finmap.lookup_insert_of_ne _ hne', hb]
        simp [hfind, next_some ha, value_some hb, next_some hb, setNext_some ha,
          Heap.free_some hb', hindex]
      · simp [hindex, List.eraseIdx_append_of_length_le]

/-! ### Queries -/

theorem listLength_spec (hr : Represents l xs) (hfuel : xs.length ≤ fuel) :
    listLength fuel l = some (xs.length : ℤ) := by
  obtain ⟨cells, ho, rfl⟩ := hr
  rw [List.length_map] at hfuel ⊢
  rw [listLength, whileLoopM_advance ho.linked (fun _ _ _ _ _ _ _ _ => rfl) rfl hfuel]
  rfl

/-- The walk ends at the first node with the value, or behind the last node. -/
theorem findValue_spec (hr : Represents l xs) (hfuel : xs.length ≤ fuel) (val : ℤ) :
    ∃ q : Ptr, findValue fuel l val = some (q, (xs.idxOf val : ℤ)) ∧
      q.isSome = decide (val ∈ xs) := by
  obtain ⟨cells, ho, rfl⟩ := hr
  rw [List.length_map] at hfuel
  -- the walk passes every cell up to one that holds the value
  have hwalk : ∀ cs q, Linked l.heap l.head cs q → val ∉ cs.map Prod.snd → cs.length ≤ fuel →
      (q = none ∨ value l.heap q = some val) →
      findValue fuel l val = some (q, (cs.length : ℤ)) := by
    intro cs q hcs hout hlen hq
    rw [findValue]
    refine whileLoopM_advance hcs (fun cs' b y ds' r' hsplit hb _ => ?_) ?_ hlen
    · have hne : y ≠ val := by
        rintro rfl
        exact hout (by simp [hsplit])
      simp [value_some hb, hne]
    · rcases hq with rfl | hval
      · rfl
      · simp [hval]
  by_cases hmem : val ∈ cells.map Prod.snd
  · obtain ⟨ys, zs, hsplit, hout⟩ := List.eq_append_cons_of_mem hmem
    obtain ⟨cs, ds, rfl, rfl, hds⟩ := List.map_eq_append_iff.mp hsplit
    obtain ⟨⟨a, x⟩, ds, rfl, rfl, rfl⟩ := List.map_eq_cons_iff.mp hds
    obtain ⟨hcs, r, ha, -⟩ := linked_append_cons.mp ho.linked
    refine ⟨some a, ?_, by simp⟩
    rw [List.length_append, List.length_cons] at hfuel
    rw [hwalk cs (some a) hcs hout (by omega) (Or.inr (value_some ha))]
    rw [List.map_append, List.map_cons, List.idxOf_append_of_notMem hout, List.idxOf_cons_self]
    simp
  · refine ⟨none, ?_, by simp [hmem]⟩
    rw [hwalk cells none ho.linked hmem hfuel (Or.inl rfl), List.idxOf_of_notMem hmem,
      List.length_map]

theorem listIsIn_spec (hr : Represents l xs) (hfuel : xs.length ≤ fuel) (val : ℤ) :
    listIsIn fuel l val = some (decide (val ∈ xs)) := by
  obtain ⟨q, hfind, hq⟩ := findValue_spec hr hfuel val
  simp [listIsIn, hfind, hq]

theorem listGetIndexOf_spec (hr : Represents l xs) (hfuel : xs.length ≤ fuel) (val : ℤ) :
    listGetIndexOf fuel l val = some (if val ∈ xs then (xs.idxOf val : ℤ) else -1) := by
  obtain ⟨q, hfind, hq⟩ := findValue_spec hr hfuel val
  by_cases hmem : val ∈ xs
  · have hsome : q ≠ none := by
      rw [← Option.isSome_iff_ne_none, hq]
      exact decide_eq_true hmem
    simp [listGetIndexOf, hfind, hsome, hmem]
  · have hnone : q = none := by
      rw [← Option.not_isSome_iff_eq_none, hq]
      simpa using hmem
    simp [listGetIndexOf, hfind, hnone, hmem]

/-- A walk of `n` steps, or to the end. -/
theorem whileLoopM_advance_take (guard : Ptr × ℤ → Option Bool) (n : ℕ)
    (hl : Linked l.heap l.head cells none) (hfuel : cells.length ≤ fuel)
    (hpass : ∀ a k : ℕ, k < n → guard (some a, k) = some true)
    (hstop : ∀ p, guard (p, n) = some false) (hend : ∀ k : ℤ, guard (none, k) = some false) :
    ∃ p, whileLoopM guard (advance l) fuel (l.head, 0) =
        some (p, ((cells.take n).length : ℤ)) ∧
      Linked l.heap l.head (cells.take n) p ∧ Linked l.heap p (cells.drop n) none := by
  have hsplit := hl
  rw [← List.take_append_drop n cells, linked_append] at hsplit
  obtain ⟨p, htake, hdrop⟩ := hsplit
  refine ⟨p, whileLoopM_advance htake (fun cs a x ds r heq _ _ => hpass a cs.length ?_) ?_
    (by simp; omega), htake, hdrop⟩
  · have := congrArg List.length heq
    rw [List.length_take, List.length_append, List.length_cons] at this
    omega
  · rcases Nat.lt_or_ge n cells.length with hlt | hge
    · rw [List.length_take_of_le hlt.le]
      exact hstop p
    · have hnone : p = none := by
        rw [List.drop_of_length_le hge] at hdrop
        exact hdrop
      rw [hnone]
      exact hend _

/-- The element that `curr` points to after such a walk. -/
theorem value_drop {p : Ptr} {n : ℕ} (hdrop : Linked l.heap p (cells.drop n) none) :
    (if p = none then some (-1) else value l.heap p) =
      some ((cells.map Prod.snd)[n]?.getD (-1)) := by
  rw [List.getElem?_map, ← List.head?_drop]
  cases hds : cells.drop n with
  | nil =>
    rw [hds] at hdrop
    rw [show p = none from hdrop]
    rfl
  | cons c ds =>
    rw [hds] at hdrop
    obtain ⟨rfl, r, hc, -⟩ := hdrop
    simp [value_some hc]

theorem listGetElemAt_spec (hr : Represents l xs) (hfuel : xs.length ≤ fuel) (index : ℤ) :
    listGetElemAt fuel l index =
      some (if index < 0 then -1 else xs[index.toNat]?.getD (-1)) := by
  obtain ⟨cells, ho, rfl⟩ := hr
  rw [listGetElemAt]
  split
  · rfl
  · rename_i hpos
    obtain ⟨p, hwalk, -, hdrop⟩ := whileLoopM_advance_take
      (fun s => some (s.1.isSome && s.2 != index)) index.toNat ho.linked (by simpa using hfuel)
      (fun a k hk => by simp; omega) (fun p => by simp; omega) (fun k => rfl)
    rw [hwalk]
    exact value_drop hdrop

/-! ### The refinement -/

/-- **The library refines the sequence.** -/
theorem library_simulates (fuel : ℕ) :
    Simulates (library alloc fuel) intSequence
      fun n l xs => Represents l xs ∧ xs.length + n ≤ fuel where
  step n l xs op h := by
    obtain ⟨hr, hlen⟩ := h
    have hfuel : xs.length ≤ fuel := by omega
    cases op with
    | addToBack value =>
      obtain ⟨l', hstep, hr'⟩ := listAddToBack_spec alloc hr hfuel value
      exact ⟨l', by simp [library, hstep, intSequence], hr', by simp [intSequence]; omega⟩
    | addToFront value =>
      obtain ⟨l', hstep, hr'⟩ := listAddToFront_spec alloc hr value
      exact ⟨l', by simp [library, hstep, intSequence], hr', by simp [intSequence]; omega⟩
    | addAtIndex value index =>
      obtain ⟨l', hstep, hr'⟩ := listAddAtIndex_spec alloc hr hfuel value index
      exact ⟨l', by simp [library, hstep, intSequence], hr', by
        simp [intSequence, List.length_insertIdx]; omega⟩
    | removeFromBack =>
      obtain ⟨l', hstep, hr'⟩ := listRemoveFromBack_spec hr hfuel
      exact ⟨l', by simp [library, hstep, intSequence], hr', by simp [intSequence]; omega⟩
    | removeFromFront =>
      obtain ⟨l', hstep, hr'⟩ := listRemoveFromFront_spec hr
      exact ⟨l', by simp [library, hstep, intSequence], hr', by simp [intSequence]; omega⟩
    | removeAtIndex index =>
      obtain ⟨l', hstep, hr'⟩ := listRemoveAtIndex_spec hr hfuel index
      rw [intSequence_removeAtIndex]
      refine ⟨l', by simp [library, hstep], hr', ?_⟩
      have hlen' : (xs.eraseIdx index.toNat).length ≤ xs.length := List.length_eraseIdx_le xs _
      show (xs.eraseIdx index.toNat).length + n ≤ fuel
      omega
    | length =>
      refine ⟨l, ?_, hr, by simp [intSequence]; omega⟩
      simp [library, listLength_spec hr hfuel, intSequence]
    | isIn value =>
      refine ⟨l, ?_, hr, by simp [intSequence]; omega⟩
      simp [library, listIsIn_spec hr hfuel, intSequence]
    | getElemAt index =>
      refine ⟨l, ?_, hr, by simp [intSequence]; omega⟩
      simp [library, listGetElemAt_spec hr hfuel, intSequence]
    | getIndexOf value =>
      refine ⟨l, ?_, hr, by simp [intSequence]; omega⟩
      simp [library, listGetIndexOf_spec hr hfuel, intSequence]

/-- **A sequence of integers.**  Any operations on a list from `list_alloc` run without a fault,
give the answers of the sequence and leave the chain of its elements. -/
theorem library_refines_sequence (ops : List ListOp) {fuel : ℕ}
    (hfuel : ops.length ≤ fuel) :
    ∃ l, (library alloc fuel).run ops = some (l, (intSequence.run ops).2) ∧
      Represents l (intSequence.run ops).1 := by
  obtain ⟨n, rfl⟩ := Nat.exists_eq_add_of_le hfuel
  obtain ⟨l, hrun, hr, -⟩ := (library_simulates alloc (ops.length + n)).runFrom ops
    (n := n) (s := listAlloc) (x := []) ⟨represents_listAlloc, by simp⟩
  exact ⟨l, hrun, hr⟩

theorem library_refines_sequence_three :
    ∃ l, (library (Allocator.above _) 3).run
        [.addToFront 5, .addAtIndex 7 4, .removeAtIndex (-2)] =
          some (l, [.void, .void, .int 5]) ∧
      Represents l [7] :=
  library_refines_sequence (Allocator.above _)
    [.addToFront 5, .addAtIndex 7 4, .removeAtIndex (-2)] (by decide)

end OsLabs.LinkedList
