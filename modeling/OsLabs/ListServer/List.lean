import OsLabs.LinkedList.Sequence

/-!
# The list library of the list server

The functions of the server's own `list.c`, on lists and nodes of the same shape (the field
`data` is the value).  Walks that read the same as one of the linked-list library are that walk.
-/

namespace OsLabs.ListServer

open OsLabs.Lib
open OsLabs.LinkedList (ListT Represents advance findLast findLastButOne findBefore)

section Functions

variable (alloc : Allocator (Node ℤ)) (fuel : ℕ) (l : ListT)

def listAlloc : ListT := ⟨none, ∅⟩

def listLength : Option ℤ := do
  let (_, len) ← whileLoopM (fun s => some s.1.isSome) (advance l) fuel (l.head, 0)
  return len

/-! ### Adding -/

def listAddToFront (value : ℤ) : Option ListT :=
  let (newNode, heap) := Heap.malloc alloc l.heap ⟨value, l.head⟩
  some ⟨newNode, heap⟩

def listAddToBack (value : ℤ) : Option ListT :=
  let (newNode, heap) := Heap.malloc alloc l.heap ⟨value, none⟩
  if l.head = none then
    some ⟨newNode, heap⟩
  else do
    let current ← findLast fuel heap l.head
    return ⟨l.head, ← setNext heap current newNode⟩

/-- The walk may run off the end of the list; the value then goes to the back. -/
def listAddAtIndex (index value : ℤ) : Option ListT :=
  if index ≤ 0 then
    listAddToFront alloc l value
  else do
    let (current, _) ← whileLoopM (fun s => some (s.1.isSome && decide (s.2 < index - 1)))
      (advance l) fuel (l.head, 0)
    if current = none then
      listAddToBack alloc fuel l value
    else
      let (newNode, heap) := Heap.malloc alloc l.heap ⟨value, ← next l.heap current⟩
      return ⟨l.head, ← setNext heap current newNode⟩

/-! ### Removing -/

def listRemoveFromFront : Option (ListT × ℤ) :=
  if l.head = none then
    some (l, -1)
  else do
    let value ← value l.heap l.head
    let head ← next l.heap l.head
    return (⟨head, ← l.heap.free l.head⟩, value)

def listRemoveFromBack : Option (ListT × ℤ) :=
  if l.head = none then
    some (l, -1)
  else do
    if (← next l.heap l.head) = none then
      let value ← value l.heap l.head
      return (⟨none, ← l.heap.free l.head⟩, value)
    else
      let current ← findLastButOne fuel l
      let temp ← next l.heap current
      let value ← value l.heap temp
      return (⟨l.head, ← setNext (← l.heap.free temp) current none⟩, value)

def listRemoveAtIndex (index : ℤ) : Option (ListT × ℤ) :=
  if l.head = none then
    some (l, -1)
  else if index ≤ 0 then
    listRemoveFromFront l
  else do
    let current ← findBefore fuel l index
    let temp ← next l.heap current
    if temp = none then
      return (l, -1)
    else
      let value ← value l.heap temp
      let heap ← setNext l.heap current (← next l.heap temp)
      return (⟨l.head, ← heap.free temp⟩, value)

/-- The nodes are freed from the head on, and then the list itself. -/
def listFree : Option (Heap (Node ℤ)) := do
  let (_, heap) ← whileLoopM (fun s => some s.1.isSome)
    (fun s : Ptr × Heap (Node ℤ) => do
      let current ← next s.2 s.1
      return (current, ← s.2.free s.1))
    fuel (l.head, l.heap)
  return heap

/-! ### The element at an index -/

/-- There is no test for a negative index, which leaves the walk at the head. -/
def listGetElemAt (index : ℤ) : Option ℤ := do
  let (current, _) ← whileLoopM (fun s => some (s.1.isSome && decide (s.2 < index))) (advance l)
    fuel (l.head, 0)
  if current = none then return -1 else value l.heap current

end Functions

/-! ### The functions that are those of the linked-list library -/

theorem listLength_eq : listLength = LinkedList.listLength := rfl

theorem listAddToBack_eq : listAddToBack = LinkedList.listAddToBack := rfl

theorem listRemoveFromFront_eq : listRemoveFromFront = LinkedList.listRemoveFromFront := rfl

theorem listRemoveFromBack_eq : listRemoveFromBack = LinkedList.listRemoveFromBack := rfl

theorem listRemoveAtIndex_eq : listRemoveAtIndex = LinkedList.listRemoveAtIndex := rfl

/-! ### The functions that differ -/

variable (alloc : Allocator (Node ℤ)) {fuel : ℕ} {l : ListT} {xs : List ℤ}

theorem listAddToFront_eq (value : ℤ) :
    listAddToFront alloc l value = LinkedList.listAddToFront alloc l value := by
  simp [listAddToFront, LinkedList.listAddToFront, LinkedList.getNode, Heap.malloc,
    setNext_some (Finmap.lookup_insert l.heap), Finmap.insert_insert]

theorem listAddAtIndex_spec (hr : Represents l xs) (hfuel : xs.length ≤ fuel)
    (index value : ℤ) :
    ∃ l', listAddAtIndex alloc fuel l index value = some l' ∧
      Represents l' (xs.insertIdx (min index.toNat xs.length) value) := by
  rw [listAddAtIndex]
  split
  · rename_i hfront
    have hmin : min index.toNat xs.length = 0 := by omega
    rw [hmin, List.insertIdx_zero, listAddToFront_eq]
    exact LinkedList.listAddToFront_spec alloc hr value
  · rename_i hpos
    have hr' := hr
    obtain ⟨cells, ho, rfl⟩ := hr'
    rw [List.length_map] at hfuel
    obtain ⟨p, hwalk, -, hdrop⟩ := LinkedList.whileLoopM_advance_take
      (fun s => some (s.1.isSome && decide (s.2 < index - 1))) (index.toNat - 1) ho.linked hfuel
      (fun a k hk => by simp; omega) (fun p => by simp; omega) (fun k => rfl)
    rw [hwalk]
    cases hds : cells.drop (index.toNat - 1) with
    | nil =>
      -- the walk has run off the end
      rw [hds] at hdrop
      obtain rfl : p = none := hdrop
      have hmin : min index.toNat (cells.map Prod.snd).length = (cells.map Prod.snd).length := by
        rw [List.drop_eq_nil_iff] at hds
        simp
        omega
      rw [hmin, List.insertIdx_length_self]
      exact LinkedList.listAddToBack_spec alloc hr (by simpa using hfuel) value
    | cons c ds =>
      rw [hds] at hdrop
      obtain ⟨rfl, r, ha, -⟩ := hdrop
      obtain ⟨cs, rfl, hlen⟩ := LinkedList.exists_append_of_drop hds
      have hmin : min index.toNat ((cs ++ c :: ds).map Prod.snd).length = cs.length + 1 := by
        rw [List.length_map, List.length_append, List.length_cons]
        omega
      have hpick := alloc.pick_notMem l.heap
      rw [hmin]
      refine ⟨_, ?_, LinkedList.represents_insertAfter ho ha hpick value⟩
      have ha' := Heap.lookup_insert_of_notMem ha hpick
      simp [Heap.malloc, next_some ha, setNext_some (ha' _)]

/-- The list is freed with all its nodes, each of them once. -/
theorem listFree_spec (hr : Represents l xs) (hfuel : xs.length ≤ fuel) :
    ∃ heap, listFree fuel l = some heap ∧ Owns heap none [] := by
  obtain ⟨cells, ho, rfl⟩ := hr
  obtain ⟨head, heap⟩ := l
  rw [List.length_map] at hfuel
  rw [listFree]
  dsimp only at ho ⊢
  induction cells generalizing head heap fuel with
  | nil =>
    obtain rfl : head = none := ho.eq_none_iff.mpr rfl
    refine ⟨heap, ?_, ho⟩
    rw [whileLoopM_of_false (s := (none, heap)) rfl]
    rfl
  | cons c cells ih =>
    obtain ⟨fuel, rfl⟩ := Nat.exists_eq_add_one.mpr (Nat.zero_lt_of_lt hfuel)
    obtain ⟨rfl, r, hc, -⟩ := ho.linked
    obtain ⟨heap', hloop, hnil⟩ := ih (Nat.le_of_succ_le_succ hfuel) r (heap.erase c.1) (ho.pop hc)
    refine ⟨heap', ?_, hnil⟩
    rw [whileLoopM_of_true (s := (some c.1, heap)) rfl (t := (r, heap.erase c.1))]
    · exact hloop
    · dsimp only
      rw [next_some hc, Heap.free_some hc]
      rfl

theorem listGetElemAt_spec (hr : Represents l xs) (hfuel : xs.length ≤ fuel) (index : ℤ) :
    listGetElemAt fuel l index = some (xs[index.toNat]?.getD (-1)) := by
  obtain ⟨cells, ho, rfl⟩ := hr
  obtain ⟨p, hwalk, -, hdrop⟩ := LinkedList.whileLoopM_advance_take
    (fun s => some (s.1.isSome && decide (s.2 < index))) index.toNat ho.linked
    (by simpa using hfuel) (fun a k hk => by simp; omega) (fun p => by simp) (fun k => rfl)
  rw [listGetElemAt, hwalk]
  exact LinkedList.value_drop hdrop

end OsLabs.ListServer
