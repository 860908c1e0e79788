import OsLabs.Lib.Chain
import OsLabs.Lib.Refinement

/-!
# The linked-list library

The functions of `list.c` on a heap of nodes.  Every step that follows a pointer may fail, and
each loop runs for at most `fuel` iterations.  A list comes from `list_alloc`, so the tests
`if (!l)` do not fire and are left out; every `malloc` is taken to succeed.  Values, indices and
counters are integers; a counter stays between zero and the number of nodes, and a list is taken to
have no more nodes than an `int` counts.
-/

namespace OsLabs.LinkedList

open OsLabs.Lib

/-- `list_t`, with the heap its nodes are on. -/
structure ListT where
  head : Ptr
  heap : Heap (Node ℤ)

def listAlloc : ListT := ⟨none, ∅⟩

section Functions

variable (alloc : Allocator (Node ℤ)) (fuel : ℕ) (l : ListT)

def getNode (heap : Heap (Node ℤ)) (value : ℤ) : Ptr × Heap (Node ℤ) :=
  Heap.malloc alloc heap ⟨value, none⟩

/-- `curr = curr->next; i++`. -/
def advance (s : Ptr × ℤ) : Option (Ptr × ℤ) := do
  return (← next l.heap s.1, s.2 + 1)

def listLength : Option ℤ := do
  let (_, count) ← whileLoopM (fun s => some s.1.isSome) (advance l) fuel (l.head, 0)
  return count

/-! ### Adding -/

/-- `while (curr->next) curr = curr->next`, from the head. -/
def findLast (heap : Heap (Node ℤ)) (head : Ptr) : Option Ptr :=
  whileLoopM (fun curr => do return (← next heap curr).isSome) (next heap) fuel head

def listAddToBack (value : ℤ) : Option ListT :=
  let (n, heap) := getNode alloc l.heap value
  if l.head = none then
    some ⟨n, heap⟩
  else do
    let curr ← findLast fuel heap l.head
    return ⟨l.head, ← setNext heap curr n⟩

def listAddToFront (value : ℤ) : Option ListT :=
  let (n, heap) := getNode alloc l.heap value
  do return ⟨n, ← setNext heap n l.head⟩

/-- `while (curr->next && i < index - 1)`, from the head. -/
def findBefore (index : ℤ) : Option Ptr := do
  let (curr, _) ← whileLoopM
    (fun s => do return (← next l.heap s.1).isSome && decide (s.2 < index - 1))
    (advance l) fuel (l.head, 0)
  return curr

def listAddAtIndex (value index : ℤ) : Option ListT :=
  if index ≤ 0 ∨ l.head = none then
    listAddToFront alloc l value
  else do
    let curr ← findBefore fuel l index
    let (n, heap) := getNode alloc l.heap value
    let heap ← setNext heap n (← next heap curr)
    return ⟨l.head, ← setNext heap curr n⟩

/-! ### Removing -/

/-- `while (curr->next->next) curr = curr->next`, from the head. -/
def findLastButOne : Option Ptr :=
  whileLoopM (fun curr => do return (← next l.heap (← next l.heap curr)).isSome) (next l.heap)
    fuel l.head

def listRemoveFromBack : Option (ListT × ℤ) :=
  if l.head = none then
    some (l, -1)
  else do
    if (← next l.heap l.head) = none then
      let val ← value l.heap l.head
      return (⟨none, ← l.heap.free l.head⟩, val)
    else
      let curr ← findLastButOne fuel l
      let tmp ← next l.heap curr
      let val ← value l.heap tmp
      return (⟨l.head, ← setNext (← l.heap.free tmp) curr none⟩, val)

def listRemoveFromFront : Option (ListT × ℤ) :=
  if l.head = none then
    some (l, -1)
  else do
    let val ← value l.heap l.head
    let head ← next l.heap l.head
    return (⟨head, ← l.heap.free l.head⟩, val)

def listRemoveAtIndex (index : ℤ) : Option (ListT × ℤ) :=
  if l.head = none then
    some (l, -1)
  else if index ≤ 0 then
    listRemoveFromFront l
  else do
    let curr ← findBefore fuel l index
    let tmp ← next l.heap curr
    if tmp = none then
      return (l, -1)
    else
      let val ← value l.heap tmp
      let heap ← setNext l.heap curr (← next l.heap tmp)
      return (⟨l.head, ← heap.free tmp⟩, val)

/-! ### Queries

A `return` inside a loop ends it: its condition, negated, is a part of the guard. -/

/-- The loop over the nodes up to the first that holds the value, and the index there. -/
def findValue (val : ℤ) : Option (Ptr × ℤ) :=
  whileLoopM (fun s => if s.1 = none then some false else do return (← value l.heap s.1) != val)
    (advance l) fuel (l.head, 0)

def listIsIn (val : ℤ) : Option Bool := do
  let (curr, _) ← findValue fuel l val
  return curr.isSome

def listGetElemAt (index : ℤ) : Option ℤ :=
  if index < 0 then
    some (-1)
  else do
    let (curr, _) ← whileLoopM (fun s => some (s.1.isSome && s.2 != index)) (advance l) fuel
      (l.head, 0)
    if curr = none then return -1 else value l.heap curr

def listGetIndexOf (val : ℤ) : Option ℤ := do
  let (curr, index) ← findValue fuel l val
  return if curr = none then -1 else index

end Functions

end OsLabs.LinkedList
