import Mathlib.Data.List.Sort
import Mathlib.Tactic

/-!
# The block list of the memory simulator

The functions of `list.c` on which `mmu.c` rests.  A chain of nodes is the list of the
blocks its nodes point to, a `NULL` block is `none`, and the `int` fields are integers.
Every `malloc` is taken to succeed, so the calls of `exit(1)` behind it are left out.
-/

namespace OsLabs.Mmu

/-- `block_t`: the addresses from `start` to `end_`, both included, and their owner. -/
structure Block where
  pid : ℤ
  start : ℤ
  end_ : ℤ
  deriving DecidableEq, Repr

/-- The size every function of `list.c` computes for a block. -/
def Block.size (b : Block) : ℤ := (b.end_ - b.start) + 1

/-! ### Adding blocks -/

def listAddToBack (l : List Block) (blk : Block) : List Block := l ++ [blk]

def listAddToFront (l : List Block) (blk : Block) : List Block := blk :: l

/-- The walk `while (cur != NULL && cur->blk->start < newblk->start)`, then the new node
between `prev` and `cur`. -/
def listAddAscendingByAddress (l : List Block) (newblk : Block) : List Block :=
  l.orderedInsert (fun new cur => ¬ cur.start < new.start) newblk

/-- The walk stops at the first block with `new_size < cur_size`. -/
def listAddAscendingByBlocksize (l : List Block) (newblk : Block) : List Block :=
  l.orderedInsert (fun new cur => new.size < cur.size) newblk

/-- The walk stops at the first block with `new_size >= cur_size`. -/
def listAddDescendingByBlocksize (l : List Block) (blk : Block) : List Block :=
  l.orderedInsert (fun new cur => new.size ≥ cur.size) blk

theorem listAddAscendingByAddress_perm (l : List Block) (blk : Block) :
    (listAddAscendingByAddress l blk).Perm (blk :: l) :=
  List.perm_orderedInsert _ _ _

theorem listAddAscendingByBlocksize_perm (l : List Block) (blk : Block) :
    (listAddAscendingByBlocksize l blk).Perm (blk :: l) :=
  List.perm_orderedInsert _ _ _

theorem listAddDescendingByBlocksize_perm (l : List Block) (blk : Block) :
    (listAddDescendingByBlocksize l blk).Perm (blk :: l) :=
  List.perm_orderedInsert _ _ _

theorem listAddToBack_perm (l : List Block) (blk : Block) :
    (listAddToBack l blk).Perm (blk :: l) :=
  List.perm_append_singleton _ _

/-! ### Merging neighbours -/

/-- The loop of `list_coalese_nodes` with `prev` in hand and `cur` at the head of the rest. -/
def coaleseFrom (prev : Block) : List Block → List Block
  | [] => [prev]
  | cur :: rest =>
    if prev.end_ + 1 = cur.start then coaleseFrom { prev with end_ := cur.end_ } rest
    else prev :: coaleseFrom cur rest

def listCoaleseNodes : List Block → List Block
  | [] => []
  | prev :: rest => coaleseFrom prev rest

/-! ### Removing and finding blocks -/

def listRemoveFromFront : List Block → Option (Block × List Block)
  | [] => none
  | blk :: l => some (blk, l)

/-- The walk of `list_remove_at_index` with `cur` at the head of the list and counter `i`. -/
def unlinkAt (index i : ℤ) : List Block → Option (Block × List Block)
  | [] => none
  | cur :: rest =>
    if i < index then (unlinkAt index (i + 1) rest).map fun p => (p.1, cur :: p.2)
    else some (cur, rest)

def listRemoveAtIndex (l : List Block) (index : ℤ) : Option (Block × List Block) :=
  if index ≤ 0 then listRemoveFromFront l else unlinkAt index 0 l

def compareSize (a : ℤ) (b : Block) : Bool := decide (a ≤ (b.end_ - b.start) + 1)

def comparePid (a : ℤ) (b : Block) : Bool := decide (a = b.pid)

def listIsInBySize (l : List Block) (size : ℤ) : Bool := l.any (compareSize size)

def listIsInByPid (l : List Block) (pid : ℤ) : Bool := l.any (comparePid pid)

/-- The search loop of `list_get_index_of_by_Size` and `list_get_index_of_by_Pid`. -/
def indexFrom (test : Block → Bool) (i : ℤ) : List Block → ℤ
  | [] => -1
  | cur :: rest => if test cur then i else indexFrom test (i + 1) rest

def listGetIndexOfBySize (l : List Block) (size : ℤ) : ℤ := indexFrom (compareSize size) 0 l

def listGetIndexOfByPid (l : List Block) (pid : ℤ) : ℤ := indexFrom (comparePid pid) 0 l

theorem compareSize_iff {a : ℤ} {b : Block} : compareSize a b = true ↔ a ≤ b.size := by
  simp [compareSize, Block.size]

theorem comparePid_iff {a : ℤ} {b : Block} : comparePid a b = true ↔ a = b.pid := by
  simp [comparePid]

/-- Where a test succeeds, the list splits at the first block that passes it. -/
theorem exists_first_of_any {test : Block → Bool} {l : List Block} (h : l.any test = true) :
    ∃ pre b post, l = pre ++ b :: post ∧ (∀ c ∈ pre, test c = false) ∧ test b = true := by
  induction l with
  | nil => simp at h
  | cons a l ih =>
    cases ha : test a with
    | true => exact ⟨[], a, l, rfl, by simp, ha⟩
    | false =>
      obtain ⟨pre, b, post, rfl, hpre, hb⟩ := ih (by simpa [ha] using h)
      refine ⟨a :: pre, b, post, rfl, ?_, hb⟩
      intro c hc
      rcases List.mem_cons.mp hc with rfl | hc
      · exact ha
      · exact hpre c hc

/-- The search returns the position of the first block that passes the test. -/
theorem indexFrom_first {test : Block → Bool} {pre : List Block} (post : List Block)
    {b : Block} (i : ℤ) (hpre : ∀ c ∈ pre, test c = false) (hb : test b = true) :
    indexFrom test i (pre ++ b :: post) = i + pre.length := by
  induction pre generalizing i with
  | nil => simp [indexFrom, hb]
  | cons a pre ih =>
    have ha : test a = false := hpre a (by simp)
    have hrest := ih (i + 1) fun c hc => hpre c (by simp [hc])
    simp only [List.cons_append, indexFrom, ha, Bool.false_eq_true, if_false, hrest,
      List.length_cons]
    push_cast
    ring

theorem unlinkAt_length (pre post : List Block) (b : Block) (i : ℤ) :
    unlinkAt (i + pre.length) i (pre ++ b :: post) = some (b, pre ++ post) := by
  induction pre generalizing i with
  | nil => simp [unlinkAt]
  | cons a pre ih =>
    have hidx : i + ((a :: pre).length : ℤ) = i + 1 + pre.length := by
      simp only [List.length_cons]
      push_cast
      ring
    have hlt : i < i + 1 + (pre.length : ℤ) := by omega
    rw [hidx, List.cons_append, unlinkAt, if_pos hlt, ih (i + 1)]
    rfl

/-- Removal at the length of a prefix takes out the block behind that prefix. -/
theorem listRemoveAtIndex_length (pre post : List Block) (b : Block) :
    listRemoveAtIndex (pre ++ b :: post) pre.length = some (b, pre ++ post) := by
  cases pre with
  | nil => simp [listRemoveAtIndex, listRemoveFromFront]
  | cons a pre =>
    have hpos : ¬ ((a :: pre).length : ℤ) ≤ 0 := by simp
    rw [listRemoveAtIndex, if_neg hpos]
    simpa using unlinkAt_length (a :: pre) post b 0

theorem removed_sublist (pre post : List Block) (b : Block) :
    (pre ++ post).Sublist (pre ++ b :: post) :=
  (List.Sublist.refl pre).append (List.sublist_cons_self b post)

section
variable {test : Block → Bool} {pre : List Block} (post : List Block) {b : Block}
  (hpre : ∀ c ∈ pre, test c = false) (hb : test b = true)

include hpre hb

theorem not_indexFrom_neg : ¬ indexFrom test 0 (pre ++ b :: post) < 0 := by
  rw [indexFrom_first post 0 hpre hb]
  omega

/-- A search and the removal at the index that it returns. -/
theorem listRemoveAtIndex_indexFrom :
    listRemoveAtIndex (pre ++ b :: post) (indexFrom test 0 (pre ++ b :: post)) =
      some (b, pre ++ post) := by
  rw [indexFrom_first post 0 hpre hb, zero_add, listRemoveAtIndex_length]

end

end OsLabs.Mmu
