import OsLabs.Lib.MachineInt
import OsLabs.Mmu.AnySize

/-!
# The arithmetic of the memory simulator in `int`

The functions on the way from `main` to a block's `start`, `end` and size, with each addition
and subtraction checked in the order in which the source evaluates it.  Where the blocks lie in
a partition whose size is an `int`, no step overflows and the checked functions compute what the
unchecked ones do.
-/

namespace OsLabs.Mmu

open OsLabs.Lib

/-! ### The checked functions of `list.c` -/

/-- `(end - start) + 1`. -/
def Block.sizeInt (b : Block) : Option ℤ := do
  addInt (← subInt b.end_ b.start) 1

/-- The walk of the two insertions by size, which `stop new_size cur_size` ends. -/
def insertInt (stop : ℤ → ℤ → Bool) (newSize : ℤ) (newblk : Block) :
    List Block → Option (List Block)
  | [] => some [newblk]
  | cur :: rest => do
    let curSize ← cur.sizeInt
    if stop newSize curSize then return newblk :: cur :: rest
    else return cur :: (← insertInt stop newSize newblk rest)

def listAddAscendingByBlocksizeInt (l : List Block) (newblk : Block) : Option (List Block) := do
  let newSize ← newblk.sizeInt
  insertInt (fun newSize curSize => decide (newSize < curSize)) newSize newblk l

def listAddDescendingByBlocksizeInt (l : List Block) (blk : Block) : Option (List Block) := do
  let newSize ← blk.sizeInt
  insertInt (fun newSize curSize => decide (newSize ≥ curSize)) newSize blk l

def coaleseFromInt (prev : Block) : List Block → Option (List Block)
  | [] => some [prev]
  | cur :: rest => do
    if (← addInt prev.end_ 1) = cur.start then coaleseFromInt { prev with end_ := cur.end_ } rest
    else return prev :: (← coaleseFromInt cur rest)

def listCoaleseNodesInt : List Block → Option (List Block)
  | [] => some []
  | prev :: rest => coaleseFromInt prev rest

def compareSizeInt (a : ℤ) (b : Block) : Option Bool := do
  return decide (a ≤ (← b.sizeInt))

def listIsInBySizeInt (size : ℤ) : List Block → Option Bool
  | [] => some false
  | cur :: rest => do
    if ← compareSizeInt size cur then return true
    else listIsInBySizeInt size rest

/-- The search loop of `list_get_index_of_by_Size`.  Its counter stays below the length of the
list and is not checked. -/
def indexFromInt (size i : ℤ) : List Block → Option ℤ
  | [] => some (-1)
  | cur :: rest => do
    if ← compareSizeInt size cur then return i
    else indexFromInt size (i + 1) rest

/-! ### The checked functions of `mmu.c` -/

def listAddByPolicyInt (policy : Policy) (freelist : List Block) (blk : Block) :
    Option (List Block) :=
  match policy with
  | .fifo => some (listAddToBack freelist blk)
  | .bestFit => listAddAscendingByBlocksizeInt freelist blk
  | .worstFit => listAddDescendingByBlocksizeInt freelist blk

def allocateMemoryInt (freelist alloclist : List Block) (pid blocksize : ℤ) (policy : Policy) :
    Option (Except Message (List Block × List Block)) := do
  if ¬ (← listIsInBySizeInt blocksize freelist) then return .error .notEnoughMemory
  else
    let idx ← indexFromInt blocksize 0 freelist
    if idx < 0 then return .error .notEnoughMemory
    else
      match listRemoveAtIndex freelist idx with
      | none => return .error .notEnoughMemory
      | some (blk, freelist) =>
        let originalEnd := blk.end_
        let newEnd ← subInt (← addInt blk.start blocksize) 1
        let blk := { blk with pid := pid, end_ := newEnd }
        let alloclist := listAddAscendingByAddress alloclist blk
        if blk.end_ < originalEnd then
          let fragment : Block := { pid := 0, start := ← addInt blk.end_ 1, end_ := originalEnd }
          return .ok (← listAddByPolicyInt policy freelist fragment, alloclist)
        else return .ok (freelist, alloclist)

def deallocateMemoryInt (alloclist freelist : List Block) (pid : ℤ) (policy : Policy) :
    Option (Except Message (List Block × List Block)) := do
  if ¬ listIsInByPid alloclist pid then return .error (.cantLocate pid)
  else
    let idx := listGetIndexOfByPid alloclist pid
    if idx < 0 then return .error (.cantLocate pid)
    else
      match listRemoveAtIndex alloclist idx with
      | none => return .error (.cantLocate pid)
      | some (blk, alloclist) =>
        let blk := { blk with pid := 0 }
        return .ok (alloclist, ← listAddByPolicyInt policy freelist blk)

def coaleseMemoryInt (list : List Block) : Option (List Block) :=
  listCoaleseNodesInt (list.foldl listAddAscendingByAddress [])

def initialMemoryInt (partitionSize : ℤ) : Option Memory := do
  let end_ ← subInt (← addInt partitionSize 0) 1
  return { freeList := listAddToFront [] { pid := 0, start := 0, end_ := end_ }, allocList := [] }

def serveInt (policy : Policy) (m : Memory) : Request → Option Memory
  | .allocate pid size => do
    match ← allocateMemoryInt m.freeList m.allocList pid size policy with
    | .ok (freelist, alloclist) => return { freeList := freelist, allocList := alloclist }
    | .error _ => return m
  | .deallocate pid => do
    match ← deallocateMemoryInt m.allocList m.freeList pid policy with
    | .ok (alloclist, freelist) => return { freeList := freelist, allocList := alloclist }
    | .error _ => return m
  | .coalesce => do
    return { m with freeList := ← coaleseMemoryInt m.freeList }

/-- The loop of `main` from the initial partition, which has a value when no addition or
subtraction of the whole run overflows. -/
def mainLoopInt (policy : Policy) (partitionSize : ℤ) (inputdata : List (ℤ × ℤ)) :
    Option Memory := do
  let m ← initialMemoryInt partitionSize
  inputdata.foldlM (fun m record => serveInt policy m (requestOf record)) m

/-! ### Blocks inside a partition of `int` size -/

/-- A nonempty block whose addresses and their successors are `int`s. -/
structure Block.FitsInt (b : Block) : Prop where
  start_nonneg : 0 ≤ b.start
  start_le_end : b.start ≤ b.end_
  end_lt : b.end_ < 2147483647

theorem WellPlaced.fitsInt {P : ℤ} {m : Memory} (h : WellPlaced P m) (hP : P ≤ 2147483647)
    {b : Block} (hb : b ∈ m.freeList ++ m.allocList) : b.FitsInt := by
  obtain ⟨hstart, hne, hend⟩ := h.within b hb
  exact ⟨hstart, hne, by omega⟩

theorem Block.FitsInt.succ_inInt {b : Block} (h : b.FitsInt) : InInt (b.end_ + 1) := by
  have := h.start_nonneg
  have := h.start_le_end
  have := h.end_lt
  constructor <;> omega

theorem Block.FitsInt.sizeInt {b : Block} (h : b.FitsInt) : b.sizeInt = some b.size := by
  have hstart := h.start_nonneg
  have hne := h.start_le_end
  have hend := h.end_lt
  have hsub : InInt (b.end_ - b.start) := by constructor <;> omega
  have hadd : InInt (b.end_ - b.start + 1) := by constructor <;> omega
  rw [Block.sizeInt, subInt_of_inInt hsub, Option.bind_eq_bind, Option.bind_some,
    addInt_of_inInt hadd, Block.size]

section
variable {l : List Block}

/-- The checked walk of an insertion is the unchecked one. -/
theorem insertInt_eq (stop : ℤ → ℤ → Bool) (new : Block) (hl : ∀ b ∈ l, b.FitsInt) :
    insertInt stop new.size new l =
      some (l.orderedInsert (fun new cur => stop new.size cur.size = true) new) := by
  induction l with
  | nil => rfl
  | cons cur rest ih =>
    have hrest := ih fun b hb => hl b (List.mem_cons_of_mem cur hb)
    rw [insertInt, (hl cur List.mem_cons_self).sizeInt, hrest, List.orderedInsert_cons]
    simp only [Option.bind_eq_bind, Option.bind_some]
    split <;> rfl

theorem listAddByPolicyInt_eq (policy : Policy) {blk : Block} (hblk : blk.FitsInt)
    (hl : ∀ b ∈ l, b.FitsInt) :
    listAddByPolicyInt policy l blk = some (listAddByPolicy policy l blk) := by
  cases policy with
  | fifo => rfl
  | bestFit =>
    show (blk.sizeInt >>= fun newSize => insertInt _ newSize blk l) = _
    rw [hblk.sizeInt, Option.bind_eq_bind, Option.bind_some, insertInt_eq _ blk hl]
    simp only [decide_eq_true_eq, listAddByPolicy, listAddAscendingByBlocksize]
  | worstFit =>
    show (blk.sizeInt >>= fun newSize => insertInt _ newSize blk l) = _
    rw [hblk.sizeInt, Option.bind_eq_bind, Option.bind_some, insertInt_eq _ blk hl]
    simp only [decide_eq_true_eq, listAddByPolicy, listAddDescendingByBlocksize]

/-- Merging two neighbours keeps the merged block in range, so the next sum is safe too. -/
theorem coaleseFromInt_eq {prev : Block} (hprev : prev.FitsInt) (hl : ∀ b ∈ l, b.FitsInt) :
    coaleseFromInt prev l = some (coaleseFrom prev l) := by
  induction l generalizing prev with
  | nil => rfl
  | cons cur rest ih =>
    have hcur := hl cur List.mem_cons_self
    have hrest : ∀ b ∈ rest, b.FitsInt := fun b hb => hl b (List.mem_cons_of_mem cur hb)
    rw [coaleseFromInt, addInt_of_inInt hprev.succ_inInt, coaleseFrom]
    simp only [Option.bind_eq_bind, Option.bind_some]
    split
    · rename_i hadj
      refine ih ⟨hprev.start_nonneg, ?_, hcur.end_lt⟩ hrest
      show prev.start ≤ cur.end_
      have := hprev.start_le_end
      have := hcur.start_le_end
      omega
    · rw [ih hcur hrest]
      rfl

theorem coaleseMemoryInt_eq (hl : ∀ b ∈ l, b.FitsInt) :
    coaleseMemoryInt l = some (coaleseMemory l) := by
  have hperm := foldl_addByAddress_perm l []
  rw [List.append_nil] at hperm
  rw [coaleseMemoryInt, coaleseMemory]
  cases hsorted : l.foldl listAddAscendingByAddress [] with
  | nil => rfl
  | cons prev rest =>
    rw [hsorted] at hperm
    have hfits : ∀ b ∈ prev :: rest, b.FitsInt := fun b hb => hl b (hperm.mem_iff.mp hb)
    exact coaleseFromInt_eq (hfits prev List.mem_cons_self)
      fun b hb => hfits b (List.mem_cons_of_mem prev hb)

theorem compareSizeInt_eq (size : ℤ) {b : Block} (hb : b.FitsInt) :
    compareSizeInt size b = some (compareSize size b) := by
  rw [compareSizeInt, hb.sizeInt]
  rfl

theorem listIsInBySizeInt_eq (size : ℤ) (hl : ∀ b ∈ l, b.FitsInt) :
    listIsInBySizeInt size l = some (listIsInBySize l size) := by
  induction l with
  | nil => rfl
  | cons cur rest ih =>
    have hrest := ih fun b hb => hl b (List.mem_cons_of_mem cur hb)
    rw [listIsInBySizeInt, compareSizeInt_eq size (hl cur List.mem_cons_self), hrest]
    cases htest : compareSize size cur <;> simp [listIsInBySize, htest]

theorem indexFromInt_eq (size i : ℤ) (hl : ∀ b ∈ l, b.FitsInt) :
    indexFromInt size i l = some (indexFrom (compareSize size) i l) := by
  induction l generalizing i with
  | nil => rfl
  | cons cur rest ih =>
    have hrest := ih (i + 1) fun b hb => hl b (List.mem_cons_of_mem cur hb)
    rw [indexFromInt, compareSizeInt_eq size (hl cur List.mem_cons_self), hrest]
    cases htest : compareSize size cur <;> simp [indexFrom, htest]

end

/-! ### One request and the whole run -/

/-- The block that the search finds is at least as large as the request, so the sum of its start
and the request is at most the successor of its end. -/
theorem allocateMemoryInt_eq {freelist : List Block} (alloclist : List Block) (pid : ℤ)
    {blocksize : ℤ} (policy : Policy) (hsize : 1 ≤ blocksize) (hl : ∀ b ∈ freelist, b.FitsInt) :
    allocateMemoryInt freelist alloclist pid blocksize policy =
      some (allocateMemory freelist alloclist pid blocksize policy) := by
  rw [allocateMemoryInt, listIsInBySizeInt_eq blocksize hl, indexFromInt_eq blocksize 0 hl,
    allocateMemory]
  simp only [Option.bind_eq_bind, Option.bind_some]
  cases hany : listIsInBySize freelist blocksize with
  | false => rfl
  | true =>
    obtain ⟨pre, b, post, rfl, hpre, htest⟩ := exists_first_of_any hany
    have hb : b.FitsInt := hl b (List.mem_append_right pre List.mem_cons_self)
    have hrest : ∀ c ∈ pre ++ post, c.FitsInt :=
      fun c hc => hl c ((removed_sublist pre post b).subset hc)
    have hstart := hb.start_nonneg
    have hend := hb.end_lt
    have hfit : blocksize ≤ b.end_ - b.start + 1 := compareSize_iff.mp htest
    have hsum : InInt (b.start + blocksize) := by constructor <;> omega
    have hnew : InInt (b.start + blocksize - 1) := by constructor <;> omega
    have hfrag : InInt (b.start + blocksize - 1 + 1) := by constructor <;> omega
    simp only [listGetIndexOfBySize, not_indexFrom_neg post hpre htest, not_true, if_false,
      listRemoveAtIndex_indexFrom post hpre htest, addInt_of_inInt hsum, subInt_of_inInt hnew,
      Option.bind_some]
    split
    · rename_i hlt
      rw [addInt_of_inInt hfrag, Option.bind_some, listAddByPolicyInt_eq policy _ hrest]
      · rfl
      · refine ⟨?_, ?_, hend⟩
        · show 0 ≤ b.start + blocksize - 1 + 1
          omega
        · show b.start + blocksize - 1 + 1 ≤ b.end_
          omega
    · rfl

theorem deallocateMemoryInt_eq {alloclist freelist : List Block} (pid : ℤ) (policy : Policy)
    (ha : ∀ b ∈ alloclist, b.FitsInt) (hl : ∀ b ∈ freelist, b.FitsInt) :
    deallocateMemoryInt alloclist freelist pid policy =
      some (deallocateMemory alloclist freelist pid policy) := by
  rw [deallocateMemoryInt, deallocateMemory]
  cases hany : listIsInByPid alloclist pid with
  | false => rfl
  | true =>
    obtain ⟨pre, b, post, rfl, hpre, htest⟩ := exists_first_of_any hany
    have hb : b.FitsInt := ha b (List.mem_append_right pre List.mem_cons_self)
    have hfree : Block.FitsInt { b with pid := 0 } := ⟨hb.start_nonneg, hb.start_le_end, hb.end_lt⟩
    simp only [listGetIndexOfByPid, not_indexFrom_neg post hpre htest, not_true, if_false,
      listRemoveAtIndex_indexFrom post hpre htest, listAddByPolicyInt_eq policy hfree hl,
      Option.bind_eq_bind, Option.bind_some]
    rfl

theorem serveInt_eq {P : ℤ} {m : Memory} (h : WellPlaced P m) (hP : P ≤ 2147483647)
    (policy : Policy) {r : Request} (hr : r.Positive) :
    serveInt policy m r = some (serve policy m r) := by
  have hfree : ∀ b ∈ m.freeList, b.FitsInt :=
    fun b hb => h.fitsInt hP (List.mem_append_left m.allocList hb)
  have halloc : ∀ b ∈ m.allocList, b.FitsInt :=
    fun b hb => h.fitsInt hP (List.mem_append_right m.freeList hb)
  cases r with
  | allocate pid size =>
    rw [serveInt, serve, allocateMemoryInt_eq m.allocList pid policy hr.2 hfree]
    cases allocateMemory m.freeList m.allocList pid size policy <;> rfl
  | deallocate pid =>
    rw [serveInt, serve, deallocateMemoryInt_eq pid policy halloc hfree]
    cases deallocateMemory m.allocList m.freeList pid policy <;> rfl
  | coalesce =>
    rw [serveInt, serve, coaleseMemoryInt_eq hfree]
    rfl

theorem initialMemoryInt_eq {P : ℤ} (hP : 1 ≤ P) (hmax : P ≤ 2147483647) :
    initialMemoryInt P = some (initialMemory P) := by
  have hadd : InInt (P + 0) := by constructor <;> omega
  have hsub : InInt (P + 0 - 1) := by constructor <;> omega
  rw [initialMemoryInt, addInt_of_inInt hadd, Option.bind_eq_bind, Option.bind_some,
    subInt_of_inInt hsub]
  rfl

/-- The tiling keeps every block within reach of the next request's arithmetic. -/
theorem Tiled.foldlM_serveInt {P : ℤ} (policy : Policy) (hP : P ≤ 2147483647)
    {inputdata : List (ℤ × ℤ)} (hrec : ∀ record ∈ inputdata, 0 < record.1 → 1 ≤ record.2)
    {m : Memory} (h : Tiled P m) :
    inputdata.foldlM (fun m record => serveInt policy m (requestOf record)) m =
      some ((inputdata.map requestOf).foldl (OsLabs.Mmu.serve policy) m) := by
  induction inputdata generalizing m with
  | nil => rfl
  | cons record rest ih =>
    have hr : (requestOf record).Positive :=
      requestOf_positive (hrec record List.mem_cons_self)
    rw [List.foldlM_cons, serveInt_eq h.wellPlaced hP policy hr, Option.bind_eq_bind,
      Option.bind_some, ih (fun q hq => hrec q (List.mem_cons_of_mem record hq)) (h.serve hr)]
    rfl

/-- **No overflow in the allocator.**  For every partition size that is a positive `int` and all
records with a positive size wherever they allocate, every checked addition and subtraction of
the run stays in the range of `int`, and the run ends in the memory of the unchecked loop. -/
theorem mainLoopInt_eq_mainLoop (policy : Policy) (P : ℤ) (inputdata : List (ℤ × ℤ)) (hP : 1 ≤ P)
    (hmax : P ≤ 2147483647) (hrec : ∀ record ∈ inputdata, 0 < record.1 → 1 ≤ record.2) :
    mainLoopInt policy P inputdata = some (mainLoop policy P inputdata) := by
  rw [mainLoopInt, initialMemoryInt_eq hP hmax, Option.bind_eq_bind, Option.bind_some]
  exact (tiled_initialMemory hP).foldlM_serveInt policy hmax hrec

/-- The partition and a request are as large as an `int` can be. -/
theorem mainLoopInt_eq_mainLoop_sample :
    mainLoopInt .bestFit 2147483647
        [(1, 5), (2, 2147483647), (3, 2147483642), (-1, 0), (-3, 0), (-99999, 0)] =
      some (mainLoop .bestFit 2147483647
        [(1, 5), (2, 2147483647), (3, 2147483642), (-1, 0), (-3, 0), (-99999, 0)]) :=
  mainLoopInt_eq_mainLoop .bestFit 2147483647 _ (by decide) (by decide) (by decide)

/-- One address more and the end of the initial partition already overflows. -/
example : mainLoopInt .fifo 2147483648 [] = none := by decide

end OsLabs.Mmu
