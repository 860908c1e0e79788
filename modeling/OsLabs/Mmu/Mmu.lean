import OsLabs.Mmu.List

/-!
# The memory simulator

`allocate_memory`, `deallocate_memory`, `coalese_memory` and the loop of `main` over the
input records.  The two list arguments of the C functions are never `NULL`.  A request
that fails prints its message and leaves both lists as they are; here it returns the
message in `Except`.
-/

namespace OsLabs.Mmu

/-- `Memory_Mgt_Policy`: 1 for FIFO, 2 for best fit, 3 for worst fit. -/
inductive Policy where
  | fifo
  | bestFit
  | worstFit
  deriving DecidableEq, Repr

/-- "Error: Not Enough Memory" and "Error: Can't locate Memory Used by PID: %d". -/
inductive Message where
  | notEnoughMemory
  | cantLocate (pid : ℤ)
  deriving DecidableEq, Repr

/-- The `if (policy == 1) .. else if (policy == 2) .. else ..` that both functions end with. -/
def listAddByPolicy (policy : Policy) (freelist : List Block) (blk : Block) : List Block :=
  match policy with
  | .fifo => listAddToBack freelist blk
  | .bestFit => listAddAscendingByBlocksize freelist blk
  | .worstFit => listAddDescendingByBlocksize freelist blk

def allocateMemory (freelist alloclist : List Block) (pid blocksize : ℤ) (policy : Policy) :
    Except Message (List Block × List Block) :=
  if ¬ listIsInBySize freelist blocksize then .error .notEnoughMemory
  else
    let idx := listGetIndexOfBySize freelist blocksize
    if idx < 0 then .error .notEnoughMemory
    else
      match listRemoveAtIndex freelist idx with
      | none => .error .notEnoughMemory
      | some (blk, freelist) =>
        let originalEnd := blk.end_
        let blk := { blk with pid := pid, end_ := blk.start + blocksize - 1 }
        let alloclist := listAddAscendingByAddress alloclist blk
        if blk.end_ < originalEnd then
          let fragment : Block := { pid := 0, start := blk.end_ + 1, end_ := originalEnd }
          .ok (listAddByPolicy policy freelist fragment, alloclist)
        else .ok (freelist, alloclist)

def deallocateMemory (alloclist freelist : List Block) (pid : ℤ) (policy : Policy) :
    Except Message (List Block × List Block) :=
  if ¬ listIsInByPid alloclist pid then .error (.cantLocate pid)
  else
    let idx := listGetIndexOfByPid alloclist pid
    if idx < 0 then .error (.cantLocate pid)
    else
      match listRemoveAtIndex alloclist idx with
      | none => .error (.cantLocate pid)
      | some (blk, alloclist) =>
        let blk := { blk with pid := 0 }
        .ok (alloclist, listAddByPolicy policy freelist blk)

/-- The `while` loop moves the blocks in list order into a list sorted by address. -/
def coaleseMemory (list : List Block) : List Block :=
  listCoaleseNodes (list.foldl listAddAscendingByAddress [])

/-- `FREE_LIST` and `ALLOC_LIST`. -/
structure Memory where
  freeList : List Block
  allocList : List Block
  deriving DecidableEq, Repr

/-- One free block spanning the partition. -/
def initialMemory (partitionSize : ℤ) : Memory where
  freeList := listAddToFront [] { pid := 0, start := 0, end_ := partitionSize + 0 - 1 }
  allocList := []

/-- What the three branches of the loop body in `main` ask for. -/
inductive Request where
  | allocate (pid size : ℤ)
  | deallocate (pid : ℤ)
  | coalesce
  deriving DecidableEq, Repr

/-- The branch that `main` takes for the record `inputdata[i]`. -/
def requestOf (record : ℤ × ℤ) : Request :=
  if record.1 ≠ -99999 ∧ record.1 > 0 then .allocate record.1 record.2
  else if record.1 ≠ -99999 ∧ record.1 < 0 then .deallocate |record.1|
  else .coalesce

def serve (policy : Policy) (m : Memory) : Request → Memory
  | .allocate pid size =>
    match allocateMemory m.freeList m.allocList pid size policy with
    | .ok (freelist, alloclist) => { freeList := freelist, allocList := alloclist }
    | .error _ => m
  | .deallocate pid =>
    match deallocateMemory m.allocList m.freeList pid policy with
    | .ok (alloclist, freelist) => { freeList := freelist, allocList := alloclist }
    | .error _ => m
  | .coalesce => { m with freeList := coaleseMemory m.freeList }

/-- The memory after the requests `rs`, from the initial partition. -/
def serveAll (policy : Policy) (partitionSize : ℤ) (rs : List Request) : Memory :=
  rs.foldl (serve policy) (initialMemory partitionSize)

/-- The loop of `main` over its input records. -/
def mainLoop (policy : Policy) (partitionSize : ℤ) (inputdata : List (ℤ × ℤ)) : Memory :=
  serveAll policy partitionSize (inputdata.map requestOf)

theorem serveAll_concat (policy : Policy) (partitionSize : ℤ) (rs : List Request)
    (r : Request) :
    serveAll policy partitionSize (rs ++ [r]) =
      serve policy (serveAll policy partitionSize rs) r := by
  simp [serveAll]

/-- Requests with a positive pid and, for an allocation, a positive size. -/
def Request.Positive : Request → Prop
  | .allocate pid size => 0 < pid ∧ 1 ≤ size
  | .deallocate pid => 0 < pid
  | .coalesce => True

instance (r : Request) : Decidable r.Positive := by
  cases r <;> unfold Request.Positive <;> infer_instance

/-- Records with a positive size wherever they allocate are positive requests. -/
theorem requestOf_positive {record : ℤ × ℤ} (h : 0 < record.1 → 1 ≤ record.2) :
    (requestOf record).Positive := by
  unfold requestOf
  split
  · rename_i hrec
    exact ⟨hrec.2, h hrec.2⟩
  · split
    · rename_i hrec
      exact abs_pos.mpr (by omega)
    · trivial

theorem listAddByPolicy_perm (policy : Policy) (l : List Block) (blk : Block) :
    (listAddByPolicy policy l blk).Perm (blk :: l) := by
  cases policy with
  | fifo => exact listAddToBack_perm l blk
  | bestFit => exact listAddAscendingByBlocksize_perm l blk
  | worstFit => exact listAddDescendingByBlocksize_perm l blk

/-! ### What the two functions do -/

/-- The part of `b` that an allocation of `size` hands to `pid`. -/
def Block.carve (b : Block) (pid size : ℤ) : Block :=
  { pid := pid, start := b.start, end_ := b.start + size - 1 }

/-- The free list after an allocation of `size` took `b` out of it. -/
def refile (policy : Policy) (freelist : List Block) (b : Block) (size : ℤ) : List Block :=
  if b.start + size - 1 < b.end_ then
    listAddByPolicy policy freelist
      { pid := 0, start := b.start + size - 1 + 1, end_ := b.end_ }
  else freelist

/-- An allocation succeeds exactly when some free block is large enough, and it then takes
the first such block. -/
theorem allocateMemory_eq_ok_iff {freelist alloclist freelist' alloclist' : List Block}
    {pid size : ℤ} {policy : Policy} :
    allocateMemory freelist alloclist pid size policy = .ok (freelist', alloclist') ↔
      ∃ pre b post, freelist = pre ++ b :: post ∧ (∀ c ∈ pre, c.size < size) ∧
        size ≤ b.size ∧ freelist' = refile policy (pre ++ post) b size ∧
        alloclist' = listAddAscendingByAddress alloclist (b.carve pid size) := by
  have hrun : ∀ (pre : List Block) (b : Block) (post : List Block),
      (∀ c ∈ pre, compareSize size c = false) → compareSize size b = true →
      allocateMemory (pre ++ b :: post) alloclist pid size policy =
        .ok (refile policy (pre ++ post) b size,
          listAddAscendingByAddress alloclist (b.carve pid size)) := by
    intro pre b post hpre hb
    have hany : listIsInBySize (pre ++ b :: post) size = true := by
      simp [listIsInBySize, hb]
    simp only [allocateMemory, hany, not_true, if_false, listGetIndexOfBySize,
      not_indexFrom_neg post hpre hb, listRemoveAtIndex_indexFrom post hpre hb, refile, Block.carve]
    split <;> rfl
  constructor
  · intro h
    cases hany : listIsInBySize freelist size with
    | false => simp [allocateMemory, hany] at h
    | true =>
      obtain ⟨pre, b, post, rfl, hpre, hb⟩ := exists_first_of_any hany
      rw [hrun pre b post hpre hb] at h
      simp only [Except.ok.injEq, Prod.mk.injEq] at h
      refine ⟨pre, b, post, rfl, ?_, compareSize_iff.mp hb, h.1.symm, h.2.symm⟩
      intro c hc
      by_contra hle
      have := compareSize_iff.mpr (not_lt.mp hle)
      simp [hpre c hc] at this
  · rintro ⟨pre, b, post, rfl, hpre, hb, rfl, rfl⟩
    refine hrun pre b post (fun c hc => ?_) (compareSize_iff.mpr hb)
    have hlt := hpre c hc
    by_contra htrue
    have := compareSize_iff.mp (Bool.eq_true_of_not_eq_false htrue)
    omega

/-- A deallocation succeeds exactly when some block belongs to `pid`, and it then takes the
first such block. -/
theorem deallocateMemory_eq_ok_iff {alloclist freelist alloclist' freelist' : List Block}
    {pid : ℤ} {policy : Policy} :
    deallocateMemory alloclist freelist pid policy = .ok (alloclist', freelist') ↔
      ∃ pre b post, alloclist = pre ++ b :: post ∧ (∀ c ∈ pre, c.pid ≠ pid) ∧
        b.pid = pid ∧ alloclist' = pre ++ post ∧
        freelist' = listAddByPolicy policy freelist { b with pid := 0 } := by
  have hrun : ∀ (pre : List Block) (b : Block) (post : List Block),
      (∀ c ∈ pre, comparePid pid c = false) → comparePid pid b = true →
      deallocateMemory (pre ++ b :: post) freelist pid policy =
        .ok (pre ++ post, listAddByPolicy policy freelist { b with pid := 0 }) := by
    intro pre b post hpre hb
    have hany : listIsInByPid (pre ++ b :: post) pid = true := by
      simp [listIsInByPid, hb]
    simp only [deallocateMemory, hany, not_true, if_false, listGetIndexOfByPid,
      not_indexFrom_neg post hpre hb, listRemoveAtIndex_indexFrom post hpre hb]
  constructor
  · intro h
    cases hany : listIsInByPid alloclist pid with
    | false => simp [deallocateMemory, hany] at h
    | true =>
      obtain ⟨pre, b, post, rfl, hpre, hb⟩ := exists_first_of_any hany
      rw [hrun pre b post hpre hb] at h
      simp only [Except.ok.injEq, Prod.mk.injEq] at h
      refine ⟨pre, b, post, rfl, ?_, (comparePid_iff.mp hb).symm, h.1.symm, h.2.symm⟩
      intro c hc heq
      have := comparePid_iff.mpr heq.symm
      simp [hpre c hc] at this
  · rintro ⟨pre, b, post, rfl, hpre, hb, rfl, rfl⟩
    refine hrun pre b post (fun c hc => ?_) (comparePid_iff.mpr hb.symm)
    by_contra htrue
    exact hpre c hc (comparePid_iff.mp (Bool.eq_true_of_not_eq_false htrue)).symm

/-- An allocation fails only where no free block is large enough. -/
theorem allocateMemory_error {freelist alloclist : List Block} {pid size : ℤ}
    {policy : Policy} {msg : Message}
    (h : allocateMemory freelist alloclist pid size policy = .error msg) :
    ∀ b ∈ freelist, b.size < size := by
  intro b hb
  by_contra hle
  have hany : listIsInBySize freelist size = true :=
    List.any_eq_true.mpr ⟨b, hb, compareSize_iff.mpr (not_lt.mp hle)⟩
  obtain ⟨pre, c, post, rfl, hpre, hc⟩ := exists_first_of_any hany
  have hsmall : ∀ d ∈ pre, d.size < size := by
    intro d hd
    by_contra hge
    have := compareSize_iff.mpr (not_lt.mp hge)
    simp [hpre d hd] at this
  have hok : allocateMemory (pre ++ c :: post) alloclist pid size policy = .ok (_, _) :=
    allocateMemory_eq_ok_iff.mpr ⟨pre, c, post, rfl, hsmall, compareSize_iff.mp hc, rfl, rfl⟩
  rw [h] at hok
  cases hok

/-- A deallocation fails only where no block belongs to the pid. -/
theorem deallocateMemory_error {alloclist freelist : List Block} {pid : ℤ} {policy : Policy}
    {msg : Message} (h : deallocateMemory alloclist freelist pid policy = .error msg) :
    ∀ b ∈ alloclist, b.pid ≠ pid := by
  intro b hb hpid
  have hany : listIsInByPid alloclist pid = true :=
    List.any_eq_true.mpr ⟨b, hb, comparePid_iff.mpr hpid.symm⟩
  obtain ⟨pre, c, post, hsplit, hpre, hc⟩ := exists_first_of_any hany
  have hother : ∀ d ∈ pre, d.pid ≠ pid := by
    intro d hd heq
    have := comparePid_iff.mpr heq.symm
    simp [hpre d hd] at this
  have hok : deallocateMemory alloclist freelist pid policy = .ok (_, _) :=
    deallocateMemory_eq_ok_iff.mpr
      ⟨pre, c, post, hsplit, hother, (comparePid_iff.mp hc).symm, rfl, rfl⟩
  rw [h] at hok
  cases hok

end OsLabs.Mmu
