import OsLabs.Mmu.Mmu

/-!
# The memory simulator: search and removal

`allocate_memory` and `deallocate_memory` each walk a list three times: to see whether some block
passes the test, for the index of the first one that does, and to unlink the block at that index.
The walks agree, so of the three error branches only the first one is ever taken.
-/

namespace OsLabs.Mmu

/-- The answers of the two searches for a test, and the removal at the index of the second one. -/
structure SearchAgrees (test : Block → Bool) (l : List Block) (isIn : Bool) (index : ℤ) : Prop where
  isIn_iff : isIn = true ↔ 0 ≤ index
  removes : 0 ≤ index → ∃ pre b post, l = pre ++ b :: post ∧ (∀ c ∈ pre, test c = false) ∧
    test b = true ∧ index = pre.length ∧ listRemoveAtIndex l index = some (b, pre ++ post)

variable {test : Block → Bool} {l : List Block}

/-- The search runs off the end if no block passes. -/
theorem indexFrom_of_any_eq_false (h : l.any test = false) (i : ℤ) : indexFrom test i l = -1 := by
  induction l generalizing i with
  | nil => rfl
  | cons cur rest ih =>
    obtain ⟨hcur, hrest⟩ := Bool.or_eq_false_iff.mp h
    rw [indexFrom, hcur, if_neg Bool.false_ne_true]
    exact ih hrest (i + 1)

theorem any_iff_indexFrom_nonneg : l.any test = true ↔ 0 ≤ indexFrom test 0 l := by
  constructor
  · intro h
    obtain ⟨pre, b, post, rfl, hpre, hb⟩ := exists_first_of_any h
    exact not_lt.mp (not_indexFrom_neg post hpre hb)
  · intro h
    by_contra hnone
    rw [indexFrom_of_any_eq_false (Bool.eq_false_of_not_eq_true hnone)] at h
    omega

theorem searchAgrees_indexFrom (test : Block → Bool) (l : List Block) :
    SearchAgrees test l (l.any test) (indexFrom test 0 l) := by
  refine ⟨any_iff_indexFrom_nonneg, fun hindex => ?_⟩
  obtain ⟨pre, b, post, rfl, hpre, hb⟩ := exists_first_of_any (any_iff_indexFrom_nonneg.mpr hindex)
  refine ⟨pre, b, post, rfl, hpre, hb, ?_, listRemoveAtIndex_indexFrom post hpre hb⟩
  rw [indexFrom_first post 0 hpre hb, zero_add]

theorem allocateMemory_error_iff (freelist alloclist : List Block) (pid size : ℤ)
    (policy : Policy) :
    (∃ msg, allocateMemory freelist alloclist pid size policy = .error msg) ↔
      listIsInBySize freelist size = false := by
  constructor
  · intro ⟨msg, herror⟩
    rw [listIsInBySize, List.any_eq_false]
    intro b hb hfits
    have hsmall := allocateMemory_error herror b hb
    have hlarge := compareSize_iff.mp hfits
    omega
  · intro hnone
    refine ⟨.notEnoughMemory, ?_⟩
    rw [allocateMemory, hnone]
    exact if_pos Bool.false_ne_true

theorem deallocateMemory_error_iff (alloclist freelist : List Block) (pid : ℤ) (policy : Policy) :
    (∃ msg, deallocateMemory alloclist freelist pid policy = .error msg) ↔
      listIsInByPid alloclist pid = false := by
  constructor
  · intro ⟨msg, herror⟩
    rw [listIsInByPid, List.any_eq_false]
    intro b hb howns
    exact deallocateMemory_error herror b hb (comparePid_iff.mp howns).symm
  · intro hnone
    refine ⟨.cantLocate pid, ?_⟩
    rw [deallocateMemory, hnone]
    exact if_pos Bool.false_ne_true

/-- **Search and removal.**  A list has a block for a size, or for a pid, just when the search
returns an index; this is the position of the first such block, and the removal there takes out
exactly this block.  So a request fails just when the first of its three tests does. -/
theorem search_removal_agree (l : List Block) (size pid : ℤ) :
    SearchAgrees (compareSize size) l (listIsInBySize l size) (listGetIndexOfBySize l size) ∧
      SearchAgrees (comparePid pid) l (listIsInByPid l pid) (listGetIndexOfByPid l pid) ∧
      (∀ alloclist owner policy,
        (∃ msg, allocateMemory l alloclist owner size policy = .error msg) ↔
          listIsInBySize l size = false) ∧
      ∀ freelist policy, (∃ msg, deallocateMemory l freelist pid policy = .error msg) ↔
        listIsInByPid l pid = false := by
  refine ⟨searchAgrees_indexFrom _ l, searchAgrees_indexFrom _ l, ?_, ?_⟩
  · exact fun alloclist owner policy => allocateMemory_error_iff l alloclist owner size policy
  · exact fun freelist policy => deallocateMemory_error_iff l freelist pid policy

end OsLabs.Mmu
