import OsLabs.Mmu.Mmu

/-!
# Which deallocation records free their process

`main` turns the record `(-p, x)` into a deallocation for `p`, unless `-p` is the COALESCE
marker, and `deallocate_memory` takes the first block of `p` only.  So the record frees `p`
exactly if `p` had no block, or just one and `-p` is not the marker.
-/

namespace OsLabs.Mmu

/-- How many blocks of the list belong to `pid`. -/
def ownedBlocks (l : List Block) (pid : ℤ) : ℕ := l.countP fun b => decide (b.pid = pid)

theorem ownedBlocks_eq_zero_iff {l : List Block} {pid : ℤ} :
    ownedBlocks l pid = 0 ↔ ∀ b ∈ l, b.pid ≠ pid := by
  simp [ownedBlocks, List.countP_eq_zero]

theorem ownedBlocks_split (pre post : List Block) (b : Block) :
    ownedBlocks (pre ++ b :: post) b.pid = ownedBlocks (pre ++ post) b.pid + 1 := by
  simp [ownedBlocks, List.countP_append]
  omega

/-- No block of `ALLOC_LIST` belongs to `pid` once `main` has processed the record `(-pid, x)`. -/
def FreesProcess (policy : Policy) (m : Memory) (pid x : ℤ) : Prop :=
  ∀ b ∈ (serve policy m (requestOf (-pid, x))).allocList, b.pid ≠ pid

theorem requestOf_neg {pid : ℤ} (hpid : 0 < pid) (x : ℤ) :
    requestOf (-pid, x) = if pid = 99999 then .coalesce else .deallocate pid := by
  have hneg : ¬ (0 : ℤ) < -pid := by omega
  have habs : |-pid| = pid := by rw [abs_neg, abs_of_pos hpid]
  by_cases hmark : pid = 99999
  · subst hmark
    rfl
  · have hrec : -pid ≠ -99999 := fun h => hmark (neg_injective h)
    rw [requestOf, if_neg fun h => hneg h.2, if_pos ⟨hrec, by show -pid < 0; omega⟩, habs,
      if_neg hmark]

/-- A deallocation removes one of the blocks of its pid, where there are any. -/
theorem ownedBlocks_deallocate (policy : Policy) (m : Memory) (pid : ℤ) :
    ownedBlocks (serve policy m (.deallocate pid)).allocList pid =
      ownedBlocks m.allocList pid - 1 := by
  rw [serve]
  split
  · rename_i alloclist freelist hok
    obtain ⟨pre, b, post, halloc, -, rfl, rfl, -⟩ := deallocateMemory_eq_ok_iff.mp hok
    rw [halloc, ownedBlocks_split]
    rfl
  · rename_i msg herr
    have hnone : ownedBlocks m.allocList pid = 0 :=
      ownedBlocks_eq_zero_iff.mpr (deallocateMemory_error herr)
    rw [hnone]

/-- **When a deallocation record frees the process.**  In any memory, so in every state of the
main loop, the record `(-pid, x)` leaves no block of `pid` if and only if `pid` had none, or
had one and `-pid` is not the COALESCE marker. -/
theorem freesProcess_iff (policy : Policy) (m : Memory) (pid x : ℤ) (hpid : 0 < pid) :
    FreesProcess policy m pid x ↔
      ownedBlocks m.allocList pid = 0 ∨ (pid ≠ 99999 ∧ ownedBlocks m.allocList pid = 1) := by
  rw [FreesProcess, ← ownedBlocks_eq_zero_iff, requestOf_neg hpid x]
  by_cases hmark : pid = 99999
  · rw [if_pos hmark]
    simp [serve, hmark]
  · rw [if_neg hmark, ownedBlocks_deallocate]
    omega

theorem freesProcess_iff_sample :
    FreesProcess .fifo (serveAll .fifo 30 [.allocate 1 5, .allocate 2 5]) 1 0 :=
  (freesProcess_iff .fifo (serveAll .fifo 30 [.allocate 1 5, .allocate 2 5]) 1 0
    (by decide)).mpr (by decide)

/-- A process that allocated twice keeps its second block, and process 99999 keeps its only one. -/
theorem secondBlock_not_freed :
    ¬ FreesProcess .fifo (serveAll .fifo 30 [.allocate 1 5, .allocate 1 5]) 1 0 ∧
      ¬ FreesProcess .fifo (serveAll .fifo 30 [.allocate 99999 5]) 99999 0 := by
  constructor
  · intro h
    exact h ⟨1, 5, 9⟩ (by decide) rfl
  · intro h
    exact h ⟨99999, 0, 4⟩ (by decide) rfl

end OsLabs.Mmu
