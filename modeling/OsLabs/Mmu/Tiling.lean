import OsLabs.Mmu.Coalesce

/-!
# The two lists tile the partition

Free and allocated blocks together form an exact cover of the addresses `0` to `P - 1`.
An allocation splits one piece of that cover, a deallocation moves a piece from one list to
the other, and coalescing keeps the cover count of every address, so the cover survives any
sequence of requests.
-/

namespace OsLabs.Mmu

open OsLabs.Lib

/-- The addresses of a partition of size `P`. -/
abbrev InPartition (P x : ℤ) : Prop := 0 ≤ x ∧ x ≤ P - 1

/-- The invariant that every request keeps. -/
structure Tiled (P : ℤ) (m : Memory) : Prop where
  nonempty : ∀ b ∈ m.freeList ++ m.allocList, b.start ≤ b.end_
  cover : ExactCover Block.Covers (InPartition P) (m.freeList ++ m.allocList)
  freePid : ∀ b ∈ m.freeList, b.pid = 0
  allocPid : ∀ b ∈ m.allocList, 0 < b.pid
  allocSorted : AddressSorted m.allocList

theorem Tiled.free_nonempty {P : ℤ} {m : Memory} (h : Tiled P m) :
    ∀ b ∈ m.freeList, b.start ≤ b.end_ :=
  fun b hb => h.nonempty b (List.mem_append_left _ hb)

theorem Tiled.alloc_nonempty {P : ℤ} {m : Memory} (h : Tiled P m) :
    ∀ b ∈ m.allocList, b.start ≤ b.end_ :=
  fun b hb => h.nonempty b (List.mem_append_right _ hb)

theorem Tiled.free_disjoint {P : ℤ} {m : Memory} (h : Tiled P m) :
    m.freeList.Pairwise Block.Disjoint :=
  (List.pairwise_append.mp h.cover.disjoint).1

theorem Tiled.alloc_disjoint {P : ℤ} {m : Memory} (h : Tiled P m) :
    m.allocList.Pairwise Block.Disjoint :=
  (List.pairwise_append.mp h.cover.disjoint).2.1

/-! ### The fragment an allocation leaves behind -/

/-- What is left of `b` after an allocation of `size`: one free block, or nothing. -/
def Block.leftover (b : Block) (size : ℤ) : List Block :=
  if b.start + size - 1 < b.end_ then
    [{ pid := 0, start := b.start + size - 1 + 1, end_ := b.end_ }]
  else []

theorem refile_perm (policy : Policy) (l : List Block) (b : Block) (size : ℤ) :
    (refile policy l b size).Perm (b.leftover size ++ l) := by
  unfold refile Block.leftover
  split
  · exact listAddByPolicy_perm policy l _
  · exact List.Perm.refl _

theorem leftover_free (b : Block) (size : ℤ) :
    ∀ c ∈ b.leftover size, c.pid = 0 ∧ c.start ≤ c.end_ := by
  intro c hc
  unfold Block.leftover at hc
  split at hc
  · rename_i hlt
    rw [List.mem_singleton] at hc
    subst hc
    exact ⟨rfl, by show b.start + size - 1 + 1 ≤ b.end_; omega⟩
  · simp at hc

/-- The carved part and the leftover cover exactly the addresses of the block. -/
theorem carve_leftover_coverCount {b : Block} (pid : ℤ) {size : ℤ} (hsize : 1 ≤ size)
    (hfit : size ≤ b.size) (x : ℤ) :
    coverCount Block.Covers x (b.carve pid size :: b.leftover size) =
      coverCount Block.Covers x [b] := by
  have hfit' : b.start + size - 1 ≤ b.end_ := by
    unfold Block.size at hfit
    omega
  have hmerge : ∀ c : Block, c.start = b.start → c.end_ = b.end_ →
      coverCount Block.Covers x [c] = coverCount Block.Covers x [b] := by
    intro c hs he
    simp only [coverCount_cons, coverCount_nil, Block.covers_iff, hs, he]
  unfold Block.leftover
  by_cases hlt : b.start + size - 1 < b.end_
  · rw [if_pos hlt, ← hmerge { b.carve pid size with end_ := b.end_ } rfl rfl]
    have hadj := merged_covers (b.carve pid size)
      { pid := 0, start := b.start + size - 1 + 1, end_ := b.end_ } rfl
      (by show b.start ≤ b.start + size - 1; omega)
      (by show b.start + size - 1 + 1 ≤ b.end_; omega) x
    simp only [coverCount_cons, coverCount_nil, Nat.zero_add]
    exact hadj.symm
  · rw [if_neg hlt]
    exact hmerge (b.carve pid size) rfl (by show b.start + size - 1 = b.end_; omega)

/-! ### Each request keeps the tiling -/

section

variable {P : ℤ} {m : Memory} {policy : Policy} (h : Tiled P m)

include h

theorem Tiled.allocate {pid size : ℤ} (hpid : 0 < pid) (hsize : 1 ≤ size) :
    Tiled P (serve policy m (.allocate pid size)) := by
  rw [serve]
  split
  · rename_i freelist alloclist hok
    obtain ⟨pre, b, post, hfree, -, hfit, rfl, rfl⟩ := allocateMemory_eq_ok_iff.mp hok
    have hb : b ∈ m.freeList := by simp [hfree]
    have hfp := refile_perm policy (pre ++ post) b size
    have hap := listAddAscendingByAddress_perm m.allocList (b.carve pid size)
    have hrest : ∀ c ∈ pre ++ post, c ∈ m.freeList := by
      rw [hfree]
      exact fun c hc => (removed_sublist pre post b).subset hc
    have hmemf : ∀ c ∈ refile policy (pre ++ post) b size,
        c ∈ b.leftover size ∨ c ∈ m.freeList := by
      intro c hc
      rcases List.mem_append.mp (hfp.mem_iff.mp hc) with hc | hc
      · exact Or.inl hc
      · exact Or.inr (hrest c hc)
    have hmema : ∀ c ∈ listAddAscendingByAddress m.allocList (b.carve pid size),
        c = b.carve pid size ∨ c ∈ m.allocList :=
      fun c hc => List.mem_cons.mp (hap.mem_iff.mp hc)
    constructor
    · intro c hc
      rcases List.mem_append.mp hc with hc | hc
      · rcases hmemf c hc with hc | hc
        · exact (leftover_free b size c hc).2
        · exact h.free_nonempty c hc
      · rcases hmema c hc with rfl | hc
        · show b.start ≤ b.start + size - 1
          omega
        · exact h.alloc_nonempty c hc
    · refine h.cover.congr fun x => ?_
      have hsplit := carve_leftover_coverCount pid hsize hfit x
      rw [hfree, coverCount_append, coverCount_perm hfp, coverCount_perm hap]
      simp only [coverCount_append, coverCount_cons, coverCount_nil] at hsplit ⊢
      omega
    · intro c hc
      rcases hmemf c hc with hc | hc
      · exact (leftover_free b size c hc).1
      · exact h.freePid c hc
    · intro c hc
      rcases hmema c hc with rfl | hc
      · exact hpid
      · exact h.allocPid c hc
    · exact h.allocSorted.add _
  · exact h

theorem Tiled.deallocate {pid : ℤ} : Tiled P (serve policy m (.deallocate pid)) := by
  rw [serve]
  split
  · rename_i alloclist freelist hok
    obtain ⟨pre, b, post, halloc, -, -, rfl, rfl⟩ := deallocateMemory_eq_ok_iff.mp hok
    have hfp := listAddByPolicy_perm policy m.freeList { b with pid := 0 }
    have hmemf : ∀ c ∈ listAddByPolicy policy m.freeList { b with pid := 0 },
        c = { b with pid := 0 } ∨ c ∈ m.freeList :=
      fun c hc => List.mem_cons.mp (hfp.mem_iff.mp hc)
    have hsub : (pre ++ post).Sublist m.allocList := by
      rw [halloc]
      exact removed_sublist pre post b
    constructor
    · intro c hc
      rcases List.mem_append.mp hc with hc | hc
      · rcases hmemf c hc with rfl | hc
        · exact h.alloc_nonempty b (by simp [halloc])
        · exact h.free_nonempty c hc
      · exact h.alloc_nonempty c (hsub.subset hc)
    · refine h.cover.congr fun x => ?_
      have hpid : coverCount Block.Covers x [{ b with pid := 0 }] =
          coverCount Block.Covers x [b] := rfl
      rw [halloc, coverCount_append, coverCount_perm hfp]
      simp only [coverCount_append, coverCount_cons, coverCount_nil] at hpid ⊢
      omega
    · intro c hc
      rcases hmemf c hc with rfl | hc
      · rfl
      · exact h.freePid c hc
    · exact fun c hc => h.allocPid c (hsub.subset hc)
    · exact h.allocSorted.sublist hsub
  · exact h

theorem Tiled.coalesce : Tiled P (serve policy m .coalesce) := by
  have hap := coaleseMemory_apart h.free_nonempty h.free_disjoint
  constructor
  · intro c hc
    rcases List.mem_append.mp hc with hc | hc
    · exact hap.2 c hc
    · exact h.alloc_nonempty c hc
  · refine h.cover.congr fun x => ?_
    show coverCount Block.Covers x (coaleseMemory m.freeList ++ m.allocList) = _
    rw [coverCount_append, coverCount_append, coaleseMemory_coverCount h.free_nonempty]
  · exact coaleseMemory_pid (fun p => p = 0) h.freePid
  · exact h.allocPid
  · exact h.allocSorted

theorem Tiled.serve {r : Request} (hr : r.Positive) : Tiled P (serve policy m r) := by
  cases r with
  | allocate pid size => exact h.allocate hr.1 hr.2
  | deallocate pid => exact h.deallocate
  | coalesce => exact h.coalesce

end

theorem tiled_initialMemory {P : ℤ} (hP : 1 ≤ P) : Tiled P (initialMemory P) := by
  constructor
  · intro b hb
    simp only [initialMemory, listAddToFront, List.append_nil, List.mem_singleton] at hb
    subst hb
    show (0 : ℤ) ≤ P + 0 - 1
    omega
  · intro x
    simp only [initialMemory, listAddToFront, List.append_nil, coverCount_cons, coverCount_nil,
      Nat.zero_add, Block.covers_iff, InPartition, add_zero]
  · intro b hb
    simp only [initialMemory, listAddToFront, List.mem_singleton] at hb
    subst hb
    rfl
  · simp [initialMemory]
  · exact List.Pairwise.nil

/-- The tiling holds after any sequence of requests. -/
theorem tiled_serveAll (policy : Policy) {P : ℤ} (hP : 1 ≤ P) {rs : List Request}
    (hrs : ∀ r ∈ rs, r.Positive) : Tiled P (serveAll policy P rs) := by
  induction rs using List.reverseRecOn with
  | nil => exact tiled_initialMemory hP
  | append_singleton rs r ih =>
    rw [serveAll_concat]
    have hpre : Tiled P (serveAll policy P rs) := ih fun q hq => hrs q (by simp [hq])
    exact hpre.serve (hrs r (by simp))

/-- In particular it holds throughout the loop of `main`, for input records that ask for a
positive size wherever they allocate. -/
theorem tiled_mainLoop (policy : Policy) {P : ℤ} (hP : 1 ≤ P) {inputdata : List (ℤ × ℤ)}
    (hrec : ∀ record ∈ inputdata, 0 < record.1 → 1 ≤ record.2) :
    Tiled P (mainLoop policy P inputdata) := by
  refine tiled_serveAll policy hP fun r hr => ?_
  obtain ⟨record, hmem, rfl⟩ := List.mem_map.mp hr
  exact requestOf_positive (hrec record hmem)

/-! ### The tiling in plain words -/

/-- The blocks of both lists are nonempty and disjoint and together cover the partition, free
blocks belong to pid 0 and allocated ones to positive pids, and `ALLOC_LIST` ascends strictly. -/
structure TilesPartition (P : ℤ) (m : Memory) : Prop where
  start_le_end : ∀ b ∈ m.freeList ++ m.allocList, b.start ≤ b.end_
  disjoint : (m.freeList ++ m.allocList).Pairwise Block.Disjoint
  covered : ∀ x, InPartition P x ↔ ∃ b ∈ m.freeList ++ m.allocList, b.Covers x
  free_pid : ∀ b ∈ m.freeList, b.pid = 0
  alloc_pid : ∀ b ∈ m.allocList, 0 < b.pid
  alloc_ascending : m.allocList.Pairwise fun a b => a.start < b.start

theorem Tiled.tilesPartition {P : ℤ} {m : Memory} (h : Tiled P m) : TilesPartition P m where
  start_le_end := h.nonempty
  disjoint := h.cover.disjoint
  covered := h.cover.mem_region
  free_pid := h.freePid
  alloc_pid := h.allocPid
  alloc_ascending := h.allocSorted.strict h.alloc_nonempty h.alloc_disjoint

/-- **MMU tiling.**  After every sequence of positive requests, successful or not, the blocks
of the two lists tile the partition. -/
theorem serveAll_tilesPartition (policy : Policy) (P : ℤ) (rs : List Request) (hP : 1 ≤ P)
    (hrs : ∀ r ∈ rs, r.Positive) : TilesPartition P (serveAll policy P rs) :=
  (tiled_serveAll policy hP hrs).tilesPartition

theorem serveAll_tilesPartition_sample :
    TilesPartition 30 (serveAll .bestFit 30
      [.allocate 1 10, .allocate 2 5, .deallocate 1, .coalesce, .allocate 3 40]) :=
  serveAll_tilesPartition .bestFit 30 _ (by decide) (by decide)

end OsLabs.Mmu
