import OsLabs.Mmu.Canonical

/-!
# No false shortage after coalescing

In a tiled memory the free addresses are those of the partition that no allocated block holds.
After COALESCE each maximal run of them is one free block, so an allocation fails only where no
run of free addresses is long enough.
-/

namespace OsLabs.Mmu

open OsLabs.Lib

/-- The `size` addresses from `a` on lie in the partition, and no allocated block holds one. -/
def FreeStretch (P : ℤ) (alloclist : List Block) (a size : ℤ) : Prop :=
  ∀ x, a ≤ x → x < a + size → InPartition P x ∧ ∀ b ∈ alloclist, ¬ b.Covers x

def Succeeds (m : Memory) (pid size : ℤ) (policy : Policy) : Prop :=
  ∃ lists, allocateMemory m.freeList m.allocList pid size policy = .ok lists

theorem succeeds_iff {m : Memory} {pid size : ℤ} {policy : Policy} :
    Succeeds m pid size policy ↔ ∃ b ∈ m.freeList, size ≤ b.size := by
  constructor
  · intro h
    obtain ⟨lists, hok⟩ := h
    obtain ⟨pre, b, post, hfree, -, hfit, -⟩ := allocateMemory_eq_ok_iff.mp hok
    exact ⟨b, by simp [hfree], hfit⟩
  · intro h
    obtain ⟨b, hb, hfit⟩ := h
    cases hres : allocateMemory m.freeList m.allocList pid size policy with
    | ok lists => exact ⟨lists, hres⟩
    | error msg =>
      have hsmall := allocateMemory_error hres b hb
      omega

/-- A stretch of covered addresses lies inside one block of the coalesced list. -/
theorem exists_block_of_stretch {l : List Block} (hne : ∀ b ∈ l, b.start ≤ b.end_)
    (hd : l.Pairwise Block.Disjoint) {a size : ℤ} (hsize : 1 ≤ size)
    (hfree : ∀ x, a ≤ x → x < a + size → CoveredBy l x) :
    ∃ b ∈ coaleseMemory l, b.start ≤ a ∧ a + size - 1 ≤ b.end_ := by
  obtain ⟨b, hb, hstart, hend⟩ :=
    (mem_coaleseMemory_covers hne a).mp (hfree a le_rfl (by omega))
  refine ⟨b, hb, hstart, ?_⟩
  by_contra hshort
  -- the address behind the block would be covered, but the block is a maximal run
  obtain ⟨c, hc, hcov⟩ := hfree (b.end_ + 1) (by omega) (by omega)
  exact (coaleseMemory_isRun hne hd hb).behind c hc hcov

/-- After COALESCE an allocation succeeds exactly if there is a free stretch of its size. -/
theorem succeeds_coalesce_iff {P : ℤ} {m : Memory} (h : Tiled P m) (policy : Policy)
    (pid : ℤ) {size : ℤ} (hsize : 1 ≤ size) :
    Succeeds (serve policy m .coalesce) pid size policy ↔
      ∃ a, FreeStretch P m.allocList a size := by
  rw [succeeds_iff]
  constructor
  · intro hfit
    obtain ⟨b, hb, hfit⟩ := hfit
    refine ⟨b.start, fun x hlow hhigh => (h.coveredBy_free x).mp ?_⟩
    refine (mem_coaleseMemory_covers h.free_nonempty x).mpr ⟨b, hb, hlow, ?_⟩
    unfold Block.size at hfit
    omega
  · intro hstretch
    obtain ⟨a, ha⟩ := hstretch
    obtain ⟨b, hb, hstart, hend⟩ := exists_block_of_stretch h.free_nonempty h.free_disjoint
      hsize fun x hlow hhigh => (h.coveredBy_free x).mpr (ha x hlow hhigh)
    refine ⟨b, hb, ?_⟩
    unfold Block.size
    omega

/-- **No false shortage after COALESCE.**  In every state whose last request was COALESCE, an
allocation of `size` addresses succeeds if and only if the partition has that many consecutive
addresses that no allocated block holds; with no allocated block left, the whole partition can
be allocated. -/
theorem serveAll_coalesce_succeeds_iff (policy : Policy) (P : ℤ) (rs : List Request)
    (hP : 1 ≤ P) (hrs : ∀ r ∈ rs, r.Positive) (pid size : ℤ) (hsize : 1 ≤ size) :
    (Succeeds (serveAll policy P (rs ++ [.coalesce])) pid size policy ↔
      ∃ a, FreeStretch P (serveAll policy P (rs ++ [.coalesce])).allocList a size) ∧
    ((serveAll policy P (rs ++ [.coalesce])).allocList = [] →
      Succeeds (serveAll policy P (rs ++ [.coalesce])) pid P policy) := by
  have htiled := tiled_serveAll policy hP hrs
  rw [serveAll_concat]
  refine ⟨succeeds_coalesce_iff htiled policy pid hsize, fun hempty => ?_⟩
  have hnone : (serveAll policy P rs).allocList = [] := hempty
  refine (succeeds_coalesce_iff htiled policy pid hP).mpr ⟨0, fun x hlow hhigh => ?_⟩
  rw [hnone]
  exact ⟨⟨hlow, by omega⟩, by simp⟩

theorem serveAll_coalesce_succeeds_iff_sample :
    Succeeds (serveAll .worstFit 30
      [.allocate 1 10, .allocate 2 20, .deallocate 1, .deallocate 2, .coalesce]) 3 30
      .worstFit :=
  (serveAll_coalesce_succeeds_iff .worstFit 30
    [.allocate 1 10, .allocate 2 20, .deallocate 1, .deallocate 2] (by decide) (by decide) 3 1
    (by decide)).2 (by decide)

end OsLabs.Mmu
