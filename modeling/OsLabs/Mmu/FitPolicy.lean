import OsLabs.Mmu.Tiling

/-!
# Best fit and worst fit over whole runs

`allocate_memory` takes the first block that is large enough and relies on the free list
being kept in the size order of the policy.  Allocation and deallocation keep that order;
`coalese_memory` returns its list in address order instead.  So the fit of a policy is
guaranteed as long as the last COALESCE found the maximal free runs already ascending (best
fit) or descending (worst fit) in size along the addresses.
-/

namespace OsLabs.Mmu

open OsLabs.Lib

/-- The size order that `allocate_memory` expects of its free list. -/
def SizeSorted : Policy → List Block → Prop
  | .fifo, _ => True
  | .bestFit, l => l.Pairwise fun a b => a.size ≤ b.size
  | .worstFit, l => l.Pairwise fun a b => b.size ≤ a.size

instance (policy : Policy) (l : List Block) : Decidable (SizeSorted policy l) := by
  cases policy <;> unfold SizeSorted <;> infer_instance

theorem SizeSorted.sublist {policy : Policy} {l₁ l₂ : List Block} (h : SizeSorted policy l₂)
    (hsub : l₁.Sublist l₂) : SizeSorted policy l₁ := by
  cases policy with
  | fifo => trivial
  | bestFit => exact List.Pairwise.sublist hsub h
  | worstFit => exact List.Pairwise.sublist hsub h

/-- The insertion of each policy keeps its size order. -/
theorem SizeSorted.add {policy : Policy} {l : List Block} (h : SizeSorted policy l)
    (blk : Block) : SizeSorted policy (listAddByPolicy policy l blk) := by
  cases policy with
  | fifo => trivial
  | bestFit =>
    refine pairwise_orderedInsert ?_ ?_ ?_ blk h
    · exact fun a b hab => le_of_lt hab
    · exact fun a b hab => not_lt.mp hab
    · exact fun a b c hab hbc => le_trans hab hbc
  | worstFit =>
    refine pairwise_orderedInsert ?_ ?_ ?_ blk h
    · exact fun a b hab => hab
    · exact fun a b hab => le_of_lt (not_le.mp hab)
    · exact fun a b c hab hbc => le_trans hbc hab

/-! ### Allocation and deallocation keep the order -/

section

variable {policy : Policy} {m : Memory} (h : SizeSorted policy m.freeList)

include h

theorem SizeSorted.allocate (pid size : ℤ) :
    SizeSorted policy (serve policy m (.allocate pid size)).freeList := by
  rw [serve]
  split
  · rename_i freelist alloclist hok
    obtain ⟨pre, b, post, hfree, -, -, rfl, rfl⟩ := allocateMemory_eq_ok_iff.mp hok
    have hrest : SizeSorted policy (pre ++ post) := by
      apply h.sublist
      rw [hfree]
      exact removed_sublist pre post b
    show SizeSorted policy (refile policy (pre ++ post) b size)
    unfold refile
    split
    · exact hrest.add _
    · exact hrest
  · exact h

theorem SizeSorted.deallocate (pid : ℤ) :
    SizeSorted policy (serve policy m (.deallocate pid)).freeList := by
  rw [serve]
  split
  · rename_i alloclist freelist hok
    obtain ⟨pre, b, post, -, -, -, rfl, rfl⟩ := deallocateMemory_eq_ok_iff.mp hok
    exact h.add _
  · exact h

end

/-! ### Coalescing and the order of the free runs -/

/-- The maximal free runs are in the size order of the policy along the addresses. -/
def RunsInOrder : Policy → List Block → Prop
  | .fifo, _ => True
  | .bestFit, l => ∀ a b c d, IsRun l a b → IsRun l c d → b < c → b - a ≤ d - c
  | .worstFit, l => ∀ a b c d, IsRun l a b → IsRun l c d → b < c → d - c ≤ b - a

/-- Coalescing leaves the free list in size order exactly when its maximal runs are. -/
theorem runsInOrder_iff {policy : Policy} {l : List Block} (hne : ∀ b ∈ l, b.start ≤ b.end_)
    (hd : l.Pairwise Block.Disjoint) :
    RunsInOrder policy l ↔ SizeSorted policy (coaleseMemory l) := by
  obtain ⟨hap, hne'⟩ := coaleseMemory_apart hne hd
  -- both orders compare the sizes of the same blocks, in address order
  have hbridge : ∀ R : ℤ → ℤ → Prop,
      (∀ a b c d, IsRun l a b → IsRun l c d → b < c → R (b - a) (d - c)) ↔
        (coaleseMemory l).Pairwise fun x y => R (x.end_ - x.start) (y.end_ - y.start) := by
    intro R
    constructor
    · intro hruns
      refine List.Pairwise.imp_of_mem ?_ hap
      intro x y hx hy hxy
      have hlt : x.end_ + 1 < y.start := hxy
      exact hruns _ _ _ _ (coaleseMemory_isRun hne hd hx) (coaleseMemory_isRun hne hd hy)
        (by omega)
    · intro hpair a b c d hab hcd hlt
      obtain ⟨x, hx, rfl, rfl⟩ := hab.mem_coaleseMemory hne hd
      obtain ⟨y, hy, rfl, rfl⟩ := hcd.mem_coaleseMemory hne hd
      obtain ⟨pre, post, hsplit⟩ := List.append_of_mem hx
      rw [hsplit] at hap hpair hy
      obtain ⟨-, hxpost, hcross⟩ := List.pairwise_append.mp hap
      rcases List.mem_append.mp hy with hy | hy
      · have hyx : y.end_ + 1 < x.start := hcross y hy x (by simp)
        have hxle := hab.le
        have hyle := hcd.le
        omega
      · rcases List.mem_cons.mp hy with rfl | hy
        · have hxle := hab.le
          omega
        · exact (List.pairwise_cons.mp (List.pairwise_append.mp hpair).2.1).1 y hy
  cases policy with
  | fifo => exact Iff.rfl
  | bestFit =>
    refine (hbridge fun p q => p ≤ q).trans ?_
    simp only [SizeSorted, Block.size, add_le_add_iff_right]
  | worstFit =>
    refine (hbridge fun p q => q ≤ p).trans ?_
    simp only [SizeSorted, Block.size, add_le_add_iff_right]

/-- The last COALESCE of the sequence, if it has one, found the maximal free runs in the
policy's order. -/
def LastCoalesceInOrder (policy : Policy) (P : ℤ) (rs : List Request) : Prop :=
  ∀ pre post, rs = pre ++ Request.coalesce :: post → Request.coalesce ∉ post →
    RunsInOrder policy (serveAll policy P pre).freeList

theorem LastCoalesceInOrder.init {policy : Policy} {P : ℤ} {rs : List Request} {r : Request}
    (h : LastCoalesceInOrder policy P (rs ++ [r])) (hr : r ≠ .coalesce) :
    LastCoalesceInOrder policy P rs := by
  intro pre post hsplit hpost
  refine h pre (post ++ [r]) (by simp [hsplit]) ?_
  simp [hpost, hr.symm]

/-- The free list is in the policy's order after every such sequence. -/
theorem sizeSorted_serveAll {policy : Policy} {P : ℤ} (hP : 1 ≤ P) {rs : List Request}
    (hrs : ∀ r ∈ rs, r.Positive) (hcoal : LastCoalesceInOrder policy P rs) :
    SizeSorted policy (serveAll policy P rs).freeList := by
  induction rs using List.reverseRecOn with
  | nil => cases policy <;> simp [SizeSorted, serveAll, initialMemory, listAddToFront]
  | append_singleton rs r ih =>
    have hpos : ∀ q ∈ rs, q.Positive := fun q hq => hrs q (by simp [hq])
    rw [serveAll_concat]
    cases r with
    | allocate pid size => exact (ih hpos (hcoal.init (by simp))).allocate pid size
    | deallocate pid => exact (ih hpos (hcoal.init (by simp))).deallocate pid
    | coalesce =>
      -- the order before this COALESCE is lost, the order of its runs is what counts
      have htiled := tiled_serveAll policy hP hpos
      have hruns := hcoal rs [] rfl (by simp)
      exact (runsInOrder_iff htiled.free_nonempty htiled.free_disjoint).mp hruns

/-! ### The block an allocation takes -/

/-- `m'` has one more allocated block than `m`: it belongs to `pid`, has the requested size
and lies inside `b`. -/
def CarvedFrom (m m' : Memory) (pid size : ℤ) (b : Block) : Prop :=
  ∃ new ∈ m'.allocList, m'.allocList.Perm (new :: m.allocList) ∧ new.pid = pid ∧
    new.size = size ∧ b.start ≤ new.start ∧ new.end_ ≤ b.end_

/-- The block that the policy wants taken out of the free list for a request of `size`. -/
def Fits : Policy → List Block → ℤ → Block → Prop
  | .fifo, _, _, _ => True
  | .bestFit, l, size, b => size ≤ b.size ∧ ∀ c ∈ l, size ≤ c.size → b.size ≤ c.size
  | .worstFit, l, _, b => ∀ c ∈ l, c.size ≤ b.size

/-- If the allocation succeeds, its block is carved out of a free block that fits. -/
def AllocatesByPolicy (policy : Policy) (m : Memory) (pid size : ℤ) : Prop :=
  ∀ freelist alloclist,
    allocateMemory m.freeList m.allocList pid size policy = .ok (freelist, alloclist) →
      ∃ b ∈ m.freeList, CarvedFrom m ⟨freelist, alloclist⟩ pid size b ∧
        Fits policy m.freeList size b

instance (m m' : Memory) (pid size : ℤ) (b : Block) : Decidable (CarvedFrom m m' pid size b) :=
  inferInstanceAs (Decidable (∃ new ∈ m'.allocList, _))

instance (policy : Policy) (l : List Block) (size : ℤ) (b : Block) :
    Decidable (Fits policy l size b) := by
  cases policy <;> unfold Fits <;> infer_instance

/-- A block of a list in size order that is not in front of `b` is `b` or comes after it. -/
theorem SizeSorted.mem_cases {policy : Policy} {pre post : List Block} {b c : Block}
    (h : SizeSorted policy (pre ++ b :: post)) (hc : c ∈ pre ++ b :: post) :
    c ∈ pre ∨ c = b ∨ SizeSorted policy [b, c] := by
  rcases List.mem_append.mp hc with hc | hc
  · exact Or.inl hc
  · rcases List.mem_cons.mp hc with rfl | hc
    · exact Or.inr (Or.inl rfl)
    · have hpair : [b, c].Sublist (b :: post) := (List.singleton_sublist.mpr hc).cons_cons b
      exact Or.inr (Or.inr (h.sublist (hpair.trans (List.sublist_append_right pre _))))

/-- On a free list in size order the first sufficient block is the one the policy wants. -/
theorem SizeSorted.fits_first {policy : Policy} {l pre post : List Block} {b : Block} {size : ℤ}
    (h : SizeSorted policy l) (hsplit : l = pre ++ b :: post)
    (hpre : ∀ c ∈ pre, c.size < size) (hfit : size ≤ b.size) : Fits policy l size b := by
  rw [hsplit] at h ⊢
  cases policy with
  | fifo => trivial
  | bestFit =>
    refine ⟨hfit, fun c hc hcs => ?_⟩
    rcases h.mem_cases hc with hfront | rfl | hbehind
    · have := hpre c hfront
      omega
    · exact le_rfl
    · exact List.rel_of_pairwise_cons hbehind List.mem_cons_self
  | worstFit =>
    intro c hc
    rcases h.mem_cases hc with hfront | rfl | hbehind
    · have := hpre c hfront
      omega
    · exact le_rfl
    · exact List.rel_of_pairwise_cons hbehind List.mem_cons_self

theorem SizeSorted.allocatesByPolicy {policy : Policy} {m : Memory}
    (h : SizeSorted policy m.freeList) (pid size : ℤ) :
    AllocatesByPolicy policy m pid size := by
  intro freelist alloclist hok
  obtain ⟨pre, b, post, hfree, hpre, hfit, -, rfl⟩ := allocateMemory_eq_ok_iff.mp hok
  have hperm := listAddAscendingByAddress_perm m.allocList (b.carve pid size)
  refine ⟨b, by simp [hfree], ⟨b.carve pid size, ?_, hperm, rfl, ?_, le_rfl, ?_⟩, ?_⟩
  · exact hperm.mem_iff.mpr (by simp)
  · simp only [Block.size, Block.carve]
    ring
  · show b.start + size - 1 ≤ b.end_
    unfold Block.size at hfit
    omega
  · exact h.fits_first hfree hpre hfit

/-- **Fit policy over whole runs.**  After every sequence of positive requests whose last
COALESCE, if any, found the free runs in the policy's order, an allocation fits the policy. -/
theorem serveAll_allocatesByPolicy (policy : Policy) (P : ℤ) (rs : List Request) (hP : 1 ≤ P)
    (hrs : ∀ r ∈ rs, r.Positive) (hcoal : LastCoalesceInOrder policy P rs) (pid size : ℤ) :
    AllocatesByPolicy policy (serveAll policy P rs) pid size :=
  (sizeSorted_serveAll hP hrs hcoal).allocatesByPolicy pid size

/-- A run with a COALESCE that finds two free runs in ascending order. -/
theorem serveAll_allocatesByPolicy_sample :
    AllocatesByPolicy .bestFit (serveAll .bestFit 30
      [.allocate 1 5, .allocate 2 5, .deallocate 1, .coalesce]) 3 5 := by
  refine serveAll_allocatesByPolicy .bestFit 30 _ (by decide) (by decide) ?_ 3 5
  intro pre post hsplit _
  have hpre : pre = [.allocate 1 5, .allocate 2 5, .deallocate 1] := by
    rcases pre with _ | ⟨a, _ | ⟨b, _ | ⟨c, _ | ⟨d, pre⟩⟩⟩⟩ <;> simp at hsplit
    obtain ⟨rfl, rfl, rfl, -⟩ := hsplit
    rfl
  subst hpre
  have htiled : Tiled 30 (serveAll .bestFit 30
      [.allocate 1 5, .allocate 2 5, .deallocate 1]) :=
    tiled_serveAll .bestFit (by decide) (by decide)
  rw [runsInOrder_iff htiled.free_nonempty htiled.free_disjoint]
  decide

/-- Processes 1 to 4 fill a partition of 30, processes 1 and 3 leave it, and the free runs
of 10 and 5 addresses are coalesced. -/
def outOfOrderRun : List Request :=
  [.allocate 1 10, .allocate 2 5, .allocate 3 5, .allocate 4 10, .deallocate 1,
    .deallocate 3, .coalesce]

/-- After that COALESCE best fit carves 5 addresses out of the run of 10. -/
theorem outOfOrderRun_not_bestFit :
    ¬ AllocatesByPolicy .bestFit (serveAll .bestFit 30 outOfOrderRun) 5 5 := by
  intro h
  have hok : allocateMemory (serveAll .bestFit 30 outOfOrderRun).freeList
      (serveAll .bestFit 30 outOfOrderRun).allocList 5 5 .bestFit =
      .ok ([⟨0, 15, 19⟩, ⟨0, 5, 9⟩], [⟨5, 0, 4⟩, ⟨2, 10, 14⟩, ⟨4, 20, 29⟩]) := by
    decide
  exact absurd (h _ _ hok) (by decide)

end OsLabs.Mmu
