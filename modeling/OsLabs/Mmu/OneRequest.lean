import OsLabs.Mmu.Canonical
import OsLabs.Mmu.FitPolicy

/-!
# What one request does to the two lists

An allocation moves the front of one free block to `ALLOC_LIST` and refiles the rest; a
deallocation moves one block back; everything else stays where it was.  A deallocation takes
the first block of its pid only, so it frees a process exactly if that was its only block.  The
sizes of blocks are taken within `int`, where those of a reachable state are.
-/

namespace OsLabs.Mmu

open OsLabs.Lib

/-! ### The free list in the order of the policy -/

/-- An allocation of `size` took `b` out of the free list `l` and left `l'`: `b` is large enough
and the one that the policy wants, and its leftover fragment is back in the list. -/
structure TakesFree (policy : Policy) (l l' : List Block) (size : ℤ) (b : Block) : Prop where
  mem : b ∈ l
  sufficient : size ≤ b.size
  fits : Fits policy l size b
  exchanged : l'.Perm (b.leftover size ++ l.erase b)

theorem erase_perm_of_split (pre post : List Block) (b : Block) :
    ((pre ++ b :: post).erase b).Perm (pre ++ post) := by
  have hfront : (pre ++ b :: post).Perm (b :: (pre ++ post)) := List.perm_middle
  have herase := hfront.erase b
  rwa [List.erase_cons_head] at herase

theorem SizeSorted.takesFree {policy : Policy} {m : Memory} (h : SizeSorted policy m.freeList)
    {pid size : ℤ} {lists : List Block × List Block}
    (hok : allocateMemory m.freeList m.allocList pid size policy = .ok lists) :
    ∃ b, TakesFree policy m.freeList lists.1 size b := by
  obtain ⟨freelist, alloclist⟩ := lists
  obtain ⟨pre, b, post, hfree, hpre, hfit, rfl, -⟩ := allocateMemory_eq_ok_iff.mp hok
  refine ⟨b, by simp [hfree], hfit, h.fits_first hfree hpre hfit, ?_⟩
  show (refile policy (pre ++ post) b size).Perm (b.leftover size ++ m.freeList.erase b)
  rw [hfree]
  have hrest := (erase_perm_of_split pre post b).symm
  exact (refile_perm policy (pre ++ post) b size).trans (hrest.append_left _)

/-- What an allocation does to the free list. -/
structure AllocateKeepsOrder (policy : Policy) (m : Memory) (pid size : ℤ) : Prop where
  sorted : SizeSorted policy (serve policy m (.allocate pid size)).freeList
  takes : ∀ lists, allocateMemory m.freeList m.allocList pid size policy = .ok lists →
    ∃ b, TakesFree policy m.freeList (serve policy m (.allocate pid size)).freeList size b
  failed : ∀ msg, allocateMemory m.freeList m.allocList pid size policy = .error msg →
    (serve policy m (.allocate pid size)).freeList = m.freeList

/-- What a deallocation does to the free list. -/
structure DeallocateKeepsOrder (policy : Policy) (m : Memory) (pid : ℤ) : Prop where
  sorted : SizeSorted policy (serve policy m (.deallocate pid)).freeList
  returns : ∀ lists, deallocateMemory m.allocList m.freeList pid policy = .ok lists →
    ∃ b ∈ m.allocList, b.pid = pid ∧
      (serve policy m (.deallocate pid)).freeList.Perm ({ b with pid := 0 } :: m.freeList)
  failed : ∀ msg, deallocateMemory m.allocList m.freeList pid policy = .error msg →
    (serve policy m (.deallocate pid)).freeList = m.freeList

/-- **Allocate and deallocate keep the free list in policy order.**  From a free list in the size
order of the policy, every allocation and every deallocation, successful or not, leads to one.
A successful allocation takes the block that the policy wants and puts back its leftover
fragment only, a successful deallocation puts back one block of its pid. -/
theorem freeList_keepsOrder (policy : Policy) (m : Memory)
    (hsorted : SizeSorted policy m.freeList) :
    (∀ pid size, AllocateKeepsOrder policy m pid size) ∧
      ∀ pid, DeallocateKeepsOrder policy m pid := by
  constructor
  · intro pid size
    refine ⟨hsorted.allocate pid size, ?_, ?_⟩
    · intro lists hok
      rw [serve, hok]
      exact hsorted.takesFree hok
    · intro msg herr
      rw [serve, herr]
  · intro pid
    refine ⟨hsorted.deallocate pid, ?_, ?_⟩
    · intro lists hok
      obtain ⟨alloclist, freelist⟩ := lists
      rw [serve, hok]
      obtain ⟨pre, b, post, halloc, -, hb, -, rfl⟩ := deallocateMemory_eq_ok_iff.mp hok
      exact ⟨b, by simp [halloc], hb, listAddByPolicy_perm policy m.freeList _⟩
    · intro msg herr
      rw [serve, herr]

theorem freeList_keepsOrder_sample :
    AllocateKeepsOrder .bestFit ⟨[⟨0, 0, 1⟩, ⟨0, 10, 14⟩, ⟨0, 20, 24⟩], [⟨1, 2, 9⟩]⟩ 2 3 :=
  (freeList_keepsOrder .bestFit ⟨[⟨0, 0, 1⟩, ⟨0, 10, 14⟩, ⟨0, 20, 24⟩], [⟨1, 2, 9⟩]⟩
    (by decide)).1 2 3

/-! ### What other processes see -/

/-- The list `l'` is `l` with `new` put in somewhere; the other blocks keep their order. -/
def Gains (l l' : List Block) (new : Block) : Prop :=
  ∃ pre post, l = pre ++ post ∧ l' = pre ++ new :: post

theorem gains_addAscendingByAddress (l : List Block) (blk : Block) :
    Gains l (listAddAscendingByAddress l blk) blk := by
  induction l with
  | nil => exact ⟨[], [], rfl, rfl⟩
  | cons cur l ih =>
    unfold listAddAscendingByAddress at ih ⊢
    rw [List.orderedInsert_cons]
    split
    · exact ⟨[], cur :: l, rfl, rfl⟩
    · obtain ⟨pre, post, hl, hnew⟩ := ih
      refine ⟨cur :: pre, post, by rw [hl]; rfl, ?_⟩
      rw [hnew]
      rfl

/-- An allocation of `size` addresses for `pid`: one allocated block more, which holds exactly
so many addresses and lies inside one free block, and exactly these are no longer free. -/
structure Allocated (m m' : Memory) (pid size : ℤ) (new : Block) : Prop where
  gains : Gains m.allocList m'.allocList new
  pid_eq : new.pid = pid
  addresses : ((Finset.Icc new.start new.end_).card : ℤ) = size
  inside : ∃ b ∈ m.freeList, b.start ≤ new.start ∧ new.end_ ≤ b.end_
  free : ∀ x, CoveredBy m'.freeList x ↔ CoveredBy m.freeList x ∧ ¬ new.Covers x

/-- A deallocation for `pid`: one allocated block less, and exactly its addresses are free that
were not free before. -/
structure Deallocated (m m' : Memory) (pid : ℤ) (old : Block) : Prop where
  loses : Gains m'.allocList m.allocList old
  pid_eq : old.pid = pid
  fresh : ∀ x, old.Covers x → ¬ CoveredBy m.freeList x
  free : ∀ x, CoveredBy m'.freeList x ↔ CoveredBy m.freeList x ∨ old.Covers x

/-- What the request changes of `m`, and that it changes nothing else of `ALLOC_LIST`. -/
def RequestEffect (policy : Policy) (m : Memory) : Request → Prop
  | .allocate pid size =>
    match allocateMemory m.freeList m.allocList pid size policy with
    | .ok _ => ∃ new, Allocated m (serve policy m (.allocate pid size)) pid size new
    | .error _ => serve policy m (.allocate pid size) = m
  | .deallocate pid =>
    match deallocateMemory m.allocList m.freeList pid policy with
    | .ok _ => ∃ old, Deallocated m (serve policy m (.deallocate pid)) pid old
    | .error _ => serve policy m (.deallocate pid) = m
  | .coalesce => (serve policy m .coalesce).allocList = m.allocList

/-- One allocated block more in a tiled memory means that exactly its addresses are not free. -/
theorem Gains.coveredBy_free {P : ℤ} {m m' : Memory} {new : Block}
    (hg : Gains m.allocList m'.allocList new) (h : Tiled P m) (h' : Tiled P m') (x : ℤ) :
    CoveredBy m'.freeList x ↔ CoveredBy m.freeList x ∧ ¬ new.Covers x := by
  obtain ⟨pre, post, hl, hl'⟩ := hg
  rw [h.coveredBy_free, h'.coveredBy_free, hl, hl']
  simp only [List.mem_append, List.mem_cons]
  constructor
  · intro hfree
    refine ⟨⟨hfree.1, fun b hb => hfree.2 b ?_⟩, hfree.2 new (by simp)⟩
    exact hb.imp_right Or.inr
  · intro hfree
    refine ⟨hfree.1.1, fun b hb => ?_⟩
    rcases hb with hb | rfl | hb
    · exact hfree.1.2 b (Or.inl hb)
    · exact hfree.2
    · exact hfree.1.2 b (Or.inr hb)

section

variable {P : ℤ} {m : Memory} {policy : Policy} (h : Tiled P m)

include h

theorem allocated_of_ok {pid size : ℤ} (hpid : 0 < pid) (hsize : 1 ≤ size)
    {lists : List Block × List Block}
    (hok : allocateMemory m.freeList m.allocList pid size policy = .ok lists) :
    ∃ new, Allocated m (serve policy m (.allocate pid size)) pid size new := by
  obtain ⟨freelist, alloclist⟩ := lists
  have htiled : Tiled P (serve policy m (.allocate pid size)) := h.allocate hpid hsize
  obtain ⟨pre, b, post, hfree, -, hfit, -, halloc⟩ := allocateMemory_eq_ok_iff.mp hok
  have hgains : Gains m.allocList (serve policy m (.allocate pid size)).allocList
      (b.carve pid size) := by
    rw [serve, hok]
    show Gains m.allocList alloclist (b.carve pid size)
    rw [halloc]
    exact gains_addAscendingByAddress m.allocList (b.carve pid size)
  refine ⟨b.carve pid size, hgains, rfl, ?_, ?_, hgains.coveredBy_free h htiled⟩
  · show ((Finset.Icc b.start (b.start + size - 1)).card : ℤ) = size
    rw [Int.card_Icc]
    omega
  · refine ⟨b, by simp [hfree], le_rfl, ?_⟩
    show b.start + size - 1 ≤ b.end_
    unfold Block.size at hfit
    omega

theorem deallocated_of_ok {pid : ℤ} {lists : List Block × List Block}
    (hok : deallocateMemory m.allocList m.freeList pid policy = .ok lists) :
    ∃ old, Deallocated m (serve policy m (.deallocate pid)) pid old := by
  obtain ⟨alloclist, freelist⟩ := lists
  have htiled : Tiled P (serve policy m (.deallocate pid)) := h.deallocate
  obtain ⟨pre, b, post, halloc, -, hb, hrest, hfree⟩ := deallocateMemory_eq_ok_iff.mp hok
  have hloses : Gains (serve policy m (.deallocate pid)).allocList m.allocList b := by
    rw [serve, hok]
    exact ⟨pre, post, hrest, halloc⟩
  refine ⟨b, hloses, hb, ?_, ?_⟩
  · intro x hx hcov
    exact ((hloses.coveredBy_free htiled h x).mp hcov).2 hx
  · intro x
    rw [serve, hok]
    show CoveredBy freelist x ↔ CoveredBy m.freeList x ∨ b.Covers x
    have hperm : freelist.Perm ({ b with pid := 0 } :: m.freeList) := by
      rw [hfree]
      exact listAddByPolicy_perm policy m.freeList { b with pid := 0 }
    simp only [CoveredBy, hperm.mem_iff, List.mem_cons, exists_eq_or_imp]
    exact or_comm

theorem Tiled.requestEffect {r : Request} (hr : r.Positive) : RequestEffect policy m r := by
  cases r with
  | allocate pid size =>
    cases hres : allocateMemory m.freeList m.allocList pid size policy with
    | ok lists =>
      simp only [RequestEffect, hres]
      exact allocated_of_ok h hr.1 hr.2 hres
    | error msg => simp only [RequestEffect, OsLabs.Mmu.serve, hres]
  | deallocate pid =>
    cases hres : deallocateMemory m.allocList m.freeList pid policy with
    | ok lists =>
      simp only [RequestEffect, hres]
      exact deallocated_of_ok h hres
    | error msg => simp only [RequestEffect, OsLabs.Mmu.serve, hres]
  | coalesce => rfl

end

/-- **Requests do not disturb other processes.**  In every state of the main loop a request adds
or removes at most the one block of `ALLOC_LIST` it is about, and the other blocks keep their
pid, start, end and order. -/
theorem serveAll_requestEffect (policy : Policy) (P : ℤ) (rs : List Request) (hP : 1 ≤ P)
    (hrs : ∀ r ∈ rs, r.Positive) (r : Request) (hr : r.Positive) :
    RequestEffect policy (serveAll policy P rs) r :=
  (tiled_serveAll policy hP hrs).requestEffect hr

theorem serveAll_requestEffect_sample :
    RequestEffect .worstFit (serveAll .worstFit 30
      [.allocate 1 10, .allocate 2 5, .allocate 3 5]) (.deallocate 2) :=
  serveAll_requestEffect .worstFit 30 _ (by decide) (by decide) (.deallocate 2) (by decide)

end OsLabs.Mmu
