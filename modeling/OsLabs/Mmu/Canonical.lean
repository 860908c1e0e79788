import OsLabs.Lib.Interval
import OsLabs.Mmu.Tiling

/-!
# The canonical free list

The maximal runs of a set of addresses, in ascending order, are determined by the set.
`coaleseMemory` returns this list, so its result depends on the covered addresses only, and a
search in a coalesced free list finds every run of free addresses that is long enough.
-/

namespace OsLabs.Mmu

open OsLabs.Lib

/-- The start and end fields of a block. -/
def Block.range (b : Block) : ℤ × ℤ := (b.start, b.end_)

theorem covered_map_range (l : List Block) (x : ℤ) :
    Interval.Covered (l.map Block.range) x ↔ ∃ b ∈ l, b.Covers x := by
  simp [Interval.Covered, Interval.Covers, Block.range, Block.Covers]

/-- The list of the maximal runs of the addresses in `region`: nonempty blocks, ascending, that
cover these addresses and leave a gap before the next block. -/
structure Canonical (region : ℤ → Prop) (l : List Block) : Prop where
  start_le_end : ∀ b ∈ l, b.start ≤ b.end_
  ascending : l.Pairwise fun a b => a.start < b.start
  gaps : l.IsChain fun a b => a.end_ + 1 < b.start
  covers : ∀ x, region x ↔ ∃ b ∈ l, b.Covers x

theorem Canonical.pairwise_gap {region : ℤ → Prop} {l : List Block} (h : Canonical region l) :
    (l.map Block.range).Pairwise Interval.Gap := by
  apply Interval.pairwise_gap
  · intro i hi
    obtain ⟨b, hb, rfl⟩ := List.mem_map.mp hi
    exact h.start_le_end b hb
  · rw [List.isChain_map]
    refine h.gaps.imp fun a b hab => ?_
    exact ⟨a.end_ + 1, Int.lt_succ a.end_, hab⟩

/-- Two canonical lists of the same addresses have the same starts and ends. -/
theorem Canonical.unique {region : ℤ → Prop} {l l' : List Block} (h : Canonical region l)
    (h' : Canonical region l') : l.map Block.range = l'.map Block.range := by
  apply Interval.eq_of_covered
  · intro i hi
    obtain ⟨b, hb, rfl⟩ := List.mem_map.mp hi
    exact h.start_le_end b hb
  · intro i hi
    obtain ⟨b, hb, rfl⟩ := List.mem_map.mp hi
    exact h'.start_le_end b hb
  · exact h.pairwise_gap
  · exact h'.pairwise_gap
  · intro x
    rw [covered_map_range, covered_map_range, ← h.covers, ← h'.covers]

theorem Canonical.congr {region region' : ℤ → Prop} {l : List Block} (h : Canonical region l)
    (hiff : ∀ x, region' x ↔ region x) : Canonical region' l :=
  ⟨h.start_le_end, h.ascending, h.gaps, fun x => (hiff x).trans (h.covers x)⟩

/-- The addresses that the blocks of the list cover. -/
def CoveredBy (l : List Block) (x : ℤ) : Prop := ∃ b ∈ l, b.Covers x

/-- In a tiled memory an address is free exactly if the partition has it and no allocated block
does. -/
theorem Tiled.coveredBy_free {P : ℤ} {m : Memory} (h : Tiled P m) (x : ℤ) :
    CoveredBy m.freeList x ↔ InPartition P x ∧ ∀ b ∈ m.allocList, ¬ b.Covers x := by
  have hcount := h.cover x
  rw [coverCount_append] at hcount
  have halloc : (∀ b ∈ m.allocList, ¬ b.Covers x) ↔
      coverCount Block.Covers x m.allocList = 0 := by
    rw [← not_iff_not, ← ne_eq, ← Nat.pos_iff_ne_zero, coverCount_pos_iff]
    push Not
    rfl
  rw [CoveredBy, ← coverCount_pos_iff, halloc]
  by_cases hx : InPartition P x
  · rw [if_pos hx] at hcount
    rw [and_iff_right hx]
    omega
  · rw [if_neg hx] at hcount
    exact iff_of_false (by omega) fun hin => hx hin.1

/-- Coalescing nonempty disjoint blocks yields the canonical list of their addresses. -/
theorem canonical_coaleseMemory {l : List Block} (hne : ∀ b ∈ l, b.start ≤ b.end_)
    (hd : l.Pairwise Block.Disjoint) : Canonical (CoveredBy l) (coaleseMemory l) := by
  obtain ⟨hap, hne'⟩ := coaleseMemory_apart hne hd
  constructor
  · exact hne'
  · refine List.Pairwise.imp_of_mem ?_ hap
    intro a b ha _ hab
    have hgap : a.end_ + 1 < b.start := hab
    have ha' := hne' a ha
    omega
  · exact hap.isChain
  · exact mem_coaleseMemory_covers hne

/-! ### Coalescing a canonical list -/

theorem listAddAscendingByAddress_last {l : List Block} {blk : Block}
    (h : ∀ b ∈ l, b.start < blk.start) : listAddAscendingByAddress l blk = l ++ [blk] := by
  induction l with
  | nil => rfl
  | cons cur l ih =>
    have hcur : ¬ ¬ cur.start < blk.start := not_not.mpr (h cur (by simp))
    have hrest := ih fun b hb => h b (List.mem_cons_of_mem _ hb)
    unfold listAddAscendingByAddress at hrest ⊢
    rw [List.orderedInsert_cons, if_neg hcur, hrest]
    rfl

theorem foldl_addByAddress_ascending {l acc : List Block}
    (h : (acc ++ l).Pairwise fun a b => a.start < b.start) :
    l.foldl listAddAscendingByAddress acc = acc ++ l := by
  induction l generalizing acc with
  | nil => simp
  | cons b l ih =>
    have hlast : ∀ a ∈ acc, a.start < b.start :=
      fun a ha => (List.pairwise_append.mp h).2.2 a ha b (by simp)
    rw [List.foldl_cons, listAddAscendingByAddress_last hlast]
    rw [List.append_cons] at h
    rw [ih h, List.append_cons acc b l]

theorem coaleseFrom_of_gaps {prev : Block} {l : List Block}
    (h : (prev :: l).IsChain fun a b => a.end_ + 1 < b.start) :
    coaleseFrom prev l = prev :: l := by
  induction l generalizing prev with
  | nil => rfl
  | cons cur rest ih =>
    obtain ⟨hgap, hrest⟩ := List.isChain_cons_cons.mp h
    rw [coaleseFrom, if_neg (by omega), ih hrest]

/-- A canonical list is left as it is, owners included. -/
theorem Canonical.coaleseMemory_eq {region : ℤ → Prop} {l : List Block}
    (h : Canonical region l) : coaleseMemory l = l := by
  rw [coaleseMemory, foldl_addByAddress_ascending (by simpa using h.ascending),
    List.nil_append]
  cases l with
  | nil => rfl
  | cons prev rest => exact coaleseFrom_of_gaps h.gaps

/-- **Coalescing yields the canonical list.**  On pairwise disjoint nonempty blocks in any
order, the result is the only list of the maximal runs of the covered addresses; lists that
cover the same addresses coalesce to the same starts and ends, and a second coalescing changes
nothing. -/
theorem coaleseMemory_unique (l : List Block) (hne : ∀ b ∈ l, b.start ≤ b.end_)
    (hd : l.Pairwise Block.Disjoint) :
    Canonical (CoveredBy l) (coaleseMemory l) ∧
      (∀ a b, IsRun l a b ↔ ∃ blk ∈ coaleseMemory l, blk.start = a ∧ blk.end_ = b) ∧
      (∀ l', Canonical (CoveredBy l) l' →
        l'.map Block.range = (coaleseMemory l).map Block.range) ∧
      (∀ l₂ : List Block, (∀ b ∈ l₂, b.start ≤ b.end_) → l₂.Pairwise Block.Disjoint →
        (∀ x, CoveredBy l₂ x ↔ CoveredBy l x) →
        (coaleseMemory l₂).map Block.range = (coaleseMemory l).map Block.range) ∧
      coaleseMemory (coaleseMemory l) = coaleseMemory l := by
  have hcan := canonical_coaleseMemory hne hd
  refine ⟨hcan, ?_, ?_, ?_, hcan.coaleseMemory_eq⟩
  · intro a b
    constructor
    · intro hrun
      exact hrun.mem_coaleseMemory hne hd
    · rintro ⟨blk, hblk, rfl, rfl⟩
      exact coaleseMemory_isRun hne hd hblk
  · intro l' hl'
    exact hl'.unique hcan
  · intro l₂ hne₂ hd₂ hsame
    have hcan₂ := canonical_coaleseMemory hne₂ hd₂
    exact (hcan₂.congr fun x => (hsame x).symm).unique hcan

/-- Three blocks out of order, two of them adjacent. -/
theorem coaleseMemory_unique_sample :
    Canonical (CoveredBy [⟨0, 20, 29⟩, ⟨0, 5, 9⟩, ⟨0, 0, 4⟩])
      [⟨0, 0, 9⟩, ⟨0, 20, 29⟩] := by
  have hd : ([⟨0, 20, 29⟩, ⟨0, 5, 9⟩, ⟨0, 0, 4⟩] : List Block).Pairwise Block.Disjoint := by
    simp only [List.pairwise_cons, List.mem_cons, List.not_mem_nil, Block.Disjoint, Block.Covers]
    grind
  exact (coaleseMemory_unique [⟨0, 20, 29⟩, ⟨0, 5, 9⟩, ⟨0, 0, 4⟩] (by decide) hd).1

end OsLabs.Mmu
