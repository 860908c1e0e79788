import OsLabs.Lib.ExactCover
import OsLabs.Mmu.Mmu

/-!
# What coalescing does to the addresses

`coaleseMemory` sorts the blocks by address and merges neighbours in place.  On pairwise
disjoint nonempty blocks the result covers each address as often as before, and its blocks
are the maximal runs of covered addresses in ascending order.
-/

namespace OsLabs.Mmu

open OsLabs.Lib

/-- The address `x` belongs to the block. -/
def Block.Covers (b : Block) (x : ℤ) : Prop := b.start ≤ x ∧ x ≤ b.end_

instance (b : Block) : DecidablePred b.Covers := fun _ => inferInstanceAs (Decidable (_ ∧ _))

theorem Block.covers_iff (b : Block) (x : ℤ) : b.Covers x ↔ b.start ≤ x ∧ x ≤ b.end_ := Iff.rfl

/-- The two blocks share no address. -/
def Block.Disjoint (a b : Block) : Prop := ∀ x, ¬(a.Covers x ∧ b.Covers x)

/-- Sorted by start address, as `list_add_ascending_by_address` leaves a list. -/
def AddressSorted (l : List Block) : Prop := l.Pairwise fun a b => a.start ≤ b.start

theorem AddressSorted.add {l : List Block} (h : AddressSorted l) (blk : Block) :
    AddressSorted (listAddAscendingByAddress l blk) := by
  refine pairwise_orderedInsert ?_ ?_ ?_ blk h
  · intro a b hab
    omega
  · intro a b hab
    omega
  · intro a b c hab hbc
    exact le_trans hab hbc

/-- Nonempty disjoint blocks that are sorted by start lie one behind the other. -/
theorem AddressSorted.end_lt {l : List Block} (h : AddressSorted l)
    (hne : ∀ b ∈ l, b.start ≤ b.end_) (hd : l.Pairwise Block.Disjoint) :
    l.Pairwise fun a b => a.end_ < b.start := by
  refine List.Pairwise.imp_of_mem ?_ (h.and hd)
  intro a b ha hb hab
  obtain ⟨hle, hdis⟩ := hab
  by_contra hover
  have hstart : a.Covers b.start ∧ b.Covers b.start := by
    refine ⟨⟨hle, by omega⟩, ⟨le_rfl, hne b hb⟩⟩
  exact hdis b.start hstart

theorem AddressSorted.strict {l : List Block} (h : AddressSorted l)
    (hne : ∀ b ∈ l, b.start ≤ b.end_) (hd : l.Pairwise Block.Disjoint) :
    l.Pairwise fun a b => a.start < b.start := by
  refine List.Pairwise.imp_of_mem ?_ (h.end_lt hne hd)
  intro a b ha _ hab
  have := hne a ha
  omega

/-! ### Moving the blocks into address order -/

theorem foldl_addByAddress_perm (l acc : List Block) :
    (l.foldl listAddAscendingByAddress acc).Perm (l ++ acc) := by
  induction l generalizing acc with
  | nil => exact List.Perm.refl _
  | cons b l ih =>
    rw [List.foldl_cons]
    have hadd : (l ++ listAddAscendingByAddress acc b).Perm (l ++ b :: acc) :=
      (listAddAscendingByAddress_perm acc b).append_left l
    exact (ih _).trans (hadd.trans List.perm_middle)

theorem foldl_addByAddress_sorted (l : List Block) {acc : List Block}
    (h : AddressSorted acc) : AddressSorted (l.foldl listAddAscendingByAddress acc) := by
  induction l generalizing acc with
  | nil => exact h
  | cons b l ih => exact ih (h.add b)

/-! ### Merging neighbours -/

/-- One block behind the other, with at least one address between them. -/
def Block.Apart (a b : Block) : Prop := a.end_ + 1 < b.start

/-- The merged block covers what the two adjacent blocks covered. -/
theorem merged_covers (prev cur : Block) (hadj : prev.end_ + 1 = cur.start)
    (hprev : prev.start ≤ prev.end_) (hcur : cur.start ≤ cur.end_) (x : ℤ) :
    (if Block.Covers { prev with end_ := cur.end_ } x then 1 else 0) =
      (if cur.Covers x then 1 else 0) + if prev.Covers x then 1 else 0 := by
  have hiff : Block.Covers { prev with end_ := cur.end_ } x ↔ prev.Covers x ∨ cur.Covers x := by
    simp only [Block.Covers]
    omega
  have hdis : ¬(prev.Covers x ∧ cur.Covers x) := by
    simp only [Block.Covers]
    omega
  by_cases hp : prev.Covers x
  · have hc : ¬ cur.Covers x := fun hc => hdis ⟨hp, hc⟩
    simp [hiff, hp, hc]
  · by_cases hc : cur.Covers x <;> simp [hiff, hp, hc]

/-- The merge loop keeps the number of blocks that cover each address. -/
theorem coaleseFrom_coverCount (prev : Block) (l : List Block) (x : ℤ)
    (hne : ∀ b ∈ prev :: l, b.start ≤ b.end_) :
    coverCount Block.Covers x (coaleseFrom prev l) =
      coverCount Block.Covers x (prev :: l) := by
  induction l generalizing prev with
  | nil => rfl
  | cons cur rest ih =>
    have hprev := hne prev (by simp)
    have hcur := hne cur (by simp)
    rw [coaleseFrom]
    split
    · rename_i hadj
      have hmerge : ∀ b ∈ { prev with end_ := cur.end_ } :: rest, b.start ≤ b.end_ := by
        intro b hb
        rcases List.mem_cons.mp hb with rfl | hb
        · show prev.start ≤ cur.end_
          omega
        · exact hne b (by simp [hb])
      rw [ih _ hmerge, coverCount_cons, coverCount_cons, coverCount_cons, add_assoc,
        merged_covers prev cur hadj hprev hcur]
    · rw [coverCount_cons, ih cur (fun b hb => hne b (List.mem_cons_of_mem _ hb)),
        coverCount_cons Block.Covers x prev]

/-- The merge loop turns blocks that lie one behind the other into blocks that lie apart;
all of them start at or behind the first. -/
theorem coaleseFrom_apart (prev : Block) (l : List Block)
    (hne : ∀ b ∈ prev :: l, b.start ≤ b.end_)
    (hlt : (prev :: l).Pairwise fun a b => a.end_ < b.start) :
    (coaleseFrom prev l).Pairwise Block.Apart ∧
      ∀ b ∈ coaleseFrom prev l, prev.start ≤ b.start ∧ b.start ≤ b.end_ := by
  induction l generalizing prev with
  | nil =>
    refine ⟨List.pairwise_singleton _ _, fun b hb => ?_⟩
    rw [coaleseFrom, List.mem_singleton] at hb
    subst hb
    exact ⟨le_rfl, hne b (by simp)⟩
  | cons cur rest ih =>
    have hprev := hne prev (by simp)
    have hcur := hne cur (by simp)
    obtain ⟨hpl, hcl⟩ := List.pairwise_cons.mp hlt
    have hpc : prev.end_ < cur.start := hpl cur (by simp)
    obtain ⟨hcr, hrest⟩ := List.pairwise_cons.mp hcl
    rw [coaleseFrom]
    split
    · refine ih { prev with end_ := cur.end_ } ?_ ?_
      · intro b hb
        rcases List.mem_cons.mp hb with rfl | hb
        · show prev.start ≤ cur.end_
          omega
        · exact hne b (by simp [hb])
      · exact List.pairwise_cons.mpr ⟨hcr, hrest⟩
    · rename_i hadj
      obtain ⟨hap, hge⟩ := ih cur (fun b hb => hne b (List.mem_cons_of_mem _ hb)) hcl
      refine ⟨List.pairwise_cons.mpr ⟨?_, hap⟩, ?_⟩
      · intro b hb
        have := (hge b hb).1
        show prev.end_ + 1 < b.start
        omega
      · intro b hb
        rcases List.mem_cons.mp hb with rfl | hb
        · exact ⟨le_rfl, hprev⟩
        · have := hge b hb
          exact ⟨by omega, this.2⟩

/-- Merging changes no owner: the first block of a merged run keeps its pid. -/
theorem coaleseFrom_pid (p : ℤ → Prop) (prev : Block) (l : List Block)
    (h : ∀ b ∈ prev :: l, p b.pid) : ∀ b ∈ coaleseFrom prev l, p b.pid := by
  induction l generalizing prev with
  | nil => exact h
  | cons cur rest ih =>
    have hprev : p prev.pid := h prev (by simp)
    rw [coaleseFrom]
    split
    · refine ih { prev with end_ := cur.end_ } fun b hb => ?_
      rcases List.mem_cons.mp hb with rfl | hb
      · exact hprev
      · exact h b (by simp [hb])
    · intro b hb
      rcases List.mem_cons.mp hb with rfl | hb
      · exact hprev
      · exact ih cur (fun c hc => h c (List.mem_cons_of_mem _ hc)) b hb

/-! ### The whole of `coalese_memory` -/

section

variable {l : List Block} (hne : ∀ b ∈ l, b.start ≤ b.end_)

include hne

theorem sorted_nonempty :
    ∀ b ∈ l.foldl listAddAscendingByAddress [], b.start ≤ b.end_ := by
  intro b hb
  have hperm := foldl_addByAddress_perm l []
  rw [List.append_nil] at hperm
  exact hne b (hperm.mem_iff.mp hb)

/-- Coalescing keeps the number of blocks that cover each address. -/
theorem coaleseMemory_coverCount (x : ℤ) :
    coverCount Block.Covers x (coaleseMemory l) = coverCount Block.Covers x l := by
  have hsorted := sorted_nonempty hne
  have hperm := foldl_addByAddress_perm l []
  rw [List.append_nil] at hperm
  rw [← coverCount_perm hperm x, coaleseMemory]
  cases hl : l.foldl listAddAscendingByAddress [] with
  | nil => rfl
  | cons prev rest =>
    rw [hl] at hsorted
    exact coaleseFrom_coverCount prev rest x hsorted

/-- The coalesced blocks lie apart from one another, in ascending order. -/
theorem coaleseMemory_apart (hd : l.Pairwise Block.Disjoint) :
    (coaleseMemory l).Pairwise Block.Apart ∧ ∀ b ∈ coaleseMemory l, b.start ≤ b.end_ := by
  have hsorted := sorted_nonempty hne
  have hperm := foldl_addByAddress_perm l []
  rw [List.append_nil] at hperm
  have haddr : AddressSorted (l.foldl listAddAscendingByAddress []) :=
    foldl_addByAddress_sorted l List.Pairwise.nil
  have hd' : (l.foldl listAddAscendingByAddress []).Pairwise Block.Disjoint :=
    hperm.symm.pairwise hd fun hab x hx => hab x hx.symm
  rw [coaleseMemory]
  cases hl : l.foldl listAddAscendingByAddress [] with
  | nil => simp [listCoaleseNodes]
  | cons prev rest =>
    rw [hl] at hsorted haddr hd'
    have h := coaleseFrom_apart prev rest hsorted (haddr.end_lt hsorted hd')
    exact ⟨h.1, fun b hb => (h.2 b hb).2⟩

end

theorem coaleseMemory_pid (p : ℤ → Prop) {l : List Block} (h : ∀ b ∈ l, p b.pid) :
    ∀ b ∈ coaleseMemory l, p b.pid := by
  have hperm := foldl_addByAddress_perm l []
  rw [List.append_nil] at hperm
  rw [coaleseMemory]
  cases hl : l.foldl listAddAscendingByAddress [] with
  | nil => simp [listCoaleseNodes]
  | cons prev rest =>
    rw [hl] at hperm
    exact coaleseFrom_pid p prev rest fun b hb => h b (hperm.mem_iff.mp hb)

/-! ### Maximal runs -/

/-- The addresses from `a` to `b` all belong to blocks of the list, their two neighbours to
none. -/
structure IsRun (l : List Block) (a b : ℤ) : Prop where
  le : a ≤ b
  covered : ∀ x, a ≤ x → x ≤ b → ∃ blk ∈ l, blk.Covers x
  before : ∀ blk ∈ l, ¬ blk.Covers (a - 1)
  behind : ∀ blk ∈ l, ¬ blk.Covers (b + 1)

section

variable {l : List Block} (hne : ∀ b ∈ l, b.start ≤ b.end_)

include hne

theorem mem_coaleseMemory_covers (x : ℤ) :
    (∃ blk ∈ l, blk.Covers x) ↔ ∃ blk ∈ coaleseMemory l, blk.Covers x := by
  rw [← coverCount_pos_iff, ← coverCount_pos_iff, coaleseMemory_coverCount hne]

variable (hd : l.Pairwise Block.Disjoint)

include hd

/-- Every block of the coalesced list is a maximal run of the addresses that the original
list covers. -/
theorem coaleseMemory_isRun {b : Block} (hb : b ∈ coaleseMemory l) :
    IsRun l b.start b.end_ := by
  obtain ⟨hap, hne'⟩ := coaleseMemory_apart hne hd
  have hmem := mem_coaleseMemory_covers hne
  have hother : ∀ c ∈ coaleseMemory l, c = b ∨ c.Apart b ∨ b.Apart c := by
    intro c hc
    obtain ⟨pre, post, hsplit⟩ := List.append_of_mem hb
    rw [hsplit] at hap hc
    obtain ⟨_, hbp, hcross⟩ := List.pairwise_append.mp hap
    rcases List.mem_append.mp hc with hc | hc
    · exact Or.inr (Or.inl (hcross c hc b (by simp)))
    · rcases List.mem_cons.mp hc with rfl | hc
      · exact Or.inl rfl
      · exact Or.inr (Or.inr ((List.pairwise_cons.mp hbp).1 c hc))
  have hgap : ∀ x, x = b.start - 1 ∨ x = b.end_ + 1 → ∀ blk ∈ l, ¬ blk.Covers x := by
    intro x hx blk hblk hcov
    obtain ⟨c, hc, h1, h2⟩ := (hmem x).mp ⟨blk, hblk, hcov⟩
    have hbne := hne' b hb
    have hcne := hne' c hc
    rcases hother c hc with rfl | h | h
    · omega
    · have : c.end_ + 1 < b.start := h
      omega
    · have : b.end_ + 1 < c.start := h
      omega
  exact ⟨hne' b hb, fun x h1 h2 => (hmem x).mpr ⟨b, hb, h1, h2⟩, hgap _ (Or.inl rfl),
    hgap _ (Or.inr rfl)⟩

/-- Every maximal run is a block of the coalesced list. -/
theorem IsRun.mem_coaleseMemory {a b : ℤ} (hrun : IsRun l a b) :
    ∃ blk ∈ coaleseMemory l, blk.start = a ∧ blk.end_ = b := by
  have hmem := mem_coaleseMemory_covers hne
  obtain ⟨blk, hblk, h1, h2⟩ := (hmem a).mp (hrun.covered a le_rfl hrun.le)
  have hself := coaleseMemory_isRun hne hd hblk
  have huncovered : ∀ x, x = a - 1 ∨ x = b + 1 → ¬ blk.Covers x := by
    intro x hx hcov
    obtain ⟨c, hc, hcx⟩ := (hmem x).mpr ⟨blk, hblk, hcov⟩
    rcases hx with rfl | rfl
    · exact hrun.before c hc hcx
    · exact hrun.behind c hc hcx
  have hstart : blk.start = a := by
    by_contra hcon
    exact huncovered (a - 1) (Or.inl rfl) ⟨by omega, by omega⟩
  refine ⟨blk, hblk, hstart, ?_⟩
  by_contra hcon
  by_cases hlt : blk.end_ < b
  · obtain ⟨c, hc, hcx⟩ := hrun.covered (blk.end_ + 1) (by omega) (by omega)
    exact hself.behind c hc hcx
  · exact huncovered (b + 1) (Or.inr rfl) ⟨by have := hrun.le; omega, by omega⟩

end

end OsLabs.Mmu
