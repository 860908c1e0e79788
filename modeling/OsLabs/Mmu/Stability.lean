import OsLabs.Mmu.FitPolicy

/-!
# Ties in the descending insertion

The comments of `list_add_descending_by_blocksize` promise that a new block goes behind the
existing ones of its size.  The walk stops at the first block that is not larger, so it goes in
front of them.  Blocks of equal contents are different blocks, so the lists here hold the
pointers of the nodes, and `mem` is what they point to.  The sizes of blocks are taken within `int`.
-/

namespace OsLabs.Mmu

variable {α : Type*} {mem : α → Block} {l : List α} {new : α}

/-- The walk of `list_add_descending_by_blocksize` over the pointers. -/
def addDescendingByBlocksize (mem : α → Block) (l : List α) (new : α) : List α :=
  l.orderedInsert (fun new cur => (mem new).size ≥ (mem cur).size) new

/-- The blocks that the pointers lead to are those of the list without pointers. -/
theorem map_addDescendingByBlocksize (mem : α → Block) (l : List α) (new : α) :
    (addDescendingByBlocksize mem l new).map mem =
      listAddDescendingByBlocksize (l.map mem) (mem new) := by
  induction l with
  | nil => rfl
  | cons cur l ih =>
    unfold addDescendingByBlocksize listAddDescendingByBlocksize at ih ⊢
    rw [List.map_cons, List.orderedInsert_cons, List.orderedInsert_cons]
    split
    · rfl
    · rw [List.map_cons, ih]

/-- The list `l'` is `l` with `new` inserted, is descending by size, and has `new` behind every
block of the same size. -/
structure StablyAdded (mem : α → Block) (l l' : List α) (new : α) : Prop where
  descending : SizeSorted .worstFit (l'.map mem)
  inserted : ∃ pre post, l = pre ++ post ∧ l' = pre ++ new :: post ∧
    ∀ c ∈ post, (mem c).size ≠ (mem new).size

theorem addDescendingByBlocksize_descending (h : SizeSorted .worstFit (l.map mem)) (new : α) :
    SizeSorted .worstFit ((addDescendingByBlocksize mem l new).map mem) := by
  rw [map_addDescendingByBlocksize]
  exact SizeSorted.add h (mem new)

/-- The new pointer goes behind the larger blocks and in front of the others. -/
theorem exists_addDescendingByBlocksize (mem : α → Block) (l : List α) (new : α) :
    ∃ pre post, l = pre ++ post ∧ addDescendingByBlocksize mem l new = pre ++ new :: post ∧
      ∀ c ∈ pre, (mem new).size < (mem c).size := by
  have hsplit := List.takeWhile_append_dropWhile
    (p := fun c => ¬ (mem new).size ≥ (mem c).size) (l := l)
  refine ⟨_, _, hsplit.symm, List.orderedInsert_eq_take_drop _ new l, fun c hc => ?_⟩
  have hlarger := List.all_eq_true.mp List.all_takeWhile c hc
  simpa using hlarger

/-- A list without `new` is split by it in one way only. -/
theorem split_unique {pre post pre' post' : List α} (hpre : new ∉ pre) (hpre' : new ∉ pre')
    (h : pre ++ new :: post = pre' ++ new :: post') : pre = pre' := by
  rcases List.append_eq_append_iff.mp h with ⟨rest, rfl, hrest⟩ | ⟨rest, rfl, hrest⟩
  · cases rest with
    | nil => rw [List.append_nil]
    | cons a rest =>
      obtain ⟨rfl, -⟩ := List.cons.inj hrest
      exact absurd (List.mem_append_right pre List.mem_cons_self) hpre'
  · cases rest with
    | nil => rw [List.append_nil]
    | cons a rest =>
      obtain ⟨rfl, -⟩ := List.cons.inj hrest
      exact absurd (List.mem_append_right pre' List.mem_cons_self) hpre

/-- **Stability of the descending insertion.**  In a list in descending size the new block is
inserted as the comments promise if and only if no existing block has its size. -/
theorem addDescendingByBlocksize_stable_iff {α : Type*} (mem : α → Block) (l : List α) (new : α)
    (hnew : new ∉ l) (hsorted : SizeSorted .worstFit (l.map mem)) :
    StablyAdded mem l (addDescendingByBlocksize mem l new) new ↔
      ∀ c ∈ l, (mem c).size ≠ (mem new).size := by
  obtain ⟨pre, post, hl, hadd, hlarger⟩ := exists_addDescendingByBlocksize mem l new
  constructor
  · intro hstable c hc heq
    obtain ⟨pre', post', hl', hadd', hbehind⟩ := hstable.inserted
    have hsplit : pre = pre' := by
      rw [hadd] at hadd'
      refine split_unique (fun hmem => hnew ?_) (fun hmem => hnew ?_) hadd'
      · rw [hl]
        exact List.mem_append_left post hmem
      · rw [hl']
        exact List.mem_append_left post' hmem
    rw [hl'] at hc
    rcases List.mem_append.mp hc with hbefore | hafter
    · have hlt := hlarger c (hsplit ▸ hbefore)
      omega
    · exact hbehind c hafter heq
  · intro hnone
    refine ⟨addDescendingByBlocksize_descending hsorted new, pre, post, hl, hadd, fun c hc => ?_⟩
    apply hnone c
    rw [hl]
    exact List.mem_append_right pre hc

/-- Four pointers, of which 0 and 3 lead to blocks of 5 addresses. -/
def fourBlocks : Fin 4 → Block := ![⟨0, 0, 4⟩, ⟨0, 10, 18⟩, ⟨0, 30, 31⟩, ⟨0, 20, 24⟩]

theorem addDescendingByBlocksize_stable_sample :
    StablyAdded fourBlocks [1, 2] (addDescendingByBlocksize fourBlocks [1, 2] 0) 0 :=
  (addDescendingByBlocksize_stable_iff fourBlocks [1, 2] 0 (by decide) (by decide)).mpr (by decide)

/-- The new block 3 goes in front of block 0, which has the same size. -/
theorem equalSize_not_stable :
    ¬ StablyAdded fourBlocks [1, 0, 2] (addDescendingByBlocksize fourBlocks [1, 0, 2] 3) 3 := by
  intro h
  obtain ⟨pre, post, hl, hadd, hbehind⟩ := h.inserted
  have hresult : addDescendingByBlocksize fourBlocks [1, 0, 2] 3 = [1] ++ 3 :: [0, 2] := by decide
  rw [hresult] at hadd
  have hpre : 3 ∉ pre := by
    intro hmem
    have hold : (3 : Fin 4) ∈ [1, 0, 2] := hl ▸ List.mem_append_left post hmem
    exact absurd hold (by decide)
  obtain rfl := split_unique (by decide) hpre hadd
  have hpost : [0, 2] = post := List.cons.inj hl |>.2
  subst hpost
  exact hbehind 0 (by decide) (by decide)

end OsLabs.Mmu
