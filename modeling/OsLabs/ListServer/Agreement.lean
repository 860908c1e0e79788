import OsLabs.ListServer.List

/-!
# The two list libraries

The operations that the list server's library and the linked-list library both have, run side by
side.  Both refine a sequence, and the sequences take the same steps but for the answer to a
negative index: the linked-list library has a test for it, the server's returns the first element.
-/

namespace OsLabs.ListServer

open OsLabs.Lib
open OsLabs.LinkedList (ListT ListOp Answer Represents intSequence library)

inductive CommonOp
  | addToFront (value : ℤ)
  | addToBack (value : ℤ)
  | addAtIndex (index value : ℤ)
  | removeFromFront
  | removeFromBack
  | removeAtIndex (index : ℤ)
  | length
  | getElemAt (index : ℤ)

def CommonOp.toListOp : CommonOp → ListOp
  | .addToFront value => .addToFront value
  | .addToBack value => .addToBack value
  | .addAtIndex index value => .addAtIndex value index
  | .removeFromFront => .removeFromFront
  | .removeFromBack => .removeFromBack
  | .removeAtIndex index => .removeAtIndex index
  | .length => .length
  | .getElemAt index => .getElemAt index

/-- The linked-list library, with the common operations. -/
def commonLibrary (alloc : Allocator (Node ℤ)) (fuel : ℕ) : Component ListT CommonOp Answer :=
  (library alloc fuel).comap CommonOp.toListOp

def serverLibrary (alloc : Allocator (Node ℤ)) (fuel : ℕ) : Component ListT CommonOp Answer where
  init := listAlloc
  step l
    | .addToFront value => (listAddToFront alloc l value).map fun l => (l, .void)
    | .addToBack value => (listAddToBack alloc fuel l value).map fun l => (l, .void)
    | .addAtIndex index value => (listAddAtIndex alloc fuel l index value).map fun l => (l, .void)
    | .removeFromFront => (listRemoveFromFront l).map fun p => (p.1, .int p.2)
    | .removeFromBack => (listRemoveFromBack fuel l).map fun p => (p.1, .int p.2)
    | .removeAtIndex index => (listRemoveAtIndex fuel l index).map fun p => (p.1, .int p.2)
    | .length => (listLength fuel l).map fun n => (l, .int n)
    | .getElemAt index => (listGetElemAt fuel l index).map fun x => (l, .int x)

/-! ### The sequences -/

def commonSequence : AbstractType (List ℤ) CommonOp Answer := intSequence.comap CommonOp.toListOp

/-- The sequence behind the server's library. -/
def serverSequence : AbstractType (List ℤ) CommonOp Answer where
  init := []
  step xs
    | .getElemAt index => (xs, .int (xs[index.toNat]?.getD (-1)))
    | op => commonSequence.step xs op

/-- The element at a negative index is only asked for if there is none or the first is `-1`. -/
def Harmless (xs : List ℤ) : CommonOp → Prop
  | .getElemAt index => 0 ≤ index ∨ xs = [] ∨ xs.head? = some (-1)
  | _ => True

theorem step_fst_eq (xs : List ℤ) (op : CommonOp) :
    (serverSequence.step xs op).1 = (commonSequence.step xs op).1 := by
  cases op <;> rfl

theorem step_eq_iff_harmless (xs : List ℤ) (op : CommonOp) :
    serverSequence.step xs op = commonSequence.step xs op ↔ Harmless xs op := by
  cases op with
  | getElemAt index =>
    by_cases hneg : index < 0
    · have hzero : index.toNat = 0 := by omega
      cases xs <;> simp [serverSequence, commonSequence, AbstractType.comap, intSequence,
        CommonOp.toListOp, Harmless, hneg, hzero]
    · simp [serverSequence, commonSequence, AbstractType.comap, intSequence, CommonOp.toListOp,
        Harmless, hneg, not_lt.mp hneg]
  | _ => exact iff_of_true rfl trivial

theorem run_fst_eq (ops : List CommonOp) :
    (serverSequence.run ops).1 = (commonSequence.run ops).1 := by
  induction ops using List.reverseRecOn with
  | nil => rfl
  | append_singleton ops op ih =>
    rw [AbstractType.run_concat, AbstractType.run_concat, step_fst_eq, ih]

/-! ### The libraries -/

theorem serverLibrary_simulates (alloc : Allocator (Node ℤ)) (fuel : ℕ) :
    Simulates (serverLibrary alloc fuel) serverSequence
      fun n l xs => Represents l xs ∧ xs.length + n ≤ fuel where
  step n l xs op h := by
    have hr := h.1
    have hfuel : xs.length ≤ fuel := by have := h.2; omega
    -- an operation that is the other library's takes that library's step
    have hsame : ∀ op, (serverLibrary alloc fuel).step l op = (commonLibrary alloc fuel).step l op →
        serverSequence.step xs op = commonSequence.step xs op →
        ∃ l', (serverLibrary alloc fuel).step l op = some (l', (serverSequence.step xs op).2) ∧
          Represents l' (serverSequence.step xs op).1 ∧
          (serverSequence.step xs op).1.length + n ≤ fuel := by
      intro op hstep hspec
      rw [hstep, hspec]
      exact ((LinkedList.library_simulates alloc fuel).comap CommonOp.toListOp).step n l xs op h
    cases op with
    | addToFront value =>
      refine hsame _ ?_ rfl
      simp [serverLibrary, commonLibrary, library, Component.comap, CommonOp.toListOp,
        listAddToFront_eq]
    | addAtIndex index value =>
      obtain ⟨l', hstep, hr'⟩ := listAddAtIndex_spec alloc hr hfuel index value
      refine ⟨l', by rw [serverLibrary]; simp only [hstep]; rfl, hr', ?_⟩
      have hlen := h.2
      show (xs.insertIdx (min index.toNat xs.length) value).length + n ≤ fuel
      rw [List.length_insertIdx_of_le_length (min_le_right _ _)]
      omega
    | getElemAt index =>
      refine ⟨l, ?_, hr, ?_⟩
      · rw [serverLibrary]
        simp only [listGetElemAt_spec hr hfuel]
        rfl
      · have hlen := h.2
        show xs.length + n ≤ fuel
        omega
    | addToBack value =>
      refine hsame _ ?_ rfl
      simp only [serverLibrary, listAddToBack_eq]
      rfl
    | removeFromFront =>
      refine hsame _ ?_ rfl
      simp only [serverLibrary, listRemoveFromFront_eq]
      rfl
    | removeFromBack =>
      refine hsame _ ?_ rfl
      simp only [serverLibrary, listRemoveFromBack_eq]
      rfl
    | removeAtIndex index =>
      refine hsame _ ?_ rfl
      simp only [serverLibrary, listRemoveAtIndex_eq]
      rfl
    | length =>
      refine hsame _ ?_ rfl
      simp only [serverLibrary, listLength_eq]
      rfl

/-- Side by side, from the fresh lists: after every operation the two lists hold the same
elements, and the answers so far are the same. -/
def Agree (alloc alloc' : Allocator (Node ℤ)) (fuel : ℕ) (ops : List CommonOp) : Prop :=
  ∀ done, done <+: ops → ∃ l l' xs answers,
    (commonLibrary alloc fuel).run done = some (l, answers) ∧
    (serverLibrary alloc' fuel).run done = some (l', answers) ∧
    Represents l xs ∧ Represents l' xs

/-- The elements after some operations. -/
def contents (done : List CommonOp) : List ℤ := (commonSequence.run done).1

theorem commonLibrary_run (alloc : Allocator (Node ℤ)) {ops : List CommonOp} {fuel : ℕ}
    (hfuel : ops.length ≤ fuel) :
    ∃ l, (commonLibrary alloc fuel).run ops = some (l, (commonSequence.run ops).2) ∧
      Represents l (contents ops) := by
  obtain ⟨n, rfl⟩ := Nat.exists_eq_add_of_le hfuel
  obtain ⟨l, hrun, hr, -⟩ :=
    ((LinkedList.library_simulates alloc (ops.length + n)).comap CommonOp.toListOp).runFrom ops
      (n := n) (s := LinkedList.listAlloc) (x := [])
      ⟨LinkedList.represents_listAlloc, by simp⟩
  exact ⟨l, hrun, hr⟩

theorem serverLibrary_run (alloc : Allocator (Node ℤ)) {ops : List CommonOp} {fuel : ℕ}
    (hfuel : ops.length ≤ fuel) :
    ∃ l, (serverLibrary alloc fuel).run ops = some (l, (serverSequence.run ops).2) ∧
      Represents l (contents ops) := by
  obtain ⟨n, rfl⟩ := Nat.exists_eq_add_of_le hfuel
  obtain ⟨l, hrun, hr, -⟩ := (serverLibrary_simulates alloc (ops.length + n)).runFrom ops
    (n := n) (s := listAlloc) (x := []) ⟨LinkedList.represents_listAlloc, by simp⟩
  rw [contents, ← run_fst_eq]
  exact ⟨l, hrun, hr⟩

/-- Same answers after every operation means that every operation was harmless. -/
theorem answers_eq_iff (ops : List CommonOp) :
    (∀ done, done <+: ops → (commonSequence.run done).2 = (serverSequence.run done).2) ↔
      ∀ done op, done ++ [op] <+: ops → Harmless (contents done) op := by
  constructor
  · intro hall done op hprefix
    have hlast := hall _ hprefix
    rw [AbstractType.run_concat, AbstractType.run_concat] at hlast
    have hanswer := (List.append_inj' hlast rfl).2
    rw [← step_eq_iff_harmless]
    refine Prod.ext (step_fst_eq _ _) ?_
    rw [run_fst_eq] at hanswer
    simpa [contents] using hanswer.symm
  · intro hall done hprefix
    have hinit : commonSequence.init = serverSequence.init := rfl
    rw [AbstractType.run_eq_of_step hinit fun done' op hd =>
      ((step_eq_iff_harmless _ _).mpr (hall done' op (hd.trans hprefix))).symm]

/-- **The libraries agree up to negative indices.**  Run side by side on fresh lists, they give
the same elements and the same answers after every operation exactly when the element at a
negative index is only asked for while the list is empty or starts with `-1`. -/
theorem agree_iff_harmless (alloc alloc' : Allocator (Node ℤ)) (ops : List CommonOp) {fuel : ℕ}
    (hfuel : ops.length ≤ fuel) :
    Agree alloc alloc' fuel ops ↔
      ∀ done op, done ++ [op] <+: ops → Harmless (contents done) op := by
  rw [← answers_eq_iff]
  have hlib := fun done (hd : done <+: ops) =>
    commonLibrary_run alloc (hd.length_le.trans hfuel)
  have hserver := fun done (hd : done <+: ops) =>
    serverLibrary_run alloc' (hd.length_le.trans hfuel)
  constructor
  · intro hagree done hd
    obtain ⟨l₁, hrun₁, -⟩ := hlib done hd
    obtain ⟨l₂, hrun₂, -⟩ := hserver done hd
    obtain ⟨l, l', xs, answers, hrun, hrun', -, -⟩ := hagree done hd
    have h₁ : (commonSequence.run done).2 = answers := by
      rw [hrun₁] at hrun
      exact (Prod.mk.inj (Option.some.inj hrun)).2
    have h₂ : (serverSequence.run done).2 = answers := by
      rw [hrun₂] at hrun'
      exact (Prod.mk.inj (Option.some.inj hrun')).2
    rw [h₁, h₂]
  · intro hanswers done hd
    obtain ⟨l₁, hrun₁, hr₁⟩ := hlib done hd
    obtain ⟨l₂, hrun₂, hr₂⟩ := hserver done hd
    rw [← hanswers done hd] at hrun₂
    exact ⟨l₁, l₂, contents done, _, hrun₁, hrun₂, hr₁, hr₂⟩

theorem agree_iff_harmless_two :
    Agree (Allocator.above _) (Allocator.above _) 2 [.addToFront 7, .getElemAt (-1)] ↔
      ∀ done op, done ++ [op] <+: [.addToFront 7, .getElemAt (-1)] →
        Harmless (contents done) op :=
  agree_iff_harmless (Allocator.above _) (Allocator.above _) [.addToFront 7, .getElemAt (-1)]
    (by decide)

/-- After `add_front 7` the server answers `get -1` with `7`. -/
theorem negativeIndex_disagrees :
    ¬ Agree (Allocator.above _) (Allocator.above _) 2 [.addToFront 7, .getElemAt (-1)] := by
  intro h
  obtain ⟨l, l', xs, answers, hrun, hrun', -, -⟩ := h _ List.prefix_rfl
  have hlibrary : ((commonLibrary (Allocator.above _) 2).run [.addToFront 7, .getElemAt (-1)]).map
      Prod.snd = some [.void, .int (-1)] := by decide +kernel
  have hserver : ((serverLibrary (Allocator.above _) 2).run [.addToFront 7, .getElemAt (-1)]).map
      Prod.snd = some [.void, .int 7] := by decide +kernel
  rw [hrun, Option.map_some] at hlibrary
  rw [hrun', Option.map_some] at hserver
  have hsame : some [Answer.void, .int (-1)] = some [Answer.void, .int 7] :=
    hlibrary.symm.trans hserver
  cases hsame

end OsLabs.ListServer
