import Mathlib.Data.Matrix.Mul
import OsLabs.MatrixThreads.Matrix

/-!
# The results of the threads

The row ranges of the threads are disjoint and cover the matrix, so each thread computes its own
rows whatever the others do meanwhile.  Its assertion says which cells are done, and, inside the
inner loop of the product, which part of the sum has been accumulated.
-/

namespace OsLabs.MatrixThreads

open OsLabs.Lib OsLabs.Lib.Monitor

/-! ### Rows -/

/-- The row is one of the rows of the thread. -/
def ThreadData.Has (data : ThreadData) (r : ℕ) : Prop := data.startRow ≤ r ∧ r < data.endRow

section Rows

variable {MAX numThreads t u r : ℕ}

theorem has_iff : (threadData MAX numThreads t).Has r ↔
    t * rowsPerThread MAX numThreads ≤ r ∧ r < (t + 1) * rowsPerThread MAX numThreads ∧
      r < MAX := by
  unfold ThreadData.Has threadData
  dsimp only
  split <;> omega

/-- A row belongs to the thread that the division by `rows_per_thread` gives. -/
theorem has_div (h : (threadData MAX numThreads t).Has r) :
    r / rowsPerThread MAX numThreads = t := by
  obtain ⟨hlow, hhigh, -⟩ := has_iff.mp h
  exact Nat.div_eq_of_lt_le hlow hhigh

theorem has_unique (ht : (threadData MAX numThreads t).Has r)
    (hu : (threadData MAX numThreads u).Has r) : t = u :=
  (has_div ht).symm.trans (has_div hu)

/-- The ceiling division leaves no row over. -/
theorem le_rows (MAX : ℕ) (hthreads : 1 ≤ numThreads) :
    MAX ≤ rowsPerThread MAX numThreads * numThreads := by
  have hdiv := Nat.div_add_mod (MAX + numThreads - 1) numThreads
  have hmod := Nat.mod_lt (MAX + numThreads - 1) hthreads
  rw [mul_comm] at hdiv
  unfold rowsPerThread
  omega

/-- Every row belongs to a thread. -/
theorem exists_has (hthreads : 1 ≤ numThreads) (hr : r < MAX) :
    ∃ t : Fin numThreads, (threadData MAX numThreads t).Has r := by
  have hle := le_rows MAX hthreads
  have hlt : r / rowsPerThread MAX numThreads < numThreads :=
    Nat.div_lt_of_lt_mul (hr.trans_le hle)
  have hpos : 0 < rowsPerThread MAX numThreads := by
    rcases Nat.eq_zero_or_pos (rowsPerThread MAX numThreads) with hzero | hpos
    · rw [hzero, zero_mul] at hle
      omega
    · exact hpos
  refine ⟨⟨_, hlt⟩, has_iff.mpr ⟨Nat.div_mul_le_self _ _, ?_, hr⟩⟩
  rw [mul_comm]
  exact Nat.lt_mul_div_succ r hpos

end Rows

/-! ### Cells that are done -/

@[simp] theorem Grid.assign_self (m : Grid) (i j : ℕ) (value : ℤ) :
    m.assign i j value i j = value := by
  simp [Grid.assign]

theorem Grid.assign_of_ne {m : Grid} {i j r c : ℕ} (value : ℤ) (h : r ≠ i ∨ c ≠ j) :
    m.assign i j value r c = m r c := by
  unfold Grid.assign
  by_cases hr : r = i
  · subst hr
    rw [Function.update_self, Function.update_of_ne (h.resolve_left fun hne => hne rfl)]
  · rw [Function.update_of_ne hr]

/-- In the rows of the thread, `m` has the wanted elements in front of the cell `(i, j)`. -/
def Done (MAX : ℕ) (data : ThreadData) (i j : ℕ) (wanted m : Grid) : Prop :=
  ∀ r c, data.Has r → c < MAX → (r < i ∨ r = i ∧ c < j) → m r c = wanted r c

section Cells

variable {MAX i j : ℕ} {data : ThreadData} {wanted m : Grid}

theorem done_start : Done MAX data data.startRow 0 wanted m := by
  intro r c hr _ hbefore
  have hlow := hr.1
  omega

theorem Done.nextCell (h : Done MAX data i j wanted m) (hcell : m i j = wanted i j) :
    Done MAX data i (j + 1) wanted m := by
  intro r c hr hc hbefore
  by_cases hlast : r = i ∧ c = j
  · obtain ⟨rfl, rfl⟩ := hlast
    exact hcell
  · exact h r c hr hc (by omega)

theorem Done.nextRow (h : Done MAX data i j wanted m) (hj : MAX ≤ j) :
    Done MAX data (i + 1) 0 wanted m := by
  intro r c hr hc hbefore
  exact h r c hr hc (by omega)

/-- The cell at work is not one of those in front of it. -/
theorem Done.assign (h : Done MAX data i j wanted m) (value : ℤ) :
    Done MAX data i j wanted (m.assign i j value) := by
  intro r c hr hc hbefore
  rw [Grid.assign_of_ne value (by omega)]
  exact h r c hr hc hbefore

/-- What happens in the rows of other threads is of no concern. -/
theorem Done.frame (h : Done MAX data i j wanted m) {r : ℕ} (hr : ¬ data.Has r) (c : ℕ)
    (value : ℤ) : Done MAX data i j wanted (m.assign r c value) := by
  intro r' c' hr' hc' hbefore
  have hne : r' ≠ r := by
    intro heq
    exact hr (heq ▸ hr')
  rw [Grid.assign_of_ne value (Or.inl hne)]
  exact h r' c' hr' hc' hbefore

end Cells

/-- The statement writes at most one element of the result, in a row of its thread. -/
def WritesOwnRow {L : Type} (result : Result) (data : ThreadData) (w : Shared) (a : Act L) :
    Prop :=
  a.effect w = w ∨ ∃ i j value, data.Has i ∧
    a.effect w = result.set w ((result.get w).assign i j value)

/-- **Threads that write their own rows.**  An assertion about each thread and its rows that its
statements carry on, and that writes in the rows of other threads keep, holds throughout the
phase.  Only the result matrix changes. -/
theorem phase_invariant {L : Type} {MAX numThreads : ℕ}
    {compute : ℕ → ThreadData → L → Shared → List (Act L)} {rowTest : ℕ → L} {result : Result}
    {Inv : ThreadData → L → Shared → Prop}
    (hstart : ∀ data w, Inv data (rowTest data.startRow) w)
    (hstep : ∀ data l w a, Inv data l w → a ∈ compute MAX data l w →
      Inv data a.next (a.effect w))
    (hwrites : ∀ data l w a, Inv data l w → a ∈ compute MAX data l w →
      WritesOwnRow result data w a)
    (hframe : ∀ data l w r c value, Inv data l w → ¬ data.Has r →
      Inv data l (result.set w ((result.get w).assign r c value)))
    {w : Shared} {s : State (Fin numThreads) Empty Empty Shared fun _ => L}
    (h : (phase MAX numThreads compute rowTest w).machine.Reachable s) (t : Fin numThreads) :
    Inv (threadData MAX numThreads t) (s.loc t) s.data ∧ ∃ m, s.data = result.set w m := by
  have hset : ∀ data l (d : Shared) (a : Act L), Inv data l d → a ∈ compute MAX data l d →
      (∃ m, d = result.set w m) → ∃ m, a.effect d = result.set w m := by
    intro data l d a hl ha hd
    obtain ⟨m, hm⟩ := hd
    rcases hwrites data l d a hl ha with hsame | ⟨i, j, value, -, hwrite⟩
    · exact ⟨m, hsame.trans hm⟩
    · refine ⟨(result.get d).assign i j value, hwrite.trans ?_⟩
      rw [hm, result.set_set]
  refine assertion_invariant (P := phase MAX numThreads compute rowTest w)
    (I := fun t l d => Inv (threadData MAX numThreads t) l d ∧ ∃ m, d = result.set w m)
    ?_ ?_ ?_ h t
  · intro t
    exact ⟨hstart _ w, result.get w, (result.set_get w).symm⟩
  · intro t l d a ha hl
    exact ⟨hstep _ l d a hl.1 ha, hset _ l d a hl.1 ha hl.2⟩
  · intro t l d a ha hl u hut k hk
    refine ⟨?_, hset _ l d a hl.1 ha hl.2⟩
    rcases hwrites _ l d a hl.1 ha with hsame | ⟨i, j, value, hrow, hwrite⟩
    · rw [hsame]
      exact hk.1
    · rw [hwrite]
      refine hframe _ k d i j value hk.1 fun hother => hut ?_
      exact Fin.ext (has_unique hother hrow)

/-- A phase whose threads have all finished has the wanted elements, if a finished thread has
them in all of its rows. -/
theorem cells_of_ends {L : Type} {MAX numThreads : ℕ}
    {compute : ℕ → ThreadData → L → Shared → List (Act L)} {rowTest : ℕ → L} {result : Result}
    {Inv : ThreadData → L → Shared → Prop} {wanted : Shared → Grid}
    (hwanted : ∀ w m, wanted (result.set w m) = wanted w) (hthreads : 1 ≤ numThreads)
    (hstart : ∀ data w, Inv data (rowTest data.startRow) w)
    (hstep : ∀ data l w a, Inv data l w → a ∈ compute MAX data l w →
      Inv data a.next (a.effect w))
    (hwrites : ∀ data l w a, Inv data l w → a ∈ compute MAX data l w →
      WritesOwnRow result data w a)
    (hframe : ∀ data l w r c value, Inv data l w → ¬ data.Has r →
      Inv data l (result.set w ((result.get w).assign r c value)))
    (hend : ∀ data l w, Inv data l w → compute MAX data l w = [] →
      Done MAX data data.endRow 0 (wanted w) (result.get w))
    {w w' : Shared} (h : Ends (phase MAX numThreads compute rowTest w) w') :
    (∃ m, w' = result.set w m) ∧
      ∀ r c, r < MAX → c < MAX → result.get w' r c = wanted w r c := by
  obtain ⟨s, hreach, hfinished, rfl⟩ := h
  have hinv := phase_invariant hstart hstep hwrites hframe hreach
  obtain ⟨m, hm⟩ := (hinv ⟨0, hthreads⟩).2
  refine ⟨⟨m, hm⟩, fun r c hr hc => ?_⟩
  obtain ⟨t, ht⟩ := exists_has hthreads hr
  have hdone := hend _ _ _ (hinv t).1 ((finished_iff hreach t).mp (hfinished t))
  rw [hdone r c ht hc (Or.inl ht.2), hm, hwanted]

/-! ### Sum and difference -/

/-- The elements that `computeSum` or `computeDiff` computes. -/
def elements (op : ℤ → ℤ → ℤ) (w : Shared) : Grid := fun i j => op (w.matA i j) (w.matB i j)

theorem elements_set (result : Result) (op : ℤ → ℤ → ℤ) (w : Shared) (m : Grid) :
    elements op (result.set w m) = elements op w := by
  funext i j
  rw [elements, elements, result.matA_set, result.matB_set]

namespace ElementLoc

def row : ElementLoc → ℕ
  | rowTest i | colTest i _ | readA i _ | readB i _ _ | store i _ _ _ => i

def col : ElementLoc → ℕ
  | rowTest _ => 0
  | colTest _ j | readA _ j | readB _ j _ | store _ j _ _ => j

/-- Inside the loop over the rows, the row is one of the thread. -/
def InRange (data : ThreadData) : ElementLoc → Prop
  | rowTest i => data.startRow ≤ i
  | colTest i _ | readA i _ | readB i _ _ | store i _ _ _ => data.Has i

/-- The values that have been read. -/
def Values (w : Shared) : ElementLoc → Prop
  | readB i j a => a = w.matA i j
  | store i j a b => a = w.matA i j ∧ b = w.matB i j
  | _ => True

end ElementLoc

/-- The assertion of a thread that works on elements. -/
structure ElementInv (result : Result) (op : ℤ → ℤ → ℤ) (MAX : ℕ) (data : ThreadData)
    (l : ElementLoc) (w : Shared) : Prop where
  range : l.InRange data
  done : Done MAX data l.row l.col (elements op w) (result.get w)
  values : l.Values w

section Elements

variable {result : Result} {op : ℤ → ℤ → ℤ} {MAX : ℕ} {data : ThreadData} {w : Shared}
  {l : ElementLoc} {a : Act ElementLoc}

theorem ElementInv.writes (hl : ElementInv result op MAX data l w)
    (ha : a ∈ computeElements result op MAX data l w) : WritesOwnRow result data w a := by
  cases l with
  | rowTest i =>
    rw [computeElements] at ha
    split at ha
    · obtain rfl := List.mem_singleton.mp ha
      exact Or.inl rfl
    · cases ha
  | colTest i j =>
    rw [computeElements] at ha
    split at ha <;> obtain rfl := List.mem_singleton.mp ha <;> exact Or.inl rfl
  | readA i j =>
    obtain rfl := List.mem_singleton.mp ha
    exact Or.inl rfl
  | readB i j v =>
    obtain rfl := List.mem_singleton.mp ha
    exact Or.inl rfl
  | store i j v v' =>
    obtain rfl := List.mem_singleton.mp ha
    exact Or.inr ⟨i, j, op v v', hl.range, rfl⟩

theorem ElementInv.step (hl : ElementInv result op MAX data l w)
    (ha : a ∈ computeElements result op MAX data l w) :
    ElementInv result op MAX data a.next (a.effect w) := by
  cases l with
  | rowTest i =>
    rw [computeElements] at ha
    split at ha
    · rename_i hend
      obtain rfl := List.mem_singleton.mp ha
      exact ⟨⟨hl.range, hend⟩, hl.done, trivial⟩
    · cases ha
  | colTest i j =>
    rw [computeElements] at ha
    split at ha
    · obtain rfl := List.mem_singleton.mp ha
      exact ⟨hl.range, hl.done, trivial⟩
    · rename_i hcol
      obtain rfl := List.mem_singleton.mp ha
      exact ⟨Nat.le_succ_of_le hl.range.1, hl.done.nextRow (not_lt.mp hcol), trivial⟩
  | readA i j =>
    obtain rfl := List.mem_singleton.mp ha
    exact ⟨hl.range, hl.done, rfl⟩
  | readB i j v =>
    obtain rfl := List.mem_singleton.mp ha
    exact ⟨hl.range, hl.done, hl.values, rfl⟩
  | store i j v v' =>
    obtain rfl := List.mem_singleton.mp ha
    obtain ⟨rfl, rfl⟩ := hl.values
    refine ⟨hl.range, ?_, trivial⟩
    show Done MAX data i (j + 1) (elements op (result.set w _)) (result.get (result.set w _))
    rw [elements_set, result.get_set]
    exact (hl.done.assign _).nextCell (Grid.assign_self _ _ _ _)

/-- A write in a row of another thread keeps the assertion. -/
theorem ElementInv.frame (hl : ElementInv result op MAX data l w) {r : ℕ}
    (hr : ¬ data.Has r) (c : ℕ) (value : ℤ) :
    ElementInv result op MAX data l (result.set w ((result.get w).assign r c value)) where
  range := hl.range
  done := by
    rw [elements_set, result.get_set]
    exact hl.done.frame hr c value
  values := by
    have hvalues := hl.values
    unfold ElementLoc.Values at hvalues ⊢
    rw [result.matA_set, result.matB_set]
    exact hvalues

theorem element_finished (h : computeElements result op MAX data l w = []) :
    ∃ i, l = .rowTest i ∧ data.endRow ≤ i := by
  cases l with
  | rowTest i =>
    rw [computeElements] at h
    split at h
    · cases h
    · rename_i hend
      exact ⟨i, rfl, not_lt.mp hend⟩
  | colTest i j =>
    rw [computeElements] at h
    split at h <;> cases h
  | _ => cases h

/-- When all threads have finished, the result matrix has the elements that they compute. -/
theorem elements_of_ends {numThreads : ℕ} (hthreads : 1 ≤ numThreads) {w' : Shared}
    (h : Ends (phase MAX numThreads (computeElements result op) .rowTest w) w') :
    (∃ m, w' = result.set w m) ∧
      ∀ r c, r < MAX → c < MAX → result.get w' r c = elements op w r c := by
  have hstart : ∀ data w, ElementInv result op MAX data (.rowTest data.startRow) w :=
    fun data w => ⟨le_rfl, done_start, trivial⟩
  refine cells_of_ends (elements_set result op) hthreads hstart (fun _ _ _ _ hl ha => hl.step ha)
    (fun _ _ _ _ hl ha => hl.writes ha) (fun _ _ _ _ c value hl hr => hl.frame hr c value) ?_ h
  intro data l w hl hfinished r c hr hc _
  obtain ⟨i, rfl, hi⟩ := element_finished hfinished
  exact hl.done r c hr hc (Or.inl (hr.2.trans_le hi))

end Elements

/-! ### The product -/

/-- The part of the dot product of a row of `matA` and a column of `matB` in front of `k`. -/
def dot (w : Shared) (i j k : ℕ) : ℤ := ∑ x ∈ Finset.range k, w.matA i x * w.matB x j

theorem dot_set (result : Result) (w : Shared) (m : Grid) (i j k : ℕ) :
    dot (result.set w m) i j k = dot w i j k := by
  rw [dot, dot, result.matA_set, result.matB_set]

/-- The elements that `computeProduct` computes. -/
def products (MAX : ℕ) (w : Shared) : Grid := fun i j => dot w i j MAX

theorem products_set (MAX : ℕ) (result : Result) (w : Shared) (m : Grid) :
    products MAX (result.set w m) = products MAX w := by
  funext i j
  exact dot_set result w m i j MAX

namespace ProductLoc

def row : ProductLoc → ℕ
  | rowTest i | colTest i _ | clear i _ | dotTest i _ _ | readA i _ _ | readB i _ _ _
  | readResult i _ _ _ _ | store i _ _ _ _ _ => i

def col : ProductLoc → ℕ
  | rowTest _ => 0
  | colTest _ j | clear _ j | dotTest _ j _ | readA _ j _ | readB _ j _ _
  | readResult _ j _ _ _ | store _ j _ _ _ _ => j

/-- Inside the loop over the rows, the row is one of the thread. -/
def InRange (data : ThreadData) : ProductLoc → Prop
  | rowTest i => data.startRow ≤ i
  | colTest i _ | clear i _ | dotTest i _ _ | readA i _ _ | readB i _ _ _
  | readResult i _ _ _ _ | store i _ _ _ _ _ => data.Has i

/-- The values that have been read from the operands. -/
def Values (w : Shared) : ProductLoc → Prop
  | readB i _ k a => a = w.matA i k
  | readResult i j k a b => a = w.matA i k ∧ b = w.matB k j
  | store i j k a b _ => a = w.matA i k ∧ b = w.matB k j
  | _ => True

/-- What the inner loop has accumulated in the element at work. -/
def Accumulated (MAX : ℕ) (w : Shared) (m : Grid) : ProductLoc → Prop
  | dotTest i j k => k ≤ MAX ∧ m i j = dot w i j k
  | readA i j k | readB i j k _ | readResult i j k _ _ => k < MAX ∧ m i j = dot w i j k
  | store i j k _ _ acc => k < MAX ∧ acc = dot w i j k
  | _ => True

end ProductLoc

/-- The assertion of a thread that runs `computeProduct`. -/
structure ProductInv (MAX : ℕ) (data : ThreadData) (l : ProductLoc) (w : Shared) : Prop where
  range : l.InRange data
  done : Done MAX data l.row l.col (products MAX w) (matProduct.get w)
  values : l.Values w
  accumulated : l.Accumulated MAX w (matProduct.get w)

section Product

variable {MAX : ℕ} {data : ThreadData} {w : Shared} {l : ProductLoc} {a : Act ProductLoc}

theorem ProductInv.writes (hl : ProductInv MAX data l w)
    (ha : a ∈ computeProduct MAX data l w) : WritesOwnRow matProduct data w a := by
  cases l with
  | rowTest i =>
    rw [computeProduct] at ha
    split at ha
    · obtain rfl := List.mem_singleton.mp ha
      exact Or.inl rfl
    · cases ha
  | colTest i j =>
    rw [computeProduct] at ha
    split at ha <;> obtain rfl := List.mem_singleton.mp ha <;> exact Or.inl rfl
  | dotTest i j k =>
    rw [computeProduct] at ha
    split at ha <;> obtain rfl := List.mem_singleton.mp ha <;> exact Or.inl rfl
  | clear i j =>
    obtain rfl := List.mem_singleton.mp ha
    exact Or.inr ⟨i, j, 0, hl.range, rfl⟩
  | store i j k v v' acc =>
    obtain rfl := List.mem_singleton.mp ha
    exact Or.inr ⟨i, j, acc + v * v', hl.range, rfl⟩
  | _ =>
    obtain rfl := List.mem_singleton.mp ha
    exact Or.inl rfl

theorem ProductInv.step (hl : ProductInv MAX data l w) (ha : a ∈ computeProduct MAX data l w) :
    ProductInv MAX data a.next (a.effect w) := by
  cases l with
  | rowTest i =>
    rw [computeProduct] at ha
    split at ha
    · rename_i hend
      obtain rfl := List.mem_singleton.mp ha
      exact ⟨⟨hl.range, hend⟩, hl.done, trivial, trivial⟩
    · cases ha
  | colTest i j =>
    rw [computeProduct] at ha
    split at ha
    · obtain rfl := List.mem_singleton.mp ha
      exact ⟨hl.range, hl.done, trivial, trivial⟩
    · rename_i hcol
      obtain rfl := List.mem_singleton.mp ha
      exact ⟨Nat.le_succ_of_le hl.range.1, hl.done.nextRow (not_lt.mp hcol), trivial, trivial⟩
  | clear i j =>
    obtain rfl := List.mem_singleton.mp ha
    refine ⟨hl.range, ?_, trivial, Nat.zero_le MAX, ?_⟩
    · exact hl.done.assign 0
    · exact Grid.assign_self _ i j 0
  | dotTest i j k =>
    obtain ⟨hk, hacc⟩ := hl.accumulated
    rw [computeProduct] at ha
    split at ha
    · rename_i hlt
      obtain rfl := List.mem_singleton.mp ha
      exact ⟨hl.range, hl.done, trivial, hlt, hacc⟩
    · rename_i hend
      obtain rfl := List.mem_singleton.mp ha
      obtain rfl : k = MAX := le_antisymm hk (not_lt.mp hend)
      exact ⟨hl.range, hl.done.nextCell hacc, trivial, trivial⟩
  | readA i j k =>
    obtain rfl := List.mem_singleton.mp ha
    exact ⟨hl.range, hl.done, rfl, hl.accumulated⟩
  | readB i j k v =>
    obtain rfl := List.mem_singleton.mp ha
    exact ⟨hl.range, hl.done, ⟨hl.values, rfl⟩, hl.accumulated⟩
  | readResult i j k v v' =>
    obtain rfl := List.mem_singleton.mp ha
    exact ⟨hl.range, hl.done, hl.values, hl.accumulated⟩
  | store i j k v v' acc =>
    obtain rfl := List.mem_singleton.mp ha
    obtain ⟨hk, rfl⟩ := hl.accumulated
    obtain ⟨rfl, rfl⟩ := hl.values
    refine ⟨hl.range, hl.done.assign _, trivial, hk, ?_⟩
    show (matProduct.get w).assign i j (dot w i j k + w.matA i k * w.matB k j) i j =
      dot w i j (k + 1)
    rw [Grid.assign_self, dot, dot, Finset.sum_range_succ]

/-- A write in a row of another thread keeps the assertion, also in the middle of a sum. -/
theorem ProductInv.frame (hl : ProductInv MAX data l w) {r : ℕ} (hr : ¬ data.Has r) (c : ℕ)
    (value : ℤ) :
    ProductInv MAX data l (matProduct.set w ((matProduct.get w).assign r c value)) where
  range := hl.range
  done := hl.done.frame hr c value
  values := hl.values
  accumulated := by
    have hacc := hl.accumulated
    have hkeep : ∀ i j, data.Has i →
        (matProduct.get w).assign r c value i j = matProduct.get w i j := by
      intro i j hi
      have hne : i ≠ r := by
        intro heq
        exact hr (heq ▸ hi)
      exact Grid.assign_of_ne value (Or.inl hne)
    cases l with
    | dotTest i j k => exact ⟨hacc.1, (hkeep i j hl.range).trans hacc.2⟩
    | readA i j k => exact ⟨hacc.1, (hkeep i j hl.range).trans hacc.2⟩
    | readB i j k v => exact ⟨hacc.1, (hkeep i j hl.range).trans hacc.2⟩
    | readResult i j k v v' => exact ⟨hacc.1, (hkeep i j hl.range).trans hacc.2⟩
    | store i j k v v' acc => exact hacc
    | _ => trivial

theorem product_finished (h : computeProduct MAX data l w = []) :
    ∃ i, l = .rowTest i ∧ data.endRow ≤ i := by
  cases l with
  | rowTest i =>
    rw [computeProduct] at h
    split at h
    · cases h
    · rename_i hend
      exact ⟨i, rfl, not_lt.mp hend⟩
  | colTest i j =>
    rw [computeProduct] at h
    split at h <;> cases h
  | dotTest i j k =>
    rw [computeProduct] at h
    split at h <;> cases h
  | _ => cases h

theorem products_of_ends {numThreads : ℕ} (hthreads : 1 ≤ numThreads) {w' : Shared}
    (h : Ends (productPhase MAX numThreads w) w') :
    (∃ m, w' = matProduct.set w m) ∧
      ∀ r c, r < MAX → c < MAX → matProduct.get w' r c = products MAX w r c := by
  have hstart : ∀ data w, ProductInv MAX data (.rowTest data.startRow) w :=
    fun data w => ⟨le_rfl, done_start, trivial, trivial⟩
  refine cells_of_ends (products_set MAX matProduct) hthreads hstart
    (fun _ _ _ _ hl ha => hl.step ha) (fun _ _ _ _ hl ha => hl.writes ha)
    (fun _ _ _ _ c value hl hr => hl.frame hr c value) ?_ h
  intro data l w hl hfinished r c hr hc _
  obtain ⟨i, rfl, hi⟩ := product_finished hfinished
  exact hl.done r c hr hc (Or.inl (hr.2.trans_le hi))

end Product

/-! ### The phases together -/

/-- The matrix of the rows and columns below `MAX`. -/
def Grid.toMatrix (MAX : ℕ) (m : Grid) : Matrix (Fin MAX) (Fin MAX) ℤ :=
  Matrix.of fun i j => m i j

theorem sum_of_ends {MAX numThreads : ℕ} (hthreads : 1 ≤ numThreads) {w w' : Shared}
    (h : Ends (sumPhase MAX numThreads w) w') :
    (∃ m, w' = matSum.set w m) ∧
      w'.matSumResult.toMatrix MAX = w.matA.toMatrix MAX + w.matB.toMatrix MAX := by
  obtain ⟨hset, hcells⟩ := elements_of_ends hthreads h
  refine ⟨hset, ?_⟩
  funext i j
  exact hcells i j i.isLt j.isLt

theorem diff_of_ends {MAX numThreads : ℕ} (hthreads : 1 ≤ numThreads) {w w' : Shared}
    (h : Ends (diffPhase MAX numThreads w) w') :
    (∃ m, w' = matDiff.set w m) ∧
      w'.matDiffResult.toMatrix MAX = w.matA.toMatrix MAX - w.matB.toMatrix MAX := by
  obtain ⟨hset, hcells⟩ := elements_of_ends hthreads h
  refine ⟨hset, ?_⟩
  funext i j
  exact hcells i j i.isLt j.isLt

theorem product_of_ends {MAX numThreads : ℕ} (hthreads : 1 ≤ numThreads) {w w' : Shared}
    (h : Ends (productPhase MAX numThreads w) w') :
    (∃ m, w' = matProduct.set w m) ∧
      w'.matProductResult.toMatrix MAX = w.matA.toMatrix MAX * w.matB.toMatrix MAX := by
  obtain ⟨hset, hcells⟩ := products_of_ends hthreads h
  refine ⟨hset, ?_⟩
  funext i j
  rw [Matrix.mul_apply]
  refine (hcells i j i.isLt j.isLt).trans ?_
  exact (Fin.sum_univ_eq_sum_range (fun k => w.matA i k * w.matB k j) MAX).symm

/-- **Threaded matrices.**  Whatever the size, the number of threads, the contents of the memory
and the interleaving of reads and writes, each result is the sum, the difference or the product
of the operands when the threads of its phase have finished, and all three are right when
`main` has joined the last phase. -/
theorem matrices_correct (MAX numThreads : ℕ) (hthreads : 1 ≤ numThreads) (w : Shared) :
    (∀ w', Ends (sumPhase MAX numThreads w) w' →
      w'.matSumResult.toMatrix MAX = w.matA.toMatrix MAX + w.matB.toMatrix MAX) ∧
    (∀ w', Ends (diffPhase MAX numThreads w) w' →
      w'.matDiffResult.toMatrix MAX = w.matA.toMatrix MAX - w.matB.toMatrix MAX) ∧
    (∀ w', Ends (productPhase MAX numThreads w) w' →
      w'.matProductResult.toMatrix MAX = w.matA.toMatrix MAX * w.matB.toMatrix MAX) ∧
    ∀ w₁ w₂ w₃, MainRun MAX numThreads w w₁ w₂ w₃ →
      w₃.matSumResult.toMatrix MAX = w.matA.toMatrix MAX + w.matB.toMatrix MAX ∧
      w₃.matDiffResult.toMatrix MAX = w.matA.toMatrix MAX - w.matB.toMatrix MAX ∧
      w₃.matProductResult.toMatrix MAX = w.matA.toMatrix MAX * w.matB.toMatrix MAX := by
  refine ⟨fun w' h => (sum_of_ends hthreads h).2, fun w' h => (diff_of_ends hthreads h).2,
    fun w' h => (product_of_ends hthreads h).2, ?_⟩
  intro w₁ w₂ w₃ h
  -- a later phase leaves the operands and the results of the earlier ones
  obtain ⟨⟨m₁, rfl⟩, hsum⟩ := sum_of_ends hthreads h.sum
  obtain ⟨⟨m₂, rfl⟩, hdiff⟩ := diff_of_ends hthreads h.diff
  obtain ⟨⟨m₃, rfl⟩, hproduct⟩ := product_of_ends hthreads h.product
  exact ⟨hsum, hdiff, hproduct⟩

/-- A list of choices that takes all threads to their end. -/
theorem exists_ends {n : ℕ} {L : Type} {P : Program (Fin n) Empty Empty Shared fun _ => L}
    (choices : List (Fin n × ℕ × Option (Fin n)))
    (h : (choices.foldlM P.next P.machine.init).map (fun s => decide (∀ t, Finished P s t)) =
      some true) : ∃ w, Ends P w := by
  obtain ⟨s, hs, hfinished⟩ := Option.map_eq_some_iff.mp h
  exact ⟨s.data, s, reachable_of_choices hs, of_decide_eq_true hfinished, rfl⟩

/-- The first two of three threads take turns, for `k` steps each. -/
def takingTurns (k : ℕ) : List (Fin 3 × ℕ × Option (Fin 3)) :=
  (List.replicate k ((List.finRange 2).map fun t => (t.castSucc, 0, none))).flatten

def sampleOperands : Shared where
  matA i j := i + j
  matB i j := 2 * i - j
  matSumResult _ _ := 0
  matDiffResult _ _ := 0
  matProductResult _ _ := 7

/-- Matrices of size 2; the third thread has no row. -/
theorem matrices_correct_size_two :
    ∃ w₁ w₂ w₃, MainRun 2 3 sampleOperands w₁ w₂ w₃ ∧
      w₃.matProductResult.toMatrix 2 =
        sampleOperands.matA.toMatrix 2 * sampleOperands.matB.toMatrix 2 := by
  obtain ⟨w₁, hsum⟩ : ∃ w₁, Ends (sumPhase 2 3 sampleOperands) w₁ :=
    exists_ends (takingTurns 10) rfl
  obtain ⟨w₂, hdiff⟩ : ∃ w₂, Ends (diffPhase 2 3 w₁) w₂ := exists_ends (takingTurns 10) rfl
  obtain ⟨w₃, hproduct⟩ : ∃ w₃, Ends (productPhase 2 3 w₂) w₃ :=
    exists_ends (takingTurns 28) rfl
  have hrun : MainRun 2 3 sampleOperands w₁ w₂ w₃ := ⟨hsum, hdiff, hproduct⟩
  exact ⟨w₁, w₂, w₃, hrun,
    ((matrices_correct 2 3 (by decide) sampleOperands).2.2.2 w₁ w₂ w₃ hrun).2.2⟩

end OsLabs.MatrixThreads
