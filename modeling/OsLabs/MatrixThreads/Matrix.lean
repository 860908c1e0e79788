import OsLabs.Lib.Monitor

/-!
# Matrices computed by threads

`main` of `matrix.c` deals the rows out to the threads and runs three phases, each of which
computes one result matrix and is joined before the next one starts.  Every read and every write
of a matrix element is one step, and so is every loop test.  `main` fills `threadData[t]` before
it creates thread `t`, so the thread finds it unchanged.  The matrices are integer arrays
without bounds; their size `MAX` and the number of threads are any numbers.
-/

namespace OsLabs.MatrixThreads

open OsLabs.Lib OsLabs.Lib.Monitor

abbrev Grid := ℕ → ℕ → ℤ

/-- The assignment `m[i][j] = value`. -/
def Grid.assign (m : Grid) (i j : ℕ) (value : ℤ) : Grid :=
  Function.update m i (Function.update (m i) j value)

structure Shared where
  matA : Grid
  matB : Grid
  matSumResult : Grid
  matDiffResult : Grid
  matProductResult : Grid

/-- A result matrix, as a part of the memory that is apart from the two operands. -/
structure Result where
  get : Shared → Grid
  set : Shared → Grid → Shared
  get_set : ∀ w m, get (set w m) = m
  set_get : ∀ w, set w (get w) = w
  set_set : ∀ w m m', set (set w m) m' = set w m'
  matA_set : ∀ w m, (set w m).matA = w.matA
  matB_set : ∀ w m, (set w m).matB = w.matB

def matSum : Result where
  get := Shared.matSumResult
  set w m := { w with matSumResult := m }
  get_set _ _ := rfl
  set_get _ := rfl
  set_set _ _ _ := rfl
  matA_set _ _ := rfl
  matB_set _ _ := rfl

def matDiff : Result where
  get := Shared.matDiffResult
  set w m := { w with matDiffResult := m }
  get_set _ _ := rfl
  set_get _ := rfl
  set_set _ _ _ := rfl
  matA_set _ _ := rfl
  matB_set _ _ := rfl

def matProduct : Result where
  get := Shared.matProductResult
  set w m := { w with matProductResult := m }
  get_set _ _ := rfl
  set_get _ := rfl
  set_set _ _ _ := rfl
  matA_set _ _ := rfl
  matB_set _ _ := rfl

/-! ### The rows of a thread -/

structure ThreadData where
  startRow : ℕ
  endRow : ℕ

/-- `rows_per_thread`, the ceiling division. -/
def rowsPerThread (MAX numThreads : ℕ) : ℕ := (MAX + numThreads - 1) / numThreads

/-- `threadData[t]`, as `main` fills it. -/
def threadData (MAX numThreads t : ℕ) : ThreadData where
  startRow := t * rowsPerThread MAX numThreads
  endRow :=
    if (t + 1) * rowsPerThread MAX numThreads > MAX then MAX
    else (t + 1) * rowsPerThread MAX numThreads

/-! ### The thread functions -/

abbrev Act (L : Type) := Action Empty Empty Shared L

/-- The next statement of `computeSum` or `computeDiff`. -/
inductive ElementLoc
  /-- `i < data->end_row`. -/
  | rowTest (i : ℕ)
  /-- `j < MAX`. -/
  | colTest (i j : ℕ)
  | readA (i j : ℕ)
  | readB (i j : ℕ) (a : ℤ)
  | store (i j : ℕ) (a b : ℤ)
  deriving DecidableEq

/-- The loops of `computeSum` and `computeDiff`, which differ in the result matrix and the
operation. -/
def computeElements (result : Result) (op : ℤ → ℤ → ℤ) (MAX : ℕ) (data : ThreadData) :
    ElementLoc → Shared → List (Act ElementLoc)
  | .rowTest i, w => if i < data.endRow then [.exec w (.colTest i 0)] else []
  | .colTest i j, w =>
    if j < MAX then [.exec w (.readA i j)] else [.exec w (.rowTest (i + 1))]
  | .readA i j, w => [.exec w (.readB i j (w.matA i j))]
  | .readB i j a, w => [.exec w (.store i j a (w.matB i j))]
  | .store i j a b, w =>
    [.exec (result.set w ((result.get w).assign i j (op a b))) (.colTest i (j + 1))]

def computeSum (MAX : ℕ) (data : ThreadData) : ElementLoc → Shared → List (Act ElementLoc) :=
  computeElements matSum (fun a b => a + b) MAX data

def computeDiff (MAX : ℕ) (data : ThreadData) : ElementLoc → Shared → List (Act ElementLoc) :=
  computeElements matDiff (fun a b => a - b) MAX data

/-- The next statement of `computeProduct`. -/
inductive ProductLoc
  | rowTest (i : ℕ)
  | colTest (i j : ℕ)
  /-- `matProductResult[i][j] = 0`. -/
  | clear (i j : ℕ)
  /-- `k < MAX`. -/
  | dotTest (i j k : ℕ)
  | readA (i j k : ℕ)
  | readB (i j k : ℕ) (a : ℤ)
  /-- The read of `matProductResult[i][j]` in the `+=`, and then its write. -/
  | readResult (i j k : ℕ) (a b : ℤ)
  | store (i j k : ℕ) (a b acc : ℤ)
  deriving DecidableEq

def computeProduct (MAX : ℕ) (data : ThreadData) :
    ProductLoc → Shared → List (Act ProductLoc)
  | .rowTest i, w => if i < data.endRow then [.exec w (.colTest i 0)] else []
  | .colTest i j, w =>
    if j < MAX then [.exec w (.clear i j)] else [.exec w (.rowTest (i + 1))]
  | .clear i j, w =>
    [.exec (matProduct.set w ((matProduct.get w).assign i j 0)) (.dotTest i j 0)]
  | .dotTest i j k, w =>
    if k < MAX then [.exec w (.readA i j k)] else [.exec w (.colTest i (j + 1))]
  | .readA i j k, w => [.exec w (.readB i j k (w.matA i k))]
  | .readB i j k a, w => [.exec w (.readResult i j k a (w.matB k j))]
  | .readResult i j k a b, w => [.exec w (.store i j k a b (matProduct.get w i j))]
  | .store i j k a b acc, w =>
    [.exec (matProduct.set w ((matProduct.get w).assign i j (acc + a * b)))
      (.dotTest i j (k + 1))]

/-! ### The phases of `main` -/

section Phases

variable (MAX numThreads : ℕ)

/-- The threads of one phase, from the memory `w`.  Each runs the thread function `compute` on
its `threadData`, beginning with the test of its first row. -/
def phase {L : Type} (compute : ℕ → ThreadData → L → Shared → List (Act L)) (rowTest : ℕ → L)
    (w : Shared) : Program (Fin numThreads) Empty Empty Shared fun _ => L where
  start t := rowTest (threadData MAX numThreads t).startRow
  data := w
  code t := compute MAX (threadData MAX numThreads t)
  spurious := false

abbrev sumPhase := phase MAX numThreads computeSum .rowTest

abbrev diffPhase := phase MAX numThreads computeDiff .rowTest

abbrev productPhase := phase MAX numThreads computeProduct .rowTest

end Phases

/-- The memory when some interleaving has taken all threads of the program to their end. -/
def Ends {n : ℕ} {L : Type} (P : Program (Fin n) Empty Empty Shared fun _ => L) (w : Shared) :
    Prop :=
  ∃ s, P.machine.Reachable s ∧ (∀ t, Finished P s t) ∧ s.data = w

/-- The three phases of `main`, each joined before the next one, from the memory `w`. -/
structure MainRun (MAX numThreads : ℕ) (w w₁ w₂ w₃ : Shared) : Prop where
  sum : Ends (sumPhase MAX numThreads w) w₁
  diff : Ends (diffPhase MAX numThreads w₁) w₂
  product : Ends (productPhase MAX numThreads w₂) w₃

end OsLabs.MatrixThreads
