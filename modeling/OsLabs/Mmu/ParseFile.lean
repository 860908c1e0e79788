import OsLabs.Lib.Scanf
import OsLabs.Lib.WhileLoop

/-!
# Reading the input file

`parse_file` of `util.c`, which `main` calls with an array of 200 rows and `n = 0`.  Its loop
looks at `feof` alone, neither at what `fscanf` returns nor at the size of the array.
-/

namespace OsLabs.Mmu

open OsLabs.Lib

/-- A row `input[i]`, with `none` in a cell in which nothing has been stored. -/
abbrev Row := Option ℤ × Option ℤ

/-- What the loop works on. -/
structure Parse where
  f : File
  input : ℕ → Row
  n : ℕ

/-- `"%d\n"` -/
def partitionFormat : List Directive := [.int, .space]

/-- `"%d %d\n"` -/
def recordFormat : List Directive := [.int, .space, .int, .space]

/-- The row after `fscanf` has assigned the values. -/
def Row.store (row : Row) : List ℤ → Row
  | [] => row
  | [pid] => (some pid, row.2)
  | pid :: size :: _ => (some pid, some size)

/-- The state in which the loop starts. -/
def parseStart (f : File) (input : ℕ → Row) (n : ℕ) : Parse where
  f := (fscanf partitionFormat f).2
  input := input
  n := n

/-- The body of the loop. -/
def parseRecord (p : Parse) : Parse where
  f := (fscanf recordFormat p.f).2
  input := Function.update p.input p.n ((p.input p.n).store (fscanf recordFormat p.f).1)
  n := p.n + 1

/-- The value for `*PARTITION_SIZE`, if the file has one, and the state in which the loop ends;
`none` if it does not end within `fuel` iterations. -/
def parseFile (fuel : ℕ) (f : File) (input : ℕ → Row) (n : ℕ) : Option (Option ℤ × Parse) :=
  (whileLoop (fun p => !feof p.f) parseRecord fuel (parseStart f input n)).map fun p =>
    ((fscanf partitionFormat f).1.head?, p)

/-- `parse_file` returns, and each iteration in which `fscanf` stores a value stores it in one of
the first `rows` rows. -/
structure EndsWithin (rows : ℕ) (f : File) (input : ℕ → Row) (n : ℕ) : Prop where
  returns : ∃ fuel r, parseFile fuel f input n = some r
  stores_lt : ∀ k, (∀ j ≤ k, feof (parseRecord^[j] (parseStart f input n)).f = false) →
    (fscanf recordFormat (parseRecord^[k] (parseStart f input n)).f).1 ≠ [] →
    (parseRecord^[k] (parseStart f input n)).n < rows

/-! ### The records of a text -/

/-- For each record in turn whether it begins with a number.  A number and the item behind it
are a record, and so is a lone sign that comes first. -/
def recordStores : List Item → List Bool
  | [] => []
  | .sign :: is => false :: recordStores is
  | [.number] => [true]
  | .number :: _ :: is => true :: recordStores is

theorem recordStores_eq_cons {is : List Item} (h : is ≠ []) :
    recordStores is =
      decide (0 < (takeNumbers 2 is).1) :: recordStores (takeNumbers 2 is).2 := by
  match is with
  | [] => exact absurd rfl h
  | .sign :: is => rfl
  | [.number] => rfl
  | .number :: .sign :: is => rfl
  | .number :: .number :: is => rfl

theorem recordStores_behind (is : List Item) :
    recordStores (takeNumbers 2 is).2 = (recordStores is).tail := by
  by_cases h : is = []
  · rw [h]
    rfl
  · rw [recordStores_eq_cons h, List.tail_cons]

/-! ### One iteration -/

section
variable {p : Parse}

theorem parseRecord_numeric (hnum : ∀ c ∈ p.f.rest, isNumeric c = true) :
    ∀ c ∈ (parseRecord p).f.rest, isNumeric c = true :=
  fun c hc => hnum c ((fscanf_rest_suffix recordFormat p.f).subset hc)

theorem recordStores_parseRecord (hnum : ∀ c ∈ p.f.rest, isNumeric c = true) :
    recordStores (items (parseRecord p).f.rest) = (recordStores (items p.f.rest)).tail := by
  rw [← recordStores_behind]
  exact congrArg recordStores (fscanf_items recordFormat hnum).2

/-- The iteration stores something if and only if the next record begins with a number. -/
theorem parseRecord_stores_iff (hnum : ∀ c ∈ p.f.rest, isNumeric c = true) :
    (fscanf recordFormat p.f).1 ≠ [] ↔ (recordStores (items p.f.rest)).head? = some true := by
  have hlength : (fscanf recordFormat p.f).1.length = (takeNumbers 2 (items p.f.rest)).1 :=
    (fscanf_items recordFormat hnum).1
  rw [← List.length_pos_iff, hlength]
  by_cases h : items p.f.rest = []
  · rw [h]
    simp [takeNumbers, recordStores]
  · rw [recordStores_eq_cons h]
    simp

end

/-! ### The whole loop -/

section
variable {f : File} (input : ℕ → Row) (n : ℕ)

theorem n_iterate (k : ℕ) : (parseRecord^[k] (parseStart f input n)).n = n + k := by
  induction k with
  | zero => rfl
  | succ k ih =>
    rw [Function.iterate_succ_apply']
    show (parseRecord^[k] (parseStart f input n)).n + 1 = n + (k + 1)
    rw [ih, Nat.add_assoc]

variable (hnum : ∀ c ∈ f.rest, isNumeric c = true)

include hnum

theorem numeric_iterate (k : ℕ) :
    ∀ c ∈ (parseRecord^[k] (parseStart f input n)).f.rest, isNumeric c = true := by
  induction k with
  | zero => exact fun c hc => hnum c ((fscanf_rest_suffix partitionFormat f).subset hc)
  | succ k ih =>
    rw [Function.iterate_succ_apply']
    exact parseRecord_numeric ih

/-- The first call takes one item, if there is one. -/
theorem items_parseStart : items (parseStart f input n).f.rest = (items f.rest).tail := by
  have hbehind : items (parseStart f input n).f.rest = (takeNumbers 1 (items f.rest)).2 :=
    (fscanf_items partitionFormat hnum).2
  rw [hbehind]
  match items f.rest with
  | [] => rfl
  | .sign :: is => rfl
  | .number :: is => rfl

theorem recordStores_iterate (k : ℕ) :
    recordStores (items (parseRecord^[k] (parseStart f input n)).f.rest) =
      (recordStores (items f.rest).tail).drop k := by
  induction k with
  | zero =>
    rw [Function.iterate_zero_apply, items_parseStart input n hnum]
    rfl
  | succ k ih =>
    rw [Function.iterate_succ_apply', recordStores_parseRecord (numeric_iterate input n hnum k), ih,
      List.tail_drop]

/-- As long as records are left the end of the file has not been met. -/
theorem feof_iterate {k : ℕ} (hk : k < (recordStores (items f.rest).tail).length) :
    feof (parseRecord^[k] (parseStart f input n)).f = false := by
  by_contra heof
  have hrecords := recordStores_iterate input n hnum k
  rw [File.rest_of_eof _ (Bool.eq_true_of_not_eq_false heof)] at hrecords
  have hnil : (recordStores (items f.rest).tail).drop k = [] := hrecords.symm
  rw [List.drop_eq_nil_iff] at hnil
  omega

/-- The iterations that store something are those of the records that begin with a number. -/
theorem stores_iterate_iff (k : ℕ) :
    (fscanf recordFormat (parseRecord^[k] (parseStart f input n)).f).1 ≠ [] ↔
      (recordStores (items f.rest).tail)[k]? = some true := by
  rw [parseRecord_stores_iff (numeric_iterate input n hnum k), recordStores_iterate input n hnum,
    List.head?_drop]

/-- A record that begins with a number is stored in the row of its own number. -/
theorem EndsWithin.record_lt {rows k : ℕ} (h : EndsWithin rows f input 0)
    (hk : (recordStores (items f.rest).tail)[k]? = some true) : k < rows := by
  have hlen := (List.getElem?_eq_some_iff.mp hk).1
  have hlt := h.stores_lt k (fun j hj => feof_iterate input 0 hnum (lt_of_le_of_lt hj hlen))
    ((stores_iterate_iff input 0 hnum k).mpr hk)
  rw [n_iterate, Nat.zero_add] at hlt
  exact hlt

/-- Each iteration takes a record, and one that finds none meets the end of the file. -/
theorem parseFile_returns : ∃ fuel r, parseFile fuel f input n = some r := by
  have hloop : ∃ fuel p,
      whileLoop (fun p => !feof p.f) parseRecord fuel (parseStart f input n) = some p := by
    refine exists_whileLoop_of_measure (I := fun p => ∀ c ∈ p.f.rest, isNumeric c = true)
      (fun p => (recordStores (items p.f.rest)).length) (fun p hp _ => parseRecord_numeric hp) ?_
      (numeric_iterate input n hnum 0)
    intro p hp _ hnext
    have hitems : items p.f.rest ≠ [] := by
      intro hnil
      have heof : feof (parseRecord p).f = true := fscanf_eof_of_items_nil _ hp hnil
      rw [heof] at hnext
      cases hnext
    rw [recordStores_parseRecord hp, List.length_tail]
    have hpos : 0 < (recordStores (items p.f.rest)).length := by
      rw [recordStores_eq_cons hitems]
      exact Nat.succ_pos _
    omega
  obtain ⟨fuel, p, hp⟩ := hloop
  refine ⟨fuel, ((fscanf partitionFormat f).1.head?, p), ?_⟩
  rw [parseFile, hp]
  rfl

end

/-- A byte that no directive reads keeps the loop from the end of the file. -/
theorem parseFile_eq_none {f : File} {c : Char} (hmem : c ∈ f.rest) (hc : isNumeric c = false)
    (fuel : ℕ) (input : ℕ → Row) (n : ℕ) : parseFile fuel f input n = none := by
  rw [parseFile, Option.map_eq_none_iff]
  by_contra hsome
  obtain ⟨p, hp⟩ := Option.ne_none_iff_exists'.mp hsome
  have hend := whileLoop_invariant (I := fun p => c ∈ p.f.rest)
    (fun p hp _ => mem_fscanf recordFormat hp hc) (mem_fscanf partitionFormat hmem hc) hp
  have hguard := hend.2
  rw [feof_eq_false_of_mem hend.1] at hguard
  cases hguard

theorem EndsWithin.not_unread {rows n : ℕ} {f : File} {input : ℕ → Row} {c : Char}
    (h : EndsWithin rows f input n) (hmem : c ∈ f.rest) (hc : isNumeric c = false) : False := by
  obtain ⟨fuel, r, hr⟩ := h.returns
  rw [parseFile_eq_none hmem hc] at hr
  cases hr

/-- **Input parsing within its buffer.**  For every text the loop returns and stores in the 200
rows only, if and only if the text has no bytes but white space, digits and signs, and no record
behind the 200th begins with a number. -/
theorem parseFile_endsWithin_iff (bytes : List Char) (input : ℕ → Row) :
    EndsWithin 200 (fopen bytes) input 0 ↔
      (∀ c ∈ bytes, isNumeric c = true) ∧
        true ∉ (recordStores (items bytes).tail).drop 200 := by
  constructor
  · intro h
    have hnum : ∀ c ∈ (fopen bytes).rest, isNumeric c = true := by
      intro c hmem
      by_contra hc
      exact h.not_unread hmem (Bool.eq_false_of_not_eq_true hc)
    refine ⟨hnum, fun htrue => ?_⟩
    obtain ⟨i, hi⟩ := List.mem_iff_getElem?.mp htrue
    rw [List.getElem?_drop] at hi
    have hlt := h.record_lt input hnum hi
    omega
  · rintro ⟨hnum, hrecords⟩
    refine ⟨parseFile_returns (f := fopen bytes) input 0 hnum, fun k _ hstores => ?_⟩
    have hrecord := (stores_iterate_iff (f := fopen bytes) input 0 hnum k).mp hstores
    rw [n_iterate, Nat.zero_add]
    by_contra hk
    apply hrecords
    rw [List.mem_iff_getElem?]
    refine ⟨k - 200, ?_⟩
    rw [List.getElem?_drop, Nat.add_sub_cancel' (Nat.not_lt.mp hk)]
    exact hrecord

/-- A partition of 10, an allocation and a deallocation. -/
example : (parseFile 2 (fopen ['1', '0', '\n', '1', ' ', '5', '\n', '-', '1', ' ', '0', '\n'])
    (fun _ => (none, none)) 0).map (fun r => (r.1, r.2.n, r.2.input 0, r.2.input 1)) =
      some (some 10, 2, (some 1, some 5), (some (-1), some 0)) := by decide

/-- `"10\n"` and `k` times `"1 5\n"`. -/
def wellFormedFile (k : ℕ) : List Char :=
  ['1', '0', '\n'] ++ (List.replicate k ['1', ' ', '5', '\n']).flatten

theorem wellFormedFile_numeric (k : ℕ) : ∀ c ∈ wellFormedFile k, isNumeric c = true := by
  have hfirst : ['1', '0', '\n'].all isNumeric = true := by decide
  have hline : ['1', ' ', '5', '\n'].all isNumeric = true := by decide
  intro c hc
  rcases List.mem_append.mp hc with hc | hc
  · exact List.all_eq_true.mp hfirst c hc
  · obtain ⟨line, hmem, hc⟩ := List.mem_flatten.mp hc
    rw [List.eq_of_mem_replicate hmem] at hc
    exact List.all_eq_true.mp hline c hc

theorem recordStores_wellFormedFile (k : ℕ) :
    recordStores (items (wellFormedFile k)).tail = List.replicate k true := by
  show recordStores (items (List.replicate k ['1', ' ', '5', '\n']).flatten) = _
  induction k with
  | zero => rfl
  | succ k ih =>
    rw [List.replicate_succ, List.replicate_succ, ← ih]
    rfl

/-- 201 records run over the array, and a letter is never read. -/
theorem parseFile_not_endsWithin :
    ¬ EndsWithin 200 (fopen (wellFormedFile 201)) (fun _ => (none, none)) 0 ∧
      ¬ EndsWithin 200 (fopen ['1', '0', '\n', 'x']) (fun _ => (none, none)) 0 := by
  constructor
  · intro h
    have hrecord : (recordStores (items (fopen (wellFormedFile 201)).rest).tail)[200]? =
        some true := by
      show (recordStores (items (wellFormedFile 201)).tail)[200]? = some true
      rw [recordStores_wellFormedFile]
      rfl
    exact absurd (h.record_lt _ (wellFormedFile_numeric 201) hrecord) (Nat.lt_irrefl 200)
  · intro h
    exact h.not_unread (c := 'x') (by decide) (by decide)

end OsLabs.Mmu
