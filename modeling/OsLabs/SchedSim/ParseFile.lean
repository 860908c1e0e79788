import OsLabs.Lib.MachineInt
import OsLabs.Lib.ScanDecimal
import OsLabs.Lib.WhileLoop
import OsLabs.SchedSim.Process

/-!
# Reading the process file

`parse_file` of `util.c` reads the file twice: the first loop counts its iterations and the second
one stores a record in each.  Both look at `feof` alone.  The white space at the end of the format
reads on to the next record, so behind the last record the end of the file has been met, and a
file of records is read back.  In a file without a record the end is only met by the first
iteration, which is counted.
-/

namespace OsLabs.SchedSim

open OsLabs.Lib

/-- `"%d %d %d %d %d %d\n"` -/
def processFormat : List Directive :=
  [.int, .space, .int, .space, .int, .space, .int, .space, .int, .space, .int, .space]

/-- The record after `fscanf` has assigned the values to its first fields. -/
def ProcessType.store (p : ProcessType) (values : List ℤ) : ProcessType where
  pid := values.getD 0 p.pid
  bt := values.getD 1 p.bt
  art := values.getD 2 p.art
  wt := values.getD 3 p.wt
  tat := values.getD 4 p.tat
  pri := values.getD 5 p.pri

/-- A record that `calloc` has cleared. -/
def clearedProcess : ProcessType := ⟨0, 0, 0, 0, 0, 0⟩

/-- What the first loop works on; it reads into a record that is freed without being looked at. -/
structure CountState where
  f : File
  size : ℤ

/-- `!feof(f)` -/
def countGuard (s : CountState) : Option Bool := some (!feof s.f)

/-- The body of the first loop. -/
def countBody (s : CountState) : Option CountState := do
  let size ← addInt s.size 1
  return { f := (fscanf processFormat s.f).2, size := size }

/-- What the second loop works on. -/
structure ReadState where
  f : File
  pptr : List ProcessType
  i : ℤ

/-- `!feof(f)` -/
def readGuard (s : ReadState) : Option Bool := some (!feof s.f)

/-- The values are stored in `pptr[i]`, which has to be a record of the array. -/
def storeAt (pptr : List ProcessType) (i : ℤ) (values : List ℤ) : Option (List ProcessType) :=
  if values = [] then some pptr
  else pptr[i.toNat]?.map fun p => pptr.set i.toNat (p.store values)

/-- The body of the second loop. -/
def readBody (s : ReadState) : Option ReadState := do
  let pptr ← storeAt s.pptr s.i (fscanf processFormat s.f).1
  let i ← addInt s.i 1
  return { f := (fscanf processFormat s.f).2, pptr := pptr, i := i }

/-- What `parse_file` leaves in `*P_SIZE`, what it returns, and its `i` at that time. -/
structure Parsed where
  size : ℤ
  pptr : List ProcessType
  i : ℤ
  deriving DecidableEq

/-- `parse_file` on a file that has just been opened, if each of its loops ends within `fuel`
iterations; `fseek` makes the file what it was when it was opened. -/
def parseFile (fuel : ℕ) (bytes : List Char) (size : ℤ) : Option Parsed := do
  let counted ← whileLoopM countGuard countBody fuel ⟨fopen bytes, size⟩
  let read ← whileLoopM readGuard readBody fuel
    ⟨fopen bytes, List.replicate counted.size.toNat clearedProcess, 0⟩
  return { size := counted.size, pptr := read.pptr, i := read.i }

/-! ### The text of a process list -/

/-- The fields in the order in which they are printed. -/
def ProcessType.fields (p : ProcessType) : List ℤ := [p.pid, p.bt, p.art, p.wt, p.tat, p.pri]

/-- Lines of six decimal `int`s with single spaces between them, and any white space at the end of
a line and of the file. -/
inductive Prints : List ProcessType → List Char → Prop
  | nil {blank : List Char} (hblank : ∀ c ∈ blank, isSpace c = true) : Prints [] blank
  | last {p : ProcessType} {blank : List Char} (hp : ∀ z ∈ p.fields, InInt z)
      (hblank : ∀ c ∈ blank, isSpace c = true) : Prints [p] (numberLine p.fields ++ blank)
  | cons {p : ProcessType} {ps : List ProcessType} {blank text : List Char}
      (hp : ∀ z ∈ p.fields, InInt z) (hblank : ∀ c ∈ blank, isSpace c = true) (hps : ps ≠ [])
      (h : Prints ps text) : Prints (p :: ps) (numberLine p.fields ++ (blank ++ '\n' :: text))

/-- The file is read back: `*P_SIZE` is the number of the processes, the array holds them, and the
second loop makes as many iterations as the first one counted. -/
def RoundTrips (ps : List ProcessType) (text : List Char) : Prop :=
  ∃ fuel, parseFile fuel text 0 = some ⟨ps.length, ps, ps.length⟩

theorem store_fields (p q : ProcessType) : q.store p.fields = p := rfl

theorem Prints.noSpaceFirst {ps : List ProcessType} {text : List Char} (h : Prints ps text)
    (hps : ps ≠ []) : NoSpaceFirst text ∧ text ≠ [] := by
  have hline (p : ProcessType) (rest : List Char) : NoSpaceFirst (numberLine p.fields ++ rest) ∧
      numberLine p.fields ++ rest ≠ [] := by
    refine ⟨noSpaceFirst_numberLine_append _ _ _, List.append_ne_nil_of_left_ne_nil ?_ rest⟩
    exact List.append_ne_nil_of_left_ne_nil (decimal_ne_nil p.pid) _
  cases h with
  | nil => exact absurd rfl hps
  | last => exact hline _ _
  | cons => exact hline _ _

/-- One call of `fscanf` reads the first record back, and the white space up to the next one. -/
theorem Prints.fscanf_eq {f : File} {p : ProcessType} {ps : List ProcessType} {text : List Char}
    (h : Prints (p :: ps) text) (hf : f.rest = text) :
    ∃ rest, fscanf processFormat f = (p.fields, fileAt rest) ∧
      (ps = [] ∧ rest = [] ∨ ps ≠ [] ∧ Prints ps rest ∧ feof (fileAt rest) = false) := by
  have hformat : processFormat = numberFormat p.fields.length := rfl
  have hfields : p.fields ≠ [] := List.cons_ne_nil _ _
  rw [hformat]
  cases h with
  | @last _ blank _ hblank =>
    have hlast : f.rest = numberLine p.fields ++ (blank ++ []) := by
      rw [hf, List.append_nil]
    exact ⟨[], fscanf_numberLine hfields hlast hblank (fun _ => rfl) nofun, Or.inl ⟨rfl, rfl⟩⟩
  | @cons _ _ blank rest _ hblank hps hrest =>
    have hblank' : ∀ c ∈ blank ++ ['\n'], isSpace c = true := by
      intro c hc
      rcases List.mem_append.mp hc with hc | hc
      · exact hblank c hc
      · rw [List.mem_singleton.mp hc]
        rfl
    refine ⟨rest, fscanf_numberLine hfields ?_ hblank' (fun hnil => ?_)
      (hrest.noSpaceFirst hps).1, Or.inr ⟨hps, hrest, ?_⟩⟩
    · rw [hf, List.append_assoc]
      rfl
    · cases blank <;> cases hnil
    · rw [feof_fileAt, List.isEmpty_eq_false_iff]
      exact (hrest.noSpaceFirst hps).2

theorem countGuard_eq {s : CountState} {b : Bool} (h : feof s.f = !b) :
    countGuard s = some b := by
  rw [countGuard, h, Bool.not_not]

theorem readGuard_eq {s : ReadState} {b : Bool} (h : feof s.f = !b) :
    readGuard s = some b := by
  rw [readGuard, h, Bool.not_not]

/-! ### The first loop -/

section Count

variable {ps : List ProcessType} {text : List Char} {f : File} {size : ℤ}

/-- The first loop counts the records. -/
theorem whileLoopM_countBody (h : Prints ps text) (hps : ps ≠ []) (hf : f.rest = text)
    (heof : feof f = false) (hlow : 0 ≤ size) (hhigh : size + ps.length ≤ INT_MAX) :
    whileLoopM countGuard countBody ps.length ⟨f, size⟩ =
      some ⟨fileAt [], size + ps.length⟩ := by
  induction ps generalizing f size text with
  | nil => exact absurd rfl hps
  | cons p ps ih =>
    obtain ⟨rest, hscan, hrest⟩ := h.fscanf_eq hf
    rw [List.length_cons] at hhigh ⊢
    push_cast at hhigh ⊢
    have hguard : countGuard ⟨f, size⟩ = some true := countGuard_eq heof
    have hsize : InInt (size + 1) := by
      rw [INT_MAX] at hhigh
      constructor <;> omega
    have hbody : countBody ⟨f, size⟩ = some ⟨fileAt rest, size + 1⟩ := by
      rw [countBody, addInt_of_inInt hsize, hscan]
      rfl
    rw [whileLoopM_of_true hguard hbody]
    rcases hrest with ⟨rfl, rfl⟩ | ⟨hne, hprints, hnext⟩
    · exact whileLoopM_of_false (countGuard_eq (b := false) rfl) 0
    · rw [ih hprints hne rfl hnext (by omega) (by omega), add_assoc, add_comm 1]

/-- The first loop overflows on more records than an `int` counts. -/
theorem whileLoopM_countBody_eq_none (h : Prints ps text) (hps : ps ≠ []) (hf : f.rest = text)
    (heof : feof f = false) (hlow : size ≤ INT_MAX) (hhigh : INT_MAX < size + ps.length)
    (fuel : ℕ) :
    whileLoopM countGuard countBody fuel ⟨f, size⟩ = none := by
  have hguard : countGuard ⟨f, size⟩ = some true := countGuard_eq heof
  induction ps generalizing f size text fuel with
  | nil => exact absurd rfl hps
  | cons p ps ih =>
    obtain ⟨rest, hscan, hrest⟩ := h.fscanf_eq hf
    cases fuel with
    | zero =>
      rw [whileLoopM, hguard]
      rfl
    | succ fuel =>
      rw [List.length_cons] at hhigh
      push_cast at hhigh
      by_cases hsize : InInt (size + 1)
      · have hbody : countBody ⟨f, size⟩ = some ⟨fileAt rest, size + 1⟩ := by
          rw [countBody, addInt_of_inInt hsize, hscan]
          rfl
        have hle := hsize.2
        rw [whileLoopM_of_true hguard hbody]
        rcases hrest with ⟨rfl, rfl⟩ | ⟨hne, hprints, hnext⟩
        · rw [INT_MAX, List.length_nil] at hhigh
          omega
        · refine ih hprints hne rfl hnext ?_ (by omega) fuel ?_
          · rw [INT_MAX]
            omega
          · rw [countGuard, hnext]
            rfl
      · have hbody : countBody ⟨f, size⟩ = none := by
          rw [countBody, addInt, checkInt, if_neg hsize]
          rfl
        rw [whileLoopM, hguard, Option.bind_some, if_pos rfl, hbody]
        rfl

end Count

/-! ### The second loop -/

section Read

variable {ps : List ProcessType} {text : List Char} {f : File}

/-- The record behind those that have been read is stored. -/
theorem storeAt_append (front back : List ProcessType) (p q : ProcessType) :
    storeAt (front ++ q :: back) front.length p.fields = some (front ++ p :: back) := by
  have hget : (front ++ q :: back)[front.length]? = some q := by
    rw [List.getElem?_append_right le_rfl, Nat.sub_self]
    rfl
  have hfields : p.fields ≠ [] := List.cons_ne_nil _ _
  rw [storeAt, if_neg hfields, Int.toNat_natCast, hget, Option.map_some, store_fields,
    List.set_append_right _ _ le_rfl, Nat.sub_self]
  rfl

/-- The second loop stores the records behind those that are there. -/
theorem whileLoopM_readBody (h : Prints ps text) (hps : ps ≠ []) (hf : f.rest = text)
    (heof : feof f = false) (front : List ProcessType)
    (hhigh : (front.length : ℤ) + ps.length ≤ INT_MAX) :
    whileLoopM readGuard readBody ps.length
        ⟨f, front ++ List.replicate ps.length clearedProcess, front.length⟩ =
      some ⟨fileAt [], front ++ ps, front.length + ps.length⟩ := by
  induction ps generalizing f front text with
  | nil => exact absurd rfl hps
  | cons p ps ih =>
    obtain ⟨rest, hscan, hrest⟩ := h.fscanf_eq hf
    rw [List.length_cons] at hhigh ⊢
    push_cast at hhigh ⊢
    have hguard : readGuard
        ⟨f, front ++ List.replicate (ps.length + 1) clearedProcess, front.length⟩ = some true :=
      readGuard_eq heof
    have hi : InInt ((front.length : ℤ) + 1) := by
      rw [INT_MAX] at hhigh
      constructor <;> omega
    have hbody : readBody ⟨f, front ++ List.replicate (ps.length + 1) clearedProcess,
        front.length⟩ =
        some ⟨fileAt rest, front ++ p :: List.replicate ps.length clearedProcess,
          front.length + 1⟩ := by
      rw [readBody, hscan, List.replicate_succ]
      dsimp only
      rw [storeAt_append, addInt_of_inInt hi]
      rfl
    rw [whileLoopM_of_true hguard hbody]
    rcases hrest with ⟨rfl, rfl⟩ | ⟨hne, hprints, hnext⟩
    · exact whileLoopM_of_false (readGuard_eq (b := false) rfl) 0
    · have hlength : (((front ++ [p]).length : ℕ) : ℤ) = front.length + 1 := by
        rw [List.length_append, List.length_singleton]
        push_cast
        rfl
      have hloop := ih hprints hne rfl hnext (front ++ [p]) (by omega)
      rw [hlength, List.append_assoc, List.append_assoc, List.singleton_append,
        List.singleton_append, add_assoc, add_comm 1] at hloop
      exact hloop

end Read

/-! ### The whole function -/

/-- A file of white space counts as one record, and nothing is stored in it. -/
theorem parseFile_blank {blank : List Char} (hblank : ∀ c ∈ blank, isSpace c = true) (fuel : ℕ) :
    parseFile (fuel + 1) blank 0 = some ⟨1, [clearedProcess], 1⟩ := by
  have hitems : items (fopen blank).rest = [] := by
    rw [← items_dropWhile_isSpace]
    show items (blank.dropWhile isSpace) = []
    rw [List.dropWhile_eq_nil_iff.mpr hblank]
    rfl
  have hnum : ∀ c ∈ (fopen blank).rest, isNumeric c = true := by
    intro c hc
    rw [isNumeric, hblank c hc]
    rfl
  have hvalues : (fscanf processFormat (fopen blank)).1 = [] := by
    rw [← List.length_eq_zero_iff, (fscanf_items processFormat hnum).1, hitems]
    rfl
  have heof : feof (fscanf processFormat (fopen blank)).2 = true :=
    fscanf_eof_of_items_nil _ hnum hitems
  have hcount : countBody ⟨fopen blank, 0⟩ = some ⟨(fscanf processFormat (fopen blank)).2, 1⟩ :=
    rfl
  have hread : readBody ⟨fopen blank, [clearedProcess], 0⟩ =
      some ⟨(fscanf processFormat (fopen blank)).2, [clearedProcess], 1⟩ := by
    rw [readBody, storeAt, if_pos hvalues]
    rfl
  have hcounted : whileLoopM countGuard countBody (fuel + 1) ⟨fopen blank, 0⟩ =
      some ⟨(fscanf processFormat (fopen blank)).2, 1⟩ :=
    (whileLoopM_of_true (countGuard_eq (b := true) rfl) hcount fuel).trans
      (whileLoopM_of_false (countGuard_eq heof) fuel)
  have hstored : whileLoopM readGuard readBody (fuel + 1) ⟨fopen blank, [clearedProcess], 0⟩ =
      some ⟨(fscanf processFormat (fopen blank)).2, [clearedProcess], 1⟩ :=
    (whileLoopM_of_true (readGuard_eq (b := true) rfl) hread fuel).trans
      (whileLoopM_of_false (readGuard_eq heof) fuel)
  rw [parseFile, hcounted, Option.bind_eq_bind, Option.bind_some]
  show (whileLoopM readGuard readBody (fuel + 1) ⟨fopen blank, [clearedProcess], 0⟩).bind _ = _
  rw [hstored]
  rfl

theorem not_roundTrips_nil {blank : List Char} (hblank : ∀ c ∈ blank, isSpace c = true) :
    ¬ RoundTrips [] blank := by
  rintro ⟨fuel, hfuel⟩
  cases fuel with
  | zero =>
    rw [parseFile, whileLoopM] at hfuel
    cases hfuel
  | succ fuel =>
    rw [parseFile_blank hblank] at hfuel
    cases hfuel

/-- **Process files round-trip.**  A file of processes is read back if and only if there is one at
least, and not more than `*P_SIZE` can count. -/
theorem parseFile_roundTrips_iff (ps : List ProcessType) (text : List Char)
    (h : Prints ps text) : RoundTrips ps text ↔ 1 ≤ ps.length ∧ (ps.length : ℤ) ≤ INT_MAX := by
  by_cases hps : ps = []
  · subst hps
    cases h with
    | nil hblank =>
      exact iff_of_false (not_roundTrips_nil hblank) fun hlen => absurd hlen.1 (by decide)
  · have hlen : 1 ≤ ps.length := List.length_pos_iff.mpr hps
    rw [and_iff_right hlen]
    constructor
    · rintro ⟨fuel, hfuel⟩
      by_contra hmany
      rw [parseFile, whileLoopM_countBody_eq_none h hps rfl rfl (by decide) (by omega)] at hfuel
      cases hfuel
    · intro hmax
      have hle : (0 : ℤ) + ps.length ≤ INT_MAX := by omega
      have hcount := whileLoopM_countBody h hps (f := fopen text) rfl rfl le_rfl hle
      have hread := whileLoopM_readBody h hps (f := fopen text) rfl rfl [] hle
      refine ⟨ps.length, ?_⟩
      rw [parseFile, hcount, Option.bind_eq_bind, Option.bind_some, zero_add]
      simp only [List.nil_append, List.length_nil, Nat.cast_zero, zero_add] at hread
      rw [Int.toNat_natCast, hread]
      rfl

/-- `"1 24 0 0 0 2\n2 3 1 0 0 -1 \n"` -/
theorem parseFile_roundTrips_sample :
    RoundTrips [⟨1, 24, 0, 0, 0, 2⟩, ⟨2, 3, 1, 0, 0, -1⟩]
        ['1', ' ', '2', '4', ' ', '0', ' ', '0', ' ', '0', ' ', '2', '\n',
          '2', ' ', '3', ' ', '1', ' ', '0', ' ', '0', ' ', '-', '1', ' ', '\n'] ↔
      1 ≤ 2 ∧ ((2 : ℕ) : ℤ) ≤ INT_MAX := by
  refine parseFile_roundTrips_iff [⟨1, 24, 0, 0, 0, 2⟩, ⟨2, 3, 1, 0, 0, -1⟩] _ ?_
  have hlast : Prints [⟨2, 3, 1, 0, 0, -1⟩]
      (numberLine (ProcessType.fields ⟨2, 3, 1, 0, 0, -1⟩) ++ [' ', '\n']) :=
    Prints.last (by decide) (List.all_eq_true.mp rfl)
  have hall : Prints [⟨1, 24, 0, 0, 0, 2⟩, ⟨2, 3, 1, 0, 0, -1⟩]
      (numberLine (ProcessType.fields ⟨1, 24, 0, 0, 0, 2⟩) ++ ([] ++ '\n' ::
        (numberLine (ProcessType.fields ⟨2, 3, 1, 0, 0, -1⟩) ++ [' ', '\n']))) :=
    Prints.cons (by decide) (List.all_eq_true.mp rfl) (List.cons_ne_nil _ _) hlast
  exact hall

/-- An empty file counts as one process. -/
theorem emptyFile_not_roundTrips : Prints [] [] ∧ ¬ RoundTrips [] [] :=
  ⟨Prints.nil nofun, not_roundTrips_nil nofun⟩

end OsLabs.SchedSim
