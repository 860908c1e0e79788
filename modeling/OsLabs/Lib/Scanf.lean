import Mathlib.Data.List.TakeWhile
import Mathlib.Tactic

/-!
# `fscanf` on a text of integers

A file is the bytes still to be read, each as a `Char`, and the indicator that `feof` tests,
which is set by the attempt to read behind the last byte.  The conversion `%d` skips white
space, then takes an optional sign and the digits behind it; without a digit it fails, and the
sign is gone.  White space in a format skips white space, and `fscanf` stops at the first
conversion that fails.  A number beyond the range of `int` is passed on as it is.
-/

namespace OsLabs.Lib

/-- `isspace` in the C locale. -/
def isSpace (c : Char) : Bool := c = ' ' ∨ (9 ≤ c.toNat ∧ c.toNat ≤ 13)

def isSign (c : Char) : Bool := c = '+' ∨ c = '-'

/-- The bytes that some directive reads. -/
def isNumeric (c : Char) : Bool := isSpace c || c.isDigit || isSign c

/-- `FILE`. -/
structure File where
  rest : List Char
  eof : Bool
  rest_of_eof : eof = true → rest = []

def fopen (bytes : List Char) : File where
  rest := bytes
  eof := false
  rest_of_eof := fun h => absurd h Bool.false_ne_true

def feof (f : File) : Bool := f.eof

/-! ### Conversions -/

/-- The file behind the bytes that pass `p`; the first other byte is read and put back. -/
def File.skip (f : File) (p : Char → Bool) : File where
  rest := f.rest.dropWhile p
  eof := f.eof || f.rest.all p
  rest_of_eof h := by
    rcases Bool.or_eq_true_iff.mp h with heof | hall
    · rw [f.rest_of_eof heof, List.dropWhile_nil]
    · exact List.dropWhile_eq_nil_iff.mpr (List.all_eq_true.mp hall)

/-- The file behind the next byte. -/
def File.tail (f : File) : File where
  rest := f.rest.tail
  eof := f.eof
  rest_of_eof h := by rw [f.rest_of_eof h, List.tail_nil]

/-- Reads a sign, or puts the byte back that is none. -/
def File.readSign (f : File) : Option Char × File :=
  match f.rest with
  | [] => (none, f.skip isSign)
  | c :: _ => if isSign c then (some c, f.tail) else (none, f)

/-- The value of the digits behind a sign. -/
def signedValue (sign : Option Char) (digits : List Char) : ℤ :=
  if sign = some '-' then -(Nat.ofDigitChars 10 digits 0 : ℤ) else Nat.ofDigitChars 10 digits 0

/-- The conversion `%d`. -/
def File.scanInt (f : File) : Option ℤ × File :=
  let (sign, f) := (f.skip isSpace).readSign
  let digits := f.rest.takeWhile Char.isDigit
  let f := f.skip Char.isDigit
  if digits = [] then (none, f) else (some (signedValue sign digits), f)

/-- What a format is made of: `%d` and white space. -/
inductive Directive where
  | int
  | space
  deriving DecidableEq, Repr

/-- The values that are assigned, and the file behind what is read. -/
def fscanf : List Directive → File → List ℤ × File
  | [], f => ([], f)
  | .space :: format, f => fscanf format (f.skip isSpace)
  | .int :: format, f =>
    match f.scanInt with
    | (none, f) => ([], f)
    | (some value, f) => (value :: (fscanf format f).1, (fscanf format f).2)

/-! ### The text as numbers and lone signs -/

/-- A number, with its sign, or a sign without a digit behind it. -/
inductive Item where
  | number
  | sign
  deriving DecidableEq, Repr

/-- The items of a text; `inNumber` says that a digit in front goes on with the number behind
which it stands. -/
def itemsFrom (inNumber : Bool) : List Char → List Item
  | [] => []
  | c :: rest =>
    if c.isDigit then
      if inNumber then itemsFrom true rest else .number :: itemsFrom true rest
    else if isSign c then
      if rest.head?.any Char.isDigit then .number :: itemsFrom true rest
      else .sign :: itemsFrom false rest
    else itemsFrom false rest

def items (text : List Char) : List Item := itemsFrom false text

theorem not_isDigit_of_isSpace {c : Char} (h : isSpace c = true) : c.isDigit = false := by
  rw [isSpace, decide_eq_true_eq] at h
  rcases h with rfl | ⟨-, hle⟩
  · rfl
  · by_contra hdigit
    have hlow := (Char.isDigit_iff_toNat.mp (Bool.eq_true_of_not_eq_false hdigit)).1
    have hzero : '0'.toNat = 48 := rfl
    omega

/-- A byte of a kind that has neither of the signs is no sign. -/
theorem not_isSign {kind : Char → Bool} {c : Char} (h : kind c = true) (hplus : kind '+' = false)
    (hminus : kind '-' = false) : isSign c = false := by
  by_contra hsign
  rw [Bool.not_eq_false, isSign, decide_eq_true_eq] at hsign
  rcases hsign with rfl | rfl
  · rw [h] at hplus
    cases hplus
  · rw [h] at hminus
    cases hminus

theorem not_isSign_of_isSpace {c : Char} (h : isSpace c = true) : isSign c = false :=
  not_isSign h (by decide) (by decide)

theorem not_isSign_of_isDigit {c : Char} (h : c.isDigit = true) : isSign c = false :=
  not_isSign h (by decide) (by decide)

/-- White space in front holds no item. -/
theorem items_dropWhile_isSpace (text : List Char) :
    items (text.dropWhile isSpace) = items text := by
  induction text with
  | nil => rfl
  | cons c rest ih =>
    rw [List.dropWhile_cons]
    split
    · rename_i hspace
      rw [ih, items, items, itemsFrom, not_isDigit_of_isSpace hspace,
        not_isSign_of_isSpace hspace]
      rfl
    · rfl

/-- Inside a number the next item starts behind the digits. -/
theorem itemsFrom_true (text : List Char) :
    itemsFrom true text = items (text.dropWhile Char.isDigit) := by
  induction text with
  | nil => rfl
  | cons c rest ih =>
    rw [List.dropWhile_cons]
    cases hdigit : c.isDigit with
    | true =>
      rw [itemsFrom, if_pos hdigit, if_pos rfl, if_pos rfl]
      exact ih
    | false => simp [items, itemsFrom, hdigit]

/-! ### What the operations do to the text -/

section
variable (f : File)

theorem File.skip_rest_suffix (p : Char → Bool) : (f.skip p).rest <:+ f.rest :=
  List.dropWhile_suffix p

theorem File.readSign_of_sign {c : Char} {rest : List Char} (h : f.rest = c :: rest)
    (hsign : isSign c = true) : f.readSign = (some c, f.tail) := by
  rw [File.readSign, h]
  exact if_pos hsign

theorem File.readSign_of_not_sign {c : Char} {rest : List Char} (h : f.rest = c :: rest)
    (hsign : isSign c = false) : f.readSign = (none, f) := by
  simp [File.readSign, h, hsign]

theorem File.readSign_rest_suffix : f.readSign.2.rest <:+ f.rest := by
  cases h : f.rest with
  | nil => simp [File.readSign, File.skip, h]
  | cons c rest =>
    cases hsign : isSign c with
    | true =>
      rw [f.readSign_of_sign h hsign, ← h]
      exact List.tail_suffix f.rest
    | false =>
      rw [f.readSign_of_not_sign h hsign, ← h]

theorem File.scanInt_snd :
    f.scanInt.2 = (f.skip isSpace).readSign.2.skip Char.isDigit := by
  rw [File.scanInt]
  dsimp only
  split <;> rfl

theorem File.scanInt_fst_isSome :
    f.scanInt.1.isSome = true ↔ (f.skip isSpace).readSign.2.rest.takeWhile Char.isDigit ≠ [] := by
  rw [File.scanInt]
  dsimp only
  split
  · rename_i hnone
    simp [hnone]
  · rename_i hsome
    simp [hsome]

theorem File.scanInt_rest_suffix : f.scanInt.2.rest <:+ f.rest := by
  rw [f.scanInt_snd]
  exact (File.skip_rest_suffix _ _).trans
    ((File.readSign_rest_suffix _).trans (f.skip_rest_suffix isSpace))

/-- One conversion in a text of numbers, signs and white space: at the end it fails and sets the
indicator, at a lone sign it fails behind the sign, at a number it takes the number. -/
theorem File.scanInt_cases (hnum : ∀ c ∈ f.rest, isNumeric c = true) :
    (items f.rest = [] ∧ f.scanInt.1.isSome = false ∧ items f.scanInt.2.rest = [] ∧
        f.scanInt.2.eof = true) ∨
      (items f.rest = .sign :: items f.scanInt.2.rest ∧ f.scanInt.1.isSome = false) ∨
      (items f.rest = .number :: items f.scanInt.2.rest ∧ f.scanInt.1.isSome = true) := by
  rw [← items_dropWhile_isSpace]
  cases htext : f.rest.dropWhile isSpace with
  | nil =>
    left
    simp [File.scanInt, File.readSign, File.skip, htext, items, itemsFrom]
  | cons c rest =>
    right
    have hskip : (f.skip isSpace).rest = c :: rest := htext
    have hspace : isSpace c = false := by
      have hnot := List.head?_dropWhile_not isSpace f.rest
      rw [htext] at hnot
      exact hnot
    have hmem : c ∈ f.rest := by
      refine (f.skip_rest_suffix isSpace).subset ?_
      rw [hskip]
      exact List.mem_cons_self
    have hkind : c.isDigit = true ∨ isSign c = true := by
      have := hnum c hmem
      simpa [isNumeric, hspace] using this
    rw [← Bool.not_eq_true, f.scanInt_fst_isSome, f.scanInt_snd]
    cases hsign : isSign c with
    | false =>
      -- a number without a sign
      have hdigit : c.isDigit = true := by simpa [hsign] using hkind
      right
      rw [File.readSign_of_not_sign _ hskip hsign]
      refine ⟨?_, by simp [hskip, hdigit]⟩
      show items (c :: rest) = .number :: items ((f.skip isSpace).rest.dropWhile Char.isDigit)
      rw [hskip, List.dropWhile_cons_of_pos hdigit, ← itemsFrom_true, items, itemsFrom,
        if_pos hdigit, if_neg Bool.false_ne_true]
    | true =>
      have hdigit : c.isDigit = false := by
        by_contra hdigit
        have := not_isSign_of_isDigit (Bool.eq_true_of_not_eq_false hdigit)
        rw [hsign] at this
        cases this
      rw [File.readSign_of_sign _ hskip hsign]
      show (items (c :: rest) = .sign :: items ((f.skip isSpace).rest.tail.dropWhile Char.isDigit) ∧
          ¬ (f.skip isSpace).rest.tail.takeWhile Char.isDigit ≠ []) ∨
        (items (c :: rest) = .number :: items ((f.skip isSpace).rest.tail.dropWhile Char.isDigit) ∧
          (f.skip isSpace).rest.tail.takeWhile Char.isDigit ≠ [])
      rw [hskip, List.tail_cons, ← itemsFrom_true, items, itemsFrom, hdigit,
        if_neg Bool.false_ne_true, if_pos hsign]
      cases rest with
      | nil => exact Or.inl ⟨rfl, by simp⟩
      | cons d rest =>
        cases hd : d.isDigit with
        | true => exact Or.inr ⟨by simp [hd], by simp [hd]⟩
        | false =>
          refine Or.inl ⟨?_, by simp [hd]⟩
          simp [itemsFrom, hd]

end

/-! ### What a call of `fscanf` does -/

/-- How many of `k` conversions take a number, and the items behind them. -/
def takeNumbers : ℕ → List Item → ℕ × List Item
  | 0, is => (0, is)
  | _ + 1, [] => (0, [])
  | _ + 1, .sign :: is => (0, is)
  | k + 1, .number :: is => ((takeNumbers k is).1 + 1, (takeNumbers k is).2)

section
variable (format : List Directive) {f : File}

/-- `fscanf` stops at a conversion that fails. -/
theorem fscanf_int_of_none (h : f.scanInt.1 = none) :
    fscanf (.int :: format) f = ([], f.scanInt.2) := by
  have hscan : f.scanInt = (none, f.scanInt.2) := Prod.ext h rfl
  rw [fscanf, hscan]

theorem fscanf_int_of_some {value : ℤ} (h : f.scanInt.1 = some value) :
    fscanf (.int :: format) f =
      (value :: (fscanf format f.scanInt.2).1, (fscanf format f.scanInt.2).2) := by
  have hscan : f.scanInt = (some value, f.scanInt.2) := Prod.ext h rfl
  rw [fscanf, hscan]

theorem fscanf_rest_suffix (f : File) : (fscanf format f).2.rest <:+ f.rest := by
  induction format generalizing f with
  | nil => exact List.suffix_refl f.rest
  | cons d format ih =>
    cases d with
    | space => exact (ih (f.skip isSpace)).trans (f.skip_rest_suffix isSpace)
    | int =>
      cases hvalue : f.scanInt.1 with
      | none =>
        rw [fscanf_int_of_none format hvalue]
        exact f.scanInt_rest_suffix
      | some value =>
        rw [fscanf_int_of_some format hvalue]
        exact (ih f.scanInt.2).trans f.scanInt_rest_suffix

variable (hnum : ∀ c ∈ f.rest, isNumeric c = true)

include hnum

theorem fscanf_items :
    (fscanf format f).1.length = (takeNumbers (format.count .int) (items f.rest)).1 ∧
      items (fscanf format f).2.rest = (takeNumbers (format.count .int) (items f.rest)).2 := by
  induction format generalizing f with
  | nil => exact ⟨rfl, rfl⟩
  | cons d format ih =>
    cases d with
    | space =>
      have hskip : items (f.skip isSpace).rest = items f.rest := items_dropWhile_isSpace f.rest
      rw [List.count_cons_of_ne (by decide), ← hskip]
      exact ih fun c hc => hnum c ((f.skip_rest_suffix isSpace).subset hc)
    | int =>
      rw [List.count_cons_self]
      have hcases := f.scanInt_cases hnum
      cases hvalue : f.scanInt.1 with
      | none =>
        rw [fscanf_int_of_none format hvalue]
        rw [hvalue] at hcases
        rcases hcases with ⟨hitems, -, hrest, -⟩ | ⟨hitems, -⟩ | ⟨-, hsome⟩
        · rw [hitems]
          exact ⟨rfl, hrest⟩
        · rw [hitems]
          exact ⟨rfl, rfl⟩
        · cases hsome
      | some value =>
        rw [fscanf_int_of_some format hvalue]
        rw [hvalue] at hcases
        rcases hcases with ⟨-, hnone, -⟩ | ⟨-, hnone⟩ | ⟨hitems, -⟩
        · cases hnone
        · cases hnone
        · obtain ⟨hlength, hbehind⟩ :=
            ih fun c hc => hnum c (f.scanInt_rest_suffix.subset hc)
          rw [hitems]
          exact ⟨congrArg (· + 1) hlength, hbehind⟩

/-- A conversion without an item in front of it meets the end of the file. -/
theorem fscanf_eof_of_items_nil (hitems : items f.rest = []) :
    feof (fscanf (.int :: format) f).2 = true := by
  have hcases := f.scanInt_cases hnum
  rw [hitems] at hcases
  rcases hcases with ⟨-, hnone, -, heof⟩ | ⟨hsign, -⟩ | ⟨hnumber, -⟩
  · have hvalue : f.scanInt.1 = none := by simpa using hnone
    rw [fscanf_int_of_none format hvalue]
    exact heof
  · cases hsign
  · cases hnumber

end

/-! ### Bytes that no directive reads -/

theorem feof_eq_false_of_mem {f : File} {c : Char} (h : c ∈ f.rest) : feof f = false := by
  by_contra heof
  rw [f.rest_of_eof (Bool.eq_true_of_not_eq_false heof)] at h
  cases h

theorem File.mem_skip {f : File} {c : Char} {p : Char → Bool} (h : c ∈ f.rest)
    (hp : p c = false) : c ∈ (f.skip p).rest := by
  rw [← List.takeWhile_append_dropWhile (p := p) (l := f.rest)] at h
  rcases List.mem_append.mp h with htaken | hleft
  · have := List.mem_takeWhile_imp htaken
    rw [hp] at this
    cases this
  · exact hleft

theorem File.mem_scanInt {f : File} {c : Char} (h : c ∈ f.rest) (hc : isNumeric c = false) :
    c ∈ f.scanInt.2.rest := by
  obtain ⟨⟨hspace, hdigit⟩, hsign⟩ : (isSpace c = false ∧ c.isDigit = false) ∧
      isSign c = false := by
    simpa [isNumeric] using hc
  rw [f.scanInt_snd]
  refine File.mem_skip ?_ hdigit
  have hskip := File.mem_skip h hspace
  cases hrest : (f.skip isSpace).rest with
  | nil =>
    rw [hrest] at hskip
    cases hskip
  | cons d rest =>
    cases hd : isSign d with
    | false =>
      rw [File.readSign_of_not_sign _ hrest hd]
      exact hskip
    | true =>
      rw [File.readSign_of_sign _ hrest hd]
      show c ∈ (f.skip isSpace).rest.tail
      rw [hrest] at hskip ⊢
      rcases List.mem_cons.mp hskip with rfl | hmem
      · rw [hsign] at hd
        cases hd
      · exact hmem

/-- Such a byte stays in front of the file's end. -/
theorem mem_fscanf (format : List Directive) {f : File} {c : Char} (h : c ∈ f.rest)
    (hc : isNumeric c = false) : c ∈ (fscanf format f).2.rest := by
  induction format generalizing f with
  | nil => exact h
  | cons d format ih =>
    cases d with
    | space =>
      refine ih (File.mem_skip h ?_)
      by_contra hspace
      simp [isNumeric, hspace] at hc
    | int =>
      have hscan := File.mem_scanInt h hc
      cases hvalue : f.scanInt.1 with
      | none =>
        rw [fscanf_int_of_none format hvalue]
        exact hscan
      | some value =>
        rw [fscanf_int_of_some format hvalue]
        exact ih hscan

end OsLabs.Lib
