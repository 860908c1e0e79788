import OsLabs.Lib.Decimal
import OsLabs.Lib.Scanf
import OsLabs.Lib.Spans

/-!
# Reading back what was printed

`%d` reads an integer back from its decimal text, and a format of `%d` directives reads back a
line of such texts.  Behind a number or behind white space the end of the file has been met
exactly if nothing is left.
-/

namespace OsLabs.Lib

/-- The file read up to a byte that had to be looked at. -/
def fileAt (rest : List Char) : File where
  rest := rest
  eof := rest.isEmpty
  rest_of_eof := List.isEmpty_iff.mp

theorem File.ext_fields {f g : File} (hrest : f.rest = g.rest) (heof : f.eof = g.eof) : f = g := by
  cases f
  cases g
  cases hrest
  cases heof
  rfl

@[simp] theorem feof_fileAt (rest : List Char) : feof (fileAt rest) = rest.isEmpty := rfl

/-- What stops the digits of a number. -/
def NoDigitFirst (rest : List Char) : Prop := ∀ c ∈ rest.head?, c.isDigit = false

/-- What stops white space. -/
def NoSpaceFirst (rest : List Char) : Prop := ∀ c ∈ rest.head?, isSpace c = false

/-- Skipping bytes up to one that stays. -/
theorem File.skip_eq_fileAt {f : File} {p : Char → Bool} {front rest : List Char}
    (hf : f.rest = front ++ rest) (heof : f.eof = true → rest = [])
    (hfront : ∀ c ∈ front, p c = true) (hrest : ∀ c ∈ rest.head?, p c = false) :
    f.skip p = fileAt rest := by
  refine File.ext_fields ?_ ?_
  · show f.rest.dropWhile p = rest
    rw [hf, dropWhile_append_of_all hfront hrest]
  · show (f.eof || f.rest.all p) = rest.isEmpty
    rw [hf, all_append_of_all hfront hrest]
    cases hcase : f.eof with
    | false => rfl
    | true =>
      rw [heof hcase]
      rfl

/-! ### One number -/

theorem decimal_cons (z : ℤ) :
    ∃ sign digits, decimal z = sign ++ digits ∧ digits ≠ [] ∧ (∀ c ∈ digits, c.isDigit = true) ∧
      (sign = [] ∧ signedValue none digits = z ∨
        sign = ['-'] ∧ signedValue (some '-') digits = z) := by
  have hdigits : ∀ c ∈ Nat.toDigits 10 z.natAbs, c.isDigit = true :=
    fun c hc => Nat.isDigit_of_mem_toDigits (by decide) (by decide) hc
  have hne : Nat.toDigits 10 z.natAbs ≠ [] := Nat.toDigits_ne_nil
  have hvalue : Nat.ofDigitChars 10 (Nat.toDigits 10 z.natAbs) 0 = z.natAbs :=
    Nat.ofDigitChars_ten_toDigits
  unfold decimal
  split
  · refine ⟨['-'], Nat.toDigits 10 z.natAbs, rfl, hne, hdigits, Or.inr ⟨rfl, ?_⟩⟩
    rw [signedValue, if_pos rfl, hvalue]
    omega
  · refine ⟨[], Nat.toDigits 10 z.natAbs, rfl, hne, hdigits, Or.inl ⟨rfl, ?_⟩⟩
    rw [signedValue, if_neg (by decide), hvalue]
    omega

theorem decimal_ne_nil (z : ℤ) : decimal z ≠ [] := by
  obtain ⟨sign, digits, hz, hne, -⟩ := decimal_cons z
  rw [hz]
  exact List.append_ne_nil_of_right_ne_nil sign hne

theorem noSpaceFirst_decimal_append (z : ℤ) (rest : List Char) :
    NoSpaceFirst (decimal z ++ rest) := by
  have hnumeric : ∀ c ∈ decimal z, isSpace c = false := by
    obtain ⟨sign, digits, hz, -, hdigits, hsign⟩ := decimal_cons z
    intro c hc
    rw [hz] at hc
    rcases List.mem_append.mp hc with hc | hc
    · rcases hsign with ⟨rfl, -⟩ | ⟨rfl, -⟩
      · cases hc
      · rw [List.mem_singleton.mp hc]
        rfl
    · by_contra hspace
      have := not_isDigit_of_isSpace (Bool.eq_true_of_not_eq_false hspace)
      rw [hdigits c hc] at this
      cases this
  intro c hc
  cases hz : decimal z with
  | nil => exact absurd hz (decimal_ne_nil z)
  | cons d ds =>
    rw [hz] at hc
    obtain rfl : d = c := Option.mem_some_iff.mp hc
    exact hnumeric d (by rw [hz]; exact List.mem_cons_self)

theorem File.scanInt_of_readSign {f g : File} {sign : Option Char} {digits rest : List Char}
    (hread : (f.skip isSpace).readSign = (sign, g)) (hg : g.rest = digits ++ rest)
    (hne : digits ≠ []) (hdigits : ∀ c ∈ digits, c.isDigit = true) (hrest : NoDigitFirst rest) :
    f.scanInt = (some (signedValue sign digits), fileAt rest) := by
  have htake : g.rest.takeWhile Char.isDigit = digits := by
    rw [hg, takeWhile_append_of_all hdigits hrest]
  have hskip : g.skip Char.isDigit = fileAt rest := by
    refine File.skip_eq_fileAt hg (fun heof => ?_) hdigits hrest
    have hnil := g.rest_of_eof heof
    rw [hg] at hnil
    exact (List.append_eq_nil_iff.mp hnil).2
  rw [File.scanInt, hread]
  dsimp only
  rw [htake, if_neg hne, hskip]

/-- `%d` reads a number back. -/
theorem File.scanInt_decimal {f : File} {z : ℤ} {rest : List Char}
    (hf : f.rest = decimal z ++ rest) (hrest : NoDigitFirst rest) :
    f.scanInt = (some z, fileAt rest) := by
  have hskip : f.skip isSpace = fileAt f.rest :=
    File.skip_eq_fileAt (List.nil_append f.rest).symm f.rest_of_eof nofun
      (hf ▸ noSpaceFirst_decimal_append z rest)
  obtain ⟨sign, digits, hz, hne, hdigits, hsign⟩ := decimal_cons z
  rw [hz, List.append_assoc] at hf
  rcases hsign with ⟨rfl, hvalue⟩ | ⟨rfl, hvalue⟩
  · rw [List.nil_append] at hf
    obtain ⟨d, ds, rfl⟩ := List.exists_cons_of_ne_nil hne
    have hnot : isSign d = false := not_isSign_of_isDigit (hdigits d List.mem_cons_self)
    have hread : (f.skip isSpace).readSign = (none, fileAt f.rest) := by
      have hfirst : (fileAt f.rest).rest = d :: (ds ++ rest) := hf
      rw [hskip, File.readSign_of_not_sign _ hfirst hnot]
    rw [File.scanInt_of_readSign hread hf hne hdigits hrest, hvalue]
  · have hread : (f.skip isSpace).readSign = (some '-', (fileAt f.rest).tail) := by
      have hfirst : (fileAt f.rest).rest = '-' :: (digits ++ rest) := hf
      rw [hskip, File.readSign_of_sign _ hfirst rfl]
    have htail : (fileAt f.rest).tail.rest = digits ++ rest := by
      show f.rest.tail = digits ++ rest
      rw [hf]
      rfl
    rw [File.scanInt_of_readSign hread htail hne hdigits hrest, hvalue]

/-! ### A line of numbers -/

/-- The numbers with single spaces between them. -/
def numberLine : List ℤ → List Char
  | [] => []
  | [z] => decimal z
  | z :: zs => decimal z ++ ' ' :: numberLine zs

/-- A `%d` for each number, and white space behind each. -/
def numberFormat (k : ℕ) : List Directive := (List.replicate k [Directive.int, .space]).flatten

theorem noSpaceFirst_numberLine_append (z : ℤ) (zs : List ℤ) (rest : List Char) :
    NoSpaceFirst (numberLine (z :: zs) ++ rest) := by
  cases zs with
  | nil => exact noSpaceFirst_decimal_append z rest
  | cons z' zs =>
    rw [numberLine, List.append_assoc]
    · exact noSpaceFirst_decimal_append z _
    · exact List.cons_ne_nil z' zs

/-- A number and the white space behind it. -/
theorem fscanf_int_space {f : File} {z : ℤ} {blank rest : List Char}
    (hf : f.rest = decimal z ++ (blank ++ rest)) (hblank : ∀ c ∈ blank, isSpace c = true)
    (hsplit : blank = [] → rest = []) (hrest : NoSpaceFirst rest) (format : List Directive) :
    fscanf (.int :: .space :: format) f =
      (z :: (fscanf format (fileAt rest)).1, (fscanf format (fileAt rest)).2) := by
  have hstop : NoDigitFirst (blank ++ rest) := by
    intro c hc
    cases blank with
    | nil =>
      rw [hsplit rfl] at hc
      cases hc
    | cons d ds =>
      obtain rfl : d = c := Option.mem_some_iff.mp hc
      exact not_isDigit_of_isSpace (hblank d List.mem_cons_self)
  have hscan := File.scanInt_decimal hf hstop
  have hskip : (fileAt (blank ++ rest)).skip isSpace = fileAt rest := by
    refine File.skip_eq_fileAt rfl (fun heof => ?_) hblank hrest
    exact (List.append_eq_nil_iff.mp (List.isEmpty_iff.mp heof)).2
  rw [fscanf_int_of_some _ (congrArg Prod.fst hscan), hscan, fscanf, hskip]

/-- A format of `%d` directives reads a line back, with the white space behind it. -/
theorem fscanf_numberLine {f : File} {zs : List ℤ} (hzs : zs ≠ []) {blank rest : List Char}
    (hf : f.rest = numberLine zs ++ (blank ++ rest)) (hblank : ∀ c ∈ blank, isSpace c = true)
    (hsplit : blank = [] → rest = []) (hrest : NoSpaceFirst rest) :
    fscanf (numberFormat zs.length) f = (zs, fileAt rest) := by
  induction zs generalizing f with
  | nil => exact absurd rfl hzs
  | cons z zs ih =>
    have hformat : numberFormat (zs.length + 1) = .int :: .space :: numberFormat zs.length := rfl
    rw [List.length_cons, hformat]
    cases zs with
    | nil =>
      rw [fscanf_int_space hf hblank hsplit hrest]
      rfl
    | cons z' zs =>
      have hline : f.rest = decimal z ++ ([' '] ++ (numberLine (z' :: zs) ++ (blank ++ rest))) := by
        rw [hf, numberLine]
        · simp only [List.append_assoc, List.cons_append, List.nil_append]
        · exact List.cons_ne_nil z' zs
      have hspace : ∀ c ∈ [' '], isSpace c = true := by
        intro c hc
        rw [List.mem_singleton.mp hc]
        rfl
      rw [fscanf_int_space hline hspace (fun h => absurd h (List.cons_ne_nil _ _))
        (noSpaceFirst_numberLine_append z' zs _)]
      have hnext := ih (f := fileAt (numberLine (z' :: zs) ++ (blank ++ rest)))
        (List.cons_ne_nil z' zs) rfl
      rw [hnext]

end OsLabs.Lib
