import OsLabs.Lib.Strtok

/-!
# Words and lines of a text

A text made of words with one delimiter between two of them has these words as its fields.
`fgets` reads a text line by line, with the newline, or in parts where a line is too long for
the array.
-/

namespace OsLabs.Lib

/-! ### Words -/

/-- Joining and cutting up are inverse. -/
theorem fields_intercalate {delim : Char → Bool} {sep : Char} (hsep : delim sep = true)
    {toks : List (List Char)} (htoks : ∀ tok ∈ toks, tok ≠ [] ∧ ∀ c ∈ tok, delim c = false) :
    fields delim ([sep].intercalate toks) = toks := by
  induction toks with
  | nil => exact fields_nil
  | cons tok toks ih =>
    obtain ⟨⟨hne, hplain⟩, hrest⟩ := List.forall_mem_cons.mp htoks
    cases toks with
    | nil =>
      rw [List.intercalate_singleton]
      exact fields_of_no_delim hplain hne
    | cons next toks =>
      rw [List.intercalate_cons_cons, List.append_assoc, List.singleton_append,
        fields_append_cons tok _ hsep, fields_of_no_delim hplain hne, ih hrest]
      rfl

theorem mem_intercalate {sep c : Char} {toks : List (List Char)}
    (hc : c ∈ [sep].intercalate toks) : c = sep ∨ ∃ tok ∈ toks, c ∈ tok := by
  induction toks with
  | nil => cases hc
  | cons tok toks ih =>
    cases toks with
    | nil =>
      rw [List.intercalate_singleton] at hc
      exact Or.inr ⟨tok, List.mem_cons_self, hc⟩
    | cons next toks =>
      rw [List.intercalate_cons_cons, List.append_assoc, List.mem_append] at hc
      obtain hc | hc := hc
      · exact Or.inr ⟨tok, List.mem_cons_self, hc⟩
      obtain rfl | hc := List.mem_cons.mp hc
      · exact Or.inl rfl
      obtain hsep | ⟨tok', htok', hc'⟩ := ih hc
      · exact Or.inl hsep
      · exact Or.inr ⟨tok', List.mem_cons_of_mem tok htok', hc'⟩

theorem intercalate_ne_nil {sep : Char} {toks : List (List Char)} (hne : toks ≠ [])
    (htoks : ∀ tok ∈ toks, tok ≠ []) : [sep].intercalate toks ≠ [] := by
  cases toks with
  | nil => exact absurd rfl hne
  | cons tok toks =>
    have htok := htoks tok List.mem_cons_self
    cases toks with
    | nil => rwa [List.intercalate_singleton]
    | cons next toks =>
      rw [List.intercalate_cons_cons, List.append_assoc]
      exact List.append_ne_nil_of_left_ne_nil htok _

/-! ### Lines -/

/-- The bytes up to a newline, but at most `limit` of them, and what is behind. -/
def readLine : ℕ → List Char → List Char × List Char
  | 0, stdin => ([], stdin)
  | _ + 1, [] => ([], [])
  | limit + 1, c :: stdin =>
    if c = '\n' then ([c], stdin)
    else
      let (line, rest) := readLine limit stdin
      (c :: line, rest)

theorem length_readLine_le (limit : ℕ) (stdin : List Char) :
    (readLine limit stdin).1.length ≤ limit := by
  induction limit generalizing stdin with
  | zero => exact le_rfl
  | succ limit ih =>
    cases stdin with
    | nil => exact Nat.zero_le _
    | cons c stdin =>
      rw [readLine]
      split_ifs
      · exact Nat.succ_le_succ (Nat.zero_le limit)
      · exact Nat.succ_le_succ (ih stdin)

theorem readLine_ne_nil (limit : ℕ) {stdin : List Char} (hne : stdin ≠ []) :
    (readLine (limit + 1) stdin).1 ≠ [] := by
  cases stdin with
  | nil => exact absurd rfl hne
  | cons c stdin =>
    rw [readLine]
    split_ifs
    · exact List.cons_ne_nil _ _
    · exact List.cons_ne_nil _ _

/-- A newline can only be the last byte. -/
theorem newline_notMem_dropLast (limit : ℕ) (stdin : List Char) :
    '\n' ∉ (readLine limit stdin).1.dropLast := by
  induction limit generalizing stdin with
  | zero => exact List.not_mem_nil
  | succ limit ih =>
    cases stdin with
    | nil => exact List.not_mem_nil
    | cons c stdin =>
      rw [readLine]
      split_ifs with hc
      · exact List.not_mem_nil
      · dsimp only
        cases hline : (readLine limit stdin).1 with
        | nil => exact List.not_mem_nil
        | cons d line =>
          have hrest := ih stdin
          rw [hline] at hrest
          rw [List.dropLast_cons_cons, List.mem_cons, not_or]
          exact ⟨Ne.symm hc, hrest⟩

/-- A line that fits is read whole. -/
theorem readLine_line {text : List Char} (htext : '\n' ∉ text) {limit : ℕ}
    (hlimit : text.length < limit) (rest : List Char) :
    readLine limit (text ++ '\n' :: rest) = (text ++ ['\n'], rest) := by
  induction text generalizing limit with
  | nil =>
    obtain ⟨limit, rfl⟩ := Nat.exists_eq_succ_of_ne_zero (Nat.ne_zero_of_lt hlimit)
    rfl
  | cons c text ih =>
    obtain ⟨limit, rfl⟩ := Nat.exists_eq_succ_of_ne_zero (Nat.ne_zero_of_lt hlimit)
    rw [List.mem_cons, not_or] at htext
    have hline := ih htext.2 (Nat.lt_of_succ_lt_succ hlimit)
    rw [List.cons_append, readLine, if_neg (Ne.symm htext.1), hline]
    rfl

end OsLabs.Lib
