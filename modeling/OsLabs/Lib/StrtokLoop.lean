import OsLabs.Lib.Strtok

/-!
# Loops that call `strtok`

`while (tok && count < limit) { entry[count++] = f(tok); tok = strtok(NULL, delim); }`.  The call
behind the last entry is made in any case.  Entries may be copies of the tokens, or their
addresses, for which the pieces of the string are still in the buffer when the loop has ended.
-/

namespace OsLabs.Lib

variable {β : Type*}

/-- The entries, and the memory behind the loop; `entry mem p` is the entry for a token at `p`. -/
def strtokLoop (delim : Char → Bool) (entry : List Char → ℕ → β) :
    ℕ → Strtok → List β × List Char
  | 0, s => ([], s.mem)
  | limit + 1, s =>
    match s.token with
    | none => ([], s.mem)
    | some p =>
      let (entries, mem) := strtokLoop delim entry limit (strtok delim s.mem s.save)
      (entry s.mem p :: entries, mem)

section

variable {delim : Char → Bool} {s : Strtok}

theorem strtokLoop_of_none (hnone : s.token = none) (entry : List Char → ℕ → β) (limit : ℕ) :
    strtokLoop delim entry limit s = ([], s.mem) := by
  cases limit with
  | zero => rfl
  | succ limit => rw [strtokLoop, hnone]

theorem strtokLoop_of_some {p : ℕ} (hsome : s.token = some p) (entry : List Char → ℕ → β)
    (limit : ℕ) :
    strtokLoop delim entry (limit + 1) s =
      (entry s.mem p :: (strtokLoop delim entry limit (strtok delim s.mem s.save)).1,
        (strtokLoop delim entry limit (strtok delim s.mem s.save)).2) := by
  rw [strtokLoop, hsome]

/-- Entries made of the tokens as they are found, and the bytes around the string. -/
theorem strtokLoop_remaining {before back : List Char} {n : ℕ} {toks : List (List Char)}
    (hstring : s.string = toks.head?)
    (hrest : RemainingIn before n back delim s.mem s.save toks.tail) (copy : List Char → β)
    (limit : ℕ) :
    (strtokLoop delim (fun mem p => copy (stringAt mem p)) limit s).1 =
        (toks.take limit).map copy ∧
      ∃ text, text.length = n ∧
        (strtokLoop delim (fun mem p => copy (stringAt mem p)) limit s).2 =
          before ++ (text ++ NUL :: back) := by
  have hmem : ∃ text, text.length = n ∧ s.mem = before ++ (text ++ NUL :: back) := by
    obtain ⟨done, rest, hlength, -, hmem, -⟩ := hrest
    exact ⟨done ++ rest, hlength, by rw [hmem, List.append_assoc]⟩
  induction limit generalizing s toks with
  | zero => exact ⟨rfl, hmem⟩
  | succ limit ih =>
    cases htoken : s.token with
    | none =>
      rw [strtokLoop_of_none htoken]
      rw [Strtok.string, htoken] at hstring
      rw [List.head?_eq_none_iff.mp hstring.symm]
      exact ⟨rfl, hmem⟩
    | some p =>
      rw [strtokLoop_of_some htoken]
      rw [Strtok.string, htoken] at hstring
      obtain ⟨toks, rfl⟩ := List.head?_eq_some_iff.mp hstring.symm
      obtain ⟨hstring', hrest'⟩ := hrest.strtok
      have hmem' : ∃ text, text.length = n ∧
          (strtok delim s.mem s.save).mem = before ++ (text ++ NUL :: back) := by
        obtain ⟨done, rest, hlength, -, hmem, -⟩ := hrest'
        exact ⟨done ++ rest, hlength, by rw [hmem, List.append_assoc]⟩
      obtain ⟨hentries, htext⟩ := ih hstring' hrest' hmem'
      exact ⟨by rw [hentries]; rfl, htext⟩

end

/-- A string cut into copies: the fields up to the limit, and nothing changes around it. -/
theorem strtokLoop_copies {text : List Char} (htext : NUL ∉ text) (delim : Char → Bool)
    (before back : List Char) (copy : List Char → β) (limit : ℕ) :
    ∃ text', text'.length = text.length ∧
      strtokLoop delim (fun mem p => copy (stringAt mem p)) limit
          (strtok delim (before ++ (text ++ NUL :: back)) before.length) =
        (((fields delim text).take limit).map copy, before ++ (text' ++ NUL :: back)) := by
  obtain ⟨hstring, hrest⟩ := (remainingIn_start htext delim before back).strtok
  obtain ⟨hentries, text', hlength, hmem⟩ := strtokLoop_remaining hstring hrest copy limit
  exact ⟨text', hlength, Prod.ext hentries hmem⟩

/-! ### Pieces -/

/-- Strings at the addresses, in their order, each in front of the next; `base` is the address at
which the bytes stand. -/
inductive Pieces : List Char → ℕ → List ℕ → List (List Char) → Prop
  | nil (mem : List Char) (base : ℕ) : Pieces mem base [] []
  | cons {tok mem : List Char} {base : ℕ} {ps : List ℕ} {toks : List (List Char)}
      (gap : List Char) (hnul : NUL ∉ tok)
      (hrest : Pieces mem (base + gap.length + tok.length + 1) ps toks) :
      Pieces (gap ++ (tok ++ NUL :: mem)) base ((base + gap.length) :: ps) (tok :: toks)

/-- **Addresses of the tokens.**  A string cut into pieces in place: behind the loop they are the
fields up to the limit, and the bytes in front of the string have not changed. -/
theorem strtokLoop_pieces {text : List Char} (htext : NUL ∉ text) (delim : Char → Bool)
    (before back : List Char) (limit : ℕ) :
    ∃ ps mem, strtokLoop delim (fun _ p => p) limit
        (strtok delim (before ++ (text ++ NUL :: back)) before.length) = (ps, before ++ mem) ∧
      Pieces mem before.length ps ((fields delim text).take limit) := by
  induction limit generalizing text before back with
  | zero =>
    obtain ⟨done, rest, -, -, hmem, -⟩ := (remainingIn_start htext delim before back).strtok.2
    exact ⟨[], _, Prod.ext rfl hmem, .nil _ _⟩
  | succ limit ih =>
    cases hfields : fields delim text with
    | nil =>
      rw [strtok_of_fields_nil htext hfields, strtokLoop_of_none rfl]
      exact ⟨[], _, rfl, .nil _ _⟩
    | cons tok toks =>
      obtain ⟨mem, save, front, rest, hstrtok, hcut, hrest⟩ :=
        strtok_of_fields_cons htext hfields before back
      have hnul := hcut.nul_notMem_tok
      have hnul' := hcut.nul_notMem_rest
      obtain ⟨gap, back', hgap, hmem, hsave⟩ := hcut.exists_gap
      obtain ⟨ps, mem', hloop, hpieces⟩ := ih hnul' (before ++ front ++ (tok ++ gap)) back'
      rw [hstrtok, strtokLoop_of_some rfl]
      dsimp only
      rw [hmem, hsave, hloop]
      obtain rfl | ⟨rfl, rfl⟩ := hgap
      · refine ⟨_, front ++ (tok ++ NUL :: mem'), Prod.ext rfl ?_, ?_⟩
        · simp only [List.append_assoc, List.cons_append, List.nil_append]
        · rw [hrest] at hpieces
          refine .cons front hnul ?_
          simpa only [List.length_append, List.length_singleton, Nat.add_assoc] using hpieces
      · -- the last field: the call behind it has found nothing
        rw [fields_nil] at hrest
        rw [strtok_of_fields_nil hnul' fields_nil, strtokLoop_of_none rfl] at hloop
        obtain ⟨rfl, hmem'⟩ := Prod.ext_iff.mp hloop
        have hnil : Pieces back' (before.length + front.length + tok.length + 1) []
            (toks.take limit) := by
          rw [← hrest, List.take_nil]
          exact .nil _ _
        refine ⟨_, front ++ (tok ++ NUL :: back'), Prod.ext rfl ?_, .cons front hnul hnil⟩
        rw [← hmem']
        simp only [List.append_assoc, List.nil_append]

end OsLabs.Lib
