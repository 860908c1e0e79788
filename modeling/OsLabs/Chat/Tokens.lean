import OsLabs.Chat.List
import OsLabs.Lib.Scanf
import OsLabs.Lib.Strtok
import OsLabs.Lib.WhileLoop
import Mathlib.Data.List.DropRight

/-!
# Chat server: the tokens of a command

`client_receive` cuts the message into tokens in place: it looks for the next token, and then it
trims the one before, which ends in front of it.  The array has room for 79 tokens and the `NULL`
behind them, the message is a C string, which ends at its first `NUL`, and the `strcpy` that trims
a token must not copy between strings that overlap.
-/

namespace OsLabs.Chat

open OsLabs.Lib

/-- `MAXBUFF` of `server.h`. -/
def MAXBUFF : ℕ := 2096

/-! ### Trimming -/

/-- What `trimwhitespace` leaves of a string; the loop from the end stops at the first byte. -/
def trimwhitespace (str : CString) : CString :=
  match str.dropWhile isSpace with
  | [] => []
  | c :: rest => c :: rest.rdropWhile isSpace

/-- `trimwhitespace(str)`: the memory, with a `NUL` behind the last byte that is kept, and the
address of the first one. -/
def trimwhitespaceAt (mem : List Char) (str : ℕ) : List Char × ℕ :=
  let text := stringAt mem str
  let first := str + (text.takeWhile isSpace).length
  if text.dropWhile isSpace = [] then (mem, first)
  else (mem.set (first + (trimwhitespace text).length) NUL, first)

/-- `strcpy(p, trimwhitespace(p))` -/
def trimInPlace (mem : List Char) (p : ℕ) : Option (List Char) :=
  let (mem, first) := trimwhitespaceAt mem p
  strcpy mem p first

/-- A string without the white space at its ends. -/
def trimmed (text : CString) : CString := (text.dropWhile isSpace).rdropWhile isSpace

theorem trimwhitespace_eq (str : CString) : trimwhitespace str = trimmed str := by
  rw [trimwhitespace, trimmed]
  split
  · rename_i hnil
    rw [hnil]
    rfl
  · rename_i c rest hcons
    have hc : isSpace c = false := by
      have hstop := List.head?_dropWhile_not isSpace str
      rw [hcons] at hstop
      exact hstop
    rw [hcons]
    clear hcons
    induction rest using List.reverseRecOn with
    | nil =>
      have hkeep := List.rdropWhile_concat_neg isSpace [] c (by rw [hc]; exact Bool.false_ne_true)
      rw [List.rdropWhile_nil]
      exact hkeep.symm
    | append_singleton rest d ih =>
      rw [← List.cons_append]
      by_cases hd : isSpace d = true
      · rw [List.rdropWhile_concat_pos _ _ _ hd, List.rdropWhile_concat_pos _ _ _ hd, ih]
      · rw [List.rdropWhile_concat_neg _ _ _ hd, List.rdropWhile_concat_neg _ _ _ hd,
          List.cons_append]

/-! ### The loop -/

/-- `delimiters` -/
def isDelimiter (c : Char) : Bool := c = ' '

/-- The buffer, the address that `strtok` remembers, the entries of `arguments` in front of
`arguments[i]`, and this entry, with `none` for `NULL`. -/
structure TokenState where
  cmd : List Char
  save : ℕ
  arguments : List ℕ
  current : Option ℕ

/-- The guard of the loop. -/
def hasToken (s : TokenState) : Option Bool := some s.current.isSome

/-- The body of the loop; `none` is a store behind the 80 entries of `arguments`, or a copy between
strings that overlap. -/
def nextToken (s : TokenState) : Option TokenState :=
  match s.current with
  | none => some s
  | some p =>
    let next := strtok isDelimiter s.cmd s.save
    if s.arguments.length + 1 < 80 then
      (trimInPlace next.mem p).map fun cmd =>
        { cmd := cmd
          save := next.save
          arguments := s.arguments ++ [p]
          current := next.token }
    else none

/-- The string in a buffer that holds the bytes of a message: it ends at their first `NUL`. -/
def messageText (message : List Char) : CString := stringAt (message ++ [NUL]) 0

/-- `strcpy(cmd, buffer)` -/
def fillCmd (cmd : List Char) (buffer : CString) : List Char :=
  buffer ++ NUL :: cmd.drop (buffer.length + 1)

/-- The first call of `strtok`. -/
def firstToken (cmd : List Char) : TokenState :=
  let first := strtok isDelimiter cmd 0
  ⟨first.mem, first.save, [], first.token⟩

/-- The tokens of a message, with what was in `cmd` before; `none` if the loop does not end within
`fuel` iterations, or one of them fails. -/
def tokenize (fuel : ℕ) (cmd message : List Char) : Option TokenState :=
  whileLoopM hasToken nextToken fuel (firstToken (fillCmd cmd (messageText message)))

/-- The entries of `arguments` are the maximal runs of the message without a space, trimmed, and
then `NULL`. -/
def TokensExact (cmd message : List Char) : Prop :=
  ∃ fuel s, tokenize fuel cmd message = some s ∧ s.current = none ∧
    s.arguments.map (stringAt s.cmd) = (fields isDelimiter message).map trimmed

/-! ### Trimming in place -/

theorem trimwhitespace_split (tok : CString) :
    ∃ trail, tok = tok.takeWhile isSpace ++ (trimwhitespace tok ++ trail) := by
  rw [trimwhitespace_eq, trimmed]
  refine ⟨(tok.dropWhile isSpace).rtakeWhile isSpace, ?_⟩
  rw [List.rdropWhile_append_rtakeWhile, List.takeWhile_append_dropWhile]

theorem nul_notMem_trimwhitespace {tok : CString} (htok : NUL ∉ tok) :
    NUL ∉ trimwhitespace tok := by
  obtain ⟨trail, hsplit⟩ := trimwhitespace_split tok
  rw [hsplit] at htok
  exact fun hmem => htok (List.mem_append_right _ (List.mem_append_left _ hmem))

theorem trimwhitespaceAt_eq {tok : CString} (htok : NUL ∉ tok) (before back : List Char) :
    ∃ lead junk, lead.length = (tok.takeWhile isSpace).length ∧
      lead.length + (trimwhitespace tok).length + junk.length = tok.length ∧
      trimwhitespaceAt (before ++ (tok ++ NUL :: back)) before.length =
        (before ++ (lead ++ (trimwhitespace tok ++ NUL :: (junk ++ back))),
          before.length + lead.length) := by
  obtain ⟨trail, hsplit⟩ := trimwhitespace_split tok
  rw [trimwhitespaceAt, stringAt_append htok]
  by_cases hblank : tok.dropWhile isSpace = []
  · have htake : tok.takeWhile isSpace = tok :=
      List.takeWhile_eq_self_iff.mpr (List.dropWhile_eq_nil_iff.mp hblank)
    have hnil : trimwhitespace tok = [] := by
      rw [trimwhitespace_eq, trimmed, hblank]
      rfl
    refine ⟨tok, [], by rw [htake], ?_, ?_⟩
    · rw [hnil]
      rfl
    · rw [if_pos hblank, htake, hnil]
      rfl
  · obtain ⟨junk, hjunk, hset⟩ :=
      set_gap (before ++ (tok.takeWhile isSpace ++ trimwhitespace tok)) trail back NUL
    refine ⟨tok.takeWhile isSpace, junk, rfl, ?_, ?_⟩
    · have := congrArg List.length hsplit
      rw [List.length_append, List.length_append] at this
      omega
    · have hmem : before ++ (tok ++ NUL :: back) =
          before ++ (tok.takeWhile isSpace ++ trimwhitespace tok) ++ (trail ++ NUL :: back) := by
        nth_rewrite 1 [hsplit]
        simp only [List.append_assoc]
      have hend : before.length + (tok.takeWhile isSpace).length + (trimwhitespace tok).length =
          (before ++ (tok.takeWhile isSpace ++ trimwhitespace tok)).length := by
        rw [List.length_append, List.length_append, Nat.add_assoc]
      rw [if_neg hblank, hmem, hend, hset]
      simp only [List.append_assoc]

/-- The white space in front of a token, if there is any, is longer than what trimming leaves of
the token. -/
def TrimsApart (tok : CString) : Prop :=
  tok.takeWhile isSpace = [] ∨ (trimmed tok).length < (tok.takeWhile isSpace).length

/-- A token is trimmed where it stands: nothing before it changes, nor behind its `NUL`. -/
theorem trimInPlace_eq {tok : CString} (htok : NUL ∉ tok) (hapart : TrimsApart tok)
    (before back : List Char) :
    ∃ junk, junk.length + (trimwhitespace tok).length = tok.length ∧
      trimInPlace (before ++ (tok ++ NUL :: back)) before.length =
        some (before ++ (trimwhitespace tok ++ NUL :: (junk ++ back))) := by
  obtain ⟨lead, junk, hlead, hlength, htrim⟩ := trimwhitespaceAt_eq htok before back
  have hapart' : lead = [] ∨ (trimwhitespace tok).length < lead.length := by
    rw [trimwhitespace_eq, ← List.length_eq_zero_iff, hlead, List.length_eq_zero_iff]
    exact hapart
  obtain ⟨junk', hjunk, hcopy⟩ :=
    strcpy_forward (nul_notMem_trimwhitespace htok) hapart' before (junk ++ back)
  refine ⟨junk' ++ junk, ?_, ?_⟩
  · rw [List.length_append]
    omega
  · rw [trimInPlace, htrim]
    dsimp only
    rw [hcopy, List.append_assoc]

theorem trimInPlace_eq_none {tok : CString} (htok : NUL ∉ tok) (hover : ¬ TrimsApart tok)
    (before back : List Char) :
    trimInPlace (before ++ (tok ++ NUL :: back)) before.length = none := by
  obtain ⟨lead, junk, hlead, hlength, htrim⟩ := trimwhitespaceAt_eq htok before back
  unfold TrimsApart at hover
  push Not at hover
  obtain ⟨hne, hle⟩ := hover
  have hgap : lead ≠ [] := by
    rw [Ne, ← List.length_eq_zero_iff, hlead, List.length_eq_zero_iff]
    exact hne
  rw [trimInPlace, htrim]
  refine strcpy_overlap (nul_notMem_trimwhitespace htok) hgap ?_ before (junk ++ back)
  rw [hlead, trimwhitespace_eq]
  exact hle

/-! ### One iteration -/

/-- Trimming a token leaves the next one, and what `strtok` remembers, where they are. -/
theorem cutToken_trimInPlace {mem : List Char} {save : ℕ} {before tok front t rest : List Char}
    (htok : NUL ∉ tok) (hapart : TrimsApart tok)
    (h : CutToken mem save (before ++ (tok ++ [NUL]) ++ front) t rest) :
    ∃ mem' gap, trimInPlace mem before.length = some mem' ∧
      (before ++ (trimwhitespace tok ++ NUL :: gap)).length =
        (before ++ (tok ++ [NUL])).length + front.length ∧
      CutToken mem' save (before ++ (trimwhitespace tok ++ NUL :: gap)) t rest := by
  obtain ⟨gap, back, hgap, hmem, hsave⟩ := h.layout
  obtain ⟨junk, hjunk, htrim⟩ :=
    trimInPlace_eq htok hapart before (front ++ (t ++ (gap ++ (rest ++ NUL :: back))))
  have hlength : (before ++ (trimwhitespace tok ++ NUL :: (junk ++ front))).length =
      (before ++ (tok ++ [NUL])).length + front.length := by
    simp only [List.length_append, List.length_cons, List.length_nil]
    omega
  refine ⟨_, junk ++ front, ?_, hlength, ⟨gap, back, hgap, rfl, ?_⟩, h.nul_notMem_tok,
    h.nul_notMem_rest⟩
  · rw [hmem]
    simp only [List.append_assoc, List.cons_append, List.nil_append] at htrim ⊢
    rw [htrim]
  · rw [hsave]
    simp only [List.length_append] at hlength ⊢
    omega

/-- Between two iterations: `arguments[i]` is a token that `strtok` has cut off, and that is not
trimmed yet. -/
structure Pending (s : TokenState) (before tok rest : List Char) : Prop where
  current : s.current = some before.length
  cut : CutToken s.cmd s.save before tok rest

section Iteration

variable {s : TokenState} {before tok rest : List Char} (h : Pending s before tok rest)

include h

theorem hasToken_of_pending : hasToken s = some true := by
  rw [hasToken, h.current]
  rfl

/-- There is no room for the entry behind `arguments[79]`. -/
theorem nextToken_full (hfull : 80 ≤ s.arguments.length + 1) : nextToken s = none := by
  rw [nextToken, h.current]
  exact if_neg (Nat.not_lt.mpr hfull)

theorem nextToken_last (hroom : s.arguments.length + 1 < 80) (hapart : TrimsApart tok)
    (hfields : fields isDelimiter rest = []) :
    ∃ t back, nextToken s = some t ∧ t.cmd = before ++ (trimwhitespace tok ++ NUL :: back) ∧
      t.arguments = s.arguments ++ [before.length] ∧ t.current = none := by
  obtain ⟨gap, back, -, hmem, hsave⟩ := h.cut.exists_gap
  obtain ⟨back', hback⟩ := h.cut.exists_back
  have hnext := strtok_of_fields_nil h.cut.nul_notMem_rest hfields (before ++ (tok ++ gap)) back
  rw [← hmem, ← hsave] at hnext
  obtain ⟨junk, -, htrim⟩ := trimInPlace_eq h.cut.nul_notMem_tok hapart before back'
  rw [nextToken, h.current]
  dsimp only
  rw [if_pos hroom, hnext, hback, htrim]
  exact ⟨_, junk ++ back', rfl, rfl, rfl, rfl⟩

theorem nextToken_more {t : List Char} {toks : List (List Char)}
    (hroom : s.arguments.length + 1 < 80) (hapart : TrimsApart tok)
    (hfields : fields isDelimiter rest = t :: toks) :
    ∃ s' gap rest', nextToken s = some s' ∧ s'.arguments = s.arguments ++ [before.length] ∧
      Pending s' (before ++ (trimwhitespace tok ++ NUL :: gap)) t rest' ∧
      fields isDelimiter rest' = toks := by
  obtain ⟨gap, back, hgap, hmem, hsave⟩ := h.cut.exists_gap
  obtain rfl | ⟨-, rfl⟩ := hgap
  · obtain ⟨mem, save, front, rest', hnext, hcut, hrest⟩ := strtok_of_fields_cons
      h.cut.nul_notMem_rest hfields (before ++ (tok ++ [NUL])) back
    rw [← hmem, ← hsave] at hnext
    obtain ⟨mem', gap, htrim, hlength, hcut'⟩ :=
      cutToken_trimInPlace h.cut.nul_notMem_tok hapart hcut
    rw [nextToken, h.current]
    dsimp only
    rw [if_pos hroom, hnext]
    dsimp only
    rw [htrim]
    refine ⟨_, gap, rest', rfl, rfl, ⟨?_, hcut'⟩, hrest⟩
    rw [hlength, hsave]
  · rw [fields_nil] at hfields
    cases hfields

/-- The copy that trims the token has no defined behaviour. -/
theorem nextToken_overlap (hover : ¬ TrimsApart tok) : nextToken s = none := by
  obtain ⟨back, hback⟩ : ∃ back, (strtok isDelimiter s.cmd s.save).mem =
      before ++ (tok ++ NUL :: back) := by
    obtain ⟨gap, back, hgap, hmem, hsave⟩ := h.cut.exists_gap
    cases hfields : fields isDelimiter rest with
    | nil =>
      have hnext := strtok_of_fields_nil h.cut.nul_notMem_rest hfields (before ++ (tok ++ gap)) back
      rw [← hmem, ← hsave] at hnext
      rw [hnext]
      exact h.cut.exists_back
    | cons t toks =>
      obtain rfl | ⟨-, rfl⟩ := hgap
      · obtain ⟨mem, save, front, rest', hnext, hcut, -⟩ := strtok_of_fields_cons
          h.cut.nul_notMem_rest hfields (before ++ (tok ++ [NUL])) back
        rw [← hmem, ← hsave] at hnext
        obtain ⟨gap', back', -, hmem', -⟩ := hcut.layout
        rw [hnext, hmem']
        exact ⟨front ++ (t ++ (gap' ++ (rest' ++ NUL :: back'))), by
          simp only [List.append_assoc, List.cons_append, List.nil_append]⟩
      · rw [fields_nil] at hfields
        cases hfields
  rw [nextToken, h.current]
  dsimp only
  rw [hback, trimInPlace_eq_none h.cut.nul_notMem_tok hover, Option.map_none, ite_self]

end Iteration

/-! ### The whole loop -/

variable {s : TokenState} {before tok rest : List Char} {toks : List (List Char)}

/-- With room for all the tokens that are left, and for the `NULL` behind them, the loop ends with
an entry for each of them. -/
theorem exists_loop_of_pending (h : Pending s before tok rest)
    (hfields : fields isDelimiter rest = toks) (hroom : s.arguments.length + 1 + toks.length < 80)
    (hapart : ∀ f ∈ tok :: toks, TrimsApart f) :
    ∃ t back entries, whileLoopM hasToken nextToken (toks.length + 1) s = some t ∧
      t.cmd = before ++ back ∧ t.arguments = s.arguments ++ entries ∧ t.current = none ∧
      entries.map (stringAt t.cmd) = (tok :: toks).map trimmed := by
  induction toks generalizing s before tok rest with
  | nil =>
    obtain ⟨t, back, hnext, hcmd, harguments, hcurrent⟩ :=
      nextToken_last h (by simpa using hroom) (hapart tok List.mem_cons_self) hfields
    have hdone : hasToken t = some false := by
      rw [hasToken, hcurrent]
      rfl
    refine ⟨t, _, _, ?_, hcmd, harguments, hcurrent, ?_⟩
    · rw [whileLoopM_of_true (hasToken_of_pending h) hnext, whileLoopM_of_false hdone]
    · rw [List.map_singleton, hcmd,
        stringAt_append (nul_notMem_trimwhitespace h.cut.nul_notMem_tok), trimwhitespace_eq]
      rfl
  | cons tok' toks ih =>
    rw [List.length_cons] at hroom
    obtain ⟨s', gap, rest', hnext, harguments, h', hrest⟩ :=
      nextToken_more h (by omega) (hapart tok List.mem_cons_self) hfields
    have hroom' : s'.arguments.length + 1 + toks.length < 80 := by
      rw [harguments, List.length_append, List.length_singleton]
      omega
    obtain ⟨t, back, entries, hloop, hcmd, hentries, hcurrent, hstrings⟩ := ih h' hrest hroom'
      fun f hf => hapart f (List.mem_cons_of_mem tok hf)
    -- the entry of this iteration still holds its token when the loop ends
    have hfirst : stringAt t.cmd before.length = trimmed tok := by
      rw [hcmd, List.append_assoc, List.append_assoc, List.cons_append,
        stringAt_append (nul_notMem_trimwhitespace h.cut.nul_notMem_tok), trimwhitespace_eq]
    refine ⟨t, (trimwhitespace tok ++ NUL :: gap) ++ back, before.length :: entries, ?_, ?_, ?_,
      hcurrent, ?_⟩
    · rw [List.length_cons, whileLoopM_of_true (hasToken_of_pending h) hnext, hloop]
    · rw [hcmd, List.append_assoc]
    · rw [hentries, harguments, List.append_assoc]
      rfl
    · rw [List.map_cons, hstrings, hfirst]
      rfl

/-- Without that room the loop stores behind the array, and it copies between strings that overlap
at a token that does not allow to trim it. -/
theorem loop_eq_none_of_pending (h : Pending s before tok rest)
    (hfields : fields isDelimiter rest = toks)
    (hfails : 80 ≤ s.arguments.length + 1 + toks.length ∨ ∃ f ∈ tok :: toks, ¬ TrimsApart f)
    (fuel : ℕ) : whileLoopM hasToken nextToken fuel s = none := by
  induction fuel generalizing s before tok rest toks with
  | zero =>
    rw [whileLoopM, hasToken_of_pending h]
    rfl
  | succ fuel ih =>
    have hstops : nextToken s = none → whileLoopM hasToken nextToken (fuel + 1) s = none := by
      intro hnone
      rw [whileLoopM, hasToken_of_pending h, hnone]
      rfl
    by_cases hroom : s.arguments.length + 1 < 80
    · by_cases hapart : TrimsApart tok
      · cases toks with
        | nil =>
          rcases hfails with hfull | ⟨f, hf, hover⟩
          · rw [List.length_nil] at hfull
            omega
          · exact absurd (List.mem_singleton.mp hf ▸ hapart) hover
        | cons tok' toks =>
          obtain ⟨s', gap, rest', hnext, harguments, h', hrest⟩ :=
            nextToken_more h hroom hapart hfields
          rw [whileLoopM_of_true (hasToken_of_pending h) hnext]
          refine ih h' hrest ?_
          rcases hfails with hfull | ⟨f, hf, hover⟩
          · rw [List.length_cons] at hfull
            rw [harguments, List.length_append, List.length_singleton]
            exact Or.inl (by omega)
          · rcases List.mem_cons.mp hf with rfl | hf
            · exact absurd hapart hover
            · exact Or.inr ⟨f, hf, hover⟩
      · exact hstops (nextToken_overlap h hapart)
    · exact hstops (nextToken_full h (Nat.not_lt.mp hroom))

/-! ### A message -/

/-- The tokens leave room for the `NULL`, and all of them can be trimmed in place. -/
structure Fits (text : CString) : Prop where
  room : (fields isDelimiter text).length ≤ 79
  apart : ∀ f ∈ fields isDelimiter text, TrimsApart f

section Text

variable {text : CString} (htext : NUL ∉ text)

include htext

theorem firstToken_of_fields_nil (hfields : fields isDelimiter text = []) (cmd : List Char) :
    ∃ mem save, firstToken (fillCmd cmd text) = ⟨mem, save, [], none⟩ := by
  have hstrtok := strtok_of_fields_nil htext hfields [] (cmd.drop (text.length + 1))
  rw [List.nil_append, List.length_nil] at hstrtok
  rw [firstToken, fillCmd, hstrtok]
  exact ⟨_, _, rfl⟩

theorem pending_firstToken (hfields : fields isDelimiter text = tok :: toks) (cmd : List Char) :
    ∃ before rest, (firstToken (fillCmd cmd text)).arguments = [] ∧
      Pending (firstToken (fillCmd cmd text)) before tok rest ∧ fields isDelimiter rest = toks := by
  obtain ⟨mem, save, front, rest, hstrtok, hcut, hrest⟩ :=
    strtok_of_fields_cons htext hfields [] (cmd.drop (text.length + 1))
  rw [List.nil_append, List.length_nil] at hstrtok
  rw [firstToken, fillCmd, hstrtok]
  refine ⟨front, rest, rfl, ⟨?_, hcut⟩, hrest⟩
  rw [Nat.zero_add]

/-- A loop that ends has had room for all tokens. -/
theorem fits_of_loop {cmd : List Char} {fuel : ℕ} {t : TokenState}
    (h : whileLoopM hasToken nextToken fuel (firstToken (fillCmd cmd text)) = some t) :
    Fits text := by
  cases hfields : fields isDelimiter text with
  | nil => exact ⟨hfields ▸ Nat.zero_le 79, hfields ▸ nofun⟩
  | cons tok toks =>
    obtain ⟨before, rest, hempty, hpending, hrest⟩ := pending_firstToken htext hfields cmd
    have hgoes : ¬ (80 ≤ (firstToken (fillCmd cmd text)).arguments.length + 1 + toks.length ∨
        ∃ f ∈ tok :: toks, ¬ TrimsApart f) := by
      intro hfails
      rw [loop_eq_none_of_pending hpending hrest hfails fuel] at h
      cases h
    rw [hempty, List.length_nil] at hgoes
    push Not at hgoes
    obtain ⟨hroom, hapart⟩ := hgoes
    refine ⟨?_, hfields ▸ hapart⟩
    rw [hfields, List.length_cons]
    omega

theorem exists_loop_of_fits (hfits : Fits text) (cmd : List Char) :
    ∃ fuel t, whileLoopM hasToken nextToken fuel (firstToken (fillCmd cmd text)) = some t ∧
      t.current = none ∧
      t.arguments.map (stringAt t.cmd) = (fields isDelimiter text).map trimmed := by
  obtain ⟨hroom, hapart⟩ := hfits
  cases hfields : fields isDelimiter text with
  | nil =>
    obtain ⟨mem, save, hfirst⟩ := firstToken_of_fields_nil htext hfields cmd
    have hdone : hasToken ⟨mem, save, [], none⟩ = some false := rfl
    exact ⟨0, _, by rw [hfirst]; exact whileLoopM_of_false hdone 0, rfl, rfl⟩
  | cons tok toks =>
    obtain ⟨before, rest, hempty, hpending, hrest⟩ := pending_firstToken htext hfields cmd
    rw [hfields] at hroom hapart
    rw [List.length_cons] at hroom
    have hroom' :
        (firstToken (fillCmd cmd text)).arguments.length + 1 + toks.length < 80 := by
      rw [hempty, List.length_nil]
      omega
    obtain ⟨t, back, entries, hloop, -, hentries, hcurrent, hstrings⟩ :=
      exists_loop_of_pending hpending hrest hroom' hapart
    refine ⟨toks.length + 1, t, hloop, hcurrent, ?_⟩
    rw [hentries, hempty, List.nil_append]
    exact hstrings

/-- What a loop that ends has found. -/
theorem strings_of_loop {cmd : List Char} {fuel : ℕ} {t : TokenState}
    (h : whileLoopM hasToken nextToken fuel (firstToken (fillCmd cmd text)) = some t) :
    t.arguments.map (stringAt t.cmd) = (fields isDelimiter text).map trimmed := by
  obtain ⟨fuel', t', hloop, -, hstrings⟩ := exists_loop_of_fits htext (fits_of_loop htext h) cmd
  have hmore := whileLoopM_mono (Nat.le_max_left fuel fuel') h
  rw [whileLoopM_mono (Nat.le_max_right fuel fuel') hloop] at hmore
  obtain rfl := Option.some.inj hmore
  exact hstrings

end Text

variable {cmd message : List Char}

theorem nul_notMem_messageText (message : List Char) : NUL ∉ messageText message :=
  nul_notMem_stringAt _ 0

theorem messageText_eq (h : NUL ∉ message) : messageText message = message :=
  stringAt_append h [] []

/-! ### In the middle of the loop -/

/-- The loop for a message comes to the state `s`. -/
def Passes (cmd message : List Char) (s : TokenState) : Prop :=
  ∃ i, ∀ fuel, tokenize (i + fuel) cmd message = whileLoopM hasToken nextToken fuel s

theorem passes_firstToken (cmd message : List Char) :
    Passes cmd message (firstToken (fillCmd cmd (messageText message))) :=
  ⟨0, fun fuel => by rw [Nat.zero_add, tokenize]⟩

namespace Passes

variable {s s' : TokenState}

theorem next (h : Passes cmd message s) (hcurrent : s.current ≠ none)
    (hnext : nextToken s = some s') : Passes cmd message s' := by
  obtain ⟨i, hi⟩ := h
  have hguard : hasToken s = some true := by
    rw [hasToken, Option.isSome_iff_ne_none.mpr hcurrent]
  refine ⟨i + 1, fun fuel => ?_⟩
  rw [Nat.add_assoc, Nat.add_comm 1, hi, whileLoopM_of_true hguard hnext]

/-- At its end the loop has found the tokens. -/
theorem strings (h : Passes cmd message s) (hcurrent : s.current = none) :
    s.arguments.map (stringAt s.cmd) =
      (fields isDelimiter (messageText message)).map trimmed := by
  obtain ⟨i, hi⟩ := h
  have hguard : hasToken s = some false := by
    rw [hasToken, hcurrent]
    rfl
  have hrun := hi 0
  rw [whileLoopM_of_false hguard] at hrun
  exact strings_of_loop (nul_notMem_messageText message) hrun

/-- No iteration fails for a message that fits. -/
theorem next_ne_none (h : Passes cmd message s) (hfits : Fits (messageText message))
    (hcurrent : s.current ≠ none) : nextToken s ≠ none := by
  intro hnone
  obtain ⟨i, hi⟩ := h
  obtain ⟨fuel, t, hloop, -⟩ :=
    exists_loop_of_fits (nul_notMem_messageText message) hfits cmd
  have hguard : hasToken s = some true := by
    rw [hasToken, Option.isSome_iff_ne_none.mpr hcurrent]
  have hmore := whileLoopM_mono (Nat.le_add_left fuel i) hloop
  have hstuck := hi fuel
  rw [tokenize, hmore] at hstuck
  cases fuel with
  | zero =>
    rw [whileLoopM, hguard] at hstuck
    cases hstuck
  | succ fuel =>
    rw [whileLoopM, hguard, Option.bind_some, if_pos rfl, hnone] at hstuck
    cases hstuck

end Passes

/-! ### Exact tokens -/

theorem mem_trimmed {f : CString} {c : Char} (hc : isSpace c = false) (hmem : c ∈ f) :
    c ∈ trimmed f := by
  have hne : ¬isSpace c = true := by
    rw [hc]
    exact Bool.false_ne_true
  have hdrop : c ∈ f.dropWhile isSpace := by
    rw [← List.takeWhile_append_dropWhile (p := isSpace) (l := f)] at hmem
    exact (List.mem_append.mp hmem).resolve_left fun h => hne (List.mem_takeWhile_imp h)
  rw [← List.rdropWhile_append_rtakeWhile (p := isSpace) (l := f.dropWhile isSpace)] at hdrop
  exact (List.mem_append.mp hdrop).resolve_right fun h => hne (List.mem_rtakeWhile_imp h)

/-- A `NUL` in the message would have to stand in one of the entries. -/
theorem nul_notMem_of_tokensExact (h : TokensExact cmd message) : NUL ∉ message := by
  intro hmem
  obtain ⟨fuel, s, -, -, hstrings⟩ := h
  obtain ⟨f, hf, hin⟩ : ∃ f ∈ fields isDelimiter message, NUL ∈ f :=
    exists_field_of_mem (by decide) hmem
  have hentry : trimmed f ∈ s.arguments.map (stringAt s.cmd) := by
    rw [hstrings]
    exact List.mem_map_of_mem hf
  obtain ⟨p, -, hp⟩ := List.mem_map.mp hentry
  refine nul_notMem_stringAt s.cmd p ?_
  rw [hp]
  exact mem_trimmed (by decide) hin

theorem fits_of_tokensExact (h : TokensExact cmd message) : Fits message := by
  have htext := messageText_eq (nul_notMem_of_tokensExact h)
  obtain ⟨fuel, s, hrun, -, -⟩ := h
  rw [← htext]
  exact fits_of_loop (nul_notMem_messageText message) hrun

/-- **The tokens** are exact just when the message is a string that leaves room for the `NULL`, and
none of its runs begins with white space that is too short to trim it in place. -/
theorem tokensExact_iff (cmd message : List Char) :
    TokensExact cmd message ↔ NUL ∉ message ∧ Fits message := by
  constructor
  · intro h
    exact ⟨nul_notMem_of_tokensExact h, fits_of_tokensExact h⟩
  · rintro ⟨hnul, hfits⟩
    have htext := messageText_eq hnul
    obtain ⟨fuel, s, hrun, hcurrent, hstrings⟩ := exists_loop_of_fits hnul hfits cmd
    exact ⟨fuel, s, by rw [tokenize, htext, hrun], hcurrent, hstrings⟩

/-- Eighty words of one letter. -/
def manyWords : List Char := (List.replicate 80 ['w', ' ']).flatten

/-- `"\tjoin x"`, whose first run begins with a tab. -/
def tabFirst : List Char := "\tjoin x".toList

theorem not_tokensExact_manyWords :
    manyWords.length = 160 ∧ ¬ TokensExact (List.replicate MAXBUFF NUL) manyWords ∧
      ¬ TokensExact (List.replicate MAXBUFF NUL) tabFirst := by
  refine ⟨by decide +kernel, fun h => ?_, fun h => ?_⟩
  · have hfields : (fields isDelimiter manyWords).length = 80 := by decide +kernel
    have hroom := (fits_of_tokensExact h).room
    rw [hfields] at hroom
    exact absurd hroom (by decide)
  · have hfields : fields isDelimiter tabFirst = ["\tjoin".toList, ['x']] := by decide +kernel
    have hapart := (fits_of_tokensExact h).apart "\tjoin".toList (by
      rw [hfields]
      exact List.mem_cons_self)
    unfold TrimsApart at hapart
    revert hapart
    decide +kernel

end OsLabs.Chat
