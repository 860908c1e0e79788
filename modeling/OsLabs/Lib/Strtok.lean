import OsLabs.Lib.Spans

/-!
# C strings in memory, and `strtok`

A buffer is a list of bytes, and a string is what stands at an address in front of the next `NUL`.
`strtok` skips delimiters, puts a `NUL` behind the token that follows and remembers the address
behind it; `strcpy` copies byte by byte, from the front, also within one buffer.
-/

namespace OsLabs.Lib

def NUL : Char := Char.ofNat 0

/-- The string at an address. -/
def stringAt (mem : List Char) (s : ℕ) : List Char := (mem.drop s).takeWhile (· ≠ NUL)

theorem nul_notMem_stringAt (mem : List Char) (s : ℕ) : NUL ∉ stringAt mem s := by
  intro hmem
  have := List.mem_takeWhile_imp hmem
  simp at this

theorem stringAt_append {text : List Char} (h : NUL ∉ text) (before back : List Char) :
    stringAt (before ++ (text ++ NUL :: back)) before.length = text := by
  rw [stringAt, List.drop_left]
  refine takeWhile_append_of_all (fun c hc => ?_) fun c hc => ?_
  · rw [decide_eq_true_eq]
    exact fun heq => h (heq ▸ hc)
  · rw [← Option.some.inj hc]
    decide

/-! ### Fields -/

section Fields

variable (delim : Char → Bool)

/-- The maximal runs of bytes that are no delimiters. -/
def fields (text : List Char) : List (List Char) := (text.splitOnP delim).filter (· ≠ [])

variable {delim}

theorem fields_append_cons (text rest : List Char) {sep : Char} (hsep : delim sep = true) :
    fields delim (text ++ sep :: rest) = fields delim text ++ fields delim rest := by
  rw [fields, List.splitOnP_append_cons text rest hsep, List.filter_append]
  rfl

theorem fields_of_no_delim {tok : List Char} (htok : ∀ c ∈ tok, delim c = false) (hne : tok ≠ []) :
    fields delim tok = [tok] := by
  rw [fields, List.splitOnP_eq_singleton htok]
  exact List.filter_cons_of_pos (by simpa using hne)

theorem fields_nil : fields delim [] = [] := by
  rw [fields, List.splitOnP_nil]
  rfl

theorem fields_delims_append {front : List Char} (hfront : ∀ c ∈ front, delim c = true)
    (text : List Char) : fields delim (front ++ text) = fields delim text := by
  induction front with
  | nil => rfl
  | cons sep front ih =>
    obtain ⟨hsep, hrest⟩ := List.forall_mem_cons.mp hfront
    have hcons := fields_append_cons [] (front ++ text) hsep
    rw [fields_nil, List.nil_append, List.nil_append] at hcons
    rw [List.cons_append, hcons, ih hrest]

/-- How a text begins: it has delimiters only, or a field with the rest of the text behind it. -/
theorem fields_cases (delim : Char → Bool) (text : List Char) :
    ((∀ c ∈ text, delim c = true) ∧ fields delim text = []) ∨
      ∃ front tok rest, (∀ c ∈ front, delim c = true) ∧ tok ≠ [] ∧
        (∀ c ∈ tok, delim c = false) ∧ fields delim text = tok :: fields delim rest ∧
          (text = front ++ tok ∧ rest = [] ∨
            ∃ sep, delim sep = true ∧ text = front ++ (tok ++ sep :: rest)) := by
  have hfront : ∀ c ∈ text.takeWhile delim, delim c = true := fun c => List.mem_takeWhile_imp
  have htok : ∀ c ∈ (text.dropWhile delim).takeWhile (!delim ·), delim c = false := by
    intro c hc
    simpa using List.mem_takeWhile_imp hc
  have htext : text = text.takeWhile delim ++ ((text.dropWhile delim).takeWhile (!delim ·) ++
      (text.dropWhile delim).dropWhile (!delim ·)) := by
    rw [List.takeWhile_append_dropWhile, List.takeWhile_append_dropWhile]
  by_cases hnil : (text.dropWhile delim).takeWhile (!delim ·) = []
  · left
    have hdrop : text.dropWhile delim = [] := by
      cases hcase : text.dropWhile delim with
      | nil => rfl
      | cons c rest =>
        have hstop := List.head?_dropWhile_not delim text
        rw [hcase] at hnil hstop
        have hc : delim c = false := hstop
        rw [List.takeWhile_cons_of_pos (by rw [hc]; rfl)] at hnil
        cases hnil
    have hall := List.dropWhile_eq_nil_iff.mp hdrop
    refine ⟨hall, ?_⟩
    have hfields := fields_delims_append hall []
    rwa [List.append_nil, fields_nil] at hfields
  · right
    cases hbehind : (text.dropWhile delim).dropWhile (!delim ·) with
    | nil =>
      rw [hbehind, List.append_nil] at htext
      refine ⟨_, _, [], hfront, hnil, htok, ?_, Or.inl ⟨htext, rfl⟩⟩
      have hskip := fields_delims_append hfront ((text.dropWhile delim).takeWhile (!delim ·))
      rw [← htext] at hskip
      rw [hskip, fields_nil, fields_of_no_delim htok hnil]
    | cons sep rest =>
      have hsep : delim sep = true := by
        have hstop := List.head?_dropWhile_not (!delim ·) (text.dropWhile delim)
        rw [hbehind] at hstop
        simpa using hstop
      rw [hbehind] at htext
      refine ⟨_, _, rest, hfront, hnil, htok, ?_, Or.inr ⟨sep, hsep, htext⟩⟩
      have hskip := fields_delims_append hfront
        ((text.dropWhile delim).takeWhile (!delim ·) ++ sep :: rest)
      rw [← htext] at hskip
      rw [hskip, fields_append_cons _ rest hsep, fields_of_no_delim htok hnil,
        List.singleton_append]

/-- A byte that is no delimiter stands in a field. -/
theorem exists_field_of_mem {text : List Char} {c : Char} (hc : delim c = false)
    (hmem : c ∈ text) : ∃ f ∈ fields delim text, c ∈ f := by
  have hne : ∀ sep, delim sep = true → c ≠ sep := by
    rintro sep hsep rfl
    rw [hc] at hsep
    cases hsep
  induction hlength : text.length using Nat.strong_induction_on generalizing text with
  | _ n ih =>
    obtain ⟨hall, -⟩ | ⟨front, tok, rest, hfront, -, -, hcons, hsplit⟩ := fields_cases delim text
    · exact absurd rfl (hne c (hall c hmem))
    · rw [hcons]
      obtain ⟨rfl, rfl⟩ | ⟨sep, hsep, rfl⟩ := hsplit
      · obtain hin | hin := List.mem_append.mp hmem
        · exact absurd rfl (hne c (hfront c hin))
        · exact ⟨tok, List.mem_cons_self, hin⟩
      · obtain hin | hin := List.mem_append.mp hmem
        · exact absurd rfl (hne c (hfront c hin))
        obtain hin | hin := List.mem_append.mp hin
        · exact ⟨tok, List.mem_cons_self, hin⟩
        obtain rfl | hin := List.mem_cons.mp hin
        · exact absurd rfl (hne c hsep)
        · have hshort : rest.length < n := by
            rw [← hlength]
            simp only [List.length_append, List.length_cons]
            omega
          obtain ⟨f, hf, hcf⟩ := ih _ hshort hin rfl
          exact ⟨f, List.mem_cons_of_mem tok hf, hcf⟩

theorem fields_ne_nil_iff {text : List Char} :
    fields delim text ≠ [] ↔ ∃ c ∈ text, delim c = false := by
  constructor
  · intro hne
    obtain ⟨-, hnil⟩ | ⟨front, tok, rest, -, htok, hall, -, hsplit⟩ := fields_cases delim text
    · exact absurd hnil hne
    · obtain ⟨c, hc⟩ := List.exists_mem_of_ne_nil tok htok
      refine ⟨c, ?_, hall c hc⟩
      obtain ⟨rfl, -⟩ | ⟨sep, -, rfl⟩ := hsplit
      · exact List.mem_append_right _ hc
      · exact List.mem_append_right _ (List.mem_append_left _ hc)
  · rintro ⟨c, hc, hdelim⟩ hnil
    obtain ⟨f, hf, -⟩ := exists_field_of_mem hdelim hc
    rw [hnil] at hf
    cases hf

end Fields

/-! ### `strtok` -/

/-- The memory, the address that `strtok` remembers, and what it returns. -/
structure Strtok where
  mem : List Char
  save : ℕ
  token : Option ℕ

/-- `strtok(s, delim)`; with `NULL` in place of `s` it goes on at the address that it remembers. -/
def strtok (delim : Char → Bool) (mem : List Char) (s : ℕ) : Strtok :=
  let text := stringAt mem s
  let start := s + (text.takeWhile delim).length
  let tok := (text.dropWhile delim).takeWhile (!delim ·)
  let stop := start + tok.length
  if tok = [] then ⟨mem, start, none⟩
  else if stop = s + text.length then ⟨mem, stop, some start⟩
  else ⟨mem.set stop NUL, stop + 1, some start⟩

section Strtok

variable {delim : Char → Bool} {text before back : List Char} (htext : NUL ∉ text)

include htext

/-- Without a field in the string there is no token. -/
theorem strtok_of_delims (h : ∀ c ∈ text, delim c = true) :
    strtok delim (before ++ (text ++ NUL :: back)) before.length =
      ⟨before ++ (text ++ NUL :: back), before.length + text.length, none⟩ := by
  have htake : text.takeWhile delim = text := List.takeWhile_eq_self_iff.mpr h
  have hdrop : text.dropWhile delim = [] := List.dropWhile_eq_nil_iff.mpr h
  rw [strtok, stringAt_append htext, htake, hdrop]
  rfl

variable {front tok : List Char} (hfront : ∀ c ∈ front, delim c = true) (hne : tok ≠ [])
  (htok : ∀ c ∈ tok, delim c = false)

include hfront hne htok

/-- The delimiters and the token at the start of a string, as `strtok` finds them. -/
theorem strtok_split {rest : List Char} (hrest : ∀ c ∈ rest.head?, delim c = true)
    (hsplit : text = front ++ (tok ++ rest)) :
    strtok delim (before ++ (text ++ NUL :: back)) before.length =
      if rest = [] then
        ⟨before ++ (text ++ NUL :: back), before.length + front.length + tok.length,
          some (before.length + front.length)⟩
      else
        ⟨(before ++ (text ++ NUL :: back)).set (before.length + front.length + tok.length) NUL,
          before.length + front.length + tok.length + 1, some (before.length + front.length)⟩ := by
  have hfirst : ∀ c ∈ (tok ++ rest).head?, delim c = false := by
    intro c hc
    rw [List.head?_append_of_ne_nil _ hne] at hc
    exact htok c (List.mem_of_mem_head? hc)
  have htake : text.takeWhile delim = front := by
    rw [hsplit, takeWhile_append_of_all hfront hfirst]
  have hdrop : (text.dropWhile delim).takeWhile (!delim ·) = tok := by
    rw [hsplit, dropWhile_append_of_all hfront hfirst]
    refine takeWhile_append_of_all (fun c hc => ?_) fun c hc => ?_
    · rw [htok c hc]
      rfl
    · rw [hrest c hc]
      rfl
  rw [strtok, stringAt_append htext, htake, hdrop, if_neg hne]
  have hlength : text.length = front.length + (tok.length + rest.length) := by
    rw [hsplit, List.length_append, List.length_append]
  by_cases hnil : rest = []
  · rw [if_pos hnil, if_pos]
    rw [hlength, hnil, List.length_nil]
    omega
  · have hpos := List.length_pos_iff.mpr hnil
    rw [if_neg hnil, if_neg]
    omega

/-- The last token is left as it is. -/
theorem strtok_last (hsplit : text = front ++ tok) :
    strtok delim (before ++ (text ++ NUL :: back)) before.length =
      ⟨before ++ (front ++ (tok ++ NUL :: back)), before.length + front.length + tok.length,
        some (before.length + front.length)⟩ := by
  have hrest : ∀ c ∈ ([] : List Char).head?, delim c = true := nofun
  have hsplit' : text = front ++ (tok ++ []) := by rw [hsplit, List.append_nil]
  rw [strtok_split htext hfront hne htok hrest hsplit', if_pos rfl, hsplit, List.append_assoc]

/-- Behind any other token the delimiter becomes a `NUL`. -/
theorem strtok_first {sep : Char} {rest : List Char} (hsep : delim sep = true)
    (hsplit : text = front ++ (tok ++ sep :: rest)) :
    strtok delim (before ++ (text ++ NUL :: back)) before.length =
      ⟨before ++ (front ++ (tok ++ NUL :: (rest ++ NUL :: back))),
        before.length + front.length + tok.length + 1, some (before.length + front.length)⟩ := by
  have hset : (before ++ (text ++ NUL :: back)).set
      (before.length + front.length + tok.length) NUL =
        before ++ (front ++ (tok ++ NUL :: (rest ++ NUL :: back))) := by
    have hassoc : before ++ (text ++ NUL :: back) =
        (before ++ front ++ tok) ++ sep :: (rest ++ NUL :: back) := by
      rw [hsplit]
      simp only [List.append_assoc, List.cons_append]
    have hlength : before.length + front.length + tok.length =
        (before ++ front ++ tok).length := by
      rw [List.length_append, List.length_append]
    rw [hassoc, hlength, List.set_append_right _ _ le_rfl, Nat.sub_self, List.set_cons_zero,
      List.append_assoc, List.append_assoc]
  have hrest : ∀ c ∈ (sep :: rest).head?, delim c = true := by
    intro c hc
    rw [← Option.some.inj hc]
    exact hsep
  rw [strtok_split htext hfront hne htok hrest hsplit, if_neg (List.cons_ne_nil sep rest), hset]

end Strtok

/-- What `strtok` leaves of a string: the token that it has cut off, which ends with a `NUL`, and
the rest at the address that it remembers.  Behind the last token the rest is empty, and this
address may be the one of the same `NUL`. -/
structure CutToken (mem : List Char) (save : ℕ) (before tok rest : List Char) : Prop where
  layout : ∃ gap back, (gap = [NUL] ∨ gap = [] ∧ rest = []) ∧
    mem = before ++ (tok ++ (gap ++ (rest ++ NUL :: back))) ∧
    save = (before ++ (tok ++ gap)).length
  nul_notMem_tok : NUL ∉ tok
  nul_notMem_rest : NUL ∉ rest

/-- The token is a string that stands where it was cut off. -/
theorem CutToken.exists_back {mem : List Char} {save : ℕ} {before tok rest : List Char}
    (h : CutToken mem save before tok rest) : ∃ back, mem = before ++ (tok ++ NUL :: back) := by
  obtain ⟨gap, back, rfl | ⟨rfl, rfl⟩, hmem, -⟩ := h.layout
  · exact ⟨rest ++ NUL :: back, hmem⟩
  · exact ⟨back, hmem⟩

/-- The rest is a string at the address that `strtok` remembers. -/
theorem CutToken.exists_gap {mem : List Char} {save : ℕ} {before tok rest : List Char}
    (h : CutToken mem save before tok rest) :
    ∃ gap back, (gap = [NUL] ∨ gap = [] ∧ rest = []) ∧
      mem = before ++ (tok ++ gap) ++ (rest ++ NUL :: back) ∧
      save = (before ++ (tok ++ gap)).length := by
  obtain ⟨gap, back, hgap, hmem, hsave⟩ := h.layout
  refine ⟨gap, back, hgap, ?_, hsave⟩
  rw [hmem]
  simp only [List.append_assoc]

section Fields

variable {delim : Char → Bool} {text : List Char} (htext : NUL ∉ text)

include htext

theorem strtok_of_fields_nil (hfields : fields delim text = []) (before back : List Char) :
    strtok delim (before ++ (text ++ NUL :: back)) before.length =
      ⟨before ++ (text ++ NUL :: back), before.length + text.length, none⟩ := by
  obtain ⟨hall, -⟩ | ⟨front, tok, rest, -, -, -, hcons, -⟩ := fields_cases delim text
  · exact strtok_of_delims htext hall
  · rw [hcons] at hfields
    cases hfields

/-- The bytes behind a call that finds a token: the delimiter behind the token has become a `NUL`,
unless the string ends there. -/
theorem strtok_cut {tok : List Char} {toks : List (List Char)}
    (hfields : fields delim text = tok :: toks) (before back : List Char) :
    ∃ front gap rest,
      strtok delim (before ++ (text ++ NUL :: back)) before.length =
        ⟨before ++ (front ++ (tok ++ (gap ++ (rest ++ NUL :: back)))),
          before.length + front.length + tok.length + gap.length,
          some (before.length + front.length)⟩ ∧
      (gap = [NUL] ∨ gap = [] ∧ rest = []) ∧
      front.length + tok.length + gap.length + rest.length = text.length ∧
      NUL ∉ tok ∧ NUL ∉ rest ∧ fields delim rest = toks := by
  obtain ⟨-, hnil⟩ | ⟨front, tok', rest, hfront, hne, htok, hcons, hsplit⟩ :=
    fields_cases delim text
  · rw [hnil] at hfields
    cases hfields
  · rw [hcons] at hfields
    obtain ⟨rfl, rfl⟩ := List.cons.inj hfields
    obtain ⟨hlast, rfl⟩ | ⟨sep, hsep, hfirst⟩ := hsplit
    · refine ⟨front, [], [], strtok_last htext hfront hne htok hlast, Or.inr ⟨rfl, rfl⟩, ?_, ?_,
        List.not_mem_nil, rfl⟩
      · rw [hlast, List.length_append]
        rfl
      · rw [hlast] at htext
        exact fun hmem => htext (List.mem_append_right _ hmem)
    · refine ⟨front, [NUL], rest, strtok_first htext hfront hne htok hsep hfirst, Or.inl rfl, ?_,
        ?_, ?_, rfl⟩
      · rw [hfirst]
        simp only [List.length_append, List.length_cons, List.length_nil]
        omega
      · rw [hfirst] at htext
        exact fun hmem => htext (List.mem_append_right _ (List.mem_append_left _ hmem))
      · rw [hfirst] at htext
        exact fun hmem => htext (List.mem_append_right _ (List.mem_append_right _
          (List.mem_cons_of_mem _ hmem)))

theorem strtok_of_fields_cons {tok : List Char} {toks : List (List Char)}
    (hfields : fields delim text = tok :: toks) (before back : List Char) :
    ∃ mem save front rest,
      strtok delim (before ++ (text ++ NUL :: back)) before.length =
        ⟨mem, save, some (before.length + front.length)⟩ ∧
      CutToken mem save (before ++ front) tok rest ∧ fields delim rest = toks := by
  obtain ⟨front, gap, rest, hstrtok, hgap, -, htok, hrest, htoks⟩ :=
    strtok_cut htext hfields before back
  refine ⟨_, _, front, rest, hstrtok, ⟨⟨gap, back, hgap, ?_, ?_⟩, htok, hrest⟩, htoks⟩
  · rw [List.append_assoc]
  · simp only [List.length_append, Nat.add_assoc]

end Fields

/-! ### Calls in a row -/

/-- The string that a call of `strtok` returns, if it returns one. -/
def Strtok.string (s : Strtok) : Option (List Char) := s.token.map (stringAt s.mem)

/-- The fields that are left of a string of length `n`, which stands between `before` and `back`:
those of its part from the address that `strtok` remembers. -/
def RemainingIn (before : List Char) (n : ℕ) (back : List Char) (delim : Char → Bool)
    (mem : List Char) (save : ℕ) (toks : List (List Char)) : Prop :=
  ∃ done rest, (done ++ rest).length = n ∧ NUL ∉ rest ∧
    mem = before ++ (done ++ (rest ++ NUL :: back)) ∧ save = (before ++ done).length ∧
      fields delim rest = toks

theorem remainingIn_start {text : List Char} (htext : NUL ∉ text) (delim : Char → Bool)
    (before back : List Char) :
    RemainingIn before text.length back delim (before ++ (text ++ NUL :: back)) before.length
      (fields delim text) :=
  ⟨[], text, rfl, htext, rfl, by rw [List.append_nil], rfl⟩

/-- A call returns the next field, and leaves the others for the calls behind it. -/
theorem RemainingIn.strtok {before back : List Char} {n : ℕ} {delim : Char → Bool}
    {mem : List Char} {save : ℕ} {toks : List (List Char)}
    (h : RemainingIn before n back delim mem save toks) :
    (strtok delim mem save).string = toks.head? ∧
      RemainingIn before n back delim (strtok delim mem save).mem (strtok delim mem save).save
        toks.tail := by
  obtain ⟨done, text, hlength, htext, rfl, rfl, htoks⟩ := h
  rw [← List.append_assoc]
  cases toks with
  | nil =>
    rw [strtok_of_fields_nil htext htoks]
    refine ⟨rfl, done ++ text, [], ?_, List.not_mem_nil, ?_, ?_, fields_nil⟩
    · rw [List.append_nil, hlength]
    · simp only [List.append_assoc, List.nil_append]
    · simp only [List.length_append, Nat.add_assoc]
  | cons tok toks =>
    obtain ⟨front, gap, rest, hstrtok, hgap, htotal, htok, hrest, hfields⟩ :=
      strtok_cut htext htoks (before ++ done) back
    rw [hstrtok]
    refine ⟨?_, done ++ (front ++ (tok ++ gap)), rest, ?_, hrest, ?_, ?_, hfields⟩
    · -- the token ends with a `NUL`, the new one or that of the string
      obtain ⟨behind, hbehind⟩ : ∃ behind, gap ++ (rest ++ NUL :: back) = NUL :: behind := by
        obtain rfl | ⟨rfl, rfl⟩ := hgap
        · exact ⟨_, rfl⟩
        · exact ⟨back, rfl⟩
      show some (stringAt _ _) = some tok
      rw [hbehind, ← List.append_assoc _ front, ← List.length_append, stringAt_append htok]
    · rw [List.length_append] at hlength
      simp only [List.length_append]
      omega
    · simp only [List.append_assoc]
    · simp only [List.length_append, Nat.add_assoc]

/-- The fields of the string at the address that `strtok` remembers. -/
def Remaining (delim : Char → Bool) (mem : List Char) (save : ℕ) (toks : List (List Char)) : Prop :=
  ∃ before n back, RemainingIn before n back delim mem save toks

theorem remaining_zero {text : List Char} (htext : NUL ∉ text) (delim : Char → Bool)
    (back : List Char) : Remaining delim (text ++ NUL :: back) 0 (fields delim text) :=
  ⟨[], text.length, back, remainingIn_start htext delim [] back⟩

theorem Remaining.strtok {delim : Char → Bool} {mem : List Char} {save : ℕ}
    {toks : List (List Char)} (h : Remaining delim mem save toks) :
    (strtok delim mem save).string = toks.head? ∧
      Remaining delim (strtok delim mem save).mem (strtok delim mem save).save toks.tail := by
  obtain ⟨before, n, back, hin⟩ := h
  exact ⟨hin.strtok.1, before, n, back, hin.strtok.2⟩

/-! ### `strcpy` within a buffer -/

/-- The loop of `strcpy`, for at most `fuel` bytes. -/
def strcpyLoop : ℕ → List Char → ℕ → ℕ → List Char
  | 0, mem, _, _ => mem
  | fuel + 1, mem, dst, src =>
    match mem[src]? with
    | none => mem
    | some c =>
      if c = NUL then mem.set dst c else strcpyLoop fuel (mem.set dst c) (dst + 1) (src + 1)

/-- `strcpy(dst, src)`, which has no defined behaviour if the bytes that it reads, the `NUL`
included, and those that it writes overlap; a string that is copied onto itself stays. -/
def strcpy (mem : List Char) (dst src : ℕ) : Option (List Char) :=
  let size := (stringAt mem src).length + 1
  if dst ≠ src ∧ dst < src + size ∧ src < dst + size then none
  else some (strcpyLoop mem.length mem dst src)

/-- A byte moved to the front of the gap before it leaves a gap of the same length behind it. -/
theorem set_gap (before gap rest : List Char) (c : Char) :
    ∃ gap', gap'.length = gap.length ∧
      (before ++ (gap ++ c :: rest)).set before.length c = before ++ c :: (gap' ++ rest) := by
  cases gap with
  | nil =>
    refine ⟨[], rfl, ?_⟩
    rw [List.set_append_right _ _ le_rfl, Nat.sub_self]
    rfl
  | cons d gap =>
    refine ⟨gap ++ [c], by rw [List.length_append, List.length_singleton, List.length_cons], ?_⟩
    rw [List.set_append_right _ _ le_rfl, Nat.sub_self, List.append_assoc]
    rfl

theorem strcpyLoop_forward {text : List Char} (htext : NUL ∉ text) (before gap back : List Char)
    {fuel : ℕ} (hfuel : text.length < fuel) :
    ∃ junk, junk.length = gap.length ∧
      strcpyLoop fuel (before ++ (gap ++ (text ++ NUL :: back))) before.length
          (before.length + gap.length) = before ++ (text ++ NUL :: (junk ++ back)) := by
  induction text generalizing before gap fuel with
  | nil =>
    obtain ⟨fuel, rfl⟩ := Nat.exists_eq_add_one.mpr (Nat.zero_lt_of_lt hfuel)
    obtain ⟨junk, hjunk, hset⟩ := set_gap before gap back NUL
    refine ⟨junk, hjunk, ?_⟩
    have hget : (before ++ (gap ++ NUL :: back))[before.length + gap.length]? = some NUL := by
      rw [List.getElem?_append_right (Nat.le_add_right _ _), Nat.add_sub_cancel_left,
        List.getElem?_append_right le_rfl, Nat.sub_self]
      rfl
    rw [List.nil_append, strcpyLoop, hget]
    dsimp only
    rw [if_pos rfl, hset, List.nil_append]
  | cons c text ih =>
    obtain ⟨fuel, rfl⟩ := Nat.exists_eq_add_one.mpr (Nat.zero_lt_of_lt hfuel)
    obtain ⟨gap', hgap', hset⟩ := set_gap before gap (text ++ NUL :: back) c
    have hget : (before ++ (gap ++ c :: (text ++ NUL :: back)))[before.length + gap.length]? =
        some c := by
      rw [List.getElem?_append_right (Nat.le_add_right _ _), Nat.add_sub_cancel_left,
        List.getElem?_append_right le_rfl, Nat.sub_self]
      rfl
    have hc : c ≠ NUL := fun heq => htext (heq ▸ List.mem_cons_self)
    have hrest : NUL ∉ text := fun hmem => htext (List.mem_cons_of_mem c hmem)
    obtain ⟨junk, hjunk, hloop⟩ := ih hrest (before ++ [c]) gap' (Nat.lt_of_succ_lt_succ hfuel)
    refine ⟨junk, hjunk.trans hgap', ?_⟩
    rw [List.cons_append, strcpyLoop, hget]
    dsimp only
    rw [List.length_append, List.length_singleton, hgap', List.append_assoc, List.append_assoc,
      List.singleton_append, List.singleton_append] at hloop
    rw [if_neg hc, hset, Nat.add_right_comm]
    exact hloop

section Forward

variable {text gap : List Char} (htext : NUL ∉ text)

include htext

/-- A string moved towards the front of its buffer: the bytes before it, and those behind its
`NUL`, stay. -/
theorem strcpy_forward (hapart : gap = [] ∨ text.length < gap.length) (before back : List Char) :
    ∃ junk, junk.length = gap.length ∧
      strcpy (before ++ (gap ++ (text ++ NUL :: back))) before.length
          (before.length + gap.length) = some (before ++ (text ++ NUL :: (junk ++ back))) := by
  have hfuel : text.length < (before ++ (gap ++ (text ++ NUL :: back))).length := by
    simp only [List.length_append, List.length_cons]
    omega
  obtain ⟨junk, hjunk, hloop⟩ := strcpyLoop_forward htext before gap back hfuel
  refine ⟨junk, hjunk, ?_⟩
  have hstring := stringAt_append htext (before ++ gap) back
  rw [List.append_assoc, List.length_append] at hstring
  rw [strcpy, hstring, hloop]
  refine if_neg ?_
  rintro ⟨hne, -, hover⟩
  obtain rfl | hlong := hapart
  · exact hne rfl
  · omega

/-- With its `NUL` the string reaches over the gap, but there is one. -/
theorem strcpy_overlap (hne : gap ≠ []) (hle : gap.length ≤ text.length)
    (before back : List Char) :
    strcpy (before ++ (gap ++ (text ++ NUL :: back))) before.length
      (before.length + gap.length) = none := by
  have hstring := stringAt_append htext (before ++ gap) back
  have hpos := List.length_pos_of_ne_nil hne
  rw [List.append_assoc, List.length_append] at hstring
  rw [strcpy, hstring]
  exact if_pos ⟨by omega, by omega, by omega⟩

end Forward

end OsLabs.Lib
