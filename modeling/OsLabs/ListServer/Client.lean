import OsLabs.Lib.TextLines

/-!
# The client of the list server

What `main` of `cli.c` does with its own data: `getCommandLine`, which reads a line that is not
empty, and the printing of a response.  `recv` writes no `NUL` behind the bytes that it stores, so
the string that is printed may go on with what an earlier response has left in the array.
-/

namespace OsLabs.ListServer

open OsLabs.Lib

/-- `MAX_COMMAND_LINE_LEN` -/
def maxCommandLineLen : ℕ := 1024

/-! ### Reading a command -/

/-- The string that `getCommandLine` leaves, and the input behind it.  A line that starts with the
newline is the newline alone.  There is no result at the end of the input, or if the string is
empty: the last byte that is cut off would be in front of the array. -/
def getCommandLine : List Char → Option (List Char × List Char)
  | [] => none
  | c :: stdin =>
    if c = '\n' then getCommandLine stdin
    else
      let (line, rest) := readLine (maxCommandLineLen - 1) (c :: stdin)
      let commandLine := stringAt (line ++ [NUL]) 0
      if commandLine = [] then none else some (commandLine.dropLast, rest)

theorem getCommandLine_short {stdin text rest : List Char}
    (h : getCommandLine stdin = some (text, rest)) : NUL ∉ text ∧ text.length ≤ 1022 := by
  induction stdin with
  | nil => cases h
  | cons c stdin ih =>
    rw [getCommandLine] at h
    dsimp only at h
    split_ifs at h with hnewline hempty
    · exact ih h
    · obtain ⟨rfl, -⟩ := Prod.mk.inj (Option.some.inj h)
      have hline := length_readLine_le (maxCommandLineLen - 1) (c :: stdin)
      have hfront : stringAt ((readLine (maxCommandLineLen - 1) (c :: stdin)).1 ++ [NUL]) 0 <+:
          (readLine (maxCommandLineLen - 1) (c :: stdin)).1 ++ [NUL] := List.takeWhile_prefix _
      have hnul := nul_notMem_stringAt
        ((readLine (maxCommandLineLen - 1) (c :: stdin)).1 ++ [NUL]) 0
      refine ⟨fun hmem => hnul (List.mem_of_mem_dropLast hmem), ?_⟩
      -- the string ends in front of the `NUL`
      have hle := hfront.length_le
      have hne : (stringAt ((readLine (maxCommandLineLen - 1) (c :: stdin)).1 ++ [NUL]) 0).length ≠
          ((readLine (maxCommandLineLen - 1) (c :: stdin)).1 ++ [NUL]).length := by
        intro heq
        rw [hfront.eq_of_length heq] at hnul
        exact hnul (List.mem_append_right _ (List.mem_singleton_self NUL))
      rw [List.length_append, List.length_singleton] at hle hne
      rw [List.length_dropLast]
      unfold maxCommandLineLen at *
      omega

/-! ### Showing a response -/

/-- `recv(sockID, responeData, sizeof(responeData), 0)`, with these bytes. -/
def recvInto (responeData bytes : List Char) : List Char :=
  bytes ++ responeData.drop bytes.length

/-- The string that `%s` prints, unless it reads on behind the array. -/
def printed (responeData : List Char) : Option (List Char) :=
  if NUL ∈ responeData then some (stringAt responeData 0) else none

/-- What is printed for responses one after the other. -/
def displays : List Char → List (List Char) → List (Option (List Char))
  | _, [] => []
  | responeData, response :: responses =>
    printed (recvInto responeData response) :: displays (recvInto responeData response) responses

theorem displays_concat (responeData : List Char) (responses : List (List Char))
    (response : List Char) :
    displays responeData (responses ++ [response]) =
      displays responeData responses ++
        [printed (recvInto (responses.foldl recvInto responeData) response)] := by
  induction responses generalizing responeData with
  | nil => rfl
  | cons first responses ih =>
    rw [List.cons_append, displays, ih, displays]
    rfl

theorem length_recvInto {responeData bytes : List Char}
    (h : bytes.length ≤ responeData.length) :
    (recvInto responeData bytes).length = responeData.length := by
  rw [recvInto, List.length_append, List.length_drop]
  omega

/-- A byte of the array is a `NUL` when it was one and no response has reached it. -/
theorem getElem?_foldl_recvInto {responses : List (List Char)}
    (hnul : ∀ response ∈ responses, NUL ∉ response) (responeData : List Char) (p : ℕ) :
    (responses.foldl recvInto responeData)[p]? = some NUL ↔
      (∀ response ∈ responses, response.length ≤ p) ∧ responeData[p]? = some NUL := by
  induction responses generalizing responeData with
  | nil => simp
  | cons first responses ih =>
    obtain ⟨hfirst, hrest⟩ := List.forall_mem_cons.mp hnul
    rw [List.foldl_cons, ih hrest, List.forall_mem_cons]
    rcases lt_or_ge p first.length with hlt | hge
    · rw [recvInto, List.getElem?_append_left hlt]
      have hbyte : first[p]? ≠ some NUL := fun h => hfirst (List.mem_of_getElem? h)
      exact iff_of_false (fun h => hbyte h.2) fun h => absurd hlt (not_lt.mpr h.1.1)
    · have hsame : (recvInto responeData first)[p]? = responeData[p]? := by
        rw [recvInto, List.getElem?_append_right hge, List.getElem?_drop, Nat.add_sub_cancel' hge]
      rw [hsame]
      tauto

/-- A response is printed as it is if the byte behind it is a `NUL`. -/
theorem printed_recvInto_iff {responeData response : List Char} (hnul : NUL ∉ response)
    (hroom : response.length < responeData.length) :
    printed (recvInto responeData response) = some response ↔
      responeData[response.length]? = some NUL := by
  have hsplit : recvInto responeData response =
      response ++ responeData[response.length] :: responeData.drop (response.length + 1) := by
    rw [recvInto, ← List.drop_eq_getElem_cons hroom]
  have hget : responeData[response.length]? = some responeData[response.length] :=
    List.getElem?_eq_getElem hroom
  rw [hsplit, hget, Option.some.injEq, printed]
  generalize responeData[response.length] = c
  by_cases hc : c = NUL
  · subst hc
    have hmem : NUL ∈ response ++ NUL :: responeData.drop (response.length + 1) :=
      List.mem_append_right _ List.mem_cons_self
    have hstring := stringAt_append hnul [] (responeData.drop (response.length + 1))
    rw [if_pos hmem]
    exact iff_of_true (congrArg some hstring) rfl
  · refine iff_of_false (fun h => ?_) hc
    split_ifs at h with hmem
    -- the byte behind the response is printed too
    have hall : ∀ d ∈ response, decide (d ≠ NUL) = true := fun d hd =>
      decide_eq_true fun heq => hnul (heq ▸ hd)
    have hstring := Option.some.inj h
    rw [stringAt, List.drop_zero, List.takeWhile_append_of_pos hall] at hstring
    have hnil := List.append_right_eq_self.mp hstring
    simp [hc] at hnil

/-- **Stale bytes.**  The client prints response `k` as the server has sent it exactly when no
earlier response was longer and the byte of the array behind it was a `NUL` from the start. -/
theorem displays_eq_iff {responeData : List Char} {responses : List (List Char)}
    (hnul : ∀ response ∈ responses, NUL ∉ response)
    (hroom : ∀ response ∈ responses, response.length < responeData.length) {k : ℕ}
    {response : List Char} (hk : responses[k]? = some response) :
    (displays responeData responses)[k]? = some (some response) ↔
      (∀ earlier ∈ responses.take k, earlier.length ≤ response.length) ∧
        responeData[response.length]? = some NUL := by
  induction responses generalizing responeData k with
  | nil => cases hk
  | cons first responses ih =>
    obtain ⟨hfirst, hrest⟩ := List.forall_mem_cons.mp hnul
    obtain ⟨hroom₁, hroom'⟩ := List.forall_mem_cons.mp hroom
    have hlength := length_recvInto hroom₁.le
    cases k with
    | zero =>
      obtain rfl := Option.some.inj hk
      rw [displays, List.getElem?_cons_zero, Option.some.injEq, printed_recvInto_iff hfirst hroom₁]
      exact (and_iff_right nofun).symm
    | succ k =>
      have hbyte := getElem?_foldl_recvInto (List.forall_mem_singleton.mpr hfirst) responeData
        response.length
      rw [List.foldl_cons, List.foldl_nil, List.forall_mem_singleton] at hbyte
      rw [List.getElem?_cons_succ] at hk
      rw [displays, List.getElem?_cons_succ, ih hrest (hlength ▸ hroom') hk, hbyte,
        List.take_succ_cons, List.forall_mem_cons]
      tauto

end OsLabs.ListServer
