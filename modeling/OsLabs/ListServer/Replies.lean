import OsLabs.ListServer.Dispatch

/-!
# What the server answers

The command in a text and the answer to it, over the sequence that the list stands for.  The
dispatch reads this command from the buffer, whatever is behind the text there, and leaves this
answer in `sendBuf`.
-/

namespace OsLabs.ListServer

open OsLabs.Lib
open OsLabs.LinkedList (ListT Represents listText)

/-! ### Commands -/

/-- The command that tokens make; further tokens do not count. -/
def Command.ofTokens : List (List Char) → Option Command
  | [] => none
  | token :: args =>
    match commandName token with
    | .exit => some .exit
    | .getLength => some .getLength
    | .addFront => args.head?.map fun val => .addFront (atoi val)
    | .addBack => args.head?.map fun val => .addBack (atoi val)
    | .addPosition =>
      args.head?.bind fun idx => args.tail.head?.map fun val => .addPosition (atoi idx) (atoi val)
    | .removeFront => some .removeFront
    | .removeBack => some .removeBack
    | .removePosition => args.head?.map fun idx => .removePosition (atoi idx)
    | .get => args.head?.map fun idx => .get (atoi idx)
    | .print => some .print
    | .invalid => some .invalid

/-- The command in a text without a `NUL`, if no argument is missing. -/
def commandOf (text : List Char) : Option Command := Command.ofTokens (fields isBlank text)

theorem readCommand_eq {recvBuf : List Char} {toks : List (List Char)}
    (hrecv : Remaining isBlank recvBuf 0 toks) : readCommand recvBuf = Command.ofTokens toks := by
  cases toks with
  | nil => exact readCommand_nil hrecv
  | cons token args =>
    obtain ⟨hstring, hrest⟩ := hrecv.strtok
    rw [readCommand, hstring, Command.ofTokens]
    simp only [List.head?_cons, Option.bind_eq_bind, Option.bind_some]
    cases commandName token with
    | exit | getLength | removeFront | removeBack | print | invalid => rfl
    | addFront | addBack | removePosition | get =>
      cases args with
      | nil =>
        rw [nextInt_nil hrest]
        rfl
      | cons arg args =>
        obtain ⟨s, hint, -⟩ := nextInt_cons hrest
        rw [hint]
        rfl
    | addPosition =>
      cases args with
      | nil =>
        rw [nextInt_nil hrest]
        rfl
      | cons idx args =>
        obtain ⟨s, hidx, hs⟩ := nextInt_cons hrest
        rw [hidx]
        dsimp only [Option.bind_some]
        cases args with
        | nil =>
          rw [nextInt_nil hs]
          rfl
        | cons val args =>
          obtain ⟨s', hval, -⟩ := nextInt_cons hs
          rw [hval]
          rfl

/-- The buffer behind the text of a message plays no part. -/
theorem readCommand_received (message : Message) (recvBuf : List Char) :
    readCommand (message.received recvBuf) = commandOf message.text :=
  readCommand_eq (remaining_received message recvBuf)

/-! ### Answers -/

/-- The text in `sendBuf`; there is none for `exit`. -/
def reply (xs : List ℤ) : Command → Option (List Char)
  | .exit => none
  | .getLength => some ("Length = ".toList ++ decimal xs.length)
  | .addFront val | .addBack val => some (ACK ++ " ".toList ++ decimal val)
  | .addPosition idx val =>
    some (ACK ++ " ".toList ++ decimal val ++ " at ".toList ++ decimal idx)
  | .removeFront =>
    some ("Removed ".toList ++ decimal (xs.head?.getD (-1)) ++ " from front".toList)
  | .removeBack =>
    some ("Removed ".toList ++ decimal (xs.getLast?.getD (-1)) ++ " from back".toList)
  | .removePosition idx =>
    some ("Removed ".toList ++ decimal (xs[idx.toNat]?.getD (-1)) ++ " at ".toList ++ decimal idx)
  | .get idx =>
    some ("Value at ".toList ++ decimal idx ++ " = ".toList ++ decimal (xs[idx.toNat]?.getD (-1)))
  | .print => some (listText " -> ".toList xs)
  | .invalid => some "Invalid command".toList

theorem decimal_chars {z : ℤ} {c : Char} (hc : c ∈ decimal z) : c = '-' ∨ c.isDigit = true := by
  obtain ⟨sign, digits, hz, -, hdigits, hsign⟩ := decimal_cons z
  rw [hz] at hc
  obtain hc | hc := List.mem_append.mp hc
  · obtain ⟨rfl, -⟩ | ⟨rfl, -⟩ := hsign
    · cases hc
    · exact Or.inl (List.mem_singleton.mp hc)
  · exact Or.inr (hdigits c hc)

theorem nul_notMem_decimal (z : ℤ) : NUL ∉ decimal z := by
  intro hmem
  obtain heq | hdigit := decimal_chars hmem
  · exact absurd heq (by decide)
  · exact absurd hdigit (by decide)

theorem nul_notMem_listText {separator : List Char} (hsep : NUL ∉ separator) (xs : List ℤ) :
    NUL ∉ listText separator xs := by
  intro hmem
  obtain hmem | hmem := List.mem_append.mp hmem
  · obtain ⟨x, -, hmem⟩ := List.mem_flatMap.mp hmem
    obtain hmem | hmem := List.mem_append.mp hmem
    · exact nul_notMem_decimal x hmem
    · exact hsep hmem
  · exact absurd hmem (by decide)

/-- An answer is a string with a byte at least. -/
theorem reply_string {xs : List ℤ} {cmd : Command} {text : List Char}
    (h : reply xs cmd = some text) : NUL ∉ text ∧ text ≠ [] := by
  have hdecimal := nul_notMem_decimal
  cases cmd with
  | exit => cases h
  | print =>
    obtain rfl := Option.some.inj h
    exact ⟨nul_notMem_listText (by decide) xs,
      List.append_ne_nil_of_right_ne_nil _ (List.cons_ne_nil _ _)⟩
  | invalid =>
    obtain rfl := Option.some.inj h
    exact ⟨by decide, List.cons_ne_nil _ _⟩
  | _ =>
    obtain rfl := Option.some.inj h
    refine ⟨?_, List.cons_ne_nil _ _⟩
    simp only [ACK, List.mem_append, hdecimal, not_or]
    decide

section Serve

variable (alloc : Allocator (Node ℤ)) {fuel : ℕ} {l : ListT} {xs : List ℤ}
  (hr : Represents l xs) (hfuel : xs.length ≤ fuel)

include hr hfuel

/-- The branch of a command other than `exit` and `print` leaves the answer in `sendBuf`. -/
theorem serve_reply {cmd : Command} (hexit : cmd ≠ .exit) (hprint : cmd ≠ .print) :
    ∃ l' text, reply xs cmd = some text ∧
      serve alloc fuel l cmd = some (.replied l' (some text)) ∧ Represents l' (effect xs cmd) := by
  cases cmd with
  | exit => exact absurd rfl hexit
  | print => exact absurd rfl hprint
  | getLength =>
    have hlength := LinkedList.listLength_spec hr hfuel
    exact ⟨l, _, rfl, by rw [serve, listLength_eq, hlength]; rfl, hr⟩
  | addFront val =>
    obtain ⟨l', hadd, hr'⟩ := LinkedList.listAddToFront_spec alloc hr val
    exact ⟨l', _, rfl, by rw [serve, listAddToFront_eq, hadd]; rfl, hr'⟩
  | addBack val =>
    obtain ⟨l', hadd, hr'⟩ := LinkedList.listAddToBack_spec alloc hr hfuel val
    exact ⟨l', _, rfl, by rw [serve, listAddToBack_eq, hadd]; rfl, hr'⟩
  | addPosition idx val =>
    obtain ⟨l', hadd, hr'⟩ := listAddAtIndex_spec alloc hr hfuel idx val
    exact ⟨l', _, rfl, by rw [serve, hadd]; rfl, hr'⟩
  | removeFront =>
    obtain ⟨l', hremove, hr'⟩ := LinkedList.listRemoveFromFront_spec hr
    exact ⟨l', _, rfl, by rw [serve, listRemoveFromFront_eq, hremove]; rfl, hr'⟩
  | removeBack =>
    obtain ⟨l', hremove, hr'⟩ := LinkedList.listRemoveFromBack_spec hr hfuel
    exact ⟨l', _, rfl, by rw [serve, listRemoveFromBack_eq, hremove]; rfl, hr'⟩
  | removePosition idx =>
    obtain ⟨l', hremove, hr'⟩ := LinkedList.listRemoveAtIndex_spec hr hfuel idx
    exact ⟨l', _, rfl, by rw [serve, listRemoveAtIndex_eq, hremove]; rfl, hr'⟩
  | get idx =>
    have hget := listGetElemAt_spec hr hfuel idx
    exact ⟨l, _, rfl, by rw [serve, hget]; rfl, hr⟩
  | invalid => exact ⟨l, _, rfl, rfl, hr⟩

/-- An answer that the server gives is the answer. -/
theorem serve_replied {cmd : Command} {l' : ListT} {text : List Char}
    (hserve : serve alloc fuel l cmd = some (.replied l' (some text))) :
    reply xs cmd = some text ∧ Represents l' (effect xs cmd) := by
  by_cases hexit : cmd = .exit
  · subst hexit
    obtain ⟨heap, hfree⟩ := serve_exit alloc hr hfuel
    rw [hfree] at hserve
    cases hserve
  by_cases hprint : cmd = .print
  · subst hprint
    obtain ⟨rfl, hstr⟩ := Outcome.replied.inj (Option.some.inj hserve)
    obtain ⟨-, -, htext⟩ := (LinkedList.printList_eq_some_iff hr hfuel).mp hstr
    exact ⟨congrArg some htext, hr⟩
  · obtain ⟨l'', text', hreply, hserve', hr'⟩ := serve_reply alloc hr hfuel hexit hprint
    rw [hserve] at hserve'
    cases hserve'
    exact ⟨hreply, hr'⟩

/-- It is given if it fits `sendBuf`. -/
theorem exists_serve_replied (hint : ∀ x ∈ xs, InInt x) {cmd : Command} {text : List Char}
    (hreply : reply xs cmd = some text) (hshort : text.length < 1024) :
    ∃ l', serve alloc fuel l cmd = some (.replied l' (some text)) := by
  by_cases hexit : cmd = .exit
  · subst hexit
    cases hreply
  by_cases hprint : cmd = .print
  · subst hprint
    obtain rfl := Option.some.inj hreply
    have hpieces : ∀ x ∈ xs, (decimal x ++ " -> ".toList).length < 32 := by
      intro x hx
      have hwidth := decimalWidth_le (hint x hx)
      rw [List.length_append, length_decimal]
      exact Nat.lt_of_le_of_lt (Nat.add_le_add_right hwidth _) (by decide)
    have hstr : listToString fuel l = some (listText " -> ".toList xs) :=
      (LinkedList.printList_eq_some_iff hr hfuel).mpr ⟨hpieces, hshort, rfl⟩
    exact ⟨l, by rw [serve, hstr]⟩
  · obtain ⟨l', text', hreply', hserve, -⟩ := serve_reply alloc hr hfuel hexit hprint
    rw [hreply] at hreply'
    cases hreply'
    exact ⟨l', hserve⟩

end Serve

/-! ### Requests one after the other -/

/-- The sequence behind requests; a request without a command has no effect. -/
def sequenceOf (log : List (List Char)) : List ℤ :=
  log.foldl (fun xs text => (commandOf text).elim xs (effect xs)) []

/-- The answer to a request behind others. -/
def answer (log : List (List Char)) (text : List Char) : Option (List Char) :=
  (commandOf text).bind (reply (sequenceOf log))

theorem sequenceOf_concat (log : List (List Char)) (text : List Char) :
    sequenceOf (log ++ [text]) =
      (commandOf text).elim (sequenceOf log) (effect (sequenceOf log)) := by
  rw [sequenceOf, List.foldl_append]
  rfl

/-- All values are `int`. -/
theorem inInt_wrapInt (x : ℤ) : InInt (wrapInt x) := by
  have hlow := Int.le_bmod (x := x) (m := 4294967296) (by decide)
  have hhigh := Int.bmod_lt (x := x) (m := 4294967296) (by decide)
  unfold InInt wrapInt
  omega

theorem inInt_atoi (nptr : List Char) : InInt (atoi nptr) := by
  rw [atoi]
  split
  · decide
  · exact inInt_wrapInt _

theorem inInt_of_ofTokens {toks : List (List Char)} {cmd : Command}
    (hcmd : Command.ofTokens toks = some cmd) : ∀ x ∈ cmd.args, InInt x := by
  cases toks with
  | nil => cases hcmd
  | cons token args =>
    rw [Command.ofTokens] at hcmd
    cases hname : commandName token with
    | exit | getLength | removeFront | removeBack | print | invalid =>
      rw [hname] at hcmd
      cases hcmd
      exact nofun
    | addFront | addBack | removePosition | get =>
      rw [hname] at hcmd
      obtain ⟨arg, -, rfl⟩ := Option.map_eq_some_iff.mp hcmd
      exact List.forall_mem_singleton.mpr (inInt_atoi arg)
    | addPosition =>
      rw [hname] at hcmd
      obtain ⟨idx, -, hval⟩ := Option.bind_eq_some_iff.mp hcmd
      obtain ⟨val, -, rfl⟩ := Option.map_eq_some_iff.mp hval
      exact List.forall_mem_cons.mpr
        ⟨inInt_atoi idx, List.forall_mem_singleton.mpr (inInt_atoi val)⟩

theorem mem_effect {xs : List ℤ} {cmd : Command} {x : ℤ} (hx : x ∈ effect xs cmd) :
    x ∈ xs ∨ x ∈ cmd.args := by
  cases cmd with
  | addFront val =>
    obtain rfl | hx := List.mem_cons.mp hx
    · exact Or.inr (List.mem_singleton_self x)
    · exact Or.inl hx
  | addBack val =>
    obtain hx | hx := List.mem_append.mp hx
    · exact Or.inl hx
    · exact Or.inr hx
  | addPosition idx val =>
    obtain rfl | hx := List.eq_or_mem_of_mem_insertIdx hx
    · exact Or.inr (List.mem_cons_of_mem _ (List.mem_singleton_self x))
    · exact Or.inl hx
  | removeFront => exact Or.inl (List.mem_of_mem_tail hx)
  | removeBack => exact Or.inl (List.mem_of_mem_dropLast hx)
  | removePosition idx => exact Or.inl (List.mem_of_mem_eraseIdx hx)
  | exit | getLength | get _ | print | invalid => exact Or.inl hx

theorem inInt_sequenceOf (log : List (List Char)) : ∀ x ∈ sequenceOf log, InInt x := by
  induction log using List.reverseRecOn with
  | nil => exact nofun
  | append_singleton log text ih =>
    rw [sequenceOf_concat]
    cases hcmd : commandOf text with
    | none => exact ih
    | some cmd =>
      intro x hx
      obtain hx | hx := mem_effect hx
      · exact ih x hx
      · exact inInt_of_ofTokens hcmd x hx

end OsLabs.ListServer
