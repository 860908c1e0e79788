import OsLabs.Lib.MachineInt
import OsLabs.Lib.ScanDecimal
import OsLabs.Lib.Strtok
import OsLabs.ListServer.ToString

/-!
# The dispatch loop of the list server

One iteration of the loop in `main`: the message is a C string, its first token names the command,
and the branch of the command takes the tokens that it needs.  `strcmp` and `atoi` fail on the
`NULL` that `strtok` returns behind the last token.
-/

namespace OsLabs.ListServer

open OsLabs.Lib
open OsLabs.LinkedList (ListT Represents)

/-! ### Reading a command -/

/-- `" "` -/
def isBlank (c : Char) : Bool := c = ' '

/-- `(int) strtol(nptr, NULL, 10)`, where a value out of range becomes the nearest `long`. -/
def atoi (nptr : List Char) : ℤ :=
  match (fopen nptr).scanInt.1 with
  | none => 0
  | some x => wrapInt (max (-9223372036854775808) (min x 9223372036854775807))

/-- The branches of the dispatch. -/
inductive CommandName
  | exit
  | getLength
  | addFront
  | addBack
  | addPosition
  | removeFront
  | removeBack
  | removePosition
  | get
  | print
  | invalid
  deriving DecidableEq

/-- The comparisons of the first token, in their order. -/
def commandName (token : List Char) : CommandName :=
  if token = "exit".toList then .exit
  else if token = "get_length".toList then .getLength
  else if token = "add_front".toList then .addFront
  else if token = "add_back".toList then .addBack
  else if token = "add_position".toList then .addPosition
  else if token = "remove_front".toList then .removeFront
  else if token = "remove_back".toList then .removeBack
  else if token = "remove_position".toList then .removePosition
  else if token = "get".toList then .get
  else if token = "print".toList then .print
  else .invalid

/-- A command with the values that its branch has read. -/
inductive Command
  | exit
  | getLength
  | addFront (val : ℤ)
  | addBack (val : ℤ)
  | addPosition (idx val : ℤ)
  | removeFront
  | removeBack
  | removePosition (idx : ℤ)
  | get (idx : ℤ)
  | print
  | invalid
  deriving DecidableEq

/-- `token = strtok(NULL, " ")` and `atoi(token)`. -/
def nextInt (s : Strtok) : Option (ℤ × Strtok) := do
  let s := strtok isBlank s.mem s.save
  return (atoi (← s.string), s)

/-- The command in the buffer; `none` if `strcmp` or `atoi` receives `NULL`. -/
def readCommand (recvBuf : List Char) : Option Command := do
  let first := strtok isBlank recvBuf 0
  match commandName (← first.string) with
  | .exit => return .exit
  | .getLength => return .getLength
  | .addFront => do
    let (val, _) ← nextInt first
    return .addFront val
  | .addBack => do
    let (val, _) ← nextInt first
    return .addBack val
  | .addPosition => do
    let (idx, s) ← nextInt first
    let (val, _) ← nextInt s
    return .addPosition idx val
  | .removeFront => return .removeFront
  | .removeBack => return .removeBack
  | .removePosition => do
    let (idx, _) ← nextInt first
    return .removePosition idx
  | .get => do
    let (idx, _) ← nextInt first
    return .get idx
  | .print => return .print
  | .invalid => return .invalid

/-! ### Serving it -/

/-- What a message leaves: the heap when the server exits, or the list and the text in `sendBuf`,
which is `none` where the string of the list does not fit its own buffer. -/
inductive Outcome
  | exited (heap : Heap (Node ℤ))
  | replied (l : ListT) (sendBuf : Option (List Char))

def ACK : List Char := "ACK".toList

section Serve

variable (alloc : Allocator (Node ℤ)) (fuel : ℕ) (l : ListT)

/-- The rest of the branch of a command. -/
def serve : Command → Option Outcome
  | .exit => do return .exited (← listFree fuel l)
  | .getLength => do
    let val ← listLength fuel l
    return .replied l (some ("Length = ".toList ++ decimal val))
  | .addFront val => do
    let l ← listAddToFront alloc l val
    return .replied l (some (ACK ++ " ".toList ++ decimal val))
  | .addBack val => do
    let l ← listAddToBack alloc fuel l val
    return .replied l (some (ACK ++ " ".toList ++ decimal val))
  | .addPosition idx val => do
    let l ← listAddAtIndex alloc fuel l idx val
    return .replied l
      (some (ACK ++ " ".toList ++ decimal val ++ " at ".toList ++ decimal idx))
  | .removeFront => do
    let (l, val) ← listRemoveFromFront l
    return .replied l (some ("Removed ".toList ++ decimal val ++ " from front".toList))
  | .removeBack => do
    let (l, val) ← listRemoveFromBack fuel l
    return .replied l (some ("Removed ".toList ++ decimal val ++ " from back".toList))
  | .removePosition idx => do
    let (l, val) ← listRemoveAtIndex fuel l idx
    return .replied l
      (some ("Removed ".toList ++ decimal val ++ " at ".toList ++ decimal idx))
  | .get idx => do
    let val ← listGetElemAt fuel l idx
    return .replied l
      (some ("Value at ".toList ++ decimal idx ++ " = ".toList ++ decimal val))
  | .print => some (.replied l (listToString fuel l))
  | .invalid => some (.replied l (some "Invalid command".toList))

/-- A message as `recv` returns it, with the size of the buffer less one as the limit. -/
structure Message where
  bytes : List Char
  length_pos : 0 < bytes.length
  length_le : bytes.length ≤ 1023

/-- The buffer with a message in it: `recvBuf[n] = '\0'`, and what was in it before behind that. -/
def Message.received (message : Message) (recvBuf : List Char) : List Char :=
  message.bytes ++ NUL :: recvBuf.drop (message.bytes.length + 1)

/-- One iteration of the loop for a message. -/
def dispatch (recvBuf : List Char) (message : Message) : Option Outcome := do
  serve alloc fuel l (← readCommand (message.received recvBuf))

end Serve

/-! ### Complete messages -/

/-- The number of tokens that a branch takes behind the first. -/
def arity : CommandName → ℕ
  | .addPosition => 2
  | .addFront | .addBack | .removePosition | .get => 1
  | .exit | .getLength | .removeFront | .removeBack | .print | .invalid => 0

/-- The text of an `int`, with nothing in front of it and nothing behind. -/
def IsIntText (text : List Char) : Prop :=
  NoSpaceFirst text ∧ ∃ x f, (fopen text).scanInt = (some x, f) ∧ f.rest = [] ∧ InInt x

/-- The message is the name of a command with its arguments, and no more. -/
def WellFormed (message : Message) : Prop :=
  ∃ name args, fields isBlank message.bytes = name :: args ∧ commandName name ≠ .invalid ∧
    args.length = arity (commandName name) ∧ ∀ arg ∈ args, IsIntText arg

/-- The branches that leave the list as it is: the queries, and a removal that finds no element. -/
def KeepsList (xs : List ℤ) (args : List ℤ) : CommandName → Prop
  | .getLength | .get | .print | .invalid => True
  | .removeFront | .removeBack => xs = []
  | .removePosition => ∀ idx ∈ args.head?, xs.length ≤ idx.toNat
  | .exit | .addFront | .addBack | .addPosition => False

/-- No `NULL` is passed on, and the list stays as it is unless the message is well formed. -/
def Survives (alloc : Allocator (Node ℤ)) (fuel : ℕ) (l : ListT) (xs : List ℤ)
    (recvBuf : List Char) (message : Message) : Prop :=
  ∃ outcome, dispatch alloc fuel l recvBuf message = some outcome ∧
    (¬ WellFormed message → ∃ l' sendBuf, outcome = .replied l' sendBuf ∧ Represents l' xs)

/-! ### What a command does to the list -/

def Command.name : Command → CommandName
  | .exit => .exit
  | .getLength => .getLength
  | .addFront _ => .addFront
  | .addBack _ => .addBack
  | .addPosition _ _ => .addPosition
  | .removeFront => .removeFront
  | .removeBack => .removeBack
  | .removePosition _ => .removePosition
  | .get _ => .get
  | .print => .print
  | .invalid => .invalid

def Command.args : Command → List ℤ
  | .addPosition idx val => [idx, val]
  | .addFront val | .addBack val => [val]
  | .removePosition idx | .get idx => [idx]
  | .exit | .getLength | .removeFront | .removeBack | .print | .invalid => []

/-- The sequence behind a command. -/
def effect (xs : List ℤ) : Command → List ℤ
  | .addFront val => val :: xs
  | .addBack val => xs ++ [val]
  | .addPosition idx val => xs.insertIdx (min idx.toNat xs.length) val
  | .removeFront => xs.tail
  | .removeBack => xs.dropLast
  | .removePosition idx => xs.eraseIdx idx.toNat
  | .exit | .getLength | .get _ | .print | .invalid => xs

theorem effect_eq_self_iff (xs : List ℤ) {cmd : Command} (hcmd : cmd ≠ .exit) :
    effect xs cmd = xs ↔ KeepsList xs cmd.args cmd.name := by
  have hlonger : ∀ ys : List ℤ, ys.length = xs.length + 1 → (ys = xs ↔ False) := by
    intro ys hlength
    refine iff_false_intro fun heq => ?_
    rw [heq] at hlength
    omega
  cases cmd with
  | exit => exact absurd rfl hcmd
  | addFront val => exact hlonger _ (List.length_cons)
  | addBack val => exact hlonger _ (List.length_append)
  | addPosition idx val =>
    exact hlonger _ (List.length_insertIdx_of_le_length (min_le_right _ _) val)
  | removeFront => cases xs <;> simp [effect, KeepsList, Command.name]
  | removeBack =>
    show xs.dropLast = xs ↔ xs = []
    constructor
    · intro heq
      have hlength := congrArg List.length heq
      rw [List.length_dropLast] at hlength
      exact List.length_eq_zero_iff.mp (by omega)
    · rintro rfl
      rfl
  | removePosition idx => simp [effect, KeepsList, Command.name, Command.args]
  | getLength | get _ | print | invalid => simp [effect, KeepsList, Command.name]

section Serve

variable (alloc : Allocator (Node ℤ)) {fuel : ℕ} {l : ListT} {xs : List ℤ}
  (hr : Represents l xs) (hfuel : xs.length ≤ fuel)

include hr hfuel

theorem serve_exit : ∃ heap, serve alloc fuel l .exit = some (.exited heap) := by
  obtain ⟨heap, hfree, -⟩ := listFree_spec hr hfuel
  exact ⟨heap, by rw [serve, hfree]; rfl⟩

/-- Any other command is answered, and the list then stands for the sequence behind it. -/
theorem serve_spec {cmd : Command} (hcmd : cmd ≠ .exit) :
    ∃ l' sendBuf, serve alloc fuel l cmd = some (.replied l' sendBuf) ∧
      Represents l' (effect xs cmd) := by
  cases cmd with
  | exit => exact absurd rfl hcmd
  | getLength =>
    have hlength := LinkedList.listLength_spec hr hfuel
    exact ⟨l, _, by rw [serve, listLength_eq, hlength]; rfl, hr⟩
  | addFront val =>
    obtain ⟨l', hadd, hr'⟩ := LinkedList.listAddToFront_spec alloc hr val
    exact ⟨l', _, by rw [serve, listAddToFront_eq, hadd]; rfl, hr'⟩
  | addBack val =>
    obtain ⟨l', hadd, hr'⟩ := LinkedList.listAddToBack_spec alloc hr hfuel val
    exact ⟨l', _, by rw [serve, listAddToBack_eq, hadd]; rfl, hr'⟩
  | addPosition idx val =>
    obtain ⟨l', hadd, hr'⟩ := listAddAtIndex_spec alloc hr hfuel idx val
    exact ⟨l', _, by rw [serve, hadd]; rfl, hr'⟩
  | removeFront =>
    obtain ⟨l', hremove, hr'⟩ := LinkedList.listRemoveFromFront_spec hr
    exact ⟨l', _, by rw [serve, listRemoveFromFront_eq, hremove]; rfl, hr'⟩
  | removeBack =>
    obtain ⟨l', hremove, hr'⟩ := LinkedList.listRemoveFromBack_spec hr hfuel
    exact ⟨l', _, by rw [serve, listRemoveFromBack_eq, hremove]; rfl, hr'⟩
  | removePosition idx =>
    obtain ⟨l', hremove, hr'⟩ := LinkedList.listRemoveAtIndex_spec hr hfuel idx
    exact ⟨l', _, by rw [serve, listRemoveAtIndex_eq, hremove]; rfl, hr'⟩
  | get idx =>
    have hget := listGetElemAt_spec hr hfuel idx
    exact ⟨l, _, by rw [serve, hget]; rfl, hr⟩
  | print => exact ⟨l, _, rfl, hr⟩
  | invalid => exact ⟨l, _, rfl, hr⟩

end Serve

/-! ### The tokens of a message -/

/-- The string in the buffer. -/
def Message.text (message : Message) : List Char := message.bytes.takeWhile (· ≠ NUL)

theorem nul_notMem_text (message : Message) : NUL ∉ message.text := by
  intro hmem
  have := List.mem_takeWhile_imp hmem
  simp at this

theorem received_eq (message : Message) (recvBuf : List Char) :
    ∃ back, message.received recvBuf = message.text ++ NUL :: back := by
  have hnul : (decide (NUL ≠ NUL)) = false := by decide
  obtain ⟨c, back, hc, hsplit⟩ := exists_takeWhile_append_cons (p := (decide <| · ≠ NUL)) hnul
    message.bytes (recvBuf.drop (message.bytes.length + 1))
  obtain rfl : c = NUL := by simpa using hc
  exact ⟨back, hsplit⟩

theorem nextInt_nil {s : Strtok} (h : Remaining isBlank s.mem s.save []) : nextInt s = none := by
  rw [nextInt, h.strtok.1]
  rfl

theorem nextInt_cons {s : Strtok} {tok : List Char} {toks : List (List Char)}
    (h : Remaining isBlank s.mem s.save (tok :: toks)) :
    ∃ s', nextInt s = some (atoi tok, s') ∧ Remaining isBlank s'.mem s'.save toks := by
  obtain ⟨hstring, hrest⟩ := h.strtok
  exact ⟨_, by rw [nextInt, hstring]; rfl, hrest⟩

section ReadCommand

variable {recvBuf : List Char}

theorem readCommand_nil (hrecv : Remaining isBlank recvBuf 0 []) : readCommand recvBuf = none := by
  rw [readCommand, hrecv.strtok.1]
  rfl

variable {token : List Char} {args : List (List Char)}
  (hrecv : Remaining isBlank recvBuf 0 (token :: args))

include hrecv

/-- With the tokens that its branch takes, a command is read. -/
theorem readCommand_of_le (hargs : arity (commandName token) ≤ args.length) :
    ∃ cmd, readCommand recvBuf = some cmd ∧ cmd.name = commandName token ∧
      cmd.args = (args.take (arity (commandName token))).map atoi := by
  obtain ⟨hstring, hrest⟩ := hrecv.strtok
  rw [readCommand, hstring]
  simp only [List.head?_cons, Option.bind_eq_bind, Option.bind_some]
  cases hname : commandName token with
  | exit | getLength | removeFront | removeBack | print | invalid => exact ⟨_, rfl, rfl, rfl⟩
  | addFront | addBack | removePosition | get =>
    rw [hname] at hargs
    obtain ⟨arg, args, rfl⟩ := List.exists_cons_of_length_pos hargs
    obtain ⟨s, hint, -⟩ := nextInt_cons hrest
    exact ⟨_, by rw [hint]; rfl, rfl, rfl⟩
  | addPosition =>
    rw [hname] at hargs
    obtain ⟨idx, args, rfl⟩ := List.exists_cons_of_length_pos (Nat.zero_lt_of_lt hargs)
    obtain ⟨val, args, rfl⟩ := List.exists_cons_of_length_pos (Nat.lt_of_succ_lt_succ hargs)
    obtain ⟨s, hidx, hs⟩ := nextInt_cons hrest
    obtain ⟨s', hval, -⟩ := nextInt_cons hs
    refine ⟨.addPosition (atoi idx) (atoi val), ?_, rfl, rfl⟩
    rw [hidx]
    dsimp only [Option.bind_some]
    rw [hval]
    rfl

/-- Without one of them `atoi` receives `NULL`. -/
theorem readCommand_of_lt (hargs : args.length < arity (commandName token)) :
    readCommand recvBuf = none := by
  obtain ⟨hstring, hrest⟩ := hrecv.strtok
  rw [readCommand, hstring]
  simp only [List.head?_cons, Option.bind_eq_bind, Option.bind_some]
  cases hname : commandName token with
  | exit | getLength | removeFront | removeBack | print | invalid =>
    rw [hname] at hargs
    cases hargs
  | addFront | addBack | removePosition | get =>
    rw [hname] at hargs
    obtain rfl := List.length_eq_zero_iff.mp (Nat.lt_one_iff.mp hargs)
    rw [nextInt_nil hrest]
    rfl
  | addPosition =>
    rw [hname] at hargs
    cases args with
    | nil =>
      rw [nextInt_nil hrest]
      rfl
    | cons idx args =>
      obtain rfl := List.length_eq_zero_iff.mp
        (Nat.lt_one_iff.mp (Nat.lt_of_succ_lt_succ hargs))
      obtain ⟨s, hidx, hs⟩ := nextInt_cons hrest
      rw [hidx]
      dsimp only [Option.bind_some]
      rw [nextInt_nil hs]
      rfl

end ReadCommand

/-! ### Messages that are well formed -/

theorem nul_notMem_of_commandName {name : List Char} (hname : commandName name ≠ .invalid) :
    NUL ∉ name := by
  intro hmem
  have hne : ∀ text : List Char, NUL ∉ text → name ≠ text := by
    rintro text htext rfl
    exact htext hmem
  apply hname
  rw [commandName, if_neg (hne _ (by decide)), if_neg (hne _ (by decide)),
    if_neg (hne _ (by decide)), if_neg (hne _ (by decide)), if_neg (hne _ (by decide)),
    if_neg (hne _ (by decide)), if_neg (hne _ (by decide)), if_neg (hne _ (by decide)),
    if_neg (hne _ (by decide)), if_neg (hne _ (by decide))]

theorem IsIntText.nul_notMem {text : List Char} (h : IsIntText text) : NUL ∉ text := by
  intro hmem
  obtain ⟨-, x, f, hscan, hrest, -⟩ := h
  have hleft := File.mem_scanInt (f := fopen text) hmem (by decide)
  rw [hscan, hrest] at hleft
  cases hleft

/-- The string of a well-formed message is all of it. -/
theorem WellFormed.text_eq {message : Message} (h : WellFormed message) :
    message.text = message.bytes := by
  obtain ⟨name, args, hfields, hname, -, hargs⟩ := h
  refine List.takeWhile_eq_self_iff.mpr fun c hc => ?_
  rw [decide_eq_true_eq]
  rintro rfl
  have hblank : isBlank NUL = false := by decide
  obtain ⟨f, hf, hnul⟩ := exists_field_of_mem hblank hc
  rw [hfields] at hf
  rcases List.mem_cons.mp hf with rfl | harg
  · exact nul_notMem_of_commandName hname hnul
  · exact (hargs f harg).nul_notMem hnul

/-- Its tokens are there. -/
theorem WellFormed.tokens {message : Message} (h : WellFormed message) :
    ∃ token args, fields isBlank message.text = token :: args ∧
      arity (commandName token) ≤ args.length := by
  rw [h.text_eq]
  obtain ⟨name, args, hfields, -, hlength, -⟩ := h
  exact ⟨name, args, hfields, hlength.ge⟩

/-! ### What a message leaves of the list -/

/-- Only the arguments that the branch takes count. -/
theorem keepsList_take (xs args : List ℤ) (name : CommandName) :
    KeepsList xs (args.take (arity name)) name ↔ KeepsList xs args name := by
  cases name with
  | removePosition => cases args <;> rfl
  | _ => rfl

theorem remaining_received (message : Message) (recvBuf : List Char) :
    Remaining isBlank (message.received recvBuf) 0 (fields isBlank message.text) := by
  obtain ⟨back, hback⟩ := received_eq message recvBuf
  rw [hback]
  exact remaining_zero (nul_notMem_text message) isBlank back

section Survives

variable (alloc : Allocator (Node ℤ)) {fuel : ℕ} {l : ListT} {xs : List ℤ}
  (hr : Represents l xs) (hfuel : xs.length ≤ fuel)

include hr hfuel

/-- A command that is read leaves the list as it is just when its branch does. -/
theorem serve_keeps_iff (cmd : Command) :
    (∃ l' sendBuf, serve alloc fuel l cmd = some (.replied l' sendBuf) ∧ Represents l' xs) ↔
      KeepsList xs cmd.args cmd.name := by
  by_cases hcmd : cmd = .exit
  · subst hcmd
    obtain ⟨heap, hserve⟩ := serve_exit alloc hr hfuel
    rw [hserve]
    refine iff_of_false ?_ id
    intro ⟨l', sendBuf, heq, _⟩
    cases heq
  · obtain ⟨l', sendBuf, hserve, hr'⟩ := serve_spec alloc hr hfuel hcmd
    rw [hserve, ← effect_eq_self_iff xs hcmd]
    constructor
    · intro ⟨l'', sendBuf', heq, hxs⟩
      cases heq
      exact hr'.unique hxs
    · intro heq
      rw [heq] at hr'
      exact ⟨l', sendBuf, rfl, hr'⟩

theorem exists_serve (cmd : Command) : ∃ outcome, serve alloc fuel l cmd = some outcome := by
  by_cases hcmd : cmd = .exit
  · subst hcmd
    obtain ⟨heap, hserve⟩ := serve_exit alloc hr hfuel
    exact ⟨_, hserve⟩
  · obtain ⟨l', sendBuf, hserve, -⟩ := serve_spec alloc hr hfuel hcmd
    exact ⟨_, hserve⟩

/-- **Messages that the server survives.**  They are the well-formed ones and those whose first token
is there, with all that its branch takes, and names a branch that leaves the list as it is. -/
theorem survives_iff (recvBuf : List Char) (message : Message) :
    Survives alloc fuel l xs recvBuf message ↔
      WellFormed message ∨
        ∃ token args, fields isBlank message.text = token :: args ∧
          arity (commandName token) ≤ args.length ∧
            KeepsList xs (args.map atoi) (commandName token) := by
  have hwell : WellFormed message → _ := WellFormed.tokens
  have hrecv := remaining_received message recvBuf
  rw [Survives, dispatch]
  cases hfields : fields isBlank message.text with
  | nil =>
    rw [hfields] at hrecv hwell
    rw [readCommand_nil hrecv]
    refine iff_of_false (by simp) ?_
    rintro (h | ⟨token, args, hnil, -⟩)
    · obtain ⟨token, args, hnil, -⟩ := hwell h
      cases hnil
    · cases hnil
  | cons token args =>
    rw [hfields] at hrecv hwell
    have hhead : ∀ p : List Char → List (List Char) → Prop,
        (∃ token' args', token :: args = token' :: args' ∧ p token' args') ↔ p token args := by
      simp
    simp only [hhead] at hwell ⊢
    rcases lt_or_ge args.length (arity (commandName token)) with hlt | hle
    · rw [readCommand_of_lt hrecv hlt]
      refine iff_of_false (by simp) fun h => not_le.mpr hlt ?_
      exact h.elim hwell And.left
    · obtain ⟨cmd, hread, hname, hargs⟩ := readCommand_of_le hrecv hle
      have hkeeps := serve_keeps_iff alloc hr hfuel cmd
      rw [hargs, hname, List.map_take, keepsList_take] at hkeeps
      obtain ⟨outcome, hserve⟩ := exists_serve alloc hr hfuel cmd
      rw [← hkeeps, hread, Option.bind_eq_bind, Option.bind_some, hserve]
      simp only [Option.some.injEq, exists_eq_left', hle, true_and, ← or_iff_not_imp_left]

end Survives

/-- `get 1 now` has an argument too many; the buffer holds what an earlier message has left. -/
theorem survives_iff_sample :
    ∃ l, (listAddToFront (Allocator.above _) listAlloc (-1) >>= fun l =>
          listAddToFront (Allocator.above _) l 3) = some l ∧
      ∃ message : Message, message.bytes = "get 1 now".toList ∧
        (Survives (Allocator.above _) 2 l [3, -1] "remove_position 1".toList message ↔
          WellFormed message ∨
            ∃ token args, fields isBlank message.text = token :: args ∧
              arity (commandName token) ≤ args.length ∧
                KeepsList [3, -1] (args.map atoi) (commandName token)) := by
  obtain ⟨l, hadd, hr⟩ := LinkedList.listAddToFront_spec (Allocator.above _)
    LinkedList.represents_listAlloc (-1)
  obtain ⟨l', hadd', hr'⟩ := LinkedList.listAddToFront_spec (Allocator.above _) hr 3
  refine ⟨l', ?_, ⟨"get 1 now".toList, by decide, by decide⟩, rfl,
    survives_iff (Allocator.above _) hr' (by decide) _ _⟩
  have hfirst : listAddToFront (Allocator.above _) listAlloc (-1) = some l :=
    (listAddToFront_eq _ _).trans hadd
  rw [hfirst, Option.bind_eq_bind, Option.bind_some, listAddToFront_eq, hadd']

/-- A single blank. -/
def blankMessage : Message := ⟨" ".toList, by decide, by decide⟩

/-- `add_front` without a value. -/
def bareAddFront : Message := ⟨"add_front".toList, by decide, by decide⟩

/-- `add_front` with a value that is no number. -/
def addFrontAbc : Message := ⟨"add_front abc".toList, by decide, by decide⟩

theorem not_survives_samples :
    (¬ Survives (Allocator.above _) 0 listAlloc [] [] blankMessage) ∧
      (¬ Survives (Allocator.above _) 0 listAlloc [] [] bareAddFront) ∧
        ¬ Survives (Allocator.above _) 0 listAlloc [] [] addFrontAbc := by
  have hblank : readCommand (blankMessage.received []) = none := by decide
  have hbare : readCommand (bareAddFront.received []) = none := by decide
  have habc : readCommand (addFrontAbc.received []) = some (.addFront 0) := by decide
  have hill : ¬ WellFormed addFrontAbc := by
    intro ⟨name, args, hfields, _, _, hargs⟩
    have hsplit : fields isBlank addFrontAbc.bytes = ["add_front".toList, "abc".toList] := by
      decide
    obtain ⟨-, rfl⟩ := List.cons.inj (hsplit.symm.trans hfields)
    obtain ⟨-, x, f, hscan, -⟩ := hargs _ List.mem_cons_self
    have hnone : (fopen "abc".toList).scanInt.1 = none := by decide
    rw [hscan] at hnone
    cases hnone
  refine ⟨?_, ?_, ?_⟩
  · intro ⟨outcome, hdispatch, _⟩
    rw [dispatch, hblank] at hdispatch
    cases hdispatch
  · intro ⟨outcome, hdispatch, _⟩
    rw [dispatch, hbare] at hdispatch
    cases hdispatch
  · intro ⟨outcome, hdispatch, hkeep⟩
    rw [dispatch, habc] at hdispatch
    obtain ⟨l', sendBuf, rfl, hr⟩ := hkeep hill
    have hkeeps := serve_keeps_iff (Allocator.above _) LinkedList.represents_listAlloc
      (Nat.zero_le 0) (.addFront 0)
    exact hkeeps.mp ⟨l', sendBuf, hdispatch, hr⟩

end OsLabs.ListServer
