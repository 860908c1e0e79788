import OsLabs.Lib.Descriptors

/-!
# Shell: redirection

`execute_command` of `shell.c`.  The loop over the arguments carries out each redirection and puts
`NULL` in place of its operator.  The target stays in the array, and `execvp` reads the array up to
the first `NULL`, so a word behind a redirection is lost.
-/

namespace OsLabs.Shell

open OsLabs.Lib

abbrev CString := List Char

/-- The flags of the three calls of `open`. -/
inductive OpenMode
  /-- `O_WRONLY | O_CREAT | O_TRUNC` -/
  | truncate
  /-- `O_WRONLY | O_CREAT | O_APPEND` -/
  | append
  /-- `O_RDONLY` -/
  | read
  deriving DecidableEq, Repr

/-- What a descriptor refers to: a file that `execute_command` has opened, or something else. -/
inductive Stream
  | file (path : CString) (mode : OpenMode)
  | inherited (number : ℕ)
  deriving DecidableEq, Repr

def STDIN_FILENO : ℕ := 0

def STDOUT_FILENO : ℕ := 1

/-- The comparisons of `arguments[i]` with the operators. -/
def redirectionOf (token : CString) : Option OpenMode :=
  if token = ['>'] then some .truncate
  else if token = ['>', '>'] then some .append
  else if token = ['<'] then some .read
  else none

/-- The descriptor that the redirection replaces. -/
def OpenMode.newfd : OpenMode → ℕ
  | .truncate => STDOUT_FILENO
  | .append => STDOUT_FILENO
  | .read => STDIN_FILENO

/-- The loop from `arguments[i]` up to the `NULL` at the end: what it leaves in the array and in
the table.  `opens` says which calls of `open` succeed; `none` is the exit after one that fails,
and it does for the `NULL` behind an operator at the end. -/
def redirectLoop (opens : CString → OpenMode → Bool) :
    List CString → FdTable Stream → Option (List (Option CString) × FdTable Stream)
  | [], fds => some ([], fds)
  | token :: rest, fds =>
    match redirectionOf token with
    | none =>
      (redirectLoop opens rest fds).map fun (arguments, fds) => (some token :: arguments, fds)
    | some mode =>
      match rest.head? with
      | none => none
      | some target =>
        if opens target mode then
          (redirectLoop opens rest (fds.replace mode.newfd (.file target mode))).map
            fun (arguments, fds) => (none :: arguments, fds)
        else none

/-- What `execvp` is called with. -/
structure Exec where
  argv : List CString
  fds : FdTable Stream

/-- The argument vector ends at the first `NULL`. -/
def argvOf (arguments : List (Option CString)) : List CString :=
  (arguments.takeWhile Option.isSome).reduceOption

/-- The call of `execvp` in `execute_command(arguments)`, unless it exits before. -/
def executeCommand (opens : CString → OpenMode → Bool) (arguments : List CString)
    (fds : FdTable Stream) : Option Exec :=
  (redirectLoop opens arguments fds).map fun (arguments, fds) => ⟨argvOf arguments, fds⟩

/-! ### Commands with redirections -/

def OpenMode.operator : OpenMode → CString
  | .truncate => ['>']
  | .append => ['>', '>']
  | .read => ['<']

/-- A token that is no operator. -/
abbrev Word := { token : CString // redirectionOf token = none }

inductive Item
  | word (word : Word)
  | redirection (mode : OpenMode) (target : Word)

namespace Item

def isRedirection : Item → Bool
  | word _ => false
  | redirection _ _ => true

def tokens : Item → List CString
  | word w => [w]
  | redirection mode target => [mode.operator, target]

/-- What the loop leaves in the array. -/
def slots : Item → List (Option CString)
  | word w => [some w]
  | redirection _ target => [none, some target]

/-- What a redirection of this descriptor connects it to. -/
def stream (fd : ℕ) : Item → Option Stream
  | word _ => none
  | redirection mode target => if mode.newfd = fd then some (.file target mode) else none

/-- The call of `open` succeeds, if there is one. -/
def Opens (opens : CString → OpenMode → Bool) : Item → Prop
  | word _ => True
  | redirection mode target => opens target mode = true

end Item

def words (items : List Item) : List CString :=
  items.filterMap fun
    | .word w => some w
    | .redirection _ _ => none

/-- The last target for the descriptor, or what it referred to before. -/
def lastStream (fds : FdTable Stream) (items : List Item) (fd : ℕ) : Option Stream :=
  (items.filterMap (Item.stream fd)).getLast?.or (fds.lookup fd)

/-- `execvp` gets exactly the ordinary words, with each descriptor connected as the redirections
say. -/
def RunsCommand (items : List Item) (fds : FdTable Stream) (result : Option Exec) : Prop :=
  ∃ exec, result = some exec ∧ exec.argv = words items ∧
    ∀ fd, exec.fds.lookup fd = lastStream fds items fd

/-- No ordinary word stands behind a redirection. -/
def RedirectionsLast (items : List Item) : Prop :=
  items.Pairwise fun item behind => item.isRedirection = true → behind.isRedirection = true

/-! ### The loop over a command -/

theorem redirectionOf_operator (mode : OpenMode) : redirectionOf mode.operator = some mode := by
  cases mode <;> rfl

section

variable {opens : CString → OpenMode → Bool} {items : List Item} {fds : FdTable Stream}

/-- The table after the redirections. -/
def redirected (items : List Item) (fds : FdTable Stream) : FdTable Stream :=
  items.foldl (fun fds item => match item with
    | .word _ => fds
    | .redirection mode target => fds.replace mode.newfd (.file target mode)) fds

theorem redirectLoop_tokens (hopens : ∀ item ∈ items, item.Opens opens) (fds : FdTable Stream) :
    redirectLoop opens (items.flatMap Item.tokens) fds =
      some (items.flatMap Item.slots, redirected items fds) := by
  induction items generalizing fds with
  | nil => rfl
  | cons item items ih =>
    obtain ⟨hopen, hrest⟩ := List.forall_mem_cons.mp hopens
    cases item with
    | word w =>
      show redirectLoop opens (w :: items.flatMap Item.tokens) fds = _
      rw [redirectLoop, w.2]
      dsimp only
      rw [ih hrest]
      rfl
    | redirection mode target =>
      show redirectLoop opens (mode.operator :: target :: items.flatMap Item.tokens) fds = _
      rw [redirectLoop, redirectionOf_operator]
      dsimp only [List.head?_cons]
      rw [if_pos (show opens target mode = true from hopen), redirectLoop, target.2]
      dsimp only
      rw [ih hrest]
      rfl

/-- `execvp` gets the words in front of the first redirection. -/
theorem argvOf_slots_eq_words_iff (items : List Item) :
    argvOf (items.flatMap Item.slots) = words items ↔ RedirectionsLast items := by
  induction items with
  | nil => exact iff_of_true rfl List.Pairwise.nil
  | cons item items ih =>
    rw [RedirectionsLast, List.pairwise_cons]
    cases item with
    | word w =>
      show w.1 :: argvOf (items.flatMap Item.slots) = w.1 :: words items ↔ _
      rw [List.cons_inj_right, ih]
      exact (and_iff_right fun _ _ hword => absurd hword Bool.false_ne_true).symm
    | redirection mode target =>
      show [] = words items ↔ _
      have hall : [] = words items ↔ ∀ item ∈ items, item.isRedirection = true := by
        rw [eq_comm, words, List.filterMap_eq_nil_iff]
        refine forall₂_congr fun item _ => ?_
        cases item with
        | word w => exact iff_of_false (Option.some_ne_none _) Bool.false_ne_true
        | redirection mode target => exact iff_of_true rfl rfl
      rw [hall]
      constructor
      · intro hlast
        exact ⟨fun item hitem _ => hlast item hitem,
          List.pairwise_of_forall_mem_list fun _ _ item hitem _ => hlast item hitem⟩
      · exact fun h item hitem => h.1 item hitem rfl

/-- A redirection changes one descriptor, if the standard ones are open. -/
theorem lookup_replace_newfd (hin : fds.lookup STDIN_FILENO ≠ none)
    (hout : fds.lookup STDOUT_FILENO ≠ none) (mode : OpenMode) (file : Stream) (fd : ℕ) :
    (fds.replace mode.newfd file).lookup fd =
      if fd = mode.newfd then some file else fds.lookup fd := by
  refine FdTable.lookup_replace fds ?_ file fd
  cases mode with
  | truncate => exact hout
  | append => exact hout
  | read => exact hin

theorem lookup_redirected (hin : fds.lookup STDIN_FILENO ≠ none)
    (hout : fds.lookup STDOUT_FILENO ≠ none) (items : List Item) (fd : ℕ) :
    (redirected items fds).lookup fd = lastStream fds items fd := by
  induction items generalizing fds with
  | nil => rfl
  | cons item items ih =>
    cases item with
    | word w => exact ih hin hout
    | redirection mode target =>
      have hreplace := lookup_replace_newfd hin hout mode (.file target mode)
      have hopen : ∀ fd', fds.lookup fd' ≠ none →
          (fds.replace mode.newfd (.file target mode)).lookup fd' ≠ none := by
        intro fd' h
        rw [hreplace]
        split
        · exact Option.some_ne_none _
        · exact h
      show (redirected items (fds.replace mode.newfd (.file target mode))).lookup fd = _
      rw [ih (hopen _ hin) (hopen _ hout), lastStream, lastStream, hreplace, List.filterMap_cons,
        Item.stream]
      by_cases hfd : fd = mode.newfd
      · rw [if_pos hfd, if_pos hfd.symm, List.getLast?_cons]
        cases (items.filterMap (Item.stream fd)).getLast? <;> rfl
      · rw [if_neg hfd, if_neg (Ne.symm hfd)]

end

/-- **Redirections and the argument vector.**  If all calls of `open` succeed, `execvp` gets exactly
the ordinary words, with the descriptors connected to the last targets of their kind, if and only
if no ordinary word stands behind a redirection. -/
theorem executeCommand_runsCommand_iff (opens : CString → OpenMode → Bool) (items : List Item)
    (fds : FdTable Stream) (hopens : ∀ item ∈ items, item.Opens opens)
    (hin : fds.lookup STDIN_FILENO ≠ none) (hout : fds.lookup STDOUT_FILENO ≠ none) :
    RunsCommand items fds (executeCommand opens (items.flatMap Item.tokens) fds) ↔
      RedirectionsLast items := by
  rw [executeCommand, redirectLoop_tokens hopens, Option.map_some, ← argvOf_slots_eq_words_iff]
  constructor
  · rintro ⟨exec, hexec, hargv, -⟩
    obtain rfl := Option.some.inj hexec
    exact hargv
  · intro hargv
    exact ⟨_, rfl, hargv, lookup_redirected hin hout items⟩

/-- `sort -r < in > out` -/
theorem executeCommand_runsCommand_sample :
    let items : List Item := [.word ⟨"sort".toList, by decide⟩, .word ⟨"-r".toList, by decide⟩,
      .redirection .read ⟨"in".toList, by decide⟩,
      .redirection .truncate ⟨"out".toList, by decide⟩]
    let fds : FdTable Stream := ⟨[some (.inherited 0), some (.inherited 1), some (.inherited 2)]⟩
    RunsCommand items fds
        (executeCommand (fun _ _ => true) (items.flatMap Item.tokens) fds) ↔
      RedirectionsLast items := by
  refine executeCommand_runsCommand_iff (fun _ _ => true) _ _ (fun item hitem => ?_) (by decide)
    (by decide)
  cases item with
  | word w => exact trivial
  | redirection mode target => rfl

/-- `sort < in -r` runs `sort` without its option. -/
theorem wordBehindRedirection_lost :
    let items : List Item := [.word ⟨"sort".toList, by decide⟩,
      .redirection .read ⟨"in".toList, by decide⟩, .word ⟨"-r".toList, by decide⟩]
    let fds : FdTable Stream := ⟨[some (.inherited 0), some (.inherited 1), some (.inherited 2)]⟩
    ¬ RunsCommand items fds
      (executeCommand (fun _ _ => true) (items.flatMap Item.tokens) fds) := by
  intro items fds
  rintro ⟨exec, hexec, hargv, -⟩
  obtain rfl := Option.some.inj hexec
  revert hargv
  decide

end OsLabs.Shell
