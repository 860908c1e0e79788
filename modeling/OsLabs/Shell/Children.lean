import OsLabs.Shell.Pipeline
import OsLabs.Shell.Script

/-!
# Shell: what the children of a pipeline run

A line with a pipe from its bytes to the calls of `execvp`.  A child of `execute_pipeline` calls
`execute_command` with the arguments that `main` has cut out of the line and with the descriptors
that it has after its calls of `dup2` and `close`.
-/

namespace OsLabs.Shell

open OsLabs.Lib OsLabs.Shell.Pipeline

variable {α : Type*}

/-! ### The descriptors of a child in `execute_command` -/

/-- The table at the call of `execute_command`, each descriptor under its number. -/
def streams {β : Type*} (fds : FdTable β) : FdTable Stream where
  slots := fds.slots.mapIdx fun fd slot => slot.map fun _ => .inherited fd

theorem lookup_streams {β : Type*} (fds : FdTable β) (fd : ℕ) :
    (streams fds).lookup fd = (fds.lookup fd).map fun _ => .inherited fd := by
  rw [FdTable.lookup, FdTable.lookup, streams, List.getElem?_mapIdx]
  cases fds.slots[fd]? <;> rfl

/-- What a process may be connected to: a file that `execute_command` has opened, or what its
parent or `dup2` has left it. -/
inductive Target (α : Type*)
  | file (path : CString) (mode : OpenMode)
  | handle (handle : Handle α)
  deriving DecidableEq

/-- What a descriptor of a program refers to. -/
def Exec.target (exec : Exec) (fds : FdTable (Handle α)) (fd : ℕ) : Option (Target α) :=
  (exec.fds.lookup fd).bind fun
    | .file path mode => some (.file path mode)
    | .inherited number => (fds.lookup number).map .handle

/-- The file of the last redirection for a descriptor, or what else it refers to. -/
def lastTarget (items : List Item) (fd : ℕ) (otherwise : Option (Handle α)) :
    Option (Target α) :=
  match (items.filterMap (Item.stream fd)).getLast? with
  | some (.file path mode) => some (.file path mode)
  | _ => otherwise.map .handle

/-- Child `i` of a pipeline of `n` commands calls `execvp` with the words of its command.  Its
input is the last file behind a `<`, or else comes from child `i - 1`, and its output goes to the
last file behind a `>` or `>>`, or else to child `i + 1`; nothing else of the pipes is open. -/
structure ChildRuns (n : ℕ) (fds : FdTable α) (i : ℕ) (items : List Item) (image : Image α)
    (exec : Exec) : Prop where
  argv : exec.argv = words items
  stdin : exec.target image.fds 0 =
    lastTarget items 0 (if i = 0 then inherited fds 0 else some (.readEnd (i - 1)))
  stdout : exec.target image.fds 1 =
    lastTarget items 1 (if i = n - 1 then inherited fds 1 else some (.writeEnd i))
  others : ∀ fd handle, fd ≠ 0 → fd ≠ 1 → exec.target image.fds fd = some (.handle handle) →
    handle.isPipe = false

theorem stream_file {item : Item} {fd : ℕ} {stream : Stream} (h : item.stream fd = some stream) :
    ∃ path mode, stream = .file path mode ∧ mode.newfd = fd := by
  cases item with
  | word w => cases h
  | redirection mode target =>
    rw [Item.stream] at h
    split_ifs at h with hfd
    exact ⟨_, _, (Option.some.inj h).symm, hfd⟩

/-- The redirections of a command come on top of the descriptors of its process. -/
theorem target_of_lastStream {items : List Item} {fds : FdTable (Handle α)} {exec : Exec} {fd : ℕ}
    (h : exec.fds.lookup fd = lastStream (streams fds) items fd) :
    exec.target fds fd = lastTarget items fd (fds.lookup fd) := by
  rw [Exec.target, h, lastStream, lastTarget]
  cases hlast : (items.filterMap (Item.stream fd)).getLast? with
  | none =>
    rw [Option.none_or, lookup_streams]
    cases hopen : fds.lookup fd with
    | none => rfl
    | some handle =>
      rw [Option.map_some, Option.bind_some]
      dsimp only
      rw [hopen]
  | some stream =>
    obtain ⟨item, -, hitem⟩ := List.mem_filterMap.mp (List.mem_of_getLast? hlast)
    obtain ⟨path, mode, rfl, -⟩ := stream_file hitem
    rfl

/-- `execute_command` in a child that has its descriptors right. -/
theorem Pipeline.ChildExact.runs {n : ℕ} {fds : FdTable α} {i : ℕ} {image : Image α}
    (h : ChildExact n fds i image) {opens : CString → OpenMode → Bool} {items : List Item}
    (hopens : ∀ item ∈ items, item.Opens opens) (hlast : RedirectionsLast items)
    (hin : fds.lookup 0 ≠ none) (hout : fds.lookup 1 ≠ none) :
    ∃ exec, executeCommand opens (items.flatMap Item.tokens) (streams image.fds) = some exec ∧
      ChildRuns n fds i items image exec := by
  have hstd : ∀ fd, image.fds.lookup fd ≠ none → (streams image.fds).lookup fd ≠ none := by
    intro fd hopen
    rw [lookup_streams]
    exact mt Option.map_eq_none_iff.mp hopen
  have hzero : image.fds.lookup STDIN_FILENO ≠ none := by
    show image.fds.lookup 0 ≠ none
    rw [h.stdin]
    split_ifs
    · exact mt Option.map_eq_none_iff.mp hin
    · exact Option.some_ne_none _
  have hone : image.fds.lookup STDOUT_FILENO ≠ none := by
    show image.fds.lookup 1 ≠ none
    rw [h.stdout]
    split_ifs
    · exact mt Option.map_eq_none_iff.mp hout
    · exact Option.some_ne_none _
  have hargv := (argvOf_slots_eq_words_iff items).mpr hlast
  have htarget : ∀ fd, (⟨argvOf (items.flatMap Item.slots),
      redirected items (streams image.fds)⟩ : Exec).target image.fds fd =
        lastTarget items fd (image.fds.lookup fd) := fun fd =>
    target_of_lastStream (lookup_redirected (hstd _ hzero) (hstd _ hone) items fd)
  refine ⟨⟨argvOf (items.flatMap Item.slots), redirected items (streams image.fds)⟩, ?_, ?_⟩
  · rw [executeCommand, redirectLoop_tokens hopens]
    rfl
  · refine ⟨hargv, ?_, ?_, fun fd handle h0 h1 hhandle => ?_⟩
    · rw [htarget, h.stdin]
    · rw [htarget, h.stdout]
    · rw [htarget, lastTarget] at hhandle
      split at hhandle
      · cases hhandle
      · obtain ⟨handle', hopen, heq⟩ := Option.map_eq_some_iff.mp hhandle
        cases heq
        exact h.others fd handle h0 h1 hopen

/-! ### A line with a pipe -/

/-- The commands that a line stands for, with the values of its words; in each of them the
redirections come last and their files can be opened. -/
structure TypedLine.Means (getenv : CString → Option CString)
    (opens : CString → OpenMode → Bool) (line : TypedLine) (commands : List (List Item)) :
    Prop where
  tokens : line.commands.map (TypedCommand.values getenv) =
    commands.map (·.flatMap Item.tokens)
  opens : ∀ items ∈ commands, ∀ item ∈ items, item.Opens opens
  last : ∀ items ∈ commands, RedirectionsLast items

/-- **A pipeline runs as it is typed.**  `main` cuts the bytes of the line into the commands that
they stand for, and in every interleaving of the parent and the children each child that gets to
`execute_command` calls `execvp` with the words of its command, between its two neighbours and with
its own redirections. -/
theorem pipeline_runs_as_typed {getenv : CString → Option CString}
    {opens : CString → OpenMode → Bool} {line : TypedLine} {commands : List (List Item)}
    (hmeans : line.Means getenv opens commands) (hpipe : 2 ≤ commands.length)
    (buffer : List Char) (rest : List Char) {fds : FdTable α} (hin : fds.lookup 0 ≠ none)
    (hout : fds.lookup 1 ≠ none) (pipefd : ℕ → ℕ) :
    (∃ l, fgets (line.bytes ++ rest) = some (l, rest) ∧
      runLine getenv buffer l =
        some (.pipeline (commands.map fun items => (items.flatMap Item.tokens).map some))) ∧
    ∀ s, (executePipeline commands.length fds pipefd).Reachable s → ∀ i c, s.child i = some c →
      c.loc = .executing → ∃ items exec, commands[i]? = some items ∧
        executeCommand opens (items.flatMap Item.tokens) (streams c.image.fds) = some exec ∧
        ChildRuns commands.length fds i items c.image exec := by
  constructor
  · obtain ⟨l, hl, hread⟩ := line.fgets_bytes rest
    refine ⟨l, hread, ?_⟩
    have htokens := hmeans.tokens
    rw [runLine, line.parseLine_bytes getenv buffer hl]
    have hlength := congrArg List.length htokens
    rw [List.length_map, List.length_map] at hlength
    rw [← hlength] at hpipe
    obtain ⟨command, behind, hcommands⟩ := List.exists_cons_of_length_pos (Nat.zero_lt_of_lt hpipe)
    rw [hcommands] at hpipe htokens ⊢
    obtain ⟨next, behind, rfl⟩ := List.exists_cons_of_length_pos (Nat.lt_of_succ_lt_succ hpipe)
    have hsome := congrArg (List.map (List.map some)) htokens
    rw [List.map_map, List.map_map] at hsome
    exact congrArg (fun commands => some (Action.pipeline commands)) hsome
  · intro s hreach i c hc hloc
    have hinv := inv_of_reachable hreach
    obtain ⟨hi, hchild⟩ := hinv.child i c hc
    rw [hloc] at hchild
    have hitems : commands[i]? = some commands[i] := List.getElem?_eq_getElem hi
    have hmem := List.mem_of_getElem? hitems
    obtain ⟨exec, hexec, hruns⟩ := (childExact_of_holds hi hchild).runs
      (hmeans.opens _ hmem) (hmeans.last _ hmem) hin hout
    exact ⟨_, exec, hitems, hexec, hruns⟩

/-- `ls` -/
def ls : TypedCommand where
  words := [.literal "ls".toList (by decide) (by decide) rfl]
  ne_nil := List.cons_ne_nil _ _
  length_le := by decide

/-- `sort > out` -/
def sortOut : TypedCommand where
  words := [.literal "sort".toList (by decide) (by decide) rfl,
    .literal ">".toList (by decide) (by decide) rfl,
    .literal "out".toList (by decide) (by decide) rfl]
  ne_nil := List.cons_ne_nil _ _
  length_le := by decide

/-- `ls|sort > out`, whose second child gets to `execute_command`. -/
theorem pipeline_runs_as_typed_lsSort :
    let line : TypedLine := ⟨[ls, sortOut], by decide, by decide⟩
    let commands : List (List Item) := [[.word ⟨"ls".toList, by decide⟩],
      [.word ⟨"sort".toList, by decide⟩, .redirection .truncate ⟨"out".toList, by decide⟩]]
    (∃ l, fgets (line.bytes ++ []) = some (l, []) ∧
      runLine (fun _ => none) [] l =
        some (.pipeline (commands.map fun items => (items.flatMap Item.tokens).map some))) ∧
    ∃ s c items exec, (executePipeline 2 terminal fun _ => 0).Reachable s ∧ s.child 1 = some c ∧
      commands[1]? = some items ∧ ChildRuns 2 terminal 1 items c.image exec := by
  intro line commands
  have hmeans : line.Means (fun _ => none) (fun _ _ => true) commands := by
    refine ⟨by decide, fun items hitems item hitem => ?_, fun items hitems => ?_⟩
    · cases item with
      | word w => exact trivial
      | redirection mode target => rfl
    · obtain rfl | hitems := List.mem_cons.mp hitems
      · exact List.pairwise_singleton _ _
      · obtain rfl := List.mem_singleton.mp hitems
        exact List.pairwise_pair.mpr fun h => absurd h (by decide)
  obtain ⟨hparse, hrun⟩ := pipeline_runs_as_typed hmeans (by decide) [] []
    (show terminal.lookup 0 ≠ none by decide) (by decide) fun _ => 0
  refine ⟨hparse, ?_⟩
  have hend : ((parentFirst 2 ++ (runChild 2 1).dropLast).foldlM (State.next 2)
      (start terminal fun _ => 0)).bind (fun s => (s.child 1).map Child.loc) =
        some .executing := by decide
  obtain ⟨s, hsteps, hview⟩ := Option.bind_eq_some_iff.mp hend
  obtain ⟨c, hc, hloc⟩ := Option.map_eq_some_iff.mp hview
  have hreach := Machine.reachable_of_foldlM hsteps
  obtain ⟨items, exec, hitems, -, hruns⟩ := hrun s hreach 1 c hc hloc
  exact ⟨s, c, items, exec, hreach, hc, hitems, hruns⟩

end OsLabs.Shell
