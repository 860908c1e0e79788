import OsLabs.Lib.StrtokLoop
import OsLabs.Shell.Redirect

/-!
# Shell: one line of input

The loop in `main` of `shell.c`, from the line that `fgets` has read to the built-in that is run or
the argument vectors that `execute_command` gets.  A line is cut at its pipes first, and each piece
at its blanks, with a variable in place of each token that starts with `$`.
-/

namespace OsLabs.Shell

open OsLabs.Lib

def MAX_PIPES : ℕ := 16

def MAX_COMMAND_LINE_ARGS : ℕ := 128

/-- What `fgets` reads into the 1024 bytes of `command_line`: a newline can only be the last. -/
structure Line where
  bytes : List Char
  ne_nil : bytes ≠ []
  length_le : bytes.length ≤ 1023
  newline_last : '\n' ∉ bytes.dropLast

/-! ### Tokens -/

/-- `delimiters` -/
def isDelimiter (c : Char) : Bool := c = ' ' ∨ c = '\t' ∨ c = '\r' ∨ c = '\n'

/-- `"|"` -/
def isPipe (c : Char) : Bool := c = '|'

/-- An array of arguments, with `none` for `NULL`; all entries behind the list are `NULL`. -/
abbrev Arguments := List (Option CString)

/-- `arguments[i]`, where a string is needed. -/
def Arguments.string (arguments : Arguments) (i : ℕ) : Option CString := arguments[i]?.join

section Tokens

variable (getenv : CString → Option CString)

/-- The copy of a token that `tokenize` stores, or of the variable that it names. -/
def expand (token : CString) : CString :=
  if token.head? = some '$' then (getenv token.tail).getD [] else token

/-- The tokens of the string at `command_line`, and the memory behind. -/
def tokenize (mem : List Char) (command_line : ℕ) : List CString × List Char :=
  strtokLoop isDelimiter (fun mem p => expand getenv (stringAt mem p)) (MAX_COMMAND_LINE_ARGS - 1)
    (strtok isDelimiter mem command_line)

/-- `for (int i = 0; i < n_cmds; i++) tokenize(cmds[i], cmd_args[i])` -/
def tokenizeAll : List Char → List ℕ → List (List CString)
  | _, [] => []
  | mem, cmd :: cmds =>
    let (tokens, mem) := tokenize getenv mem cmd
    tokens :: tokenizeAll mem cmds

end Tokens

/-! ### Built-ins -/

inductive Effect
  | exit
  | chdir (path : CString)
  | printCwd
  | printEnviron
  | print (text : CString)
  | printError (text : CString)
  | setenv (name value : CString)
  deriving DecidableEq

/-- What `handle_builtin` does, if there is such a built-in; `none` if one of the functions that it
calls receives `NULL`. -/
def handleBuiltin (getenv : CString → Option CString) (arguments : Arguments) (argc : ℕ) :
    Option (Option Effect) :=
  if argc = 0 then some none
  else do
    let name ← arguments.string 0
    if name = "exit".toList then return some .exit
    else if name = "cd".toList then
      if argc < 2 then return some (.printError "cd: missing argument\n".toList)
      else return some (.chdir (← arguments.string 1))
    else if name = "pwd".toList then return some .printCwd
    else if name = "echo".toList then
      let words ← (List.range' 1 (argc - 1)).mapM arguments.string
      return some (.print (words.flatMap (· ++ [' ']) ++ ['\n']))
    else if name = "env".toList then
      if argc = 1 then return some .printEnviron
      else
        match getenv (← arguments.string 1) with
        | none => return some (.print [])
        | some val => return some (.print (val ++ ['\n']))
    else if name = "setenv".toList then
      if argc < 3 then return some (.printError "setenv: missing arguments\n".toList)
      else return some (.setenv (← arguments.string 1) (← arguments.string 2))
    else return none

/-! ### A line -/

/-- What `main` makes of a line: nothing, a call of `handle_builtin`, or one of
`execute_pipeline`. -/
inductive Stage
  | skip
  | single (arguments : Arguments) (argc : ℕ) (background : Bool)
  | pipeline (commands : List Arguments)
  deriving DecidableEq

/-- A command without a pipe: a last `&` becomes `NULL`, and `argc` stays. -/
def singleStage (tokens : List CString) : Stage :=
  if tokens = [] then .skip
  else if tokens.getLast? = some ['&'] then
    .single (tokens.dropLast.map some ++ [none]) tokens.length true
  else .single (tokens.map some) tokens.length false

/-- The branches on `n_cmds == 1`. -/
def commandStage (getenv : CString → Option CString) (command_line : List Char) :
    List ℕ → Stage
  | [cmd] => singleStage (tokenize getenv command_line cmd).1
  | cmds => .pipeline ((tokenizeAll getenv command_line cmds).map (·.map some))

/-- `strcspn(command_line, "\n")` -/
def newlineIndex (mem : List Char) : ℕ := ((stringAt mem 0).takeWhile (· ≠ '\n')).length

/-- The buffer behind the call of `fgets`. -/
def Line.read (line : Line) (buffer : List Char) : List Char :=
  line.bytes ++ NUL :: buffer.drop (line.bytes.length + 1)

def parseLine (getenv : CString → Option CString) (buffer : List Char) (line : Line) : Stage :=
  let command_line := line.read buffer
  if command_line.head? = some '\n' then .skip
  else
    let command_line := command_line.set (newlineIndex command_line) NUL
    let (cmds, command_line) :=
      strtokLoop isPipe (fun _ p => p) MAX_PIPES (strtok isPipe command_line 0)
    commandStage getenv command_line cmds

/-- What comes of a line; `none` if a function receives `NULL` that does not take it. -/
inductive Action
  | skip
  | builtin (effect : Effect)
  | command (arguments : Arguments) (background : Bool)
  | pipeline (commands : List Arguments)
  deriving DecidableEq

def Stage.run (getenv : CString → Option CString) : Stage → Option Action
  | skip => some .skip
  | single arguments argc background =>
    (handleBuiltin getenv arguments argc).map fun
      | some effect => .builtin effect
      | none => .command arguments background
  | pipeline commands => some (.pipeline commands)

def runLine (getenv : CString → Option CString) (buffer : List Char) (line : Line) :
    Option Action :=
  (parseLine getenv buffer line).run getenv

/-- The argument vectors that are passed to `execute_command`. -/
def Action.vectors : Action → List Arguments
  | skip | builtin _ => []
  | command arguments _ => [arguments]
  | pipeline commands => commands

/-- A pipeline has two commands at least, and no argument vector starts with `NULL`. -/
def RunsNonEmpty (getenv : CString → Option CString) (buffer : List Char) (line : Line) : Prop :=
  ∀ action, runLine getenv buffer line = some action →
    (∀ commands, action = .pipeline commands → 2 ≤ commands.length) ∧
      ∀ arguments ∈ action.vectors, arguments.string 0 ≠ none

/-- `handle_builtin` is called with `argc` strings, and does not pass `NULL` on. -/
def BuiltinArguments (getenv : CString → Option CString) (buffer : List Char) (line : Line) :
    Prop :=
  ∀ arguments argc background, parseLine getenv buffer line = .single arguments argc background →
    (∀ i < argc, arguments.string i ≠ none) ∧ handleBuiltin getenv arguments argc ≠ none

/-! ### The text of a line -/

/-- The line up to its newline, or to a `NUL`. -/
def Line.text (line : Line) : CString := line.bytes.takeWhile fun c => c ≠ NUL ∧ c ≠ '\n'

theorem Line.mem_text {line : Line} {c : Char} (hc : c ∈ line.text) : c ≠ NUL ∧ c ≠ '\n' := by
  simpa using List.mem_takeWhile_imp hc

theorem Line.nul_notMem_text (line : Line) : NUL ∉ line.text := fun hmem =>
  (Line.mem_text hmem).1 rfl

/-- The string that is cut at the pipes. -/
theorem Line.set_read (line : Line) (buffer : List Char) :
    ∃ back, (line.read buffer).set (newlineIndex (line.read buffer)) NUL =
      line.text ++ NUL :: back := by
  have hnul : (decide (NUL ≠ NUL ∧ NUL ≠ '\n')) = false := by decide
  obtain ⟨c, back, hc, hsplit⟩ := exists_takeWhile_append_cons
    (p := fun c => decide (c ≠ NUL ∧ c ≠ '\n')) hnul line.bytes
    (buffer.drop (line.bytes.length + 1))
  have hread : line.read buffer = line.text ++ c :: back := hsplit
  have hstop : c = NUL ∨ c = '\n' := by
    rw [decide_eq_false_iff_not] at hc
    tauto
  have hindex : newlineIndex (line.read buffer) = line.text.length := by
    have hall : ∀ d ∈ line.text, decide (d ≠ '\n') = true := fun d hd =>
      decide_eq_true (Line.mem_text hd).2
    rw [newlineIndex, hread]
    obtain rfl | rfl := hstop
    · have hstring := stringAt_append line.nul_notMem_text [] back
      rw [List.nil_append, List.length_nil] at hstring
      rw [hstring, List.takeWhile_eq_self_iff.mpr hall]
    · have hall' : ∀ d ∈ line.text, decide (d ≠ NUL) = true := fun d hd =>
        decide_eq_true (Line.mem_text hd).1
      rw [stringAt, List.drop_zero, List.takeWhile_append_of_pos hall',
        List.takeWhile_cons_of_pos (by decide), takeWhile_append_of_all hall]
      intro d hd
      rw [← Option.some.inj hd]
      rfl
  refine ⟨back, ?_⟩
  rw [hindex, hread, List.set_append_right _ _ le_rfl, Nat.sub_self, List.set_cons_zero]

/-! ### The stages of a line -/

section Stages

variable (getenv : CString → Option CString)

/-- The arguments in a piece of the line. -/
def argumentsOf (piece : CString) : List CString :=
  ((fields isDelimiter piece).take (MAX_COMMAND_LINE_ARGS - 1)).map (expand getenv)

/-- The stage of a line with these pieces. -/
def stageOf : List CString → Stage
  | [piece] => singleStage (argumentsOf getenv piece)
  | pieces => .pipeline (pieces.map fun piece => (argumentsOf getenv piece).map some)

theorem tokenize_eq {piece : CString} (hpiece : NUL ∉ piece) (before back : List Char) :
    ∃ text, text.length = piece.length ∧
      tokenize getenv (before ++ (piece ++ NUL :: back)) before.length =
        (argumentsOf getenv piece, before ++ (text ++ NUL :: back)) :=
  strtokLoop_copies hpiece isDelimiter before back (expand getenv) (MAX_COMMAND_LINE_ARGS - 1)

/-- Cutting up one piece leaves those behind it as they are. -/
theorem tokenizeAll_eq {before mem : List Char} {ps : List ℕ} {pieces : List CString}
    (hpieces : Pieces mem before.length ps pieces) :
    tokenizeAll getenv (before ++ mem) ps = pieces.map (argumentsOf getenv) := by
  induction pieces generalizing before mem ps with
  | nil =>
    cases hpieces
    rfl
  | cons piece pieces ih =>
    cases hpieces with
    | cons gap hnul hrest =>
      obtain ⟨text, hlength, htokenize⟩ := tokenize_eq getenv hnul (before ++ gap) _
      rw [List.length_append] at htokenize
      rw [← List.append_assoc, tokenizeAll, htokenize]
      dsimp only
      rw [List.map_cons]
      congr 1
      have hbase : (before ++ gap ++ (text ++ [NUL])).length =
          before.length + gap.length + piece.length + 1 := by
        simp only [List.length_append, List.length_singleton, hlength, Nat.add_assoc]
      rw [← hbase] at hrest
      have hnext := ih hrest
      simp only [List.append_assoc, List.cons_append, List.nil_append] at hnext ⊢
      exact hnext

theorem commandStage_eq {before mem : List Char} {ps : List ℕ} {pieces : List CString}
    (hpieces : Pieces mem before.length ps pieces) :
    commandStage getenv (before ++ mem) ps = stageOf getenv pieces := by
  have hall := tokenizeAll_eq getenv hpieces
  cases hpieces with
  | nil => rfl
  | cons gap hnul hrest =>
    cases hrest with
    | nil =>
      obtain ⟨hfirst, -⟩ := List.cons.inj hall
      rw [commandStage, stageOf]
      exact congrArg singleStage hfirst
    | cons gap' hnul' hrest' =>
      rw [commandStage, stageOf, hall, List.map_map]
      · rfl
      · simp
      · simp

/-- A line that does not start with its newline is cut at its pipes, up to the limit. -/
theorem parseLine_eq (buffer : List Char) (line : Line) :
    parseLine getenv buffer line =
      if line.bytes.head? = some '\n' then .skip
      else stageOf getenv ((fields isPipe line.text).take MAX_PIPES) := by
  have hhead : (line.read buffer).head? = line.bytes.head? :=
    List.head?_append_of_ne_nil _ line.ne_nil
  obtain ⟨back, hset⟩ := line.set_read buffer
  obtain ⟨ps, mem, hloop, hpieces⟩ :=
    strtokLoop_pieces line.nul_notMem_text isPipe [] back MAX_PIPES
  have hstage : commandStage getenv ([] ++ mem) ps = _ := commandStage_eq getenv hpieces
  rw [List.nil_append, List.nil_append, List.length_nil] at hloop
  rw [List.nil_append] at hstage
  rw [parseLine]
  dsimp only
  rw [hhead, hset, hloop, hstage]

end Stages

/-! ### Calls of `handle_builtin` -/

section Builtins

variable {getenv : CString → Option CString} {arguments : Arguments} {argc : ℕ}

theorem handleBuiltin_of_null (hargc : argc ≠ 0) (hnull : arguments.string 0 = none) :
    handleBuiltin getenv arguments argc = none := by
  rw [handleBuiltin, if_neg hargc, hnull]
  rfl

theorem exists_mapM_eq_some {α β : Type*} {f : α → Option β} {l : List α}
    (h : ∀ a ∈ l, f a ≠ none) : ∃ bs, l.mapM f = some bs := by
  induction l with
  | nil => exact ⟨[], rfl⟩
  | cons a l ih =>
    obtain ⟨ha, hl⟩ := List.forall_mem_cons.mp h
    obtain ⟨b, hb⟩ := Option.ne_none_iff_exists'.mp ha
    obtain ⟨bs, hbs⟩ := ih hl
    exact ⟨b :: bs, by simp [hb, hbs]⟩

/-- Each built-in takes its strings from the first `argc` entries. -/
theorem handleBuiltin_ne_none (hall : ∀ i < argc, arguments.string i ≠ none) :
    handleBuiltin getenv arguments argc ≠ none := by
  by_cases hargc : argc = 0
  · rw [handleBuiltin, if_pos hargc]
    exact Option.some_ne_none _
  obtain ⟨name, hname⟩ := Option.ne_none_iff_exists'.mp (hall 0 (Nat.pos_of_ne_zero hargc))
  have hentry : ∀ i < argc, ∃ a, arguments.string i = some a := fun i hi =>
    Option.ne_none_iff_exists'.mp (hall i hi)
  obtain ⟨echoed, hecho⟩ : ∃ echoed, (List.range' 1 (argc - 1)).mapM arguments.string =
      some echoed := by
    refine exists_mapM_eq_some fun i hi => hall i ?_
    have := (List.mem_range'_1.mp hi).2
    omega
  rw [handleBuiltin, if_neg hargc, hname]
  simp only [Option.bind_eq_bind, Option.bind_some, hecho]
  split_ifs with hexit hcd hfew hpwd hechoes henv hone hsetenv hmissing
  · exact Option.some_ne_none _
  · exact Option.some_ne_none _
  · obtain ⟨a, ha⟩ := hentry 1 (by omega)
    rw [ha]
    exact Option.some_ne_none _
  · exact Option.some_ne_none _
  · exact Option.some_ne_none _
  · exact Option.some_ne_none _
  · obtain ⟨a, ha⟩ := hentry 1 (by omega)
    rw [ha, Option.bind_some]
    cases getenv a <;> exact Option.some_ne_none _
  · exact Option.some_ne_none _
  · obtain ⟨a, ha⟩ := hentry 1 (by omega)
    obtain ⟨b, hb⟩ := hentry 2 (by omega)
    rw [ha, hb]
    exact Option.some_ne_none _
  · exact Option.some_ne_none _

/-- The entry of a last `&` is `NULL`, and `argc` counts it. -/
theorem singleStage_cases (tokens : List CString) :
    (tokens = [] ∧ singleStage tokens = .skip) ∨
      (tokens ≠ [] ∧ tokens.getLast? ≠ some ['&'] ∧
        singleStage tokens = .single (tokens.map some) tokens.length false) ∨
      ∃ front, tokens = front ++ [['&']] ∧
        singleStage tokens = .single (front.map some ++ [none]) (front.length + 1) true := by
  rw [singleStage]
  split_ifs with hnil hlast
  · exact Or.inl ⟨hnil, rfl⟩
  · obtain ⟨front, rfl⟩ := List.getLast?_eq_some_iff.mp hlast
    refine Or.inr (Or.inr ⟨front, rfl, ?_⟩)
    rw [List.dropLast_concat, List.length_append, List.length_singleton]
  · exact Or.inr (Or.inl ⟨hnil, hlast, rfl⟩)

theorem string_map_some (tokens : List CString) (i : ℕ) :
    Arguments.string (tokens.map some) i = tokens[i]? := by
  rw [Arguments.string, List.getElem?_map]
  cases tokens[i]? <;> rfl

/-- A single command gives `handle_builtin` its `argc` strings unless it ends with `&`. -/
theorem singleStage_arguments_iff (getenv : CString → Option CString) (tokens : List CString) :
    (∀ arguments argc background, singleStage tokens = .single arguments argc background →
      (∀ i < argc, arguments.string i ≠ none) ∧ handleBuiltin getenv arguments argc ≠ none) ↔
      tokens.getLast? ≠ some ['&'] := by
  obtain ⟨rfl, hstage⟩ | ⟨-, hlast, hstage⟩ | ⟨front, rfl, hstage⟩ := singleStage_cases tokens
  · rw [hstage]
    exact iff_of_true nofun (by simp)
  · rw [hstage]
    refine iff_of_true ?_ hlast
    intro arguments argc background heq
    cases heq
    have hall : ∀ i < tokens.length, Arguments.string (tokens.map some) i ≠ none := by
      intro i hi
      rw [string_map_some, List.getElem?_eq_getElem hi]
      exact Option.some_ne_none _
    exact ⟨hall, handleBuiltin_ne_none hall⟩
  · rw [hstage]
    refine iff_of_false ?_ (by simp)
    intro h
    refine (h _ _ _ rfl).1 front.length (Nat.lt_succ_self _) ?_
    have hlength : front.length = (front.map some).length := (List.length_map some).symm
    rw [Arguments.string, hlength, List.getElem?_concat_length]
    rfl

end Builtins

/-- The runs of the line without a `|`. -/
def Line.pieces (line : Line) : List CString := fields isPipe line.text

theorem Line.text_of_newline {line : Line} (hnewline : line.bytes.head? = some '\n') :
    line.text = [] := by
  obtain ⟨rest, hbytes⟩ := List.head?_eq_some_iff.mp hnewline
  rw [Line.text, hbytes]
  rfl

theorem Line.pieces_of_no_pipe {line : Line} (hpipe : '|' ∉ line.bytes) :
    line.pieces = if line.text = [] then [] else [line.text] := by
  split_ifs with hnil
  · rw [Line.pieces, hnil, fields_nil]
  · refine fields_of_no_delim (fun c hc => decide_eq_false ?_) hnil
    rintro rfl
    exact hpipe ((List.takeWhile_sublist _).subset hc)

/-- **Built-ins and the background marker.**  On a line without a pipe, `handle_builtin` gets `argc`
strings and passes no `NULL` on, unless the last argument is `&` or a variable with this value. -/
theorem builtinArguments_iff (getenv : CString → Option CString) (buffer : List Char) (line : Line)
    (hpipe : '|' ∉ line.bytes) :
    BuiltinArguments getenv buffer line ↔
      (argumentsOf getenv line.text).getLast? ≠ some ['&'] := by
  have hpieces := Line.pieces_of_no_pipe hpipe
  have hnone : (argumentsOf getenv []).getLast? ≠ some ['&'] := by
    rw [argumentsOf, fields_nil]
    exact (Option.some_ne_none _).symm
  rw [Line.pieces] at hpieces
  rw [BuiltinArguments, parseLine_eq, hpieces]
  by_cases hnewline : line.bytes.head? = some '\n'
  · rw [if_pos hnewline, Line.text_of_newline hnewline]
    exact iff_of_true nofun hnone
  · rw [if_neg hnewline]
    by_cases hnil : line.text = []
    · rw [if_pos hnil, hnil]
      exact iff_of_true nofun hnone
    · rw [if_neg hnil]
      exact singleStage_arguments_iff getenv (argumentsOf getenv line.text)

/-- `echo hi`, and a variable. -/
theorem builtinArguments_iff_sample :
    ∃ line : Line, line.bytes = "echo hi $X\n".toList ∧
      (BuiltinArguments (fun _ => some "there".toList) [] line ↔
        (argumentsOf (fun _ => some "there".toList) line.text).getLast? ≠ some ['&']) :=
  ⟨⟨"echo hi $X\n".toList, by decide, by decide, by decide⟩, rfl,
    builtinArguments_iff _ [] _ (by decide)⟩

/-- `cd &` -/
def cdBackground : Line := ⟨"cd &\n".toList, by decide, by decide, by decide⟩

theorem not_builtinArguments_cdBackground :
    ¬ BuiltinArguments (fun _ => none) [] cdBackground := by
  intro h
  have hparse : parseLine (fun _ => none) [] cdBackground =
      .single [some "cd".toList, none] 2 true := by decide
  exact (h _ _ _ hparse).2 (by decide)

/-! ### Argument vectors -/

section Vectors

variable (getenv : CString → Option CString)

theorem single_run {arguments : Arguments} {argc : ℕ} {background : Bool} {action : Action}
    (hargc : argc ≠ 0) (hrun : (Stage.single arguments argc background).run getenv = some action) :
    (∀ commands, action ≠ .pipeline commands) ∧
      ∀ arguments ∈ action.vectors, arguments.string 0 ≠ none := by
  obtain ⟨result, hbuiltin, rfl⟩ := Option.map_eq_some_iff.mp hrun
  cases result with
  | some effect => exact ⟨nofun, nofun⟩
  | none =>
    refine ⟨nofun, fun v hv hnull => ?_⟩
    obtain rfl := List.mem_singleton.mp hv
    rw [handleBuiltin_of_null hargc hnull] at hbuiltin
    cases hbuiltin

/-- The vector of a single command starts with a string, or `handle_builtin` has failed. -/
theorem singleStage_run {tokens : List CString} {action : Action}
    (hrun : (singleStage tokens).run getenv = some action) :
    (∀ commands, action ≠ .pipeline commands) ∧
      ∀ arguments ∈ action.vectors, arguments.string 0 ≠ none := by
  obtain ⟨-, hstage⟩ | ⟨hne, -, hstage⟩ | ⟨front, -, hstage⟩ := singleStage_cases tokens
  · rw [hstage] at hrun
    cases hrun
    exact ⟨nofun, nofun⟩
  · rw [hstage] at hrun
    exact single_run getenv (mt List.length_eq_zero_iff.mp hne) hrun
  · rw [hstage] at hrun
    exact single_run getenv (Nat.succ_ne_zero _) hrun

theorem pipeline_run_iff {commands : List Arguments} :
    (∀ action, (Stage.pipeline commands).run getenv = some action →
      (∀ commands, action = .pipeline commands → 2 ≤ commands.length) ∧
        ∀ arguments ∈ action.vectors, arguments.string 0 ≠ none) ↔
      2 ≤ commands.length ∧ ∀ arguments ∈ commands, arguments.string 0 ≠ none := by
  constructor
  · intro h
    obtain ⟨hlength, hvectors⟩ := h _ rfl
    exact ⟨hlength commands rfl, hvectors⟩
  · intro ⟨hlength, hvectors⟩ action hrun
    cases hrun
    refine ⟨fun commands heq => ?_, hvectors⟩
    cases heq
    exact hlength

/-- The vector of a piece starts with a string just when the piece is not blank. -/
theorem string_zero_argumentsOf_iff (piece : CString) :
    Arguments.string ((argumentsOf getenv piece).map some) 0 ≠ none ↔
      ∃ c ∈ piece, isDelimiter c = false := by
  rw [string_map_some, ← fields_ne_nil_iff, argumentsOf]
  cases fields isDelimiter piece with
  | nil => exact iff_of_false (fun h => h rfl) (fun h => h rfl)
  | cons tok toks => exact iff_of_true (Option.some_ne_none _) (List.cons_ne_nil _ _)

end Vectors

/-- **Non-empty commands.**  The line is empty, or it has one piece between its pipes, or it has
two at least and none of the first 16 is blank. -/
theorem runsNonEmpty_iff (getenv : CString → Option CString) (buffer : List Char) (line : Line) :
    RunsNonEmpty getenv buffer line ↔
      line.bytes.head? = some '\n' ∨ line.pieces.length = 1 ∨
        (2 ≤ line.pieces.length ∧
          ∀ piece ∈ line.pieces.take MAX_PIPES, ∃ c ∈ piece, isDelimiter c = false) := by
  rw [RunsNonEmpty, runLine, parseLine_eq, ← Line.pieces]
  by_cases hnewline : line.bytes.head? = some '\n'
  · rw [if_pos hnewline]
    refine iff_of_true ?_ (Or.inl hnewline)
    intro action hrun
    cases hrun
    exact ⟨nofun, nofun⟩
  rw [if_neg hnewline, or_iff_right hnewline]
  match line.pieces with
  | [] =>
    refine iff_of_false ?_ (by simp)
    intro h
    have htwo : 2 ≤ 0 := ((pipeline_run_iff getenv).mp h).1
    exact absurd htwo (by decide)
  | [piece] =>
    refine iff_of_true ?_ (Or.inl rfl)
    intro action hrun
    obtain ⟨hpipeline, hvectors⟩ := singleStage_run getenv hrun
    exact ⟨fun commands heq => absurd heq (hpipeline commands), hvectors⟩
  | piece :: piece' :: pieces =>
    have hlength : (piece :: piece' :: pieces).length ≠ 1 := by simp
    have htwo : 2 ≤ (piece :: piece' :: pieces).length := Nat.le_add_left 2 pieces.length
    rw [or_iff_right hlength, and_iff_right htwo]
    generalize htake : (piece :: piece' :: pieces).take MAX_PIPES = taken
    have hstage : stageOf getenv taken =
        .pipeline (taken.map fun piece => (argumentsOf getenv piece).map some) := by
      rw [← htake]
      rfl
    have htaken : 2 ≤ taken.length := by
      rw [← htake]
      exact Nat.le_add_left 2 _
    rw [hstage, pipeline_run_iff, List.length_map, and_iff_right htaken, List.forall_mem_map]
    exact forall₂_congr fun piece _ => string_zero_argumentsOf_iff getenv piece

/-- `|` -/
def barePipe : Line := ⟨"|\n".toList, by decide, by decide, by decide⟩

/-- `ls | ` -/
def emptyStage : Line := ⟨"ls | \n".toList, by decide, by decide, by decide⟩

theorem not_runsNonEmpty_samples :
    (¬ RunsNonEmpty (fun _ => none) [] barePipe) ∧
      ¬ RunsNonEmpty (fun _ => none) [] emptyStage := by
  have hbare : runLine (fun _ => none) [] barePipe = some (.pipeline []) := by decide
  have hempty : runLine (fun _ => none) [] emptyStage =
      some (.pipeline [[some "ls".toList], []]) := by decide
  constructor
  · intro h
    exact absurd ((h _ hbare).1 [] rfl) (by decide)
  · intro h
    exact (h _ hempty).2 [] (by decide) rfl

end OsLabs.Shell
