import OsLabs.Shell.Session

/-!
# Shell: scripts

A language of command lines with a meaning of its own, in which a built-in gets its arguments as
a list and a command its words.  The text of a script, read by `main` from standard input, has the
outputs that the script means.
-/

namespace OsLabs.Shell

open OsLabs.Lib

/-! ### Words, commands and lines -/

/-- A byte that neither ends a word nor a command. -/
def isPlain (c : Char) : Bool := c ≠ NUL && !isDelimiter c && !isPipe c

theorem isPlain_iff {c : Char} :
    isPlain c = true ↔ c ≠ NUL ∧ isDelimiter c = false ∧ isPipe c = false := by
  simp [isPlain, and_assoc]

/-- A word as it is typed. -/
inductive TypedWord
  | literal (text : CString) (ne_nil : text ≠ []) (first : text.head? ≠ some '$')
    (plain : text.all isPlain = true)
  /-- The variable of this name. -/
  | var (name : CString) (plain : name.all isPlain = true)

namespace TypedWord

def text : TypedWord → CString
  | literal text _ _ _ => text
  | var name _ => '$' :: name

/-- A variable that is not set is an empty word. -/
def value (getenv : CString → Option CString) : TypedWord → CString
  | literal text _ _ _ => text
  | var name _ => (getenv name).getD []

theorem text_ne_nil (w : TypedWord) : w.text ≠ [] := by
  cases w with
  | literal text ne_nil first plain => exact ne_nil
  | var name plain => exact List.cons_ne_nil _ _

theorem plain_text (w : TypedWord) : ∀ c ∈ w.text, isPlain c = true := by
  cases w with
  | literal text ne_nil first plain => exact List.all_eq_true.mp plain
  | var name plain => exact List.forall_mem_cons.mpr ⟨rfl, List.all_eq_true.mp plain⟩

theorem expand_text (getenv : CString → Option CString) (w : TypedWord) :
    expand getenv w.text = w.value getenv := by
  cases w with
  | literal text ne_nil first plain => exact if_neg first
  | var name plain => rfl

end TypedWord

structure TypedCommand where
  words : List TypedWord
  ne_nil : words ≠ []
  length_le : words.length ≤ MAX_COMMAND_LINE_ARGS - 1

namespace TypedCommand

def text (command : TypedCommand) : CString := [' '].intercalate (command.words.map TypedWord.text)

def values (getenv : CString → Option CString) (command : TypedCommand) : List CString :=
  command.words.map (TypedWord.value getenv)

theorem text_ne_nil (command : TypedCommand) : command.text ≠ [] := by
  refine intercalate_ne_nil (mt List.map_eq_nil_iff.mp command.ne_nil) fun tok htok => ?_
  obtain ⟨w, -, rfl⟩ := List.mem_map.mp htok
  exact w.text_ne_nil

theorem blank_or_plain (command : TypedCommand) :
    ∀ c ∈ command.text, c = ' ' ∨ isPlain c = true := by
  intro c hc
  refine (mem_intercalate hc).imp_right fun ⟨tok, htok, hmem⟩ => ?_
  obtain ⟨w, -, rfl⟩ := List.mem_map.mp htok
  exact w.plain_text c hmem

/-- Reading a command back. -/
theorem argumentsOf_text (getenv : CString → Option CString) (command : TypedCommand) :
    argumentsOf getenv command.text = command.values getenv := by
  have hfields : fields isDelimiter command.text = command.words.map TypedWord.text := by
    refine fields_intercalate (by decide) fun tok htok => ?_
    obtain ⟨w, -, rfl⟩ := List.mem_map.mp htok
    exact ⟨w.text_ne_nil, fun c hc => (isPlain_iff.mp (w.plain_text c hc)).2.1⟩
  have hall : (command.words.map TypedWord.text).length ≤ MAX_COMMAND_LINE_ARGS - 1 := by
    rw [List.length_map]
    exact command.length_le
  rw [argumentsOf, hfields, List.take_of_length_le hall, List.map_map]
  exact List.map_congr_left fun w _ => w.expand_text getenv

theorem values_ne_nil (getenv : CString → Option CString) (command : TypedCommand) :
    command.values getenv ≠ [] := mt List.map_eq_nil_iff.mp command.ne_nil

end TypedCommand

def lineText (commands : List TypedCommand) : CString :=
  ['|'].intercalate (commands.map TypedCommand.text)

/-- A command, a pipeline, or nothing, in a line that fits the buffer. -/
structure TypedLine where
  commands : List TypedCommand
  length_le : commands.length ≤ MAX_PIPES
  short : (lineText commands).length ≤ 1022

namespace TypedLine

def text (line : TypedLine) : CString := lineText line.commands

def bytes (line : TypedLine) : List Char := line.text ++ ['\n']

theorem mem_text {line : TypedLine} {c : Char} (hc : c ∈ line.text) : c ≠ NUL ∧ c ≠ '\n' := by
  obtain rfl | ⟨tok, htok, hmem⟩ := mem_intercalate hc
  · decide
  obtain ⟨command, -, rfl⟩ := List.mem_map.mp htok
  obtain rfl | hplain := command.blank_or_plain c hmem
  · decide
  · obtain ⟨hnul, hdelim, -⟩ := isPlain_iff.mp hplain
    refine ⟨hnul, ?_⟩
    rintro rfl
    cases hdelim

theorem fields_text (line : TypedLine) :
    fields isPipe line.text = line.commands.map TypedCommand.text := by
  refine fields_intercalate (by decide) fun tok htok => ?_
  obtain ⟨command, -, rfl⟩ := List.mem_map.mp htok
  refine ⟨command.text_ne_nil, fun c hc => ?_⟩
  obtain rfl | hplain := command.blank_or_plain c hc
  · rfl
  · exact (isPlain_iff.mp hplain).2.2

theorem text_ne_nil {line : TypedLine} (hne : line.commands ≠ []) : line.text ≠ [] := by
  refine intercalate_ne_nil (mt List.map_eq_nil_iff.mp hne) fun tok htok => ?_
  obtain ⟨command, -, rfl⟩ := List.mem_map.mp htok
  exact command.text_ne_nil

/-- `fgets` reads the line and leaves the lines behind it. -/
theorem fgets_bytes (line : TypedLine) (rest : List Char) :
    ∃ l : Line, l.bytes = line.bytes ∧ fgets (line.bytes ++ rest) = some (l, rest) := by
  have hnewline : '\n' ∉ line.text := fun hmem => (mem_text hmem).2 rfl
  have hshort : line.text.length < MAX_COMMAND_LINE_LEN - 1 := Nat.lt_succ_of_le line.short
  have hread := readLine_line hnewline hshort rest
  have hstdin : line.bytes ++ rest = line.text ++ '\n' :: rest := by
    rw [bytes, List.append_assoc]
    rfl
  have hne : line.text ++ '\n' :: rest ≠ [] :=
    List.append_ne_nil_of_right_ne_nil _ (List.cons_ne_nil _ _)
  rw [hstdin]
  exact fgets_of_readLine hne hread

/-- The stage of a line is that of the values of its words. -/
theorem parseLine_bytes (getenv : CString → Option CString) (buffer : List Char)
    (line : TypedLine) {l : Line} (hl : l.bytes = line.bytes) :
    parseLine getenv buffer l =
      match line.commands with
      | [] => .skip
      | [command] => singleStage (command.values getenv)
      | commands => .pipeline (commands.map fun command => (command.values getenv).map some) := by
  have htext : l.text = line.text := by
    rw [Line.text, hl, bytes]
    refine takeWhile_append_of_all (fun c hc => decide_eq_true (mem_text hc)) fun c hc => ?_
    rw [← Option.some.inj hc]
    decide
  rw [parseLine_eq, htext, fields_text, hl]
  cases hcommands : line.commands with
  | nil =>
    have hnil : line.text = [] := by rw [text, hcommands]; rfl
    rw [bytes, hnil]
    rfl
  | cons command commands =>
    have hne : line.text ≠ [] := text_ne_nil (by rw [hcommands]; exact List.cons_ne_nil _ _)
    have hhead : line.bytes.head? ≠ some '\n' := by
      rw [bytes, List.head?_append_of_ne_nil _ hne]
      intro hfirst
      exact (mem_text (List.mem_of_mem_head? hfirst)).2 rfl
    have hall : ((command :: commands).map TypedCommand.text).length ≤ MAX_PIPES := by
      rw [List.length_map, ← hcommands]
      exact line.length_le
    rw [if_neg hhead, List.take_of_length_le hall]
    cases commands with
    | nil => exact congrArg singleStage (command.argumentsOf_text getenv)
    | cons next commands =>
      rw [List.map_cons, List.map_cons, stageOf]
      · simp only [← TypedCommand.argumentsOf_text, List.map_cons, List.map_map]
        rfl
      · simp

end TypedLine

/-! ### What a script means -/

section Meaning

variable (getenv : CString → Option CString)

def setenvOf : List CString → Effect
  | name :: value :: _ => .setenv name value
  | _ => .printError "setenv: missing arguments\n".toList

/-- The effect of a command that names a built-in. -/
def builtin : List CString → Option Effect
  | [] => none
  | name :: args =>
    if name = "exit".toList then some .exit
    else if name = "cd".toList then
      some (args.head?.elim (.printError "cd: missing argument\n".toList) .chdir)
    else if name = "pwd".toList then some .printCwd
    else if name = "echo".toList then some (.print (args.flatMap (· ++ [' ']) ++ ['\n']))
    else if name = "env".toList then
      some (args.head?.elim .printEnviron fun name =>
        .print ((getenv name).elim [] (· ++ ['\n'])))
    else if name = "setenv".toList then some (setenvOf args)
    else none

end Meaning

section Eval

variable {ω : Type} (sys : System ω)

/-- A command without a pipe.  With a last `&` it runs in the background, unless it is a built-in,
which has no meaning there. -/
def evalSingle (s : Session ω) (argv : List CString) :
    Option (Option (Session ω) × List Output) :=
  if argv.getLast? = some ['&'] then
    if argv.dropLast = [] ∨ (builtin (getenv s.environ) argv.dropLast).isSome then none
    else some (s.start sys (.fork argv.dropLast true))
  else
    match builtin (getenv s.environ) argv with
    | some effect => some (effect.perform sys s)
    | none => some (s.start sys (.fork argv false))

def TypedLine.eval (s : Session ω) (line : TypedLine) :
    Option (Option (Session ω) × List Output) :=
  match line.commands with
  | [] => some (some s, [])
  | [command] => evalSingle sys s (command.values (getenv s.environ))
  | commands =>
    some (s.start sys (.pipeline (commands.map (TypedCommand.values (getenv s.environ)))))

/-- The outputs of the lines up to an `exit`, or to the end of the input. -/
def evalScript : List TypedLine → Session ω → Option (List Output)
  | [], s => some ((s.prompt sys).1 ++ [.print ['\n']])
  | line :: script, s => do
    let (next, outputs) ← line.eval sys (s.prompt sys).2
    match next with
    | none => return (s.prompt sys).1 ++ outputs
    | some s' => return (s.prompt sys).1 ++ outputs ++ (← evalScript script s')

end Eval

/-! ### Built-ins with their arguments in an array -/

section Builtins

variable {getenv : CString → Option CString}

theorem mapM_string_range' (argv : List CString) (i : ℕ) :
    (List.range' i (argv.length - i)).mapM (Arguments.string (argv.map some)) =
      some (argv.drop i) := by
  induction hn : argv.length - i generalizing i with
  | zero => rw [List.drop_of_length_le (by omega)]; rfl
  | succ n ih =>
    have hlt : i < argv.length := by omega
    rw [List.range'_succ, List.mapM_cons, string_map_some, List.getElem?_eq_getElem hlt,
      ih (i + 1) (by omega), List.drop_eq_getElem_cons hlt]
    rfl

/-- `handle_builtin` on the strings of a command does what the command means. -/
theorem handleBuiltin_map_some {argv : List CString} (hne : argv ≠ []) :
    handleBuiltin getenv (argv.map some) argv.length = some (builtin getenv argv) := by
  obtain ⟨name, args, rfl⟩ := List.exists_cons_of_ne_nil hne
  have hecho : (List.range' 1 ((name :: args).length - 1)).mapM
      (Arguments.string ((name :: args).map some)) = some args :=
    mapM_string_range' (name :: args) 1
  have hstring := string_map_some (name :: args)
  have hlength : (name :: args).length ≠ 0 := Nat.succ_ne_zero _
  rw [handleBuiltin, if_neg hlength, hecho, builtin]
  simp only [hstring, Option.bind_eq_bind, Option.bind_some, List.getElem?_cons_zero,
    List.getElem?_cons_succ, List.length_cons]
  split_ifs with hexit hcd hfew hpwd hechoes henv hone hsetenv hmissing
  · rfl
  · obtain rfl := List.length_eq_zero_iff.mp (show args.length = 0 by omega)
    rfl
  · obtain ⟨path, rest, rfl⟩ := List.exists_cons_of_length_pos (show 0 < args.length by omega)
    rfl
  · rfl
  · rfl
  · obtain rfl := List.length_eq_zero_iff.mp (show args.length = 0 by omega)
    rfl
  · obtain ⟨name', rest, rfl⟩ := List.exists_cons_of_length_pos (show 0 < args.length by omega)
    simp only [List.getElem?_cons_zero, Option.bind_some]
    cases hvalue : getenv name' <;> simp [hvalue]
  · obtain hshort | hshort : args.length = 0 ∨ args.length = 1 := by omega
    · obtain rfl := List.length_eq_zero_iff.mp hshort
      rfl
    · obtain ⟨arg, rfl⟩ := List.length_eq_one_iff.mp hshort
      rfl
  · obtain ⟨name', args, rfl⟩ := List.exists_cons_of_length_pos (show 0 < args.length by omega)
    rw [List.length_cons] at hmissing
    obtain ⟨value, args, rfl⟩ := List.exists_cons_of_length_pos (show 0 < args.length by omega)
    rfl
  · rfl

/-- Of a command that names no built-in it looks at the name only. -/
theorem handleBuiltin_of_other {arguments : Arguments} {argc : ℕ} {name : CString}
    {args : List CString} (hargc : argc ≠ 0) (hname : arguments.string 0 = some name)
    (h : builtin getenv (name :: args) = none) :
    handleBuiltin getenv arguments argc = some none := by
  rw [builtin] at h
  rw [handleBuiltin, if_neg hargc, hname]
  simp only [Option.bind_eq_bind, Option.bind_some]
  split_ifs at h ⊢
  rfl

end Builtins

theorem argvOf_map_some (argv : List CString) : argvOf (argv.map some) = argv := by
  induction argv with
  | nil => rfl
  | cons arg argv ih => exact congrArg (arg :: ·) ih

theorem argvOf_map_some_null (argv : List CString) : argvOf (argv.map some ++ [none]) = argv := by
  induction argv with
  | nil => rfl
  | cons arg argv ih => exact congrArg (arg :: ·) ih

/-! ### Running a script -/

section Run

variable {ω : Type} {sys : System ω}

theorem singleStage_perform {s : Session ω} {argv : List CString} (hne : argv ≠ [])
    {result : Option (Session ω) × List Output} (heval : evalSingle sys s argv = some result) :
    ((singleStage argv).run (getenv s.environ)).bind (Action.perform sys s) = some result := by
  rw [evalSingle] at heval
  rw [singleStage, if_neg hne]
  split_ifs at heval ⊢ with hlast hbad
  · -- in the background: the name is that of no built-in
    rw [not_or, Bool.not_eq_true, Option.isSome_eq_false_iff, Option.isNone_iff_eq_none] at hbad
    obtain ⟨hfront, hother⟩ := hbad
    obtain ⟨name, args, hdrop⟩ := List.exists_cons_of_ne_nil hfront
    rw [hdrop] at hother heval ⊢
    have hargc : argv.length ≠ 0 := mt List.length_eq_zero_iff.mp hne
    have hbuiltin : handleBuiltin (getenv s.environ) ((name :: args).map some ++ [none])
        argv.length = some none := handleBuiltin_of_other hargc rfl hother
    rw [Stage.run, hbuiltin, Option.map_some, Option.bind_some, Action.perform,
      argvOf_map_some_null]
    exact heval
  · rw [Stage.run, handleBuiltin_map_some hne, Option.map_some, Option.bind_some]
    cases hbuiltin : builtin (getenv s.environ) argv with
    | some effect =>
      rw [hbuiltin] at heval
      exact heval
    | none =>
      rw [hbuiltin] at heval
      dsimp only
      rw [Action.perform, argvOf_map_some]
      exact heval

/-- A line has the outputs that it means. -/
theorem runLine_bytes {s : Session ω} {line : TypedLine} {l : Line} (hl : l.bytes = line.bytes)
    (buffer : List Char) {result : Option (Session ω) × List Output}
    (heval : line.eval sys s = some result) :
    (runLine (getenv s.environ) buffer l).bind (Action.perform sys s) = some result := by
  rw [runLine, line.parseLine_bytes (getenv s.environ) buffer hl]
  rw [TypedLine.eval] at heval
  cases hcommands : line.commands with
  | nil =>
    rw [hcommands] at heval
    exact heval
  | cons command commands =>
    rw [hcommands] at heval
    cases commands with
    | nil => exact singleStage_perform (command.values_ne_nil _) heval
    | cons next commands =>
      dsimp only at heval ⊢
      rw [Stage.run, Option.bind_some, Action.perform, if_neg (by simp), List.map_map]
      have hargv : argvOf ∘ (fun command : TypedCommand =>
          (command.values (getenv s.environ)).map some) =
            TypedCommand.values (getenv s.environ) :=
        funext fun command => argvOf_map_some _
      rw [hargv]
      exact heval

variable (sys)

/-- No child reads the input of the shell or moves its offset. -/
def LeavesInput : Prop := ∀ world stdin, sys.input world stdin = stdin

/-- **The shell runs scripts as they mean.**  Whatever the buffer holds between lines, and whatever
the children do elsewhere, `main` on the text of a script has the outputs of its built-ins,
children and pipelines, each line in the environment that the lines before have left. -/
theorem mainLoop_script (hinput : LeavesInput sys) (buffer : ℕ → List Char)
    (script : List TypedLine) (s : Session ω) {outputs : List Output}
    (heval : evalScript sys script s = some outputs) {fuel : ℕ} (hfuel : script.length < fuel) :
    mainLoop sys buffer fuel s (script.flatMap TypedLine.bytes) = some outputs := by
  induction script generalizing s outputs fuel with
  | nil =>
    obtain ⟨fuel, rfl⟩ := Nat.exists_eq_succ_of_ne_zero (Nat.ne_zero_of_lt hfuel)
    rw [mainLoop, List.flatMap_nil]
    dsimp only
    rw [hinput]
    exact heval
  | cons line script ih =>
    obtain ⟨fuel, rfl⟩ := Nat.exists_eq_succ_of_ne_zero (Nat.ne_zero_of_lt hfuel)
    obtain ⟨l, hl, hread⟩ := line.fgets_bytes (script.flatMap TypedLine.bytes)
    obtain ⟨⟨next, now⟩, hline, hrest⟩ := Option.bind_eq_some_iff.mp heval
    obtain ⟨action, haction, hperform⟩ :=
      Option.bind_eq_some_iff.mp (runLine_bytes hl (buffer fuel) hline)
    rw [List.flatMap_cons, mainLoop]
    dsimp only
    rw [hinput, hread]
    simp only [haction, hperform, Option.bind_eq_bind, Option.bind_some]
    cases next with
    | none => exact hrest
    | some s' =>
      obtain ⟨later, hlater, hout⟩ := Option.bind_eq_some_iff.mp hrest
      dsimp only
      rw [ih s' hlater (Nat.lt_of_succ_lt_succ hfuel)]
      exact hout

end Run

/-- Directories in one directory, which `mkdir` adds to, and the one that the shell is in. -/
def directories : System (List CString × CString) where
  getcwd world := (some world.2, world)
  chdir world path :=
    if path ∈ world.1 then (true, world.1, '/' :: path) else (false, world)
  start world _ output :=
    match output with
    | .fork (name :: path :: _) _ =>
      if name = "mkdir".toList then (path :: world.1, world.2) else world
    | _ => world
  input _ stdin := stdin

/-- `setenv X d` -/
def setX : TypedCommand where
  words := [.literal "setenv".toList (by decide) (by decide) rfl,
    .literal "X".toList (by decide) (by decide) rfl,
    .literal "d".toList (by decide) (by decide) rfl]
  ne_nil := List.cons_ne_nil _ _
  length_le := by decide

/-- `mkdir $X` -/
def mkdirX : TypedCommand where
  words := [.literal "mkdir".toList (by decide) (by decide) rfl, .var "X".toList rfl]
  ne_nil := List.cons_ne_nil _ _
  length_le := by decide

/-- `cd d` -/
def cdD : TypedCommand where
  words := [.literal "cd".toList (by decide) (by decide) rfl,
    .literal "d".toList (by decide) (by decide) rfl]
  ne_nil := List.cons_ne_nil _ _
  length_le := by decide

/-- A directory that does not exist yet, a child that makes it, and a pipeline there. -/
theorem mainLoop_script_fiveLines :
    let script : List TypedLine := [⟨[cdD], by decide, by decide⟩, ⟨[setX], by decide, by decide⟩,
      ⟨[mkdirX], by decide, by decide⟩, ⟨[cdD], by decide, by decide⟩,
      ⟨[mkdirX, setX], by decide, by decide⟩]
    mainLoop directories (fun _ => []) 6 ⟨[], [], "/".toList⟩ (script.flatMap TypedLine.bytes) =
      some [.print "/> ".toList, .perror "cd".toList, .print "/> ".toList, .print "/> ".toList,
        .fork ["mkdir".toList, "d".toList] false, .print "/> ".toList, .print "/d> ".toList,
        .pipeline [["mkdir".toList, "d".toList], ["setenv".toList, "X".toList, "d".toList]],
        .print "/d> ".toList, .print "\n".toList] :=
  mainLoop_script directories (fun _ _ => rfl) _ _ _ (by decide) (by decide)

end OsLabs.Shell
