import OsLabs.Lib.TextLines
import OsLabs.Shell.Main

/-!
# Shell: the loop over the input

The loop in `main` of `shell.c` over standard input.  The environment is the shell's own; what its
calls see of the rest of the system, directories and the shared input included, the children of
earlier lines may have changed.
-/

namespace OsLabs.Shell

open OsLabs.Lib

def MAX_COMMAND_LINE_LEN : ℕ := 1024

/-! ### Reading a line -/

/-- `fgets(command_line, sizeof(command_line), stdin)` -/
def fgets (stdin : List Char) : Option (Line × List Char) :=
  if h : stdin = [] then none
  else
    some
      (⟨(readLine (MAX_COMMAND_LINE_LEN - 1) stdin).1, readLine_ne_nil _ h,
        length_readLine_le _ stdin, newline_notMem_dropLast _ stdin⟩,
        (readLine (MAX_COMMAND_LINE_LEN - 1) stdin).2)

theorem fgets_of_readLine {stdin bytes rest : List Char} (hne : stdin ≠ [])
    (hread : readLine (MAX_COMMAND_LINE_LEN - 1) stdin = (bytes, rest)) :
    ∃ line : Line, line.bytes = bytes ∧ fgets stdin = some (line, rest) := by
  have hbytes := congrArg Prod.fst hread
  have hrest := congrArg Prod.snd hread
  exact ⟨_, hbytes, by rw [fgets, dif_neg hne, hrest]⟩

/-! ### What the built-ins change -/

/-- `environ`: strings of the form `NAME=value`. -/
abbrev Environ := List CString

/-- What stands behind `name=`. -/
def valueOf (name entry : CString) : Option CString :=
  if (name ++ ['=']).isPrefixOf entry then some (entry.drop (name.length + 1)) else none

def getenv (environ : Environ) (name : CString) : Option CString :=
  if name = [] then none else environ.findSome? (valueOf name)

/-- `setenv(name, value, 1)`, for a valid name: the first variable of the name is set, or one is
added. -/
def setenv : Environ → CString → CString → Environ
  | [], name, value => [name ++ '=' :: value]
  | entry :: environ, name, value =>
    if (valueOf name entry).isSome then (name ++ '=' :: value) :: environ
    else entry :: setenv environ name value

/-- What `setenv` refuses. -/
def InvalidName (name : CString) : Prop := name = [] ∨ '=' ∈ name

instance (name : CString) : Decidable (InvalidName name) :=
  inferInstanceAs (Decidable (_ ∨ _))

/-- What the shell writes or starts. -/
inductive Output
  | print (text : CString)
  | printError (text : CString)
  | perror (name : CString)
  /-- A child that calls `execute_command`, which sees the arguments in front of the `NULL`. -/
  | fork (arguments : List CString) (background : Bool)
  /-- `execute_pipeline`, whose children do the same. -/
  | pipeline (commands : List (List CString))
  deriving DecidableEq

/-- The calls of the shell, on what is outside of it: files, directories, and the children that are
running, which may change it between any two calls. -/
structure System (ω : Type) where
  /-- `getcwd(.., MAX_COMMAND_LINE_LEN)`; a failure is `none`. -/
  getcwd : ω → Option CString × ω
  /-- `chdir(path)`, and whether it succeeds. -/
  chdir : ω → CString → Bool × ω
  /-- From `fork` to the last `waitpid` of the children with this environment. -/
  start : ω → Environ → Output → ω
  /-- What `fgets` finds where the shell has left `stdin` unread: children share the offset of the
  input, read from it, and set it back when they `exit`. -/
  input : ω → List Char → List Char

structure Session (ω : Type) where
  environ : Environ
  world : ω

section Loop

variable {ω : Type} (sys : System ω)

/-- What a built-in does; the state is `none` behind `exit`. -/
def Effect.perform (s : Session ω) : Effect → Option (Session ω) × List Output
  | exit => (none, [])
  | .chdir path =>
    match sys.chdir s.world path with
    | (true, world) => (some { s with world := world }, [])
    | (false, world) => (some { s with world := world }, [.perror "cd".toList])
  | printCwd =>
    match sys.getcwd s.world with
    | (some cwd, world) => (some { s with world := world }, [.print (cwd ++ ['\n'])])
    | (none, world) => (some { s with world := world }, [.perror "getcwd".toList])
  | printEnviron => (some s, s.environ.map fun entry => .print (entry ++ ['\n']))
  | .print text => (some s, [.print text])
  | .printError text => (some s, [.printError text])
  | .setenv name value =>
    if InvalidName name then (some s, [.perror "setenv".toList])
    else (some { s with environ := Shell.setenv s.environ name value }, [])

/-- The shell starts children, and waits for them unless they are in the background. -/
def Session.start (s : Session ω) (output : Output) : Option (Session ω) × List Output :=
  (some { s with world := sys.start s.world s.environ output }, [output])

/-- `none` stands for the array of negative length in `execute_pipeline(commands, 0)`. -/
def Action.perform (s : Session ω) : Action → Option (Option (Session ω) × List Output)
  | skip => some (some s, [])
  | builtin effect => some (effect.perform sys s)
  | command arguments background => some (s.start sys (.fork (argvOf arguments) background))
  | .pipeline commands =>
    if commands = [] then none else some (s.start sys (.pipeline (commands.map argvOf)))

/-- `printf("%s> ", prompt)` -/
def Session.prompt (s : Session ω) : List Output × Session ω :=
  match sys.getcwd s.world with
  | (some cwd, world) => ([.print (cwd ++ "> ".toList)], { s with world := world })
  | (none, world) => ([], { s with world := world })

variable (buffer : ℕ → List Char)

/-- The loop in `main`; `buffer` is what earlier lines have left in `command_line`. -/
def mainLoop : ℕ → Session ω → List Char → Option (List Output)
  | 0, _, _ => none
  | fuel + 1, s, stdin =>
    let (prompt, s) := s.prompt sys
    match fgets (sys.input s.world stdin) with
    | none => some (prompt ++ [.print ['\n']])
    | some (line, stdin) => do
      let action ← runLine (getenv s.environ) (buffer fuel) line
      let (next, outputs) ← action.perform sys s
      match next with
      | none => return prompt ++ outputs
      | some s' => return prompt ++ outputs ++ (← mainLoop fuel s' stdin)

end Loop

end OsLabs.Shell
