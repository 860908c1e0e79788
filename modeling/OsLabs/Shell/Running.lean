import OsLabs.Lib.Kahn
import OsLabs.Shell.Children

/-!
# Shell: the commands of a pipeline while they run

The processes of `execute_pipeline` with the programs that `execvp` starts and the bytes in the
pipes.  A program is known by what it reads from its standard input and writes to its standard
output.  A read waits while its pipe is empty and some process holds the write end, a write waits
while the pipe is full, and one to a pipe that nobody can read ends the process (`SIGPIPE`).  What
the files give stays the same here; `Files` follows those that the commands write.
-/

namespace OsLabs.Shell

open OsLabs.Lib OsLabs.Shell.Pipeline

variable {α β σ : Type}

/-- What the commands of a pipeline are, and where they run. -/
structure Setting (β σ : Type) where
  /-- `commands[i]` -/
  arguments : ℕ → List CString
  opens : CString → OpenMode → Bool
  /-- The program that `execvp` starts, unless it fails. -/
  execvp : List CString → Option σ
  act : σ → Act β σ
  /-- The bytes of the standard input of child `i` where this is no pipe: a file, or what the shell
  has left. -/
  input : ℕ → List β
  /-- How many bytes a pipe holds. -/
  capacity : ℕ
  capacity_pos : 0 < capacity

structure Running (σ : Type) where
  exec : Exec
  state : σ

/-- The processes of a pipeline, what the children run, and the bytes in the pipes. -/
structure Active (α β σ : Type) where
  plumbing : State α
  running : ℕ → Option (Running σ)
  pipe : ℕ → List β
  /-- What each child has read and written so far; `none` is the end of its input. -/
  got : ℕ → List (Option β)
  put : ℕ → List β

/-! ### What is open -/

def isReadEnd (j : ℕ) : Handle α → Bool
  | .readEnd i => i = j
  | .inherited _ | .writeEnd _ => false

def isWriteEnd (j : ℕ) : Handle α → Bool
  | .writeEnd i => i = j
  | .inherited _ | .readEnd _ => false

/-- What a program has open but for files. -/
def Exec.handles (exec : Exec) (fds : FdTable (Handle α)) : List (Handle α) :=
  exec.fds.slots.reduceOption.filterMap fun
    | .file _ _ => none
    | .inherited number => fds.lookup number

def procs (n : ℕ) : List Proc := .parent :: (List.range n).map .child

namespace Active

variable (a : Active α β σ)

def handles : Proc → List (Handle α)
  | .parent => a.plumbing.image.fds.slots.reduceOption
  | .child i =>
    match a.running i with
    | none => (a.plumbing.fds (.child i)).slots.reduceOption
    | some r => r.exec.handles (a.plumbing.fds (.child i))

/-- Some process holds such an end. -/
def held (n : ℕ) (isEnd : Handle α → Bool) : Bool := (procs n).any fun p => (a.handles p).any isEnd

/-- Child `i` is in `execute_command` or runs what this has started. -/
def executing (i : ℕ) : Bool := (a.plumbing.child i).any fun c => c.loc = .executing

/-- What a descriptor of a running program refers to. -/
def target (i fd : ℕ) : Option (Target α) :=
  (a.running i).bind fun r => r.exec.target (a.plumbing.fds (.child i)) fd

def inPipe (i : ℕ) : Option ℕ :=
  match a.target i 0 with
  | some (.handle (.readEnd j)) => some j
  | _ => none

def outPipe (i : ℕ) : Option ℕ :=
  match a.target i 1 with
  | some (.handle (.writeEnd j)) => some j
  | _ => none

/-! ### Steps -/

def withState (i : ℕ) (s : σ) : Active α β σ where
  plumbing := a.plumbing
  running := Function.update a.running i ((a.running i).map fun r => { r with state := s })
  pipe := a.pipe
  got := a.got
  put := a.put

/-- Child `i` has read `x`. -/
def hasRead (i : ℕ) (x : Option β) (s : σ) : Active α β σ :=
  { a.withState i s with got := Function.update a.got i (a.got i ++ [x]) }

/-- Child `i` has written `b`. -/
def hasWritten (i : ℕ) (b : β) (s : σ) : Active α β σ :=
  { a.withState i s with put := Function.update a.put i (a.put i ++ [b]) }

/-- The exit of child `i`, which closes its descriptors. -/
def exit (n i : ℕ) : Option (Active α β σ) :=
  (a.plumbing.next n (.child i)).map fun plumbing => { a with plumbing := plumbing }

/-- `read` from the standard input. -/
def read (n : ℕ) (cfg : Setting β σ) (i : ℕ) (next : Option β → σ) : Option (Active α β σ) :=
  match a.inPipe i with
  | none =>
    let x := (cfg.input i)[(a.got i).length]?
    some (a.hasRead i x (next x))
  | some j =>
    match a.pipe j with
    | b :: rest =>
      some { a.hasRead i (some b) (next (some b)) with pipe := Function.update a.pipe j rest }
    | [] => if a.held n (isWriteEnd j) then none else some (a.hasRead i none (next none))

/-- `write` to the standard output. -/
def write (n : ℕ) (cfg : Setting β σ) (i : ℕ) (b : β) (s : σ) : Option (Active α β σ) :=
  match a.outPipe i with
  | none => some (a.hasWritten i b s)
  | some j =>
    if a.held n (isReadEnd j) then
      if (a.pipe j).length < cfg.capacity then
        some { a.hasWritten i b s with pipe := Function.update a.pipe j (a.pipe j ++ [b]) }
      else none
    else a.exit n i

/-- The next step of the program that child `i` runs. -/
def act (n : ℕ) (cfg : Setting β σ) (i : ℕ) : Option (Active α β σ) :=
  match a.running i with
  | none => none
  | some r =>
    match cfg.act r.state with
    | .read next => a.read n cfg i next
    | .write b s => a.write n cfg i b s
    | .exit => a.exit n i

/-- `execute_command` in child `i`. -/
def exec (n : ℕ) (cfg : Setting β σ) (i : ℕ) : Option (Active α β σ) :=
  match executeCommand cfg.opens (cfg.arguments i) (streams (a.plumbing.fds (.child i))) with
  | none => a.exit n i
  | some exec =>
    match cfg.execvp exec.argv with
    | none => a.exit n i
    | some s => some { a with running := Function.update a.running i (some ⟨exec, s⟩) }

end Active

inductive ActiveEvent
  /-- A step of the parent, or of a child in front of `execute_command`. -/
  | plumb (e : Event)
  | exec (i : ℕ)
  | act (i : ℕ)
  deriving DecidableEq

def Active.next (n : ℕ) (cfg : Setting β σ) (a : Active α β σ) :
    ActiveEvent → Option (Active α β σ)
  | .plumb (.child i) =>
    if a.executing i then none
    else (a.plumbing.next n (.child i)).map fun plumbing => { a with plumbing := plumbing }
  | .plumb e => (a.plumbing.next n e).map fun plumbing => { a with plumbing := plumbing }
  | .exec i => if a.executing i && (a.running i).isNone then a.exec n cfg i else none
  | .act i => if a.executing i then a.act n cfg i else none

def Active.start (fds : FdTable α) (pipefd : ℕ → ℕ) : Active α β σ where
  plumbing := Pipeline.start fds pipefd
  running _ := none
  pipe _ := []
  got _ := []
  put _ := []

/-- `execute_pipeline` of `n` commands, up to its return. -/
def runPipeline (n : ℕ) (cfg : Setting β σ) (fds : FdTable α) (pipefd : ℕ → ℕ) :
    Machine (Active α β σ) ActiveEvent :=
  Machine.ofNext (Active.start fds pipefd) (Active.next n cfg)

/-- All children have exited, and the parent has waited for them. -/
structure Active.Finished (n : ℕ) (a : Active α β σ) : Prop where
  child : ∀ i < n, a.plumbing.hasExited i = true
  parent : a.plumbing.parent = .waiting n

/-! ### What the commands are connected to -/

/-- Some redirection of this descriptor stands among the arguments. -/
def redirects (fd : ℕ) (arguments : List CString) : Bool :=
  arguments.any fun token => (redirectionOf token).any fun mode => mode.newfd = fd

namespace Setting

variable (cfg : Setting β σ)

/-- The program of child `i`, if it gets to one. -/
def boot (i : ℕ) : Option σ :=
  (executeCommand cfg.opens (cfg.arguments i) ⟨[]⟩).bind fun exec => cfg.execvp exec.argv

/-- The standard input is a pipe. -/
def pipedIn (i : ℕ) : Bool := decide (0 < i) && !redirects 0 (cfg.arguments i)

/-- The standard output is a pipe. -/
def pipedOut (n i : ℕ) : Bool := decide (i + 1 < n) && !redirects 1 (cfg.arguments i)

end Setting

namespace Active

variable (n : ℕ) (cfg : Setting β σ) (a : Active α β σ)

/-- Child `i` has come to its end by itself. -/
def ended (i : ℕ) : Bool :=
  a.plumbing.hasExited i && (a.running i).all fun r => (cfg.act r.state).isExit

/-- What child `i` has written. -/
def output (i : ℕ) : Feed β := ⟨a.put i, a.ended cfg i⟩

/-- What has been written to pipe `j`. -/
def sent (j : ℕ) : Feed β := if cfg.pipedOut n j then a.output cfg j else ⟨[], true⟩

/-- What there is for child `i` to read. -/
def feed (i : ℕ) : Feed β := if cfg.pipedIn i then a.sent n cfg (i - 1) else ⟨cfg.input i, true⟩

/-- What has been taken out of pipe `j`. -/
def taken (j : ℕ) : List β := if cfg.pipedIn (j + 1) then (a.got (j + 1)).reduceOption else []

end Active

/-! ### The redirections of a command -/

section Redirections

variable {opens : CString → OpenMode → Bool}

/-- The array does not depend on the table. -/
theorem redirectLoop_fst (arguments : List CString) (fds fds' : FdTable Stream) :
    (redirectLoop opens arguments fds).map Prod.fst =
      (redirectLoop opens arguments fds').map Prod.fst := by
  -- one more slot at the front
  have hcons : ∀ (slot : Option CString) {x y : Option (List (Option CString) × FdTable Stream)},
      x.map Prod.fst = y.map Prod.fst →
        (x.map fun p => (slot :: p.1, p.2)).map Prod.fst =
          (y.map fun p => (slot :: p.1, p.2)).map Prod.fst := by
    intro slot x y h
    have hmap := congrArg (Option.map (List.cons slot)) h
    rw [Option.map_map, Option.map_map] at hmap ⊢
    exact hmap
  induction arguments generalizing fds fds' with
  | nil => rfl
  | cons token rest ih =>
    rw [redirectLoop, redirectLoop]
    cases redirectionOf token with
    | none => exact hcons (some token) (ih fds fds')
    | some mode =>
      dsimp only
      cases rest.head? with
      | none => rfl
      | some target =>
        dsimp only
        split_ifs
        · exact hcons none (ih _ _)
        · rfl

theorem executeCommand_argv (arguments : List CString) (fds fds' : FdTable Stream) :
    (executeCommand opens arguments fds).map Exec.argv =
      (executeCommand opens arguments fds').map Exec.argv := by
  have h := congrArg (Option.map argvOf) (@redirectLoop_fst opens arguments fds fds')
  rw [Option.map_map, Option.map_map] at h
  rw [executeCommand, executeCommand, Option.map_map, Option.map_map]
  exact h

/-- Where the arguments redirect a descriptor, it refers to a file; the others stay. -/
theorem lookup_redirectLoop {arguments : List CString} {fds fds' : FdTable Stream}
    {slots : List (Option CString)} (h : redirectLoop opens arguments fds = some (slots, fds'))
    (hin : fds.lookup STDIN_FILENO ≠ none) (hout : fds.lookup STDOUT_FILENO ≠ none) (fd : ℕ) :
    if redirects fd arguments then ∃ path mode, fds'.lookup fd = some (.file path mode)
      else fds'.lookup fd = fds.lookup fd := by
  induction arguments generalizing fds fds' slots with
  | nil =>
    cases h
    exact (if_neg Bool.false_ne_true).mpr rfl
  | cons token rest ih =>
    rw [redirectLoop] at h
    rw [redirects, List.any_cons]
    cases hredirection : redirectionOf token with
    | none =>
      rw [hredirection] at h
      obtain ⟨⟨slots', fds''⟩, hrest, heq⟩ := Option.map_eq_some_iff.mp h
      cases heq
      rw [Option.any_none, Bool.false_or]
      exact ih hrest hin hout
    | some mode =>
      rw [hredirection] at h
      dsimp only at h
      cases htarget : rest.head? with
      | none =>
        rw [htarget] at h
        cases h
      | some target =>
        rw [htarget] at h
        dsimp only at h
        split_ifs at h
        obtain ⟨⟨slots', fds''⟩, hrest, heq⟩ := Option.map_eq_some_iff.mp h
        cases heq
        have hreplace := lookup_replace_newfd hin hout mode (.file target mode)
        have hopen : ∀ fd', fds.lookup fd' ≠ none →
            (fds.replace mode.newfd (.file target mode)).lookup fd' ≠ none := by
          intro fd' hopen
          rw [hreplace]
          split_ifs
          · exact Option.some_ne_none _
          · exact hopen
        have hbehind := ih hrest (hopen _ hin) (hopen _ hout)
        rw [Option.any_some]
        cases hrest' : redirects fd rest with
        | true =>
          rw [hrest', if_pos rfl] at hbehind
          rw [redirects] at hrest'
          rw [hrest', Bool.or_true, if_pos rfl]
          exact hbehind
        | false =>
          rw [hrest', if_neg Bool.false_ne_true, hreplace] at hbehind
          rw [redirects] at hrest'
          rw [hrest', Bool.or_false]
          by_cases hfd : fd = mode.newfd
          · rw [if_pos hfd] at hbehind
            rw [if_pos (decide_eq_true hfd.symm)]
            exact ⟨target, mode, hbehind⟩
          · rw [if_neg hfd] at hbehind
            rw [if_neg (by simpa using Ne.symm hfd)]
            exact hbehind

end Redirections

end OsLabs.Shell
