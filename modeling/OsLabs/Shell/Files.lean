import OsLabs.Shell.Drain

/-!
# Shell: pipelines and files

The commands of a pipeline with the files that their redirections name.  A file that some command
writes may change at every step, whoever reads it; the bytes that it comes to hold are not followed.
Where no command reads such a file, what a pipeline does is settled by the files at its start.
-/

namespace OsLabs.Shell

open OsLabs.Lib OsLabs.Shell.Pipeline

variable {α β σ φ : Type}

/-- What the files hold; `none` is no file. -/
abbrev Files (φ β : Type) := φ → Option (List β)

/-- The arguments behind the operators of this kind. -/
def targets (mode : OpenMode) (arguments : List CString) : List CString :=
  (arguments.zip arguments.tail).filterMap fun (token, target) =>
    if redirectionOf token = some mode then some target else none

/-- Commands, and the files that the paths name.  In `commands`, `opens` is about permissions, and
`input` is what the shell has left the child. -/
structure FileSetting (φ β σ : Type) where
  commands : Setting β σ
  file : CString → φ

namespace FileSetting

variable (cfg : FileSetting φ β σ)

/-- Only a file that is there can be read. -/
def opens (files : Files φ β) (path : CString) (mode : OpenMode) : Bool :=
  cfg.commands.opens path mode && (decide (mode ≠ .read) || (files (cfg.file path)).isSome)

/-- The last `<` gives the input. -/
def input (files : Files φ β) (i : ℕ) : List β :=
  match (targets .read (cfg.commands.arguments i)).getLast? with
  | some path => (files (cfg.file path)).getD []
  | none => cfg.commands.input i

/-- The setting that the commands find while the files hold this. -/
def withFiles (files : Files φ β) : Setting β σ :=
  { cfg.commands with opens := cfg.opens files, input := cfg.input files }

/-- Some command of the line opens the file for writing. -/
def Writes (f : φ) : Prop :=
  ∃ i mode path, mode ≠ OpenMode.read ∧ path ∈ targets mode (cfg.commands.arguments i) ∧
    cfg.file path = f

/-- No command of the line reads a file that one of them writes. -/
def ReadsApart : Prop :=
  ∀ i, ∀ path ∈ targets .read (cfg.commands.arguments i), ¬ cfg.Writes (cfg.file path)

end FileSetting

/-- `execute_pipeline` of `n` commands, with the files at its start. -/
def runWithFiles (n : ℕ) (cfg : FileSetting φ β σ) (files : Files φ β) (fds : FdTable α)
    (pipefd : ℕ → ℕ) : Machine (Active α β σ × Files φ β) ActiveEvent where
  init := (Active.start fds pipefd, files)
  step s e s' := s.1.next n (cfg.withFiles s.2) e = some s'.1 ∧ ∀ f, ¬ cfg.Writes f → s'.2 f = s.2 f

/-! ### Settings that the commands cannot tell apart -/

theorem mem_targets_cons {mode : OpenMode} {token path : CString} {rest : List CString} :
    path ∈ targets mode (token :: rest) ↔
      (redirectionOf token = some mode ∧ rest.head? = some path) ∨ path ∈ targets mode rest := by
  cases rest with
  | nil => simp [targets]
  | cons target rest =>
    rw [targets, List.tail_cons, List.zip_cons_cons, List.filterMap_cons, List.head?_cons]
    dsimp only
    by_cases hop : redirectionOf token = some mode
    · rw [if_pos hop, and_iff_right hop, Option.some_inj]
      exact List.mem_cons.trans (or_congr eq_comm Iff.rfl)
    · rw [if_neg hop]
      exact (or_iff_right fun h => hop h.1).symm

/-- The loop asks for the targets only. -/
theorem redirectLoop_congr {opens opens' : CString → OpenMode → Bool} {arguments : List CString}
    (h : ∀ mode, ∀ path ∈ targets mode arguments, opens' path mode = opens path mode)
    (fds : FdTable Stream) :
    redirectLoop opens' arguments fds = redirectLoop opens arguments fds := by
  induction arguments generalizing fds with
  | nil => rfl
  | cons token rest ih =>
    have hrest := ih fun mode path hpath => h mode path (mem_targets_cons.mpr (Or.inr hpath))
    rw [redirectLoop, redirectLoop]
    cases hop : redirectionOf token with
    | none =>
      dsimp only
      rw [hrest]
    | some mode =>
      cases hhead : rest.head? with
      | none => rfl
      | some target =>
        dsimp only
        rw [h mode target (mem_targets_cons.mpr (Or.inl ⟨hop, hhead⟩)), hrest]

/-- A step asks for the redirections of the commands only. -/
theorem next_congr {n : ℕ} {cfg : Setting β σ} {opens : CString → OpenMode → Bool}
    (h : ∀ i, ∀ mode, ∀ path ∈ targets mode (cfg.arguments i), opens path mode = cfg.opens path mode)
    (a : Active α β σ) (e : ActiveEvent) :
    a.next n { cfg with opens := opens } e = a.next n cfg e := by
  cases e with
  | plumb e => cases e <;> rfl
  | act i => rfl
  | exec i =>
    have hcommand : ∀ fds, executeCommand opens (cfg.arguments i) fds =
        executeCommand cfg.opens (cfg.arguments i) fds := by
      intro fds
      rw [executeCommand, executeCommand, redirectLoop_congr (h i)]
    rw [Active.next, Active.next, Active.exec, Active.exec]
    dsimp only
    rw [hcommand]

section Apart

variable {n : ℕ} {cfg : FileSetting φ β σ} {files files₀ : Files φ β}

section Same

variable (hapart : cfg.ReadsApart) (hsame : ∀ f, ¬ cfg.Writes f → files f = files₀ f)

include hapart hsame

theorem input_eq : cfg.input files = cfg.input files₀ := by
  funext i
  rw [FileSetting.input, FileSetting.input]
  cases hlast : (targets .read (cfg.commands.arguments i)).getLast? with
  | none => rfl
  | some path =>
    dsimp only
    rw [hsame _ (hapart i path (List.mem_of_getLast? hlast))]

theorem opens_eq {i : ℕ} {mode : OpenMode} {path : CString}
    (hpath : path ∈ targets mode (cfg.commands.arguments i)) :
    cfg.opens files path mode = cfg.opens files₀ path mode := by
  rw [FileSetting.opens, FileSetting.opens]
  by_cases hmode : mode = .read
  · subst hmode
    rw [hsame _ (hapart i path hpath)]
  · rw [decide_eq_true hmode, Bool.true_or, Bool.true_or]

/-- While the other files stay, nobody notices. -/
theorem next_withFiles (a : Active α β σ) (e : ActiveEvent) :
    a.next n (cfg.withFiles files) e = a.next n (cfg.withFiles files₀) e := by
  rw [FileSetting.withFiles, input_eq hapart hsame]
  have hopens : ∀ i mode, ∀ path ∈ targets mode ((cfg.withFiles files₀).arguments i),
      cfg.opens files path mode = (cfg.withFiles files₀).opens path mode :=
    fun i mode path hpath => opens_eq hapart hsame hpath
  exact next_congr hopens a e

end Same

variable {fds : FdTable α} {pipefd : ℕ → ℕ}
  {tr : List ((Active α β σ × Files φ β) × ActiveEvent)} {a : Active α β σ}

theorem run_of_runWithFiles (hapart : cfg.ReadsApart)
    (h : (runWithFiles n cfg files₀ fds pipefd).Run tr (a, files)) :
    (runPipeline n (cfg.withFiles files₀) fds pipefd).Run (tr.map fun x => (x.1.1, x.2)) a ∧
      ∀ f, ¬ cfg.Writes f → files f = files₀ f := by
  generalize hs : (a, files) = s at h
  induction h generalizing a files with
  | start =>
    cases hs
    exact ⟨.start, fun _ _ => rfl⟩
  | @snoc tr s s' e hrun hstep ih =>
    subst hs
    obtain ⟨hrun', hsame⟩ := ih rfl
    obtain ⟨hnext, hfiles⟩ := hstep
    rw [next_withFiles hapart hsame] at hnext
    refine ⟨?_, fun f hf => (hfiles f hf).trans (hsame f hf)⟩
    rw [List.map_append, List.map_singleton]
    exact hrun'.snoc hnext

/-- The steps are those with the files at the start. -/
theorem step_of_runWithFiles (hapart : cfg.ReadsApart)
    (hreach : (runWithFiles n cfg files₀ fds pipefd).Reachable (a, files)) {e : ActiveEvent}
    {a' : Active α β σ} :
    (runPipeline n (cfg.withFiles files₀) fds pipefd).step a e a' ↔
      ∃ files', (runWithFiles n cfg files₀ fds pipefd).step (a, files) e (a', files') := by
  obtain ⟨tr, hrun⟩ := hreach
  have hnext := next_withFiles (n := n) hapart (run_of_runWithFiles hapart hrun).2 a e
  constructor
  · intro hstep
    exact ⟨files, hnext.trans hstep, fun _ _ => rfl⟩
  · rintro ⟨files', hstep, -⟩
    exact hnext.symm.trans hstep

theorem reachable_of_runWithFiles (hapart : cfg.ReadsApart)
    (hreach : (runWithFiles n cfg files₀ fds pipefd).Reachable (a, files)) :
    (runPipeline n (cfg.withFiles files₀) fds pipefd).Reachable a := by
  obtain ⟨tr, hrun⟩ := hreach
  exact ⟨_, (run_of_runWithFiles hapart hrun).1⟩

end Apart

/-- What a pipeline may do, it may do while all files stay. -/
theorem reachable_of_runPipeline {n : ℕ} {cfg : FileSetting φ β σ} {files₀ : Files φ β}
    {fds : FdTable α} {pipefd : ℕ → ℕ} {a : Active α β σ}
    (h : (runPipeline n (cfg.withFiles files₀) fds pipefd).Reachable a) :
    (runWithFiles n cfg files₀ fds pipefd).Reachable (a, files₀) := by
  obtain ⟨tr, hrun⟩ := h
  induction hrun with
  | start => exact Machine.reachable_init
  | @snoc tr a a' e hrun hstep ih => exact ih.step (e := e) ⟨hstep, fun _ _ => rfl⟩

/-! ### One result, and no pipeline that hangs -/

section Results

variable {n : ℕ} {cfg : FileSetting φ β σ} (hapart : cfg.ReadsApart) {files₀ : Files φ β}
  {fds : FdTable α} (hin : fds.lookup 0 ≠ none) (hout : fds.lookup 1 ≠ none)

include hapart hin hout

/-- **One result.**  Where no command reads a file that one of them writes, of the outputs of a
child in any two runs one is the beginning of the other, whatever the order of the steps; and when
both are over, what has not gone into a pipe is the same. -/
theorem pipeline_determinate {pipefd pipefd' : ℕ → ℕ} {a a' : Active α β σ}
    {files files' : Files φ β}
    (ha : (runWithFiles n cfg files₀ fds pipefd).Reachable (a, files))
    (ha' : (runWithFiles n cfg files₀ fds pipefd').Reachable (a', files')) :
    (∀ i, a.put i <+: a'.put i ∨ a'.put i <+: a.put i) ∧
      (a.Finished n → a'.Finished n →
        ∀ i < n, cfg.commands.pipedOut n i = false → a.put i = a'.put i) := by
  have hsame := outputs_determinate hin hout (reachable_of_runWithFiles hapart ha)
    (reachable_of_runWithFiles hapart ha')
  exact hsame

/-- **No pipeline hangs.**  Where no command reads a file that one of them writes, a state without
a step is one in which all children have exited and the parent has waited for them.  If the
programs come to an end on every input, then so does every run, after at most so many steps. -/
theorem pipeline_drains (pipefd : ℕ → ℕ) :
    (∀ a files, (runWithFiles n cfg files₀ fds pipefd).Reachable (a, files) →
      (runWithFiles n cfg files₀ fds pipefd).Ends (a, files) → a.Finished n) ∧
    ∀ bound, Terminates (cfg.withFiles files₀) bound →
      ∀ tr a files, (runWithFiles n cfg files₀ fds pipefd).Run tr (a, files) →
        tr.length ≤ Active.left n ((cfg.withFiles files₀).steps bound)
            (Active.start (σ := σ) (β := β) fds pipefd) ∧
          ∃ rest a' files', (runWithFiles n cfg files₀ fds pipefd).Run (tr ++ rest) (a', files') ∧
            a'.Finished n := by
  have hfinished : ∀ a files, (runWithFiles n cfg files₀ fds pipefd).Reachable (a, files) →
      (runWithFiles n cfg files₀ fds pipefd).Ends (a, files) → a.Finished n := by
    intro a files hreach hends
    refine finished_of_ends hin hout (reachable_of_runWithFiles hapart hreach) fun e a' hstep => ?_
    obtain ⟨files', hstep'⟩ := (step_of_runWithFiles hapart hreach).mp hstep
    exact hends e (a', files') hstep'
  refine ⟨hfinished, fun bound hbound tr a files hrun => ?_⟩
  have hlt : ∀ s e s', (runWithFiles n cfg files₀ fds pipefd).Reachable s →
      (runWithFiles n cfg files₀ fds pipefd).step s e s' →
        s'.1.left n ((cfg.withFiles files₀).steps bound) <
          s.1.left n ((cfg.withFiles files₀).steps bound) := by
    intro s e s' hreach hstep
    exact left_lt_of_step hin hout (reachable_of_runWithFiles hapart hreach) hbound
      ((step_of_runWithFiles hapart hreach).mpr ⟨s'.2, hstep⟩)
  constructor
  · have hlength := hrun.length_add_rank_le
      (fun s => s.1.left n ((cfg.withFiles files₀).steps bound)) (fun _ => 0)
      fun s e s' hreach hstep => hlt s e s' hreach hstep
    rw [List.map_const', List.sum_replicate, smul_zero, add_zero] at hlength
    exact (Nat.le_add_right _ _).trans hlength
  · obtain ⟨rest, s', hrun', hends⟩ := hrun.exists_end _ hlt
    exact ⟨rest, s'.1, s'.2, hrun', hfinished s'.1 s'.2 ⟨_, hrun'⟩ hends⟩

end Results

/-! ### `cat < f | cat > g` -/

inductive CatState
  | reading
  | holding (b : ℕ)
  | done
  deriving DecidableEq

/-- It writes what it reads. -/
def cat : CatState → Act ℕ CatState
  | .reading => .read fun
    | some b => .holding b
    | none => .done
  | .holding b => .write b .reading
  | .done => .exit

/-- Two times `cat`, from one file and to another one, with room for one byte in the pipe. -/
def catCat : FileSetting CString ℕ CatState where
  commands := {
    arguments := fun i =>
      if i = 0 then ["cat".toList, ['<'], ['f']]
      else if i = 1 then ["cat".toList, ['>'], ['g']]
      else []
    opens := fun _ _ => true
    execvp := fun argv => if argv = ["cat".toList] then some .reading else none
    act := cat
    input := fun _ => []
    capacity := 1
    capacity_pos := one_pos }
  file path := path

/-- The file `f` with one byte. -/
def oneByte : Files CString ℕ := fun path => if path = ['f'] then some [7] else none

/-- The parent up to its first call of `waitpid`. -/
def parentSteps : List ActiveEvent := (parentFirst 2).map .plumb

/-- A child up to its first step in `cat`. -/
def startSteps (i : ℕ) : List ActiveEvent := List.replicate 5 (.plumb (.child i)) ++ [.exec i]

/-- The one child after the other. -/
def oneByOne : List ActiveEvent :=
  parentSteps ++ startSteps 0 ++ List.replicate 4 (.act 0) ++ startSteps 1 ++
    List.replicate 4 (.act 1) ++ [.plumb .parent]

/-- Both children in turn. -/
def inTurn : List ActiveEvent :=
  parentSteps ++ startSteps 1 ++ startSteps 0 ++
    [.act 0, .act 0, .act 1, .act 0, .act 1, .act 0, .act 1, .act 1] ++
      List.replicate 2 (.plumb .parent)

theorem writes_catCat : catCat.Writes ['g'] := ⟨1, .truncate, ['g'], by decide, by decide, rfl⟩

theorem readsApart_catCat : catCat.ReadsApart := by
  -- the paths behind an operator are that of the command
  have htargets : ∀ i mode, ∀ path ∈ targets mode (catCat.commands.arguments i),
      path = if mode = .read then ['f'] else ['g'] := by
    intro i mode path hpath
    by_cases h0 : i = 0
    · subst h0
      cases mode <;> simp_all [catCat, targets, redirectionOf]
    by_cases h1 : i = 1
    · subst h1
      cases mode <;> simp_all [catCat, targets, redirectionOf]
    have hnone : catCat.commands.arguments i = [] := (if_neg h0).trans (if_neg h1)
    rw [hnone] at hpath
    cases hpath
  rintro i path hpath ⟨j, mode, path', hmode, hpath', heq⟩
  have hread := htargets i _ path hpath
  have hwrite := htargets j mode path' hpath'
  rw [if_pos rfl] at hread
  rw [if_neg hmode] at hwrite
  subst hread hwrite
  cases heq

/-- The byte comes out at the other end, and in one of the runs it is already in the file. -/
theorem pipeline_determinate_catCat :
    ∃ a a' files, (runWithFiles 2 catCat oneByte terminal fun _ => 0).Reachable (a, files) ∧
      files ['g'] = some [7] ∧
      (runWithFiles 2 catCat oneByte terminal fun _ => 1).Reachable (a', oneByte) ∧
        a.put 1 = [7] ∧ a.put 1 = a'.put 1 := by
  have hend : (oneByOne.foldlM (Active.next 2 (catCat.withFiles oneByte))
      (Active.start terminal fun _ => 0)).bind (fun a =>
        (a.next 2 (catCat.withFiles oneByte) (.plumb .parent)).map fun a' =>
          (a'.plumbing.parent, a'.plumbing.hasExited 0, a'.plumbing.hasExited 1, a'.put 1)) =
        some (.waiting 2, true, true, [7]) := by decide
  have hend' : (inTurn.foldlM (Active.next 2 (catCat.withFiles oneByte))
      (Active.start terminal fun _ => 1)).map
      (fun a => (a.plumbing.parent, a.plumbing.hasExited 0, a.plumbing.hasExited 1)) =
        some (.waiting 2, true, true) := by decide
  obtain ⟨b, hsteps, hlast⟩ := Option.bind_eq_some_iff.mp hend
  obtain ⟨a, hnext, hview⟩ := Option.map_eq_some_iff.mp hlast
  obtain ⟨a', hsteps', hview'⟩ := Option.map_eq_some_iff.mp hend'
  simp only [Prod.mk.injEq] at hview hview'
  obtain ⟨hwait, h0, h1, hput⟩ := hview
  obtain ⟨hwait', h0', h1'⟩ := hview'
  have hbefore : (runWithFiles 2 catCat oneByte terminal fun _ => 0).Reachable (b, oneByte) :=
    reachable_of_runPipeline (Machine.reachable_of_foldlM hsteps)
  have hreach : (runWithFiles 2 catCat oneByte terminal fun _ => 0).Reachable
      (a, Function.update oneByte ['g'] (some [7])) := by
    refine hbefore.step (e := .plumb .parent) ⟨hnext, fun f hf => ?_⟩
    refine Function.update_of_ne ?_ _ _
    rintro rfl
    exact hf writes_catCat
  have hreach' : (runWithFiles 2 catCat oneByte terminal fun _ => 1).Reachable (a', oneByte) :=
    reachable_of_runPipeline (Machine.reachable_of_foldlM hsteps')
  have hfinished : a.Finished 2 := ⟨Nat.forall_lt_succ_right.mpr
    ⟨Nat.forall_lt_succ_right.mpr ⟨by simp, h0⟩, h1⟩, hwait⟩
  have hfinished' : a'.Finished 2 := ⟨Nat.forall_lt_succ_right.mpr
    ⟨Nat.forall_lt_succ_right.mpr ⟨by simp, h0'⟩, h1'⟩, hwait'⟩
  exact ⟨a, a', _, hreach, Function.update_self _ _ _, hreach', hput,
    (pipeline_determinate readsApart_catCat (by decide) (by decide) hreach hreach').2
      hfinished hfinished' 1 (by decide) (by decide)⟩

/-- What `cat` holds. -/
def CatState.held : CatState → ℕ
  | .holding _ => 1
  | .reading | .done => 0

/-- Whether `cat` has read the end. -/
def CatState.ends : CatState → ℕ
  | .done => 1
  | .reading | .holding _ => 0

theorem ran_cat {g : List (Option ℕ)} {o : List ℕ} {s : CatState} (h : Ran cat .reading g o s) :
    o.length + s.held = g.reduceOption.length ∧ g.length = g.reduceOption.length + s.ends := by
  induction h with
  | start => exact ⟨rfl, rfl⟩
  | @read g o s next x h hact ih =>
    rw [List.reduceOption_append, List.length_append, List.length_append, List.length_singleton]
    cases s with
    | reading =>
      cases hact
      cases x with
      | none => exact ⟨ih.1, congrArg (· + 1) ih.2⟩
      | some b => exact ⟨congrArg (· + 1) ih.1, congrArg (· + 1) ih.2⟩
    | holding b => cases hact
    | done => cases hact
  | write h hact ih =>
    rename_i s s' b
    cases s with
    | reading => cases hact
    | holding b =>
      cases hact
      rw [List.length_append]
      exact ih
    | done => cases hact

theorem terminates_catCat : Terminates (catCat.withFiles oneByte) fun _ k => 2 * k + 1 where
  mono _ _ _ hle := by dsimp only; omega
  steps i s₀ g o s hboot hran := by
    obtain ⟨exec, -, hexecvp⟩ := Option.bind_eq_some_iff.mp hboot
    have hstart : (if exec.argv = ["cat".toList] then some CatState.reading else none) =
        some s₀ := hexecvp
    obtain ⟨-, hstart⟩ := Option.ite_none_right_eq_some.mp hstart
    obtain rfl := Option.some.inj hstart
    obtain ⟨hout, hin⟩ := ran_cat hran
    have hends : s.ends ≤ 1 := by cases s <;> simp [CatState.ends]
    omega

theorem pipeline_drains_catCat :
    ∃ tr a files, (runWithFiles 2 catCat oneByte terminal fun _ => 0).Run tr (a, files) ∧
      a.Finished 2 := by
  have hdrains := @pipeline_drains ℕ ℕ CatState CString 2 catCat readsApart_catCat oneByte terminal
    (by decide) (by decide) fun _ => 0
  obtain ⟨-, tr, a, files, hrun, hfinished⟩ := hdrains.2 _ terminates_catCat [] _ _ .start
  exact ⟨_, a, files, hrun, hfinished⟩

end OsLabs.Shell
