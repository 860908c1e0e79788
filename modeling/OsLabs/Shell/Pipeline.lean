import OsLabs.Lib.Transition
import OsLabs.Shell.Redirect

/-!
# Shell: the descriptors of a pipeline

`execute_pipeline` of `shell.c`, with its parent and its `n` children as processes that take their
steps in any order.  `pipe` returns two free descriptors above the standard ones, and `fork` copies
the array `pipefd` with the table of descriptors.  A child that has reached `execute_command` keeps
its table until it exits.
-/

namespace OsLabs.Shell.Pipeline

open OsLabs.Lib

/-- What a descriptor refers to; the pipe of iteration `i` is pipe `i`. -/
inductive Handle (α : Type*)
  | inherited (file : α)
  | readEnd (i : ℕ)
  | writeEnd (i : ℕ)
  deriving DecidableEq

def Handle.isPipe {α : Type*} : Handle α → Bool
  | inherited _ => false
  | readEnd _ | writeEnd _ => true

variable {α : Type*}

/-! ### The memory of a process -/

/-- What `fork` copies. -/
structure Image (α : Type*) where
  pipefd : ℕ → ℕ
  fds : FdTable (Handle α)

namespace Image

variable (image : Image α)

/-- `pipe(pipefd + i * 2)`, which returns the descriptors `r` and `w`. -/
def pipe (i r w : ℕ) : Image α where
  pipefd := Function.update (Function.update image.pipefd (i * 2) r) (i * 2 + 1) w
  fds := (image.fds.assign r (some (.readEnd i))).assign w (some (.writeEnd i))

/-- What `pipe` may return. -/
def fresh (r w : ℕ) : Bool :=
  r != w && decide (3 ≤ r) && decide (3 ≤ w) && (image.fds.lookup r).isNone &&
    (image.fds.lookup w).isNone

/-- `dup2(pipefd[k], newfd)` -/
def dup2 (k newfd : ℕ) : Image α := { image with fds := image.fds.dup2 (image.pipefd k) newfd }

/-- `close(pipefd[k])` -/
def close (k : ℕ) : Image α := { image with fds := image.fds.close (image.pipefd k) }

end Image

/-! ### Steps -/

inductive ParentLoc
  | piping (i : ℕ)
  | forking (i : ℕ)
  | closing (j : ℕ)
  | waiting (i : ℕ)
  deriving DecidableEq

inductive ChildLoc
  | dupIn
  | dupOut
  | closing (j : ℕ)
  /-- In `execute_command`. -/
  | executing
  | exited
  deriving DecidableEq

structure Child (α : Type*) where
  loc : ChildLoc
  image : Image α

structure State (α : Type*) where
  parent : ParentLoc
  image : Image α
  /-- The children that have been forked. -/
  child : ℕ → Option (Child α)

inductive Event
  | pipe (r w : ℕ)
  | parent
  | child (i : ℕ)
  deriving DecidableEq

/-- The next statement of child `i`. -/
def Child.next (n i : ℕ) (c : Child α) : Option (Child α) :=
  match c.loc with
  | .dupIn =>
    some ⟨.dupOut, if 0 < i then c.image.dup2 ((i - 1) * 2) STDIN_FILENO else c.image⟩
  | .dupOut =>
    some ⟨.closing 0, if i < n - 1 then c.image.dup2 (i * 2 + 1) STDOUT_FILENO else c.image⟩
  | .closing j =>
    if j < 2 * (n - 1) then some ⟨.closing (j + 1), c.image.close j⟩
    else some ⟨.executing, c.image⟩
  | .executing => some ⟨.exited, { c.image with fds := ⟨[]⟩ }⟩
  | .exited => none

def State.hasExited (s : State α) (i : ℕ) : Bool :=
  (s.child i).any fun c => c.loc = .exited

/-- The next statement of the parent, unless it is a call of `pipe`. -/
def State.parentNext (n : ℕ) (s : State α) : Option (State α) :=
  match s.parent with
  | .piping i => if i < n - 1 then none else some { s with parent := .forking 0 }
  | .forking i =>
    if i < n then
      some
        { s with
          parent := .forking (i + 1)
          child := Function.update s.child i (some ⟨.dupIn, s.image⟩) }
    else some { s with parent := .closing 0 }
  | .closing j =>
    if j < 2 * (n - 1) then some { s with parent := .closing (j + 1), image := s.image.close j }
    else some { s with parent := .waiting 0 }
  | .waiting i =>
    if i < n ∧ s.hasExited i = true then some { s with parent := .waiting (i + 1) } else none

def State.next (n : ℕ) (s : State α) : Event → Option (State α)
  | .pipe r w =>
    match s.parent with
    | .piping i =>
      if i < n - 1 ∧ s.image.fresh r w = true then
        some { s with parent := .piping (i + 1), image := s.image.pipe i r w }
      else none
    | _ => none
  | .parent => s.parentNext n
  | .child i => do
    let c ← (← s.child i).next n i
    return { s with child := Function.update s.child i (some c) }

/-- The state at the call, with whatever is in `pipefd`. -/
def start (fds : FdTable α) (pipefd : ℕ → ℕ) : State α where
  parent := .piping 0
  image := ⟨pipefd, fds.map .inherited⟩
  child _ := none

def executePipeline (n : ℕ) (fds : FdTable α) (pipefd : ℕ → ℕ) : Machine (State α) Event :=
  Machine.ofNext (start fds pipefd) (State.next n)

/-! ### Who holds what -/

inductive Proc
  | parent
  | child (i : ℕ)
  deriving DecidableEq

/-- The table of a process; there is none before the fork. -/
def State.fds (s : State α) : Proc → FdTable (Handle α)
  | .parent => s.image.fds
  | .child i => ((s.child i).map fun c => c.image.fds).getD ⟨[]⟩

/-- The steps of the parent in front of its first call of `waitpid`. -/
def ParentLoc.left (n : ℕ) : ParentLoc → ℕ
  | piping i => (n - 1 - i) + 1 + (n + 1) + (2 * (n - 1) + 1)
  | forking i => (n - i) + 1 + (2 * (n - 1) + 1)
  | closing j => 2 * (n - 1) - j + 1
  | waiting _ => 0

/-- The steps of a child in front of `execute_command`. -/
def ChildLoc.left (n : ℕ) : ChildLoc → ℕ
  | dupIn => 2 * (n - 1) + 3
  | dupOut => 2 * (n - 1) + 2
  | closing j => 2 * (n - 1) - j + 1
  | executing | exited => 0

/-- The steps that a process has still to take on the pipes. -/
def State.left (n : ℕ) (s : State α) : Proc → ℕ
  | .parent => s.parent.left n
  | .child i => ((s.child i).map fun c => c.loc.left n).getD 0

/-- No process holds the write end of pipe `i`. -/
def EndOfFile (s : State α) (i : ℕ) : Prop :=
  ∀ p fd, (s.fds p).lookup fd ≠ some (.writeEnd i)

/-- Each write end is held by its writer only. -/
def SoleWriters (s : State α) : Prop :=
  ∀ p fd i, (s.fds p).lookup fd = some (.writeEnd i) → p = .child i

/-- The table at the call. -/
def inherited (fds : FdTable α) (fd : ℕ) : Option (Handle α) := (fds.lookup fd).map .inherited

/-- The table of child `i` in `execute_command`. -/
structure ChildExact (n : ℕ) (fds : FdTable α) (i : ℕ) (image : Image α) : Prop where
  stdin : image.fds.lookup 0 = if i = 0 then inherited fds 0 else some (.readEnd (i - 1))
  stdout : image.fds.lookup 1 = if i = n - 1 then inherited fds 1 else some (.writeEnd i)
  others : ∀ fd handle, fd ≠ 0 → fd ≠ 1 → image.fds.lookup fd = some handle →
    handle.isPipe = false

/-- The pipes of the processes.  A child in front of `execute_command` may still hold copies of all
ends; it gets there whatever the others do. -/
structure PlumbingExact (n : ℕ) (fds : FdTable α) (s : State α) : Prop where
  child : ∀ i c, s.child i = some c → c.loc = .executing → ChildExact n fds i c.image
  parent : ∀ k, s.parent = .waiting k → ∀ fd handle, s.image.fds.lookup fd = some handle →
    handle.isPipe = false
  writers : ∀ k, s.parent = .waiting k → ∀ p fd i, (s.fds p).lookup fd = some (.writeEnd i) →
    p = .child i ∨ ∃ j, p = .child j ∧ 0 < s.left n p
  settled : ∀ k, s.parent = .waiting k → (∀ j, s.left n (.child j) = 0) →
    SoleWriters s ∧ ∀ i, s.hasExited i = true → EndOfFile s i
  progress : ∀ p, 0 < s.left n p →
    (∃ e s', s.next n e = some s' ∧ s'.left n p < s.left n p) ∧
      ∀ e s', s.next n e = some s' → s'.left n p ≤ s.left n p

/-! ### What a step does -/

section Inversions

variable {n : ℕ}

/-- What a child's step does to the state. -/
theorem next_child_eq_some {s s' : State α} {i : ℕ} (hnext : s.next n (.child i) = some s') :
    ∃ c c', s.child i = some c ∧ c.next n i = some c' ∧
      s' = { s with child := Function.update s.child i (some c') } := by
  obtain ⟨c, hc, hrest⟩ := Option.bind_eq_some_iff.mp hnext
  obtain ⟨c', hc', heq⟩ := Option.bind_eq_some_iff.mp hrest
  cases heq
  exact ⟨c, c', hc, hc', rfl⟩

/-- What a call of `pipe` does to the state. -/
theorem next_pipe_eq_some {s s' : State α} {r w : ℕ} (hnext : s.next n (.pipe r w) = some s') :
    ∃ i, s.parent = .piping i ∧ i < n - 1 ∧ s.image.fresh r w = true ∧
      s' = { s with parent := .piping (i + 1), image := s.image.pipe i r w } := by
  obtain ⟨loc, image, child⟩ := s
  cases loc with
  | piping i =>
    rw [State.next] at hnext
    dsimp only at hnext
    split_ifs at hnext with hok
    cases hnext
    exact ⟨i, rfl, hok.1, hok.2, rfl⟩
  | forking i => cases hnext
  | closing j => cases hnext
  | waiting i => cases hnext

/-- What a step of the parent does to the state. -/
inductive ParentStep (n : ℕ) (s : State α) : State α → Prop
  | piped (i : ℕ) (hloc : s.parent = .piping i) (hi : n - 1 ≤ i) :
      ParentStep n s { s with parent := .forking 0 }
  | fork (i : ℕ) (hloc : s.parent = .forking i) (hi : i < n) :
      ParentStep n s
        { s with
          parent := .forking (i + 1)
          child := Function.update s.child i (some ⟨.dupIn, s.image⟩) }
  | forked (i : ℕ) (hloc : s.parent = .forking i) (hi : n ≤ i) :
      ParentStep n s { s with parent := .closing 0 }
  | close (j : ℕ) (hloc : s.parent = .closing j) (hj : j < 2 * (n - 1)) :
      ParentStep n s { s with parent := .closing (j + 1), image := s.image.close j }
  | closed (j : ℕ) (hloc : s.parent = .closing j) (hj : 2 * (n - 1) ≤ j) :
      ParentStep n s { s with parent := .waiting 0 }
  | wait (i : ℕ) (hloc : s.parent = .waiting i) :
      ParentStep n s { s with parent := .waiting (i + 1) }

theorem parentStep_of_next {s s' : State α} (hnext : s.parentNext n = some s') :
    ParentStep n s s' := by
  rw [State.parentNext] at hnext
  cases hloc : s.parent with
  | piping i =>
    rw [hloc] at hnext
    dsimp only at hnext
    split_ifs at hnext with hlt
    cases hnext
    exact .piped i hloc (not_lt.mp hlt)
  | forking i =>
    rw [hloc] at hnext
    dsimp only at hnext
    split_ifs at hnext with hlt
    · cases hnext
      exact .fork i hloc hlt
    · cases hnext
      exact .forked i hloc (not_lt.mp hlt)
  | closing j =>
    rw [hloc] at hnext
    dsimp only at hnext
    split_ifs at hnext with hlt
    · cases hnext
      exact .close j hloc hlt
    · cases hnext
      exact .closed j hloc (not_lt.mp hlt)
  | waiting i =>
    rw [hloc] at hnext
    dsimp only at hnext
    split_ifs at hnext with hexited
    cases hnext
    exact .wait i hloc

end Inversions

/-! ### Tables with pipes -/

/-- What `pipefd[m]` refers to. -/
def endAt (m : ℕ) : Handle α := if m % 2 = 0 then .readEnd (m / 2) else .writeEnd (m / 2)

theorem endAt_read (i : ℕ) : endAt (α := α) (i * 2) = .readEnd i := by
  rw [endAt, if_pos (by omega), Nat.mul_div_cancel _ (by decide)]

theorem endAt_write (i : ℕ) : endAt (α := α) (i * 2 + 1) = .writeEnd i := by
  have hdiv : (i * 2 + 1) / 2 = i := by omega
  rw [endAt, if_neg (by omega), hdiv]

theorem endAt_injective : Function.Injective (endAt (α := α)) := by
  intro m m' h
  unfold endAt at h
  split_ifs at h
  · have hdiv := Handle.readEnd.inj h
    omega
  · have hdiv := Handle.writeEnd.inj h
    omega

/-- The first `k` pipes are open under the descriptors in `pipefd`, but for those in front of
`closed`; every other descriptor is as `std` says. -/
structure Holds (k closed : ℕ) (std : ℕ → Option (Handle α)) (image : Image α) : Prop where
  ge : ∀ m < 2 * k, 3 ≤ image.pipefd m
  inj : ∀ m < 2 * k, ∀ m' < 2 * k, image.pipefd m = image.pipefd m' → m = m'
  pipes : ∀ m < 2 * k,
    image.fds.lookup (image.pipefd m) = if m < closed then none else some (endAt m)
  others : ∀ fd, (∀ m < 2 * k, fd ≠ image.pipefd m) → image.fds.lookup fd = std fd

namespace Holds

variable {k closed : ℕ} {std : ℕ → Option (Handle α)} {image : Image α}

theorem pipe (h : Holds k 0 std image) {r w : ℕ} (hfresh : image.fresh r w = true) :
    Holds (k + 1) 0 std (image.pipe k r w) := by
  obtain ⟨⟨⟨⟨hrw, hr⟩, hw⟩, hfreer⟩, hfreew⟩ :
      (((r ≠ w ∧ 3 ≤ r) ∧ 3 ≤ w) ∧ image.fds.lookup r = none) ∧ image.fds.lookup w = none := by
    simpa [Image.fresh] using hfresh
  have hlookup : ∀ fd, (image.pipe k r w).fds.lookup fd =
      if fd = w then some (.writeEnd k) else if fd = r then some (.readEnd k)
      else image.fds.lookup fd := by
    intro fd
    rw [Image.pipe, FdTable.lookup_assign, FdTable.lookup_assign]
  have hpipefd : (image.pipe k r w).pipefd =
      Function.update (Function.update image.pipefd (k * 2) r) (k * 2 + 1) w := rfl
  have hread : (image.pipe k r w).pipefd (k * 2) = r := by
    rw [hpipefd, Function.update_of_ne (by omega), Function.update_self]
  have hwrite : (image.pipe k r w).pipefd (k * 2 + 1) = w := Function.update_self _ _ _
  have hold : ∀ m < 2 * k, (image.pipe k r w).pipefd m = image.pipefd m := by
    intro m hm
    rw [hpipefd, Function.update_of_ne (by omega), Function.update_of_ne (by omega)]
  have hused : ∀ m < 2 * k, image.pipefd m ≠ r ∧ image.pipefd m ≠ w := by
    intro m hm
    have hpipe := h.pipes m hm
    refine ⟨fun heq => ?_, fun heq => ?_⟩
    · rw [heq, hfreer] at hpipe
      cases hpipe
    · rw [heq, hfreew] at hpipe
      cases hpipe
  have hcases : ∀ m < 2 * (k + 1), m < 2 * k ∨ m = k * 2 ∨ m = k * 2 + 1 := by omega
  have hpipes : ∀ m < 2 * (k + 1),
      (image.pipe k r w).fds.lookup ((image.pipe k r w).pipefd m) = some (endAt m) := by
    intro m hm
    rw [hlookup]
    obtain hm | rfl | rfl := hcases m hm
    · rw [hold m hm, if_neg (hused m hm).2, if_neg (hused m hm).1, h.pipes m hm,
        if_neg (Nat.not_lt_zero m)]
    · rw [hread, if_neg hrw, if_pos rfl, endAt_read]
    · rw [hwrite, if_pos rfl, endAt_write]
  refine ⟨fun m hm => ?_, fun m hm m' hm' heq => ?_, fun m hm => ?_, fun fd hfd => ?_⟩
  · obtain hm | rfl | rfl := hcases m hm
    · rw [hold m hm]
      exact h.ge m hm
    · rwa [hread]
    · rwa [hwrite]
  · -- two entries with one descriptor refer to one end
    have hend := hpipes m hm
    rw [heq, hpipes m' hm'] at hend
    exact (endAt_injective (Option.some.inj hend)).symm
  · rw [if_neg (Nat.not_lt_zero m)]
    exact hpipes m hm
  · have hr' := hfd (k * 2) (by omega)
    have hw' := hfd (k * 2 + 1) (by omega)
    rw [hread] at hr'
    rw [hwrite] at hw'
    rw [hlookup, if_neg hw', if_neg hr']
    refine h.others fd fun m hm => ?_
    rw [← hold m hm]
    exact hfd m (by omega)

theorem close (h : Holds k closed std image) (hclosed : closed < 2 * k) :
    Holds k (closed + 1) std (image.close closed) where
  ge := h.ge
  inj := h.inj
  pipes m hm := by
    show (image.fds.close (image.pipefd closed)).lookup (image.pipefd m) = _
    rw [FdTable.lookup_close, h.pipes m hm]
    by_cases heq : m = closed
    · rw [heq, if_pos rfl, if_pos (Nat.lt_succ_self closed)]
    · rw [if_neg fun hfd => heq (h.inj m hm closed hclosed hfd)]
      refine if_congr ?_ rfl rfl
      omega
  others fd hfd := by
    have hne : fd ≠ image.pipefd closed := hfd closed hclosed
    show (image.fds.close (image.pipefd closed)).lookup fd = _
    rw [FdTable.lookup_close, if_neg hne]
    exact h.others fd hfd

theorem dup2 (h : Holds k 0 std image) {m newfd : ℕ} (hm : m < 2 * k) (hnewfd : newfd < 3) :
    Holds k 0 (Function.update std newfd (some (endAt m))) (image.dup2 m newfd) := by
  have hopen : image.fds.lookup (image.pipefd m) = some (endAt m) := by
    rw [h.pipes m hm, if_neg (Nat.not_lt_zero m)]
  have hlookup : ∀ fd, (image.dup2 m newfd).fds.lookup fd =
      if fd = newfd then some (endAt m) else image.fds.lookup fd :=
    FdTable.lookup_dup2_of_open _ hopen newfd
  refine ⟨h.ge, h.inj, fun m' hm' => ?_, fun fd hfd => ?_⟩
  · have hge := h.ge m' hm'
    have hne : (image.dup2 m newfd).pipefd m' ≠ newfd := by
      show image.pipefd m' ≠ newfd
      omega
    rw [hlookup, if_neg hne]
    exact h.pipes m' hm'
  · rw [hlookup]
    by_cases heq : fd = newfd
    · rw [if_pos heq, heq, Function.update_self]
    · rw [if_neg heq, Function.update_of_ne heq]
      exact h.others fd hfd

/-- The standard descriptors are no pipe's own. -/
theorem lookup_std (h : Holds k closed std image) {fd : ℕ} (hfd : fd < 3) :
    image.fds.lookup fd = std fd := by
  refine h.others fd fun m hm heq => ?_
  have := h.ge m hm
  omega

/-- With all of `pipefd` closed, what is open is as `std` says. -/
theorem lookup_of_closed (h : Holds k (2 * k) std image) {fd : ℕ} {handle : Handle α}
    (hopen : image.fds.lookup fd = some handle) : std fd = some handle := by
  by_cases hpipe : ∃ m < 2 * k, fd = image.pipefd m
  · obtain ⟨m, hm, rfl⟩ := hpipe
    rw [h.pipes m hm, if_pos hm] at hopen
    cases hopen
  · rw [← hopen, h.others fd fun m hm heq => hpipe ⟨m, hm, heq⟩]

end Holds

/-! ### The invariant -/

section Invariant

variable (n : ℕ) (fds : FdTable α)

/-- The standard descriptors of child `i` behind its first `dup2`, and behind its second. -/
def withStdin (i : ℕ) : ℕ → Option (Handle α) :=
  if 0 < i then Function.update (inherited fds) 0 (some (.readEnd (i - 1))) else inherited fds

def withStdout (i : ℕ) : ℕ → Option (Handle α) :=
  if i < n - 1 then Function.update (withStdin fds i) 1 (some (.writeEnd i)) else withStdin fds i

def ParentInv (image : Image α) : ParentLoc → Prop
  | .piping i => i ≤ n - 1 ∧ Holds i 0 (inherited fds) image
  | .forking _ => Holds (n - 1) 0 (inherited fds) image
  | .closing j => j ≤ 2 * (n - 1) ∧ Holds (n - 1) j (inherited fds) image
  | .waiting _ => Holds (n - 1) (2 * (n - 1)) (inherited fds) image

def ChildInv (i : ℕ) (image : Image α) : ChildLoc → Prop
  | .dupIn => Holds (n - 1) 0 (inherited fds) image
  | .dupOut => Holds (n - 1) 0 (withStdin fds i) image
  | .closing j => j ≤ 2 * (n - 1) ∧ Holds (n - 1) j (withStdout n fds i) image
  | .executing => Holds (n - 1) (2 * (n - 1)) (withStdout n fds i) image
  | .exited => ∀ fd, image.fds.lookup fd = none

/-- The children that are still to be forked. -/
def unforked : ParentLoc → Set ℕ
  | .piping _ => Set.univ
  | .forking i => Set.Ici i
  | .closing _ | .waiting _ => ∅

structure Inv (s : State α) : Prop where
  parent : ParentInv n fds s.image s.parent
  child : ∀ i c, s.child i = some c → i < n ∧ ChildInv n fds i c.image c.loc
  unforked : ∀ i ∈ unforked s.parent, s.child i = none

variable {n fds}

theorem inv_start (pipefd : ℕ → ℕ) : Inv n fds (start fds pipefd) where
  parent := by
    refine ⟨Nat.zero_le _, by omega, by omega, by omega, fun fd _ => ?_⟩
    exact FdTable.lookup_map fds Handle.inherited fd
  child := nofun
  unforked _ _ := rfl

/-- A step of a child: the standard descriptors are redirected before anything is closed. -/
theorem childInv_next {i : ℕ} (hi : i < n) {c c' : Child α} (h : ChildInv n fds i c.image c.loc)
    (hnext : c.next n i = some c') : ChildInv n fds i c'.image c'.loc := by
  obtain ⟨loc, image⟩ := c
  cases loc with
  | dupIn =>
    cases hnext
    show Holds (n - 1) 0 (withStdin fds i) _
    rw [withStdin]
    split_ifs with hpos
    · rw [← endAt_read]
      exact Holds.dup2 h (by omega) (by decide)
    · exact h
  | dupOut =>
    cases hnext
    refine ⟨Nat.zero_le _, ?_⟩
    rw [withStdout]
    split_ifs with hlast
    · rw [← endAt_write]
      exact Holds.dup2 h (by omega) (by decide)
    · exact h
  | closing j =>
    obtain ⟨hj, hholds⟩ := h
    rw [Child.next] at hnext
    dsimp only at hnext
    split_ifs at hnext with hlt
    · cases hnext
      exact ⟨hlt, hholds.close hlt⟩
    · cases hnext
      obtain rfl : j = 2 * (n - 1) := le_antisymm hj (not_lt.mp hlt)
      exact hholds
  | executing =>
    cases hnext
    exact fun fd => rfl
  | exited => cases hnext

theorem Inv.parentNext {s s' : State α} (h : Inv n fds s) (hnext : s.parentNext n = some s') :
    Inv n fds s' := by
  have hparent := h.parent
  have hunforked := h.unforked
  cases parentStep_of_next hnext with
  | piped i hloc hi =>
    rw [hloc] at hparent hunforked
    obtain rfl : i = n - 1 := le_antisymm hparent.1 hi
    exact ⟨hparent.2, h.child, fun k _ => hunforked k (Set.mem_univ k)⟩
  | fork i hloc hi =>
    rw [hloc] at hparent hunforked
    refine ⟨hparent, fun k c hk => ?_, fun k hk => ?_⟩
    · by_cases hki : k = i
      · subst hki
        dsimp only at hk
        rw [Function.update_self] at hk
        cases hk
        exact ⟨hi, hparent⟩
      · dsimp only at hk
        rw [Function.update_of_ne hki] at hk
        exact h.child k c hk
    · have hle : i + 1 ≤ k := hk
      dsimp only
      rw [Function.update_of_ne (by omega)]
      exact hunforked k (Nat.le_of_succ_le hle)
  | forked i hloc hi =>
    rw [hloc] at hparent
    exact ⟨⟨Nat.zero_le _, hparent⟩, h.child, fun k hk => absurd hk (Set.notMem_empty k)⟩
  | close j hloc hj =>
    rw [hloc] at hparent hunforked
    exact ⟨⟨hj, hparent.2.close hj⟩, h.child, hunforked⟩
  | closed j hloc hj =>
    rw [hloc] at hparent hunforked
    obtain rfl : j = 2 * (n - 1) := le_antisymm hparent.1 hj
    exact ⟨hparent.2, h.child, hunforked⟩
  | wait i hloc =>
    rw [hloc] at hparent hunforked
    exact ⟨hparent, h.child, hunforked⟩

theorem Inv.next {s s' : State α} {e : Event} (h : Inv n fds s) (hnext : s.next n e = some s') :
    Inv n fds s' := by
  cases e with
  | pipe r w =>
    obtain ⟨i, hloc, hlt, hfresh, rfl⟩ := next_pipe_eq_some hnext
    have hparent := h.parent
    have hunforked := h.unforked
    rw [hloc] at hparent hunforked
    exact ⟨⟨hlt, hparent.2.pipe hfresh⟩, h.child, hunforked⟩
  | parent => exact h.parentNext hnext
  | child i =>
    obtain ⟨c, c', hc, hc', rfl⟩ := next_child_eq_some hnext
    obtain ⟨hi, hinv⟩ := h.child i c hc
    refine ⟨h.parent, fun k d hk => ?_, fun k hk => ?_⟩
    · by_cases hki : k = i
      · subst hki
        dsimp only at hk
        rw [Function.update_self] at hk
        cases hk
        exact ⟨hi, childInv_next hi hinv hc'⟩
      · dsimp only at hk
        rw [Function.update_of_ne hki] at hk
        exact h.child k d hk
    · have hnone := h.unforked k hk
      have hki : k ≠ i := by
        rintro rfl
        rw [hc] at hnone
        cases hnone
      dsimp only
      rw [Function.update_of_ne hki]
      exact hnone

theorem inv_of_reachable {pipefd : ℕ → ℕ} {s : State α}
    (h : (executePipeline n fds pipefd).Reachable s) : Inv n fds s :=
  h.invariant (inv_start pipefd) fun _ _ _ _ hinv hstep => hinv.next hstep

end Invariant

/-! ### Steps that are left -/

section Left

variable {n : ℕ}

theorem left_child {s : State α} {i : ℕ} {c : Child α} (hc : s.child i = some c) :
    s.left n (.child i) = c.loc.left n := by
  rw [State.left, hc]
  rfl

/-- A child in front of `execute_command` can take its next step, which brings it nearer. -/
theorem Child.exists_next {c : Child α} (hleft : 0 < c.loc.left n) (i : ℕ) :
    ∃ c', c.next n i = some c' ∧ c'.loc.left n < c.loc.left n := by
  obtain ⟨loc, image⟩ := c
  cases loc with
  | dupIn => exact ⟨_, rfl, Nat.lt_succ_self _⟩
  | dupOut => exact ⟨_, rfl, Nat.lt_succ_self _⟩
  | closing j =>
    rw [Child.next]
    dsimp only
    split_ifs with hlt
    · refine ⟨_, rfl, ?_⟩
      show 2 * (n - 1) - (j + 1) + 1 < 2 * (n - 1) - j + 1
      omega
    · exact ⟨_, rfl, Nat.succ_pos _⟩
  | executing => exact absurd hleft (lt_irrefl 0)
  | exited => exact absurd hleft (lt_irrefl 0)

theorem Child.next_left_le {c c' : Child α} {i : ℕ} (hleft : 0 < c.loc.left n)
    (hnext : c.next n i = some c') : c'.loc.left n ≤ c.loc.left n := by
  obtain ⟨c'', hnext', hlt⟩ := Child.exists_next hleft i
  rw [hnext] at hnext'
  cases hnext'
  exact hlt.le

theorem exists_fresh (image : Image α) : ∃ r w, image.fresh r w = true := by
  obtain ⟨r, hr, hlength⟩ : ∃ r, 3 ≤ r ∧ image.fds.slots.length ≤ r :=
    ⟨max 3 image.fds.slots.length, le_max_left _ _, le_max_right _ _⟩
  have hfreer := image.fds.lookup_of_length_le hlength
  have hfreew := image.fds.lookup_of_length_le (Nat.le_succ_of_le hlength)
  refine ⟨r, r + 1, ?_⟩
  rw [Image.fresh, hfreer, hfreew]
  simp
  omega

/-- The parent in front of `waitpid` can take its next step, which brings it nearer. -/
theorem exists_parent_next {s : State α} (hleft : 0 < s.parent.left n) :
    ∃ e s', s.next n e = some s' ∧ s'.parent.left n < s.parent.left n := by
  obtain ⟨loc, image, child⟩ := s
  cases loc with
  | piping i =>
    by_cases hlt : i < n - 1
    · obtain ⟨r, w, hfresh⟩ := exists_fresh image
      refine ⟨.pipe r w, _, if_pos ⟨hlt, hfresh⟩, ?_⟩
      show n - 1 - (i + 1) + 1 + (n + 1) + (2 * (n - 1) + 1) <
        n - 1 - i + 1 + (n + 1) + (2 * (n - 1) + 1)
      omega
    · refine ⟨.parent, _, if_neg hlt, ?_⟩
      show n - 0 + 1 + (2 * (n - 1) + 1) < n - 1 - i + 1 + (n + 1) + (2 * (n - 1) + 1)
      omega
  | forking i =>
    by_cases hlt : i < n
    · refine ⟨.parent, _, if_pos hlt, ?_⟩
      show n - (i + 1) + 1 + (2 * (n - 1) + 1) < n - i + 1 + (2 * (n - 1) + 1)
      omega
    · refine ⟨.parent, _, if_neg hlt, ?_⟩
      show 2 * (n - 1) - 0 + 1 < n - i + 1 + (2 * (n - 1) + 1)
      omega
  | closing j =>
    by_cases hlt : j < 2 * (n - 1)
    · refine ⟨.parent, _, if_pos hlt, ?_⟩
      show 2 * (n - 1) - (j + 1) + 1 < 2 * (n - 1) - j + 1
      omega
    · exact ⟨.parent, _, if_neg hlt, Nat.succ_pos _⟩
  | waiting i => exact absurd hleft (lt_irrefl 0)

theorem parentNext_left_le {s s' : State α} (hnext : s.parentNext n = some s') :
    s'.parent.left n ≤ s.parent.left n := by
  cases parentStep_of_next hnext with
  | piped i hloc hi =>
    rw [hloc]
    show n - 0 + 1 + (2 * (n - 1) + 1) ≤ n - 1 - i + 1 + (n + 1) + (2 * (n - 1) + 1)
    omega
  | fork i hloc hi =>
    rw [hloc]
    show n - (i + 1) + 1 + (2 * (n - 1) + 1) ≤ n - i + 1 + (2 * (n - 1) + 1)
    omega
  | forked i hloc hi =>
    rw [hloc]
    show 2 * (n - 1) - 0 + 1 ≤ n - i + 1 + (2 * (n - 1) + 1)
    omega
  | close j hloc hj =>
    rw [hloc]
    show 2 * (n - 1) - (j + 1) + 1 ≤ 2 * (n - 1) - j + 1
    omega
  | closed j hloc hj => exact Nat.zero_le _
  | wait i hloc => exact Nat.zero_le _

/-- The parent's steps leave the children alone that have been forked. -/
theorem parentNext_child {fds : FdTable α} {s s' : State α} (hinv : Inv n fds s)
    (hnext : s.parentNext n = some s') {j : ℕ} {c : Child α} (hc : s.child j = some c) :
    s'.child j = some c := by
  cases parentStep_of_next hnext with
  | fork i hloc hi =>
    have hunforked := hinv.unforked
    rw [hloc] at hunforked
    have hne : j ≠ i := by
      rintro rfl
      exact Option.some_ne_none c (hc.symm.trans (hunforked j (Set.mem_Ici.mpr le_rfl)))
    exact (Function.update_of_ne hne _ _).trans hc
  | _ => exact hc

/-- No step takes a process back. -/
theorem left_le {fds : FdTable α} {s s' : State α} {e : Event} (hinv : Inv n fds s)
    (hnext : s.next n e = some s') {p : Proc} (hleft : 0 < s.left n p) :
    s'.left n p ≤ s.left n p := by
  cases p with
  | parent =>
    show s'.parent.left n ≤ s.parent.left n
    cases e with
    | pipe r w =>
      obtain ⟨i, hloc, hlt, -, rfl⟩ := next_pipe_eq_some hnext
      rw [hloc]
      show n - 1 - (i + 1) + 1 + (n + 1) + (2 * (n - 1) + 1) ≤
        n - 1 - i + 1 + (n + 1) + (2 * (n - 1) + 1)
      omega
    | parent => exact parentNext_left_le hnext
    | child i =>
      obtain ⟨c, c', -, -, rfl⟩ := next_child_eq_some hnext
      exact le_rfl
  | child j =>
    cases hc : s.child j with
    | none =>
      rw [State.left, hc] at hleft
      exact absurd hleft (lt_irrefl 0)
    | some c =>
      rw [left_child hc] at hleft ⊢
      cases e with
      | pipe r w =>
        obtain ⟨i, -, -, -, rfl⟩ := next_pipe_eq_some hnext
        exact (left_child hc).le
      | parent => exact (left_child (parentNext_child hinv hnext hc)).le
      | child i =>
        obtain ⟨d, d', hd, hd', rfl⟩ := next_child_eq_some hnext
        by_cases hji : j = i
        · subst hji
          rw [hc] at hd
          cases hd
          rw [left_child (Function.update_self _ _ _)]
          exact Child.next_left_le hleft hd'
        · refine (left_child ?_).le
          exact (Function.update_of_ne hji _ _).trans hc

/-- A process with steps left can take the next of them in any case. -/
theorem exists_next {s : State α} {p : Proc} (hleft : 0 < s.left n p) :
    ∃ e s', s.next n e = some s' ∧ s'.left n p < s.left n p := by
  cases p with
  | parent => exact exists_parent_next hleft
  | child i =>
    cases hc : s.child i with
    | none =>
      rw [State.left, hc] at hleft
      exact absurd hleft (lt_irrefl 0)
    | some c =>
      rw [left_child hc] at hleft ⊢
      obtain ⟨c', hnext, hlt⟩ := Child.exists_next hleft i
      refine ⟨.child i, { s with child := Function.update s.child i (some c') }, ?_, ?_⟩
      · rw [State.next, hc, Option.bind_eq_bind, Option.bind_some, hnext]
        rfl
      · rwa [left_child (Function.update_self _ _ _)]

end Left

/-! ### The tables of the processes -/

section Tables

variable {n : ℕ} {fds : FdTable α}

theorem isPipe_inherited {fd : ℕ} {handle : Handle α} (h : inherited fds fd = some handle) :
    handle.isPipe = false := by
  obtain ⟨file, -, rfl⟩ := Option.map_eq_some_iff.mp h
  rfl

theorem withStdout_zero (i : ℕ) :
    withStdout n fds i 0 = if i = 0 then inherited fds 0 else some (.readEnd (i - 1)) := by
  have hstdin : withStdin fds i 0 =
      if i = 0 then inherited fds 0 else some (.readEnd (i - 1)) := by
    rw [withStdin]
    split_ifs with hpos hzero
    · omega
    · exact Function.update_self _ _ _
    · rfl
    · omega
  rw [withStdout]
  split_ifs with hlast hzero
  · rw [Function.update_of_ne (by decide), hstdin, if_pos hzero]
  · rw [Function.update_of_ne (by decide), hstdin, if_neg hzero]
  · rw [hstdin, if_pos (by assumption)]
  · rw [hstdin, if_neg (by assumption)]

theorem withStdin_of_ne {fd : ℕ} (hfd : fd ≠ 0) (i : ℕ) :
    withStdin fds i fd = inherited fds fd := by
  rw [withStdin]
  split_ifs
  · exact Function.update_of_ne hfd _ _
  · rfl

theorem withStdout_one {i : ℕ} (hi : i < n) :
    withStdout n fds i 1 = if i = n - 1 then inherited fds 1 else some (.writeEnd i) := by
  rw [withStdout]
  by_cases hlast : i = n - 1
  · rw [if_neg (by omega), if_pos hlast]
    exact withStdin_of_ne (by decide) i
  · rw [if_pos (by omega), if_neg hlast]
    exact Function.update_self _ _ _

theorem withStdout_of_ne {fd : ℕ} (hin : fd ≠ 0) (hout : fd ≠ 1) (i : ℕ) :
    withStdout n fds i fd = inherited fds fd := by
  rw [withStdout]
  split_ifs
  · rw [Function.update_of_ne hout]
    exact withStdin_of_ne hin i
  · exact withStdin_of_ne hin i

theorem childExact_of_holds {i : ℕ} (hi : i < n) {image : Image α}
    (h : Holds (n - 1) (2 * (n - 1)) (withStdout n fds i) image) : ChildExact n fds i image where
  stdin := by rw [h.lookup_std (by decide), withStdout_zero]
  stdout := by rw [h.lookup_std (by decide), withStdout_one hi]
  others fd handle hin hout hopen := by
    have hstd := h.lookup_of_closed hopen
    rw [withStdout_of_ne hin hout] at hstd
    exact isPipe_inherited hstd

/-- A child in `execute_command` holds no write end but its own. -/
theorem ChildExact.eq_of_writeEnd {i : ℕ} {image : Image α} (h : ChildExact n fds i image)
    {fd k : ℕ} (hopen : image.fds.lookup fd = some (.writeEnd k)) : k = i := by
  by_cases hin : fd = 0
  · rw [hin, h.stdin] at hopen
    split_ifs at hopen
    · exact absurd (isPipe_inherited hopen).symm Bool.false_ne_true
    · cases hopen
  · by_cases hout : fd = 1
    · rw [hout, h.stdout] at hopen
      split_ifs at hopen
      · exact absurd (isPipe_inherited hopen).symm Bool.false_ne_true
      · cases hopen
        rfl
    · exact absurd (h.others fd _ hin hout hopen).symm Bool.false_ne_true

/-- The parent that waits holds no end. -/
theorem Inv.parent_free {s : State α} (hinv : Inv n fds s) {k : ℕ} (hwait : s.parent = .waiting k)
    {fd : ℕ} {handle : Handle α} (hopen : s.image.fds.lookup fd = some handle) :
    handle.isPipe = false := by
  have hholds := hinv.parent
  rw [hwait] at hholds
  exact isPipe_inherited (Holds.lookup_of_closed hholds hopen)

/-- A child behind its close loop holds no write end but its own, and that until it exits. -/
theorem Inv.writeEnd_cases {s : State α} (hinv : Inv n fds s) {j fd i : ℕ} {c : Child α}
    (hc : s.child j = some c) (hopen : c.image.fds.lookup fd = some (.writeEnd i)) :
    (j = i ∧ s.hasExited i = false) ∨ 0 < c.loc.left n := by
  obtain ⟨hj, hchild⟩ := hinv.child j c hc
  obtain ⟨loc, image⟩ := c
  cases loc with
  | dupIn => exact Or.inr (Nat.succ_pos _)
  | dupOut => exact Or.inr (Nat.succ_pos _)
  | closing m => exact Or.inr (Nat.succ_pos _)
  | executing =>
    obtain rfl := (childExact_of_holds hj hchild).eq_of_writeEnd hopen
    refine Or.inl ⟨rfl, ?_⟩
    rw [State.hasExited, hc]
    rfl
  | exited =>
    have hnone : image.fds.lookup fd = none := hchild fd
    rw [hnone] at hopen
    cases hopen

/-- When the parent waits, a write end is held by its writer, until this exits, or by a child in
front of `execute_command`. -/
theorem Inv.holder_cases {s : State α} (hinv : Inv n fds s) {k : ℕ}
    (hwait : s.parent = .waiting k) {p : Proc} {fd i : ℕ}
    (hopen : (s.fds p).lookup fd = some (.writeEnd i)) :
    (p = .child i ∧ s.hasExited i = false) ∨ ∃ j, p = .child j ∧ 0 < s.left n p := by
  cases p with
  | parent => exact absurd (hinv.parent_free hwait hopen).symm Bool.false_ne_true
  | child j =>
    cases hc : s.child j with
    | none =>
      rw [State.fds, hc] at hopen
      cases hopen
    | some c =>
      have hfds : s.fds (.child j) = c.image.fds := by
        rw [State.fds, hc]
        rfl
      rw [hfds] at hopen
      obtain ⟨rfl, hrunning⟩ | hleft := hinv.writeEnd_cases hc hopen
      · exact Or.inl ⟨rfl, hrunning⟩
      · exact Or.inr ⟨j, rfl, by rwa [left_child hc]⟩

/-- **Exact plumbing.**  In every state that the pipeline can reach, the children in
`execute_command` and the waiting parent hold the ends that they should and no others. -/
theorem plumbingExact_of_reachable {pipefd : ℕ → ℕ} {s : State α}
    (h : (executePipeline n fds pipefd).Reachable s) : PlumbingExact n fds s := by
  have hinv := inv_of_reachable h
  refine ⟨fun i c hc hloc => ?_, fun k hwait fd handle hopen => hinv.parent_free hwait hopen,
    fun k hwait p fd i hopen => ?_, fun k hwait hleft => ⟨fun p fd i hopen => ?_, ?_⟩,
    fun p hleft => ⟨exists_next hleft, fun e s' hnext => left_le hinv hnext hleft⟩⟩
  · obtain ⟨hi, hchild⟩ := hinv.child i c hc
    rw [hloc] at hchild
    exact childExact_of_holds hi hchild
  · exact (hinv.holder_cases hwait hopen).imp_left And.left
  · obtain ⟨hp, -⟩ | ⟨j, rfl, hpos⟩ := hinv.holder_cases hwait hopen
    · exact hp
    · exact absurd (hleft j) (Nat.pos_iff_ne_zero.mp hpos)
  · intro i hexited p fd hopen
    obtain ⟨-, hrunning⟩ | ⟨j, rfl, hpos⟩ := hinv.holder_cases hwait hopen
    · rw [hexited] at hrunning
      cases hrunning
    · exact absurd (hleft j) (Nat.pos_iff_ne_zero.mp hpos)

end Tables

/-- The standard descriptors are open. -/
def terminal : FdTable ℕ := ⟨[some 0, some 1, some 2]⟩

/-- `pipe` twice or once, all forks and closes of the parent. -/
def parentFirst (n : ℕ) : List Event :=
  ((List.range (n - 1)).map fun i => .pipe (3 + 2 * i) (4 + 2 * i)) ++
    List.replicate (3 + n + 2 * (n - 1)) .parent

/-- All steps of a child up to `execute_command`, and its exit. -/
def runChild (n i : ℕ) : List Event := List.replicate (2 * (n - 1) + 4) (.child i)

theorem plumbingExact_sample :
    ∃ s, (executePipeline 2 terminal fun _ => 0).Reachable s ∧ s.parent = .waiting 0 ∧
      s.hasExited 0 = true ∧ PlumbingExact 2 terminal s := by
  have hend : ((parentFirst 2 ++ runChild 2 0).foldlM (State.next 2)
      (start terminal fun _ => 0)).map (fun s => (s.parent, s.hasExited 0)) =
        some (.waiting 0, true) := by decide
  obtain ⟨s, hrun, hview⟩ := Option.map_eq_some_iff.mp hend
  have hreach : (executePipeline 2 terminal fun _ => 0).Reachable s :=
    Machine.reachable_of_foldlM hrun
  obtain ⟨hwait, hexited⟩ := Prod.ext_iff.mp hview
  exact ⟨s, hreach, hwait, hexited, plumbingExact_of_reachable hreach⟩

/-- Child 1 of two has not closed anything yet when the parent waits; of three, the writer of pipe 0
has exited and its reader is in `execute_command` while child 2 still holds the write end. -/
theorem not_soleWriters_waiting :
    (¬ ∀ s, (executePipeline 2 terminal fun _ => 0).Reachable s → ∀ k, s.parent = .waiting k →
        SoleWriters s) ∧
      ¬ ∀ s, (executePipeline 3 terminal fun _ => 0).Reachable s → ∀ k i,
        s.parent = .waiting k → s.hasExited i = true →
          (s.child (i + 1)).map Child.loc = some .executing → EndOfFile s i := by
  constructor
  · intro h
    have hend : ((parentFirst 2).foldlM (State.next 2) (start terminal fun _ => 0)).map
        (fun s => (s.parent, (s.fds (.child 1)).lookup 4)) =
          some (.waiting 0, some (.writeEnd 0)) := by decide
    obtain ⟨s, hrun, hview⟩ := Option.map_eq_some_iff.mp hend
    obtain ⟨hwait, hopen⟩ := Prod.ext_iff.mp hview
    cases h s (Machine.reachable_of_foldlM hrun) 0 hwait _ _ _ hopen
  · intro h
    have hend : ((parentFirst 3 ++ (runChild 3 1).dropLast ++ runChild 3 0).foldlM (State.next 3)
        (start terminal fun _ => 0)).map (fun s => (s.parent, s.hasExited 0,
          (s.child 1).map Child.loc, (s.fds (.child 2)).lookup 4)) =
            some (.waiting 0, true, some .executing, some (.writeEnd 0)) := by decide
    obtain ⟨s, hrun, hview⟩ := Option.map_eq_some_iff.mp hend
    obtain ⟨hwait, hview⟩ := Prod.ext_iff.mp hview
    obtain ⟨hexited, hview⟩ := Prod.ext_iff.mp hview
    obtain ⟨hreader, hopen⟩ := Prod.ext_iff.mp hview
    exact h s (Machine.reachable_of_foldlM hrun) 0 0 hwait hexited hreader _ _ hopen

end OsLabs.Shell.Pipeline
