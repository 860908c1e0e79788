import OsLabs.Shell.Running

/-!
# Shell: who holds which end

The invariant of a pipeline on the descriptors of its running programs: a program reads and writes
the pipes that its redirections have left it, and holds no other end.  A child holds its own ends
from its fork on, so that an end which nobody holds has been given up by its program.
-/

namespace OsLabs.Shell

open OsLabs.Lib OsLabs.Shell.Pipeline

variable {α β σ : Type}

/-! ### The ends of the pipes -/

theorem isReadEnd_iff {j : ℕ} {handle : Handle α} :
    isReadEnd j handle = true ↔ handle = .readEnd j := by
  cases handle with
  | inherited file => exact iff_of_false Bool.false_ne_true (by simp)
  | readEnd i => simp [isReadEnd]
  | writeEnd i => exact iff_of_false Bool.false_ne_true (by simp)

theorem isWriteEnd_iff {j : ℕ} {handle : Handle α} :
    isWriteEnd j handle = true ↔ handle = .writeEnd j := by
  cases handle with
  | inherited file => exact iff_of_false Bool.false_ne_true (by simp)
  | readEnd i => exact iff_of_false Bool.false_ne_true (by simp)
  | writeEnd i => simp [isWriteEnd]

theorem Exec.mem_handles {exec : Exec} {fds : FdTable (Handle α)} {handle : Handle α} :
    handle ∈ exec.handles fds ↔ ∃ fd, exec.target fds fd = some (.handle handle) := by
  rw [Exec.handles, List.mem_filterMap]
  constructor
  · rintro ⟨stream, hstream, hhandle⟩
    obtain ⟨fd, hfd⟩ := exec.fds.mem_reduceOption_slots.mp hstream
    refine ⟨fd, ?_⟩
    rw [Exec.target, hfd]
    cases stream with
    | file path mode => cases hhandle
    | inherited number =>
      show (fds.lookup number).map Target.handle = _
      rw [show fds.lookup number = some handle from hhandle]
      rfl
  · rintro ⟨fd, hfd⟩
    obtain ⟨stream, hstream, htarget⟩ := Option.bind_eq_some_iff.mp hfd
    refine ⟨stream, exec.fds.mem_reduceOption_slots.mpr ⟨fd, hstream⟩, ?_⟩
    cases stream with
    | file path mode => cases htarget
    | inherited number =>
      obtain ⟨handle', hlookup, heq⟩ := Option.map_eq_some_iff.mp htarget
      cases heq
      exact hlookup

theorem mem_procs {n : ℕ} {p : Proc} : p ∈ procs n ↔ p = .parent ∨ ∃ i < n, p = .child i := by
  rw [procs, List.mem_cons, List.mem_map]
  refine or_congr_right (exists_congr fun i => ?_)
  rw [List.mem_range, eq_comm]

theorem Active.held_iff {a : Active α β σ} {n : ℕ} {isEnd : Handle α → Bool} :
    a.held n isEnd = true ↔ ∃ p ∈ procs n, ∃ handle ∈ a.handles p, isEnd handle = true := by
  rw [Active.held, List.any_eq_true]
  exact exists_congr fun p => and_congr_right fun _ => List.any_eq_true

section Ends

variable {n : ℕ} {fds : FdTable α}

/-- The parent holds all ends as long as it has children to fork. -/
theorem holds_of_forking {s : State α} (hinv : Inv n fds s) {m : ℕ} (hloc : s.parent = .forking m)
    {k : ℕ} (hk : k < 2 * (n - 1)) : endAt k ∈ s.image.fds.slots.reduceOption := by
  have hparent := hinv.parent
  rw [hloc] at hparent
  have hholds : Holds (n - 1) 0 (inherited fds) s.image := hparent
  refine FdTable.mem_reduceOption_slots _ |>.mpr ⟨s.image.pipefd k, ?_⟩
  rw [hholds.pipes k hk, if_neg (Nat.not_lt_zero k)]

/-- A child has the ends of its own two pipes open until it exits. -/
theorem child_holds {s : State α} (hinv : Inv n fds s) {i : ℕ} {c : Child α}
    (hc : s.child i = some c) (hloc : c.loc ≠ .exited) :
    (0 < i → ∃ fd, c.image.fds.lookup fd = some (.readEnd (i - 1))) ∧
      (i + 1 < n → ∃ fd, c.image.fds.lookup fd = some (.writeEnd i)) := by
  obtain ⟨hi, hchild⟩ := hinv.child i c hc
  -- before the close loop, under the descriptors in `pipefd`
  have hopen : ∀ {std : ℕ → Option (Handle α)}, Holds (n - 1) 0 std c.image →
      ∀ k < 2 * (n - 1), c.image.fds.lookup (c.image.pipefd k) = some (endAt k) := by
    intro std hholds k hk
    rw [hholds.pipes k hk, if_neg (Nat.not_lt_zero k)]
  have hends : ∀ {std : ℕ → Option (Handle α)}, Holds (n - 1) 0 std c.image →
      (0 < i → ∃ fd, c.image.fds.lookup fd = some (.readEnd (i - 1))) ∧
        (i + 1 < n → ∃ fd, c.image.fds.lookup fd = some (.writeEnd i)) := by
    intro std hholds
    refine ⟨fun hpos => ⟨c.image.pipefd ((i - 1) * 2), ?_⟩,
      fun hlast => ⟨c.image.pipefd (i * 2 + 1), ?_⟩⟩
    · rw [← endAt_read]
      exact hopen hholds _ (by omega)
    · rw [← endAt_write]
      exact hopen hholds _ (by omega)
  -- behind the calls of `dup2`, under the standard descriptors
  have hstd : ∀ {k : ℕ}, Holds (n - 1) k (withStdout n fds i) c.image →
      (0 < i → ∃ fd, c.image.fds.lookup fd = some (.readEnd (i - 1))) ∧
        (i + 1 < n → ∃ fd, c.image.fds.lookup fd = some (.writeEnd i)) := by
    intro k hholds
    refine ⟨fun hpos => ⟨0, ?_⟩, fun hlast => ⟨1, ?_⟩⟩
    · rw [hholds.lookup_std (by decide), withStdout_zero, if_neg (by omega)]
    · rw [hholds.lookup_std (by decide), withStdout_one hi, if_neg (by omega)]
  obtain ⟨loc, image⟩ := c
  cases loc with
  | dupIn => exact hends hchild
  | dupOut => exact hends hchild
  | closing j => exact hstd hchild.2
  | executing => exact hstd hchild
  | exited => exact absurd rfl hloc

end Ends

/-! ### The plumbing -/

section Plumbing

variable {n : ℕ} {fds : FdTable α} {s s' : State α}

/-- The children in front of the next one to be forked are there. -/
def Forked (n : ℕ) (s : State α) : Prop :=
  ∀ i < n, s.child i = none → i ∈ unforked s.parent

/-- What stays when a child sets up its descriptors, or the parent takes a step. -/
structure Keeps (s s' : State α) : Prop where
  exited : ∀ i, s'.hasExited i = s.hasExited i
  child : ∀ i c, s.child i = some c → c.loc = .executing ∨ c.loc = .exited →
    s'.child i = some c

theorem hasExited_iff {i : ℕ} :
    s.hasExited i = true ↔ ∃ c, s.child i = some c ∧ c.loc = .exited := by
  rw [State.hasExited, Option.any_eq_true]
  simp

theorem Forked.parentNext (h : Forked n s) (hnext : s.parentNext n = some s') : Forked n s' := by
  intro i hi hnone
  cases parentStep_of_next hnext with
  | piped j hloc hj => exact Nat.zero_le i
  | fork j hloc hj =>
    dsimp only at hnone
    by_cases hij : i = j
    · subst hij
      rw [Function.update_self] at hnone
      cases hnone
    · rw [Function.update_of_ne hij] at hnone
      have hmem := h i hi hnone
      rw [hloc] at hmem
      exact Nat.lt_of_le_of_ne hmem (Ne.symm hij)
  | forked j hloc hj =>
    have hmem := h i hi hnone
    rw [hloc] at hmem
    exact absurd (lt_of_lt_of_le hi hj) (not_lt.mpr hmem)
  | close j hloc hj =>
    have hmem := h i hi hnone
    rw [hloc] at hmem
    exact hmem
  | closed j hloc hj =>
    have hmem := h i hi hnone
    rw [hloc] at hmem
    exact hmem
  | wait j hloc =>
    have hmem := h i hi hnone
    rw [hloc] at hmem
    exact hmem

theorem Forked.next {e : Event} (h : Forked n s) (hnext : s.next n e = some s') : Forked n s' := by
  cases e with
  | pipe r w =>
    obtain ⟨j, hloc, hj, -, rfl⟩ := next_pipe_eq_some hnext
    exact fun i hi hnone => Set.mem_univ i
  | parent => exact h.parentNext hnext
  | child j =>
    obtain ⟨c, c', hc, hc', rfl⟩ := next_child_eq_some hnext
    intro i hi hnone
    refine h i hi ?_
    dsimp only at hnone
    by_cases hij : i = j
    · subst hij
      rw [Function.update_self] at hnone
      cases hnone
    · rwa [Function.update_of_ne hij] at hnone

/-- The parent waits for each child once. -/
theorem waited_next {e : Event} (h : ∀ k, s.parent = .waiting k → k ≤ n)
    (hnext : s.next n e = some s') : ∀ k, s'.parent = .waiting k → k ≤ n := by
  intro k hk
  cases e with
  | pipe r w =>
    obtain ⟨i, -, -, -, rfl⟩ := next_pipe_eq_some hnext
    cases hk
  | child i =>
    obtain ⟨c, c', -, -, rfl⟩ := next_child_eq_some hnext
    exact h k hk
  | parent =>
    have hnext : s.parentNext n = some s' := hnext
    cases parentStep_of_next hnext with
    | piped i hloc hi => cases hk
    | fork i hloc hi => cases hk
    | forked i hloc hi => cases hk
    | close j hloc hj => cases hk
    | closed j hloc hj =>
      cases hk
      exact Nat.zero_le n
    | wait i hloc =>
      cases hk
      rw [State.parentNext, hloc] at hnext
      dsimp only at hnext
      split_ifs at hnext with hguard
      exact hguard.1

theorem keeps_of_child_eq {f : ℕ → Option (Child α)}
    (hsame : ∀ i c, s.child i = some c → c.loc = .executing ∨ c.loc = .exited → f i = some c)
    (hnew : ∀ i c, f i = some c → c.loc = .exited → s.child i = some c) (hs' : s'.child = f) :
    Keeps s s' where
  exited i := by
    rw [Bool.eq_iff_iff, hasExited_iff, hasExited_iff, hs']
    constructor
    · rintro ⟨c, hc, hloc⟩
      exact ⟨c, hnew i c hc hloc, hloc⟩
    · rintro ⟨c, hc, hloc⟩
      exact ⟨c, hsame i c hc (Or.inr hloc), hloc⟩
  child i c hc hloc := by
    rw [hs']
    exact hsame i c hc hloc

/-- A child that is replaced by one that has not got to `execute_command` before, or just has. -/
theorem keeps_update {i : ℕ} {c' : Child α}
    (hold : ∀ c, s.child i = some c → ¬ (c.loc = .executing ∨ c.loc = .exited))
    (hnew : c'.loc ≠ .exited) (hs' : s'.child = Function.update s.child i (some c')) :
    Keeps s s' := by
  refine keeps_of_child_eq (fun j c hc hloc => ?_) (fun j c hc hloc => ?_) hs'
  · by_cases hji : j = i
    · subst hji
      exact absurd hloc (hold c hc)
    · rwa [Function.update_of_ne hji]
  · by_cases hji : j = i
    · subst hji
      rw [Function.update_self] at hc
      cases hc
      exact absurd hloc hnew
    · rwa [Function.update_of_ne hji] at hc

theorem Child.next_loc {c c' : Child α} {i : ℕ} (hnext : c.next n i = some c')
    (hloc : c.loc ≠ .executing) : c.loc ≠ .exited ∧ c'.loc ≠ .exited := by
  obtain ⟨loc, image⟩ := c
  cases loc with
  | dupIn =>
    cases hnext
    exact ⟨by simp, by simp⟩
  | dupOut =>
    cases hnext
    exact ⟨by simp, by simp⟩
  | closing j =>
    rw [Child.next] at hnext
    dsimp only at hnext
    split_ifs at hnext
    · cases hnext
      exact ⟨by simp, by simp⟩
    · cases hnext
      exact ⟨by simp, by simp⟩
  | executing => exact absurd rfl hloc
  | exited => cases hnext

theorem keeps_of_next {e : Event} (hinv : Inv n fds s) (hnext : s.next n e = some s')
    (hsetup : ∀ i c, e = .child i → s.child i = some c → c.loc ≠ .executing) : Keeps s s' := by
  have hrefl : s'.child = s.child → Keeps s s' :=
    keeps_of_child_eq (fun _ _ hc _ => hc) fun _ _ hc _ => hc
  cases e with
  | pipe r w =>
    obtain ⟨j, -, -, -, rfl⟩ := next_pipe_eq_some hnext
    exact hrefl rfl
  | parent =>
    cases parentStep_of_next hnext with
    | fork i hloc hi =>
      have hunforked := hinv.unforked
      rw [hloc] at hunforked
      refine keeps_update (i := i) (fun c hc => ?_) (by simp) rfl
      rw [hunforked i (Set.mem_Ici.mpr le_rfl)] at hc
      cases hc
    | piped i hloc hi => exact hrefl rfl
    | forked i hloc hi => exact hrefl rfl
    | close j hloc hj => exact hrefl rfl
    | closed j hloc hj => exact hrefl rfl
    | wait i hloc => exact hrefl rfl
  | child i =>
    obtain ⟨c, c', hc, hc', rfl⟩ := next_child_eq_some hnext
    have hloc := hsetup i c rfl hc
    obtain ⟨hold, hnew⟩ := Child.next_loc hc' hloc
    refine keeps_update (i := i) (fun d hd => ?_) hnew rfl
    rw [hc] at hd
    cases hd
    exact fun h => h.elim hloc hold

end Plumbing

/-! ### The programs and their descriptors -/

/-- Each program runs in a child in `execute_command`, with the redirections of its arguments, or
in one that has exited. -/
structure Connected (n : ℕ) (fds : FdTable α) (cfg : Setting β σ) (a : Active α β σ) : Prop where
  plumbing : Inv n fds a.plumbing
  forked : Forked n a.plumbing
  waited : ∀ k, a.plumbing.parent = .waiting k → k ≤ n
  running : ∀ i r, a.running i = some r → ∃ c, a.plumbing.child i = some c ∧
    (c.loc = .executing ∧
      executeCommand cfg.opens (cfg.arguments i) (streams c.image.fds) = some r.exec ∨
      c.loc = .exited)

theorem executing_iff {a : Active α β σ} {i : ℕ} :
    a.executing i = true ↔ ∃ c, a.plumbing.child i = some c ∧ c.loc = .executing := by
  rw [Active.executing, Option.any_eq_true]
  simp

theorem hasExited_of_executing {a : Active α β σ} {i : ℕ} (h : a.executing i = true) :
    a.plumbing.hasExited i = false := by
  obtain ⟨c, hc, hloc⟩ := executing_iff.mp h
  rw [State.hasExited, hc, Option.any_some, hloc]
  rfl

theorem fds_child {s : State α} {i : ℕ} {c : Child α} (hc : s.child i = some c) :
    s.fds (.child i) = c.image.fds := by
  rw [State.fds, hc]
  rfl

section Targets

variable {n : ℕ} {fds : FdTable α} {cfg : Setting β σ} {a : Active α β σ} (h : Connected n fds cfg a)
  (hin : fds.lookup 0 ≠ none) (hout : fds.lookup 1 ≠ none)

include h

theorem Connected.lt {i : ℕ} (hexec : a.executing i = true) : i < n := by
  obtain ⟨c, hc, -⟩ := executing_iff.mp hexec
  exact (h.plumbing.child i c hc).1

include hin hout

/-- A program has open what its child had, but for what the arguments redirect. -/
theorem Connected.target {i : ℕ} {r : Running σ} (hrun : a.running i = some r)
    (hexec : a.executing i = true) :
    ∃ image, a.plumbing.fds (.child i) = image.fds ∧ ChildExact n fds i image ∧ ∀ fd,
      if redirects fd (cfg.arguments i) then ∃ path mode, a.target i fd = some (.file path mode)
        else a.target i fd = (image.fds.lookup fd).map .handle := by
  obtain ⟨c, hc, hloc⟩ := executing_iff.mp hexec
  obtain ⟨hi, hchild⟩ := h.plumbing.child i c hc
  rw [hloc] at hchild
  have hexact := childExact_of_holds hi hchild
  refine ⟨c.image, fds_child hc, hexact, fun fd => ?_⟩
  have hstd : ∀ fd, c.image.fds.lookup fd ≠ none → (streams c.image.fds).lookup fd ≠ none := by
    intro fd hopen
    rw [lookup_streams]
    exact mt Option.map_eq_none_iff.mp hopen
  have hzero : c.image.fds.lookup 0 ≠ none := by
    rw [hexact.stdin]
    split_ifs
    · exact mt Option.map_eq_none_iff.mp hin
    · exact Option.some_ne_none _
  have hone : c.image.fds.lookup 1 ≠ none := by
    rw [hexact.stdout]
    split_ifs
    · exact mt Option.map_eq_none_iff.mp hout
    · exact Option.some_ne_none _
  obtain ⟨c', hc', hcases⟩ := h.running i r hrun
  rw [hc] at hc'
  cases hc'
  obtain ⟨-, hcommand⟩ | hexited := hcases
  · obtain ⟨⟨slots, fds'⟩, hloop, heq⟩ := Option.map_eq_some_iff.mp hcommand
    have hlookup := lookup_redirectLoop hloop (hstd 0 hzero) (hstd 1 hone) fd
    have htarget : a.target i fd = r.exec.target c.image.fds fd := by
      rw [Active.target, hrun, fds_child hc]
      rfl
    rw [htarget, Exec.target, ← heq]
    cases hredirects : redirects fd (cfg.arguments i) with
    | true =>
      rw [hredirects, if_pos rfl] at hlookup
      obtain ⟨path, mode, hfile⟩ := hlookup
      rw [if_pos rfl]
      exact ⟨path, mode, by rw [hfile]; rfl⟩
    | false =>
      rw [hredirects, if_neg Bool.false_ne_true] at hlookup
      rw [if_neg Bool.false_ne_true, hlookup, lookup_streams]
      cases hopen : c.image.fds.lookup fd with
      | none => rfl
      | some handle =>
        show (c.image.fds.lookup fd).map Target.handle = _
        rw [hopen]
  · rw [hloc] at hexited
    cases hexited

theorem Connected.inPipe {i : ℕ} {r : Running σ} (hrun : a.running i = some r)
    (hexec : a.executing i = true) :
    a.inPipe i = if cfg.pipedIn i then some (i - 1) else none := by
  obtain ⟨image, -, hexact, htarget⟩ := h.target hin hout hrun hexec
  have h0 := htarget 0
  rw [Active.inPipe, Setting.pipedIn]
  cases hredirects : redirects 0 (cfg.arguments i) with
  | true =>
    rw [hredirects, if_pos rfl] at h0
    obtain ⟨path, mode, hfile⟩ := h0
    rw [hfile, Bool.not_true, Bool.and_false]
    rfl
  | false =>
    rw [hredirects, if_neg Bool.false_ne_true, hexact.stdin] at h0
    rw [h0, Bool.not_false, Bool.and_true]
    by_cases hi : i = 0
    · rw [if_pos hi, if_neg (by simp [hi]), inherited]
      cases fds.lookup 0 <;> rfl
    · rw [if_neg hi, if_pos (by simp; omega)]
      rfl

theorem Connected.outPipe {i : ℕ} {r : Running σ} (hrun : a.running i = some r)
    (hexec : a.executing i = true) :
    a.outPipe i = if cfg.pipedOut n i then some i else none := by
  obtain ⟨image, -, hexact, htarget⟩ := h.target hin hout hrun hexec
  have hi := h.lt hexec
  have h1 := htarget 1
  rw [Active.outPipe, Setting.pipedOut]
  cases hredirects : redirects 1 (cfg.arguments i) with
  | true =>
    rw [hredirects, if_pos rfl] at h1
    obtain ⟨path, mode, hfile⟩ := h1
    rw [hfile, Bool.not_true, Bool.and_false]
    rfl
  | false =>
    rw [hredirects, if_neg Bool.false_ne_true, hexact.stdout] at h1
    rw [h1, Bool.not_false, Bool.and_true]
    by_cases hlast : i = n - 1
    · rw [if_pos hlast, if_neg (by simp; omega), inherited]
      cases fds.lookup 1 <;> rfl
    · rw [if_neg hlast, if_pos (by simp; omega)]
      rfl

/-- A program has no end of a pipe open but those that it reads and writes. -/
theorem Connected.pipe_of_mem {i : ℕ} {r : Running σ} (hrun : a.running i = some r)
    (hexec : a.executing i = true) {handle : Handle α} (hmem : handle ∈ a.handles (.child i))
    (hpipe : handle.isPipe = true) :
    cfg.pipedIn i = true ∧ handle = .readEnd (i - 1) ∨
      cfg.pipedOut n i = true ∧ handle = .writeEnd i := by
  obtain ⟨image, himage, hexact, htarget⟩ := h.target hin hout hrun hexec
  have hi := h.lt hexec
  rw [Active.handles, hrun] at hmem
  obtain ⟨fd, hfd⟩ := Exec.mem_handles.mp hmem
  have hdef : a.target i fd = r.exec.target (a.plumbing.fds (.child i)) fd := by
    rw [Active.target, hrun]
    rfl
  rw [← hdef] at hfd
  have hcase := htarget fd
  cases hredirects : redirects fd (cfg.arguments i) with
  | true =>
    rw [hredirects, if_pos rfl] at hcase
    obtain ⟨path, mode, hfile⟩ := hcase
    rw [hfile] at hfd
    cases hfd
  | false =>
    rw [hredirects, if_neg Bool.false_ne_true, hfd] at hcase
    obtain ⟨handle', hopen, heq⟩ := Option.map_eq_some_iff.mp hcase.symm
    cases heq
    have hinherited : ∀ fd', inherited fds fd' ≠ some handle := by
      intro fd' heq
      rw [isPipe_inherited heq] at hpipe
      cases hpipe
    by_cases hzero : fd = 0
    · subst hzero
      rw [hexact.stdin] at hopen
      split_ifs at hopen with hfirst
      · exact absurd hopen (hinherited 0)
      · refine Or.inl ⟨?_, (Option.some.inj hopen).symm⟩
        rw [Setting.pipedIn, hredirects]
        simp
        omega
    · by_cases hone : fd = 1
      · subst hone
        rw [hexact.stdout] at hopen
        split_ifs at hopen with hlast
        · exact absurd hopen (hinherited 1)
        · refine Or.inr ⟨?_, (Option.some.inj hopen).symm⟩
          rw [Setting.pipedOut, hredirects]
          simp
          omega
      · rw [hexact.others fd handle hzero hone hopen] at hpipe
        cases hpipe

omit hin hout h in
theorem mem_handles_target {i fd : ℕ} {handle : Handle α}
    (htarget : a.target i fd = some (.handle handle)) : handle ∈ a.handles (.child i) := by
  obtain ⟨r, hrun, hfd⟩ := Option.bind_eq_some_iff.mp htarget
  rw [Active.handles, hrun]
  exact Exec.mem_handles.mpr ⟨fd, hfd⟩

omit hin hout h in
theorem inPipe_eq_some {i j : ℕ} (hpipe : a.inPipe i = some j) :
    a.target i 0 = some (.handle (.readEnd j)) := by
  rw [Active.inPipe] at hpipe
  split at hpipe
  · rename_i htarget
    cases hpipe
    exact htarget
  · cases hpipe

omit hin hout h in
theorem outPipe_eq_some {i j : ℕ} (hpipe : a.outPipe i = some j) :
    a.target i 1 = some (.handle (.writeEnd j)) := by
  rw [Active.outPipe] at hpipe
  split at hpipe
  · rename_i htarget
    cases hpipe
    exact htarget
  · cases hpipe

omit hin hout in
/-- A child that runs a program is in `execute_command` until it exits. -/
theorem Connected.executing_of_running {i : ℕ} {r : Running σ} (hrun : a.running i = some r)
    (hexited : a.plumbing.hasExited i = false) : a.executing i = true := by
  obtain ⟨c, hc, hcases⟩ := h.running i r hrun
  obtain ⟨hloc, -⟩ | hloc := hcases
  · exact executing_iff.mpr ⟨c, hc, hloc⟩
  · rw [hasExited_iff.mpr ⟨c, hc, hloc⟩] at hexited
    cases hexited

/-- A child holds the ends that its program would need, until it redirects them or exits. -/
theorem Connected.mem_handles {i : ℕ} (hforked : a.plumbing.child i ≠ none)
    (hexited : a.plumbing.hasExited i = false) :
    (0 < i → (∀ r, a.running i = some r → cfg.pipedIn i = true) →
      .readEnd (i - 1) ∈ a.handles (.child i)) ∧
    (i + 1 < n → (∀ r, a.running i = some r → cfg.pipedOut n i = true) →
      .writeEnd i ∈ a.handles (.child i)) := by
  cases hrun : a.running i with
  | none =>
    obtain ⟨c, hc⟩ := Option.ne_none_iff_exists'.mp hforked
    have hloc : c.loc ≠ .exited := by
      intro hloc
      rw [hasExited_iff.mpr ⟨c, hc, hloc⟩] at hexited
      cases hexited
    obtain ⟨hread, hwrite⟩ := child_holds h.plumbing hc hloc
    have hmem : ∀ handle, handle ∈ a.handles (.child i) ↔
        ∃ fd, c.image.fds.lookup fd = some handle := by
      intro handle
      rw [Active.handles, hrun, fds_child hc]
      exact FdTable.mem_reduceOption_slots _
    exact ⟨fun hpos _ => (hmem _).mpr (hread hpos), fun hlast _ => (hmem _).mpr (hwrite hlast)⟩
  | some r =>
    have hexec := h.executing_of_running hrun hexited
    refine ⟨fun _ hpiped => ?_, fun _ hpiped => ?_⟩
    · have hpipe := h.inPipe hin hout hrun hexec
      rw [hpiped r rfl, if_pos rfl] at hpipe
      exact mem_handles_target (inPipe_eq_some hpipe)
    · have hpipe := h.outPipe hin hout hrun hexec
      rw [hpiped r rfl, if_pos rfl] at hpipe
      exact mem_handles_target (outPipe_eq_some hpipe)

omit hin hout in
/-- As long as a child is still to be forked, the parent holds all ends. -/
theorem Connected.held_of_unforked {i : ℕ} (hnone : a.plumbing.child i = none) (hi : i < n)
    {k : ℕ} (hfirst : a.plumbing.child k ≠ none) {m : ℕ} (hm : m < 2 * (n - 1))
    {isEnd : Handle α → Bool} (hend : isEnd (endAt m) = true) : a.held n isEnd = true := by
  have hunforked := h.forked i hi hnone
  cases hloc : a.plumbing.parent with
  | piping j =>
    have hall := h.plumbing.unforked k
    rw [hloc] at hall
    exact absurd (hall (Set.mem_univ k)) hfirst
  | forking j =>
    exact Active.held_iff.mpr ⟨.parent, mem_procs.mpr (Or.inl rfl), endAt m,
      holds_of_forking h.plumbing hloc hm, hend⟩
  | closing j =>
    rw [hloc] at hunforked
    exact absurd hunforked (Set.notMem_empty i)
  | waiting j =>
    rw [hloc] at hunforked
    exact absurd hunforked (Set.notMem_empty i)

omit hin hout h in
theorem held_child {i : ℕ} (hi : i < n) {handle : Handle α}
    (hmem : handle ∈ a.handles (.child i)) {isEnd : Handle α → Bool}
    (hend : isEnd handle = true) : a.held n isEnd = true :=
  Active.held_iff.mpr ⟨.child i, mem_procs.mpr (Or.inr ⟨i, hi, rfl⟩), handle, hmem, hend⟩

/-- Child `k` does not read from its pipe any more. -/
def Active.Departed (cfg : Setting β σ) (a : Active α β σ) (k : ℕ) : Prop :=
  a.plumbing.hasExited k = true ∨ (∃ r, a.running k = some r) ∧ cfg.pipedIn k = false

/-- A pipe without a read end has lost its reader. -/
theorem Connected.departed {j : ℕ} (hchild : a.plumbing.child j ≠ none) (hj : j + 1 < n)
    (hheld : a.held n (isReadEnd j) = false) : a.Departed cfg (j + 1) := by
  by_contra hdeparted
  obtain ⟨hexited, hpiped⟩ := not_or.mp hdeparted
  refine Bool.eq_false_iff.mp hheld ?_
  by_cases hnone : a.plumbing.child (j + 1) = none
  · refine h.held_of_unforked hnone hj hchild (show j * 2 < 2 * (n - 1) by omega) ?_
    rw [endAt_read]
    exact isReadEnd_iff.mpr rfl
  · refine held_child hj ((h.mem_handles hin hout hnone (Bool.eq_false_iff.mpr hexited)).1
      (Nat.succ_pos j) fun r hrun => ?_) (isReadEnd_iff.mpr rfl)
    by_contra hnot
    exact hpiped ⟨⟨r, hrun⟩, Bool.eq_false_iff.mpr hnot⟩

/-- A pipe without a write end has lost its writer. -/
theorem Connected.exited {j : ℕ} (hchild : a.plumbing.child (j + 1) ≠ none) (hj : j + 1 < n)
    (hpiped : cfg.pipedOut n j = true) (hheld : a.held n (isWriteEnd j) = false) :
    a.plumbing.hasExited j = true := by
  by_contra hexited
  refine Bool.eq_false_iff.mp hheld ?_
  by_cases hnone : a.plumbing.child j = none
  · refine h.held_of_unforked hnone (Nat.lt_of_succ_lt hj) hchild
      (show j * 2 + 1 < 2 * (n - 1) by omega) ?_
    rw [endAt_write]
    exact isWriteEnd_iff.mpr rfl
  · exact held_child (Nat.lt_of_succ_lt hj)
      ((h.mem_handles hin hout hnone (Bool.eq_false_iff.mpr hexited)).2 hj fun _ _ => hpiped)
        (isWriteEnd_iff.mpr rfl)

end Targets

/-! ### What the steps do -/

/-- The program does not depend on the table. -/
theorem Setting.boot_eq (cfg : Setting β σ) (i : ℕ) (fds : FdTable Stream) :
    cfg.boot i =
      (executeCommand cfg.opens (cfg.arguments i) fds).bind fun exec => cfg.execvp exec.argv := by
  have hbind : ∀ x : Option Exec,
      (x.bind fun exec => cfg.execvp exec.argv) = (x.map Exec.argv).bind cfg.execvp := by
    intro x
    cases x <;> rfl
  rw [Setting.boot, hbind, hbind, executeCommand_argv _ ⟨[]⟩ fds]

/-- Child `i` has exited. -/
def Active.exits (a : Active α β σ) (i : ℕ) (c : Child α) : Active α β σ :=
  { a with
    plumbing :=
      { a.plumbing with
        child := Function.update a.plumbing.child i
          (some ⟨.exited, { c.image with fds := ⟨[]⟩ }⟩) } }

theorem exit_eq_some {n : ℕ} {a : Active α β σ} {i : ℕ} {c : Child α}
    (hc : a.plumbing.child i = some c) (hloc : c.loc = .executing) :
    a.exit n i = some (a.exits i c) := by
  have hnext : c.next n i = some ⟨.exited, { c.image with fds := ⟨[]⟩ }⟩ := by
    rw [Child.next, hloc]
  rw [Active.exit, State.next, hc]
  show (Option.bind (c.next n i) _).map _ = _
  rw [hnext]
  rfl

/-- What a child does in `execute_command`, and what its program does. -/
inductive ProgramStep (n : ℕ) (cfg : Setting β σ) (a : Active α β σ) (i : ℕ) :
    Active α β σ → Prop
  | failed (c : Child α) (hc : a.plumbing.child i = some c) (hrun : a.running i = none)
      (hboot : cfg.boot i = none) : ProgramStep n cfg a i (a.exits i c)
  | boot (exec : Exec) (s : σ) (hrun : a.running i = none) (hboot : cfg.boot i = some s)
      (hcommand : executeCommand cfg.opens (cfg.arguments i)
        (streams (a.plumbing.fds (.child i))) = some exec) :
      ProgramStep n cfg a i { a with running := Function.update a.running i (some ⟨exec, s⟩) }
  | file (r : Running σ) (next : Option β → σ) (hrun : a.running i = some r)
      (hact : cfg.act r.state = .read next) (hpiped : cfg.pipedIn i = false) :
      ProgramStep n cfg a i
        (a.hasRead i (cfg.input i)[(a.got i).length]? (next (cfg.input i)[(a.got i).length]?))
  | item (r : Running σ) (next : Option β → σ) (b : β) (rest : List β)
      (hrun : a.running i = some r) (hact : cfg.act r.state = .read next)
      (hpiped : cfg.pipedIn i = true) (hpipe : a.pipe (i - 1) = b :: rest) :
      ProgramStep n cfg a i
        { a.hasRead i (some b) (next (some b)) with pipe := Function.update a.pipe (i - 1) rest }
  | eof (r : Running σ) (next : Option β → σ) (hrun : a.running i = some r)
      (hact : cfg.act r.state = .read next) (hpiped : cfg.pipedIn i = true)
      (hpipe : a.pipe (i - 1) = []) (hheld : a.held n (isWriteEnd (i - 1)) = false) :
      ProgramStep n cfg a i (a.hasRead i none (next none))
  | output (r : Running σ) (b : β) (s : σ) (hrun : a.running i = some r)
      (hact : cfg.act r.state = .write b s) (hpiped : cfg.pipedOut n i = false) :
      ProgramStep n cfg a i (a.hasWritten i b s)
  | send (r : Running σ) (b : β) (s : σ) (hrun : a.running i = some r)
      (hact : cfg.act r.state = .write b s) (hpiped : cfg.pipedOut n i = true) :
      ProgramStep n cfg a i
        { a.hasWritten i b s with pipe := Function.update a.pipe i (a.pipe i ++ [b]) }
  | killed (r : Running σ) (b : β) (s : σ) (c : Child α) (hc : a.plumbing.child i = some c)
      (hrun : a.running i = some r) (hact : cfg.act r.state = .write b s)
      (hpiped : cfg.pipedOut n i = true) (hheld : a.held n (isReadEnd i) = false) :
      ProgramStep n cfg a i (a.exits i c)
  | exit (r : Running σ) (c : Child α) (hc : a.plumbing.child i = some c)
      (hrun : a.running i = some r) (hact : cfg.act r.state = .exit) :
      ProgramStep n cfg a i (a.exits i c)

section Steps

variable {n : ℕ} {fds : FdTable α} {cfg : Setting β σ} {a a' : Active α β σ}
  (h : Connected n fds cfg a) (hin : fds.lookup 0 ≠ none) (hout : fds.lookup 1 ≠ none)

theorem programStep_of_exec {i : ℕ} (hexec : a.executing i = true) (hrun : a.running i = none)
    (hnext : a.exec n cfg i = some a') : ProgramStep n cfg a i a' := by
  obtain ⟨c, hc, hloc⟩ := executing_iff.mp hexec
  have hboot := cfg.boot_eq i (streams (a.plumbing.fds (.child i)))
  rw [Active.exec, exit_eq_some hc hloc] at hnext
  cases hcommand : executeCommand cfg.opens (cfg.arguments i)
      (streams (a.plumbing.fds (.child i))) with
  | none =>
    rw [hcommand] at hnext hboot
    cases hnext
    exact .failed c hc hrun hboot
  | some exec =>
    rw [hcommand] at hnext hboot
    dsimp only [Option.bind_some] at hnext hboot
    cases hstart : cfg.execvp exec.argv with
    | none =>
      rw [hstart] at hnext hboot
      cases hnext
      exact .failed c hc hrun hboot
    | some s =>
      rw [hstart] at hnext hboot
      cases hnext
      exact .boot exec s hrun hboot hcommand

include h hin hout

theorem programStep_of_act {i : ℕ} (hexec : a.executing i = true)
    (hnext : a.act n cfg i = some a') : ProgramStep n cfg a i a' := by
  obtain ⟨c, hc, hloc⟩ := executing_iff.mp hexec
  cases hrun : a.running i with
  | none =>
    rw [Active.act, hrun] at hnext
    cases hnext
  | some r =>
    rw [Active.act, hrun] at hnext
    dsimp only at hnext
    cases hact : cfg.act r.state with
    | read next =>
      rw [hact] at hnext
      dsimp only at hnext
      rw [Active.read, h.inPipe hin hout hrun hexec] at hnext
      cases hpiped : cfg.pipedIn i with
      | false =>
        rw [hpiped] at hnext
        cases hnext
        exact .file r next hrun hact hpiped
      | true =>
        rw [hpiped, if_pos rfl] at hnext
        dsimp only at hnext
        cases hpipe : a.pipe (i - 1) with
        | nil =>
          rw [hpipe] at hnext
          dsimp only at hnext
          split_ifs at hnext with hheld
          cases hnext
          exact .eof r next hrun hact hpiped hpipe (Bool.eq_false_iff.mpr hheld)
        | cons b rest =>
          rw [hpipe] at hnext
          cases hnext
          exact .item r next b rest hrun hact hpiped hpipe
    | write b s =>
      rw [hact] at hnext
      dsimp only at hnext
      rw [Active.write, h.outPipe hin hout hrun hexec] at hnext
      cases hpiped : cfg.pipedOut n i with
      | false =>
        rw [hpiped] at hnext
        cases hnext
        exact .output r b s hrun hact hpiped
      | true =>
        rw [hpiped, if_pos rfl] at hnext
        dsimp only at hnext
        split_ifs at hnext with hheld hlt
        · cases hnext
          exact .send r b s hrun hact hpiped
        · rw [exit_eq_some hc hloc] at hnext
          cases hnext
          exact .killed r b s c hc hrun hact hpiped (Bool.eq_false_iff.mpr hheld)
    | exit =>
      rw [hact] at hnext
      dsimp only at hnext
      rw [exit_eq_some hc hloc] at hnext
      cases hnext
      exact .exit r c hc hrun hact

/-- A step of the plumbing, or of a child in `execute_command`. -/
theorem next_cases {e : ActiveEvent} (hnext : a.next n cfg e = some a') :
    (∃ plumbing e', a.plumbing.next n e' = some plumbing ∧
      (∀ i c, e' = .child i → a.plumbing.child i = some c → c.loc ≠ .executing) ∧
      a' = { a with plumbing := plumbing }) ∨
    ∃ i, a.executing i = true ∧ ProgramStep n cfg a i a' := by
  cases e with
  | plumb e =>
    left
    have hmap : (a.plumbing.next n e).map (fun plumbing => { a with plumbing := plumbing }) =
        some a' ∧ ∀ i c, e = .child i → a.plumbing.child i = some c → c.loc ≠ .executing := by
      cases e with
      | pipe r w => exact ⟨hnext, fun _ _ heq => by cases heq⟩
      | parent => exact ⟨hnext, fun _ _ heq => by cases heq⟩
      | child i =>
        rw [Active.next] at hnext
        split_ifs at hnext with hexec
        refine ⟨hnext, fun j c heq hc hloc => ?_⟩
        cases heq
        exact hexec (executing_iff.mpr ⟨c, hc, hloc⟩)
    obtain ⟨plumbing, hplumbing, heq⟩ := Option.map_eq_some_iff.mp hmap.1
    exact ⟨plumbing, e, hplumbing, hmap.2, heq.symm⟩
  | exec i =>
    right
    rw [Active.next] at hnext
    split_ifs at hnext with hguard
    obtain ⟨hexec, hrun⟩ := Bool.and_eq_true_iff.mp hguard
    exact ⟨i, hexec, programStep_of_exec hexec (Option.isNone_iff_eq_none.mp hrun) hnext⟩
  | act i =>
    right
    rw [Active.next] at hnext
    split_ifs at hnext with hexec
    exact ⟨i, hexec, programStep_of_act h hin hout hexec hnext⟩

omit h hin hout in
theorem next_exits {i : ℕ} {c : Child α} (hc : a.plumbing.child i = some c)
    (hloc : c.loc = .executing) :
    a.plumbing.next n (.child i) = some (a.exits i c).plumbing := by
  have hnext : c.next n i = some ⟨.exited, { c.image with fds := ⟨[]⟩ }⟩ := by
    rw [Child.next, hloc]
  rw [State.next, hc]
  show Option.bind (c.next n i) _ = _
  rw [hnext]
  rfl

omit h hin hout in
theorem hasExited_exits (a : Active α β σ) (i : ℕ) (c : Child α) (k : ℕ) :
    (a.exits i c).plumbing.hasExited k = if k = i then true else a.plumbing.hasExited k := by
  rw [State.hasExited, Active.exits]
  dsimp only
  by_cases hki : k = i
  · subst hki
    rw [Function.update_self, if_pos rfl]
    rfl
  · rw [Function.update_of_ne hki, if_neg hki]
    rfl

omit hin hout in
theorem Connected.exits {i : ℕ} {c : Child α} (hc : a.plumbing.child i = some c)
    (hexec : a.executing i = true) : Connected n fds cfg (a.exits i c) := by
  obtain ⟨c', hc', hloc⟩ := executing_iff.mp hexec
  rw [hc] at hc'
  cases hc'
  have hnext := next_exits (n := n) hc hloc
  refine ⟨h.plumbing.next hnext, h.forked.next hnext, h.waited, fun k r hrun => ?_⟩
  by_cases hki : k = i
  · subst hki
    exact ⟨_, Function.update_self _ _ _, Or.inr rfl⟩
  · obtain ⟨c', hc', hcases⟩ := h.running k r hrun
    exact ⟨c', (Function.update_of_ne hki _ _).trans hc', hcases⟩

omit hin hout in
/-- A program has taken a step. -/
theorem Connected.withState {i : ℕ} {r : Running σ} (hrun : a.running i = some r) (s : σ)
    (pipe : ℕ → List β) (got : ℕ → List (Option β)) (put : ℕ → List β) :
    Connected n fds cfg { a.withState i s with pipe := pipe, got := got, put := put } := by
  refine ⟨h.plumbing, h.forked, h.waited, fun k r' hrun' => ?_⟩
  have hrun' : Function.update a.running i ((a.running i).map fun r => { r with state := s }) k =
      some r' := hrun'
  by_cases hki : k = i
  · subst hki
    rw [Function.update_self, hrun] at hrun'
    cases hrun'
    exact h.running k r hrun
  · rw [Function.update_of_ne hki] at hrun'
    exact h.running k r' hrun'

omit hin hout in
theorem Connected.programStep {i : ℕ} (hexec : a.executing i = true)
    (hstep : ProgramStep n cfg a i a') : Connected n fds cfg a' := by
  cases hstep with
  | failed c hc hrun hboot => exact h.exits hc hexec
  | boot exec s hrun hboot hcommand =>
    obtain ⟨c, hc, hloc⟩ := executing_iff.mp hexec
    refine ⟨h.plumbing, h.forked, h.waited, fun k r hrun' => ?_⟩
    dsimp only at hrun'
    by_cases hki : k = i
    · subst hki
      rw [Function.update_self] at hrun'
      cases hrun'
      rw [fds_child hc] at hcommand
      exact ⟨c, hc, Or.inl ⟨hloc, hcommand⟩⟩
    · rw [Function.update_of_ne hki] at hrun'
      exact h.running k r hrun'
  | file r next hrun hact hpiped => exact h.withState hrun _ _ _ _
  | item r next b rest hrun hact hpiped hpipe => exact h.withState hrun _ _ _ _
  | eof r next hrun hact hpiped hpipe hheld => exact h.withState hrun _ _ _ _
  | output r b s hrun hact hpiped => exact h.withState hrun _ _ _ _
  | send r b s hrun hact hpiped => exact h.withState hrun _ _ _ _
  | killed r b s c hc hrun hact hpiped hheld => exact h.exits hc hexec
  | exit r c hc hrun hact => exact h.exits hc hexec

theorem Connected.next {e : ActiveEvent} (hnext : a.next n cfg e = some a') :
    Connected n fds cfg a' := by
  obtain ⟨plumbing, e', hplumbing, hsetup, rfl⟩ | ⟨i, hexec, hstep⟩ :=
    next_cases h hin hout hnext
  · have hkeeps := keeps_of_next h.plumbing hplumbing hsetup
    refine ⟨h.plumbing.next hplumbing, h.forked.next hplumbing, waited_next h.waited hplumbing,
      fun i r hrun => ?_⟩
    obtain ⟨c, hc, hcases⟩ := h.running i r hrun
    exact ⟨c, hkeeps.child i c hc (hcases.imp_left And.left), hcases⟩
  · exact h.programStep hexec hstep

end Steps

end OsLabs.Shell
