import Mathlib.Tactic

/-!
# Labelled transition systems and their runs

A run is recorded with its trace: the list of its steps, each as the state before it and the
label of the step.  Invariants are proved by induction on a run, and may rest on a condition
that every step of the trace meets.
-/

namespace OsLabs.Lib

structure Machine (σ ε : Type*) where
  init : σ
  step : σ → ε → σ → Prop

namespace Machine

variable {σ ε : Type*} {m : Machine σ ε}

/-- `m.Run tr s`: the steps of `tr` lead from the initial state to `s`. -/
inductive Run (m : Machine σ ε) : List (σ × ε) → σ → Prop
  | start : Run m [] m.init
  | snoc {tr : List (σ × ε)} {s s' : σ} {e : ε} :
      Run m tr s → m.step s e s' → Run m (tr ++ [(s, e)]) s'

def Reachable (m : Machine σ ε) (s : σ) : Prop := ∃ tr, m.Run tr s

theorem reachable_init : m.Reachable m.init := ⟨[], .start⟩

theorem Reachable.step {s s' : σ} {e : ε} (h : m.Reachable s) (hstep : m.step s e s') :
    m.Reachable s' := by
  obtain ⟨tr, hrun⟩ := h
  exact ⟨tr ++ [(s, e)], hrun.snoc hstep⟩

/-- A property of the initial state that the steps keep holds in every reachable state. -/
theorem Reachable.invariant {I : σ → Prop} (hinit : I m.init)
    (hstep : ∀ s e s', m.Reachable s → I s → m.step s e s' → I s')
    {s : σ} (h : m.Reachable s) : I s := by
  obtain ⟨tr, hrun⟩ := h
  induction hrun with
  | start => exact hinit
  | snoc hrun hs ih => exact hstep _ _ _ ⟨_, hrun⟩ ih hs

/-- What an executable step function reaches from a reachable state is reachable. -/
theorem Reachable.foldlM {α : Type*} {next : σ → α → Option σ}
    (hnext : ∀ s a s', next s a = some s' → ∃ e, m.step s e s') {as : List α} {s₀ s : σ}
    (h : m.Reachable s₀) (has : as.foldlM next s₀ = some s) : m.Reachable s := by
  induction as generalizing s₀ with
  | nil =>
    obtain rfl : s₀ = s := Option.some.inj has
    exact h
  | cons a as ih =>
    rw [List.foldlM_cons] at has
    obtain ⟨s₁, hfirst, hrest⟩ := Option.bind_eq_some_iff.mp has
    obtain ⟨e, hstep⟩ := hnext s₀ a s₁ hfirst
    exact ih (h.step hstep) hrest

/-- The trace of the steps that an executable step function takes for a list of choices. -/
def steps {α : Type*} (next : σ → α → Option σ) (label : α → ε) : σ → List α → List (σ × ε)
  | _, [] => []
  | s, a :: as =>
    (s, label a) :: match next s a with
      | some s' => steps next label s' as
      | none => []

/-- What an executable step function does for a list of choices is a run. -/
theorem Run.steps {α : Type*} {next : σ → α → Option σ} {label : α → ε}
    (hnext : ∀ s a s', next s a = some s' → m.step s (label a) s') {as : List α}
    {tr : List (σ × ε)} {s₀ s : σ} (h : m.Run tr s₀) (has : as.foldlM next s₀ = some s) :
    m.Run (tr ++ Machine.steps next label s₀ as) s := by
  induction as generalizing s₀ tr with
  | nil =>
    obtain rfl : s₀ = s := Option.some.inj has
    rw [Machine.steps, List.append_nil]
    exact h
  | cons a as ih =>
    rw [List.foldlM_cons] at has
    obtain ⟨s₁, hfirst, hrest⟩ := Option.bind_eq_some_iff.mp has
    rw [Machine.steps, hfirst, List.append_cons]
    exact ih (h.snoc (hnext s₀ a s₁ hfirst)) hrest

theorem labels_steps {α : Type*} {next : σ → α → Option σ} {label : α → ε} {as : List α}
    {s₀ s : σ} (has : as.foldlM next s₀ = some s) :
    (Machine.steps next label s₀ as).map Prod.snd = as.map label := by
  induction as generalizing s₀ with
  | nil => rfl
  | cons a as ih =>
    rw [List.foldlM_cons] at has
    obtain ⟨s₁, hfirst, hrest⟩ := Option.bind_eq_some_iff.mp has
    rw [Machine.steps, hfirst, List.map_cons, List.map_cons, ih hrest]

/-- Every step of the trace of a run is a step of the machine. -/
theorem Run.step_of_mem {tr : List (σ × ε)} {s : σ} (h : m.Run tr s) {x : σ × ε}
    (hx : x ∈ tr) : ∃ s', m.step x.1 x.2 s' := by
  induction h with
  | start => cases hx
  | snoc hrun hs ih =>
    rcases List.mem_append.mp hx with hbefore | hlast
    · exact ih hbefore
    · obtain rfl := List.mem_singleton.mp hlast
      exact ⟨_, hs⟩

/-- The steps before a step of a run lead to the state before it. -/
theorem Run.before {tr pre post : List (σ × ε)} {x : σ × ε} {s : σ} (h : m.Run tr s)
    (htr : tr = pre ++ x :: post) : m.Run pre x.1 := by
  induction h generalizing post with
  | start => simp at htr
  | snoc hrun hs ih =>
    rcases List.eq_nil_or_concat post with rfl | ⟨rest, y, rfl⟩
    · obtain ⟨rfl, hlast⟩ := List.append_inj' htr rfl
      obtain rfl := List.singleton_inj.mp hlast
      exact hrun
    · rw [List.concat_eq_append, ← List.cons_append, ← List.append_assoc] at htr
      exact ih (List.append_inj' htr rfl).1

/-- The states that a run has passed, the last one included. -/
def visited (tr : List (σ × ε)) (s : σ) : List σ := tr.map Prod.fst ++ [s]

theorem visited_snoc (tr : List (σ × ε)) (s s' : σ) (e : ε) :
    visited (tr ++ [(s, e)]) s' = visited tr s ++ [s'] := by
  rw [visited, List.map_append]
  rfl

section Conditions

variable {I P : σ → Prop} {C : σ → ε → Prop} {tr : List (σ × ε)} {s : σ}

/-- An invariant that the steps meeting a condition keep. -/
theorem Run.invariant (hinit : I m.init)
    (hstep : ∀ s e s', I s → C s e → m.step s e s' → I s')
    (h : m.Run tr s) (hok : ∀ x ∈ tr, C x.1 x.2) : I s := by
  induction h with
  | start => exact hinit
  | snoc hrun hs ih =>
    have hlast := hok _ (List.mem_append_right _ List.mem_cons_self)
    exact hstep _ _ _ (ih fun x hx => hok x (List.mem_append_left _ hx)) hlast hs

/-- An invariant that the steps meeting a condition keep holds all along the run. -/
theorem Run.forall_visited (hinit : I m.init)
    (hstep : ∀ s e s', I s → C s e → m.step s e s' → I s')
    (h : m.Run tr s) (hok : ∀ x ∈ tr, C x.1 x.2) : ∀ x ∈ visited tr s, I x := by
  induction h with
  | start => exact List.forall_mem_singleton.mpr hinit
  | snoc hrun hs ih =>
    rw [List.forall_mem_append, List.forall_mem_singleton] at hok
    rw [visited_snoc, List.forall_mem_append, List.forall_mem_singleton]
    exact ⟨ih hok.1, hstep _ _ _ (hrun.invariant hinit hstep hok.1) hok.2 hs⟩

/-- **Exact conditions.**  Where steps that meet the condition keep an invariant which implies
`P`, and every other step from such a state breaks `P`, the runs in which `P` always holds are
those whose steps all meet the condition. -/
theorem Run.forall_visited_iff (hinit : I m.init) (hI : ∀ s, I s → P s)
    (hstep : ∀ s e s', I s → C s e → m.step s e s' → I s')
    (hbreak : ∀ s e s', I s → ¬ C s e → m.step s e s' → ¬ P s') (h : m.Run tr s) :
    (∀ x ∈ visited tr s, P x) ↔ ∀ x ∈ tr, C x.1 x.2 := by
  induction h with
  | start =>
    refine iff_of_true (fun x hx => ?_) (by simp)
    obtain rfl := List.mem_singleton.mp hx
    exact hI _ hinit
  | @snoc tr s s' e hrun hs ih =>
    have hinv : (∀ x ∈ tr, C x.1 x.2) → I s := hrun.invariant hinit hstep
    rw [visited_snoc, List.forall_mem_append, List.forall_mem_singleton, ih,
      List.forall_mem_append, List.forall_mem_singleton]
    refine and_congr_right fun hok => ?_
    constructor
    · intro hP
      by_contra hnot
      exact hbreak s e s' (hinv hok) hnot hs hP
    · intro hlast
      exact hI s' (hstep s e s' (hinv hok) hlast hs)

end Conditions

/-! ### Runs that stay among some states -/

/-- The steps of a machine that lead to a state with `P`. -/
def within (m : Machine σ ε) (P : σ → Prop) : Machine σ ε :=
  ⟨m.init, fun s e s' => m.step s e s' ∧ P s'⟩

section Within

variable {P : σ → Prop} {tr : List (σ × ε)} {s : σ}

theorem Run.within (h : m.Run tr s) (hP : ∀ x ∈ visited tr s, P x) : (m.within P).Run tr s := by
  induction h with
  | start => exact .start
  | snoc hrun hs ih =>
    rw [visited_snoc, List.forall_mem_append, List.forall_mem_singleton] at hP
    exact (ih hP.1).snoc ⟨hs, hP.2⟩

theorem Run.of_within (h : (m.within P).Run tr s) : m.Run tr s := by
  induction h with
  | start => exact .start
  | snoc _ hs ih => exact ih.snoc hs.1

theorem Reachable.of_within (h : (m.within P).Reachable s) : m.Reachable s := by
  obtain ⟨tr, hrun⟩ := h
  exact ⟨tr, hrun.of_within⟩

theorem Run.forall_visited_of_within (hinit : P m.init) (h : (m.within P).Run tr s) :
    ∀ x ∈ visited tr s, P x := by
  induction h with
  | start => exact List.forall_mem_singleton.mpr hinit
  | snoc _ hs ih =>
    rw [visited_snoc, List.forall_mem_append, List.forall_mem_singleton]
    exact ⟨ih, hs.2⟩

end Within

/-! ### Deterministic machines -/

def ofNext (init : σ) (next : σ → ε → Option σ) : Machine σ ε :=
  ⟨init, fun s e s' => next s e = some s'⟩

/-- Labels that can all be taken are the labels of a run. -/
theorem exists_run (init : σ) (next : σ → ε → Option σ) (es : List ε)
    (h : (es.foldlM next init).isSome = true) :
    ∃ tr s, (ofNext init next).Run tr s ∧ tr.map Prod.snd = es := by
  obtain ⟨s, hs⟩ := Option.isSome_iff_exists.mp h
  refine ⟨steps next id init es, s, ?_, ?_⟩
  · exact Run.start.steps (m := ofNext init next) (fun _ _ _ hnext => hnext) hs
  · rw [labels_steps hs, List.map_id]

theorem reachable_of_foldlM {init s : σ} {next : σ → ε → Option σ} {es : List ε}
    (h : es.foldlM next init = some s) : (ofNext init next).Reachable s :=
  reachable_init.foldlM (m := ofNext init next) (fun _ e _ hnext => ⟨e, hnext⟩) h

end Machine

end OsLabs.Lib
