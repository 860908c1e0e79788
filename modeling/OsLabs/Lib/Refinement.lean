import Mathlib.Tactic

/-!
# Components and what they refine

A component holds a state and serves operations; an operation gives the next state and an
answer, or fails.  An abstract data type is the same with operations that never fail.  A
simulation relates the states of a component to those of an abstract data type; it carries over
to sequences of operations, for any number of them or for as many as its index allows.
-/

namespace OsLabs.Lib

structure Component (σ ι ω : Type*) where
  init : σ
  step : σ → ι → Option (σ × ω)

structure AbstractType (α ι ω : Type*) where
  init : α
  step : α → ι → α × ω

variable {σ α ι ω : Type*}

namespace Component

/-- The state and the answers after a sequence of operations. -/
def runFrom (c : Component σ ι ω) : σ → List ι → Option (σ × List ω)
  | s, [] => some (s, [])
  | s, i :: is =>
    (c.step s i).bind fun p => (c.runFrom p.1 is).map fun q => (q.1, p.2 :: q.2)

def run (c : Component σ ι ω) (is : List ι) : Option (σ × List ω) := c.runFrom c.init is

end Component

namespace AbstractType

def runFrom (a : AbstractType α ι ω) : α → List ι → α × List ω
  | x, [] => (x, [])
  | x, i :: is =>
    let p := a.step x i
    let q := a.runFrom p.1 is
    (q.1, p.2 :: q.2)

def run (a : AbstractType α ι ω) (is : List ι) : α × List ω := a.runFrom a.init is

theorem runFrom_append (a : AbstractType α ι ω) (x : α) (is js : List ι) :
    a.runFrom x (is ++ js) =
      ((a.runFrom (a.runFrom x is).1 js).1,
        (a.runFrom x is).2 ++ (a.runFrom (a.runFrom x is).1 js).2) := by
  induction is generalizing x with
  | nil => rfl
  | cons i is ih =>
    rw [List.cons_append, runFrom, ih]
    rfl

theorem run_concat (a : AbstractType α ι ω) (is : List ι) (i : ι) :
    a.run (is ++ [i]) =
      ((a.step (a.run is).1 i).1, (a.run is).2 ++ [(a.step (a.run is).1 i).2]) :=
  a.runFrom_append a.init is [i]

/-- Two types that take the same steps run alike. -/
theorem run_eq_of_step {a b : AbstractType α ι ω} (hinit : a.init = b.init) {is : List ι}
    (hstep : ∀ done i, done ++ [i] <+: is →
      a.step (a.run done).1 i = b.step (a.run done).1 i) : a.run is = b.run is := by
  induction is using List.reverseRecOn with
  | nil =>
    show (a.init, []) = (b.init, [])
    rw [hinit]
  | append_singleton is i ih =>
    have hprefix := ih fun done j hd => hstep done j (hd.trans (List.prefix_append is [i]))
    rw [run_concat, run_concat, ← hprefix, hstep is i List.prefix_rfl]

end AbstractType

/-! ### Fewer operations -/

variable {κ : Type*}

def Component.comap (c : Component σ ι ω) (f : κ → ι) : Component σ κ ω where
  init := c.init
  step s k := c.step s (f k)

def AbstractType.comap (a : AbstractType α ι ω) (f : κ → ι) : AbstractType α κ ω where
  init := a.init
  step x k := a.step x (f k)

/-! ### Simulations -/

/-- `R n s x`: the states `s` and `x` are related, with `n` operations still allowed.  Each
operation gives the abstract answer and leads to related states. -/
structure Simulates (c : Component σ ι ω) (a : AbstractType α ι ω) (R : ℕ → σ → α → Prop) :
    Prop where
  step : ∀ n s x i, R (n + 1) s x →
    ∃ s', c.step s i = some (s', (a.step x i).2) ∧ R n s' (a.step x i).1

/-- **Refinement.**  A sequence of operations succeeds with the abstract answers. -/
theorem Simulates.runFrom {c : Component σ ι ω} {a : AbstractType α ι ω} {R : ℕ → σ → α → Prop}
    (h : Simulates c a R) (is : List ι) {n : ℕ} {s : σ} {x : α} (hR : R (is.length + n) s x) :
    ∃ s', c.runFrom s is = some (s', (a.runFrom x is).2) ∧ R n s' (a.runFrom x is).1 := by
  induction is generalizing s x with
  | nil =>
    rw [List.length_nil, Nat.zero_add] at hR
    exact ⟨s, rfl, hR⟩
  | cons i is ih =>
    rw [List.length_cons, Nat.add_right_comm] at hR
    obtain ⟨s₁, hfirst, hR₁⟩ := h.step _ s x i hR
    obtain ⟨s', hrest, hR'⟩ := ih hR₁
    refine ⟨s', ?_, hR'⟩
    rw [Component.runFrom, hfirst, Option.bind_some, hrest, Option.map_some]
    rfl

theorem Simulates.comap {c : Component σ ι ω} {a : AbstractType α ι ω} {R : ℕ → σ → α → Prop}
    (h : Simulates c a R) (f : κ → ι) : Simulates (c.comap f) (a.comap f) R :=
  ⟨fun n s x k => h.step n s x (f k)⟩

end OsLabs.Lib
