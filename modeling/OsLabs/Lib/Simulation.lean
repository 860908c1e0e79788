import OsLabs.Lib.Transition

/-!
# Simulations between transition systems

A simulation matches each step of a machine by one step of another one or by none.  The steps
that are matched say what the other machine does: they are its run, in their order.
-/

namespace OsLabs.Lib

namespace Machine

variable {σ ε σ' ε' σ'' ε'' : Type*} {m : Machine σ ε} {m' : Machine σ' ε'} {m'' : Machine σ'' ε''}

/-- A step `e` from `s` is matched by the step `emit s e`, or by none. -/
structure Simulation (m : Machine σ ε) (m' : Machine σ' ε') (emit : σ → ε → Option ε')
    (R : σ → σ' → Prop) : Prop where
  init : R m.init m'.init
  silent : ∀ s e s' a, m.Reachable s → R s a → m.step s e s' → emit s e = none → R s' a
  matched : ∀ s e s' a e', m.Reachable s → R s a → m.step s e s' → emit s e = some e' →
    ∃ a', m'.step a e' a' ∧ R s' a'

/-- The labels of the other machine for a run. -/
def emitted (emit : σ → ε → Option ε') (tr : List (σ × ε)) : List ε' :=
  tr.filterMap fun x => emit x.1 x.2

theorem emitted_concat (emit : σ → ε → Option ε') (tr : List (σ × ε)) (s : σ) (e : ε) :
    emitted emit (tr ++ [(s, e)]) = emitted emit tr ++ (emit s e).toList := by
  rw [emitted, List.filterMap_append, emitted]
  cases hemit : emit s e with
  | none => simp only [List.filterMap_cons, List.filterMap_nil, hemit, Option.toList_none]
  | some e' => simp only [List.filterMap_cons, List.filterMap_nil, hemit, Option.toList_some]

namespace Simulation

variable {emit : σ → ε → Option ε'} {R : σ → σ' → Prop}

/-- **Runs.**  The steps that a run emits are a run of the other machine. -/
theorem run (h : Simulation m m' emit R) {tr : List (σ × ε)} {s : σ} (hrun : m.Run tr s) :
    ∃ tr' a, m'.Run tr' a ∧ tr'.map Prod.snd = emitted emit tr ∧ R s a := by
  induction hrun with
  | start => exact ⟨[], m'.init, .start, rfl, h.init⟩
  | @snoc tr s s' e hrun hstep ih =>
    obtain ⟨tr', a, hrun', hlabels, hR⟩ := ih
    cases hemit : emit s e with
    | none =>
      refine ⟨tr', a, hrun', ?_, h.silent s e s' a ⟨tr, hrun⟩ hR hstep hemit⟩
      rw [emitted, List.filterMap_append, hlabels, emitted]
      simp only [List.filterMap_cons, List.filterMap_nil, hemit, List.append_nil]
    | some e' =>
      obtain ⟨a', hstep', hR'⟩ := h.matched s e s' a e' ⟨tr, hrun⟩ hR hstep hemit
      refine ⟨tr' ++ [(a, e')], a', hrun'.snoc hstep', ?_, hR'⟩
      rw [List.map_append, hlabels, emitted, emitted, List.filterMap_append]
      simp only [List.filterMap_cons, List.filterMap_nil, hemit, List.map_cons, List.map_nil]

theorem reachable (h : Simulation m m' emit R) {s : σ} (hs : m.Reachable s) :
    ∃ a, m'.Reachable a ∧ R s a := by
  obtain ⟨tr, hrun⟩ := hs
  obtain ⟨tr', a, hrun', -, hR⟩ := h.run hrun
  exact ⟨a, ⟨tr', hrun'⟩, hR⟩

/-- What holds in every reachable state of the other machine holds of the states that it
simulates. -/
theorem invariant (h : Simulation m m' emit R) {I : σ' → Prop} {J : σ → Prop}
    (hI : ∀ a, m'.Reachable a → I a) (hJ : ∀ s a, R s a → I a → J s) {s : σ}
    (hs : m.Reachable s) : J s := by
  obtain ⟨a, ha, hR⟩ := h.reachable hs
  exact hJ s a hR (hI a ha)

/-- One simulation after the other. -/
theorem comp {emit' : σ' → ε' → Option ε''} {R' : σ' → σ'' → Prop} {f : σ → ε → Option ε''}
    (h : Simulation m m' emit R) (h' : Simulation m' m'' emit' R')
    (hf : ∀ s e a, R s a → f s e = (emit s e).bind (emit' a)) :
    Simulation m m'' f fun s c => ∃ a, m'.Reachable a ∧ R s a ∧ R' a c where
  init := ⟨m'.init, reachable_init, h.init, h'.init⟩
  silent s e s' c hs hR hstep hsilent := by
    obtain ⟨a, ha, hsa, hac⟩ := hR
    rw [hf s e a hsa] at hsilent
    cases hemit : emit s e with
    | none => exact ⟨a, ha, h.silent s e s' a hs hsa hstep hemit, hac⟩
    | some e' =>
      rw [hemit, Option.bind_some] at hsilent
      obtain ⟨a', hstep', hsa'⟩ := h.matched s e s' a e' hs hsa hstep hemit
      exact ⟨a', ha.step hstep', hsa', h'.silent a e' a' c ha hac hstep' hsilent⟩
  matched s e s' c e'' hs hR hstep hmatched := by
    obtain ⟨a, ha, hsa, hac⟩ := hR
    rw [hf s e a hsa] at hmatched
    obtain ⟨e', hemit, hemit'⟩ := Option.bind_eq_some_iff.mp hmatched
    obtain ⟨a', hstep', hsa'⟩ := h.matched s e s' a e' hs hsa hstep hemit
    obtain ⟨c', hstep'', hac'⟩ := h'.matched a e' a' c e'' ha hac hstep' hemit'
    exact ⟨c', hstep'', a', ha.step hstep', hsa', hac'⟩

end Simulation

end Machine

end OsLabs.Lib
