import Mathlib.Logic.Function.Iterate
import Mathlib.Tactic

/-!
# While loops with fuel

`whileLoop guard body fuel s` runs `while (guard) body` from `s` for at most `fuel`
iterations and returns `none` when the guard still holds after them.  A result is an
iterate of the body, so facts about the loop are facts about `body^[k] s`, and a result
exists as soon as the guard fails at some iterate.
-/

namespace OsLabs.Lib

variable {σ : Type*} {guard : σ → Bool} {body : σ → σ}

def whileLoop (guard : σ → Bool) (body : σ → σ) : ℕ → σ → Option σ
  | 0, s => if guard s then none else some s
  | fuel + 1, s => if guard s then whileLoop guard body fuel (body s) else some s

/-- A loop that returns has iterated its body until the guard failed for the first time. -/
theorem whileLoop_eq_some_iff {fuel : ℕ} {s t : σ} :
    whileLoop guard body fuel s = some t ↔
      ∃ k ≤ fuel, t = body^[k] s ∧ (∀ j < k, guard (body^[j] s) = true) ∧
        guard t = false := by
  induction fuel generalizing s with
  | zero =>
    rw [whileLoop]
    cases hg : guard s with
    | true =>
      refine ⟨by simp, ?_⟩
      rintro ⟨k, hk, rfl, -, hfalse⟩
      obtain rfl : k = 0 := by omega
      rw [Function.iterate_zero_apply, hg] at hfalse
      cases hfalse
    | false =>
      constructor
      · intro h
        obtain rfl : s = t := by simpa using h
        exact ⟨0, le_rfl, rfl, by simp, hg⟩
      · rintro ⟨k, hk, rfl, -, -⟩
        obtain rfl : k = 0 := by omega
        rfl
  | succ fuel ih =>
    rw [whileLoop]
    cases hg : guard s with
    | true =>
      rw [if_pos rfl, ih]
      constructor
      · rintro ⟨k, hk, rfl, hbefore, hfalse⟩
        refine ⟨k + 1, by omega, by rw [Function.iterate_succ_apply], ?_, hfalse⟩
        intro j hj
        cases j with
        | zero => exact hg
        | succ j =>
          rw [Function.iterate_succ_apply]
          exact hbefore j (by omega)
      · rintro ⟨k, hk, rfl, hbefore, hfalse⟩
        cases k with
        | zero =>
          rw [Function.iterate_zero_apply, hg] at hfalse
          cases hfalse
        | succ k =>
          refine ⟨k, by omega, by rw [Function.iterate_succ_apply], ?_, hfalse⟩
          intro j hj
          have := hbefore (j + 1) (by omega)
          rwa [Function.iterate_succ_apply] at this
    | false =>
      constructor
      · intro h
        obtain rfl : s = t := by simpa using h
        exact ⟨0, by omega, rfl, by simp, hg⟩
      · rintro ⟨k, hk, rfl, hbefore, -⟩
        cases k with
        | zero => rfl
        | succ k =>
          have := hbefore 0 (by omega)
          rw [Function.iterate_zero_apply, hg] at this
          cases this

/-- A loop whose guard fails at some iterate returns. -/
theorem exists_whileLoop_eq_some {s : σ} {k : ℕ} (h : guard (body^[k] s) = false) :
    ∃ fuel t, whileLoop guard body fuel s = some t := by
  classical
  have hex : ∃ j, guard (body^[j] s) = false := ⟨k, h⟩
  refine ⟨Nat.find hex, body^[Nat.find hex] s, whileLoop_eq_some_iff.mpr
    ⟨Nat.find hex, le_rfl, rfl, ?_, Nat.find_spec hex⟩⟩
  intro j hj
  simpa using Nat.find_min hex hj

/-- What the iterations keep holds when the loop returns. -/
theorem whileLoop_invariant {I : σ → Prop} (hstep : ∀ s, I s → guard s = true → I (body s))
    {fuel : ℕ} {s t : σ} (hs : I s) (h : whileLoop guard body fuel s = some t) :
    I t ∧ guard t = false := by
  obtain ⟨k, -, rfl, hbefore, hdone⟩ := whileLoop_eq_some_iff.mp h
  refine ⟨?_, hdone⟩
  have hall : ∀ j ≤ k, I (body^[j] s) := by
    intro j hj
    induction j with
    | zero => exact hs
    | succ j ih =>
      rw [Function.iterate_succ_apply']
      exact hstep _ (ih (by omega)) (hbefore j (by omega))
  exact hall k le_rfl

/-- A loop returns if a measure falls with each iteration after which its guard holds. -/
theorem exists_whileLoop_of_measure {I : σ → Prop} (μ : σ → ℕ)
    (hstep : ∀ s, I s → guard s = true → I (body s))
    (hμ : ∀ s, I s → guard s = true → guard (body s) = true → μ (body s) < μ s)
    {s : σ} (hs : I s) : ∃ fuel t, whileLoop guard body fuel s = some t := by
  induction hn : μ s using Nat.strong_induction_on generalizing s with
  | _ n ih =>
    cases hg : guard s with
    | false => exact exists_whileLoop_eq_some (k := 0) hg
    | true =>
      cases hg' : guard (body s) with
      | false => exact exists_whileLoop_eq_some (k := 1) hg'
      | true =>
        obtain ⟨fuel, t, ht⟩ := ih (μ (body s)) (hn ▸ hμ s hs hg hg') (hstep s hs hg) rfl
        refine ⟨fuel + 1, t, ?_⟩
        rw [whileLoop, if_pos hg]
        exact ht

/-- The result of a loop does not depend on the fuel. -/
theorem whileLoop_unique {fuel fuel' : ℕ} {s t t' : σ}
    (h : whileLoop guard body fuel s = some t) (h' : whileLoop guard body fuel' s = some t') :
    t = t' := by
  obtain ⟨k, -, rfl, hbefore, hend⟩ := whileLoop_eq_some_iff.mp h
  obtain ⟨k', -, rfl, hbefore', hend'⟩ := whileLoop_eq_some_iff.mp h'
  rcases lt_trichotomy k k' with hlt | rfl | hlt
  · rw [hbefore' k hlt] at hend
    cases hend
  · rfl
  · rw [hbefore k' hlt] at hend'
    cases hend'

/-- Two loops in step: what relates their states before an iteration relates their results. -/
theorem exists_whileLoop_of_rel {τ : Type*} {guard' : τ → Bool} {body' : τ → τ}
    {r : σ → τ → Prop} (hguard : ∀ s t, r s t → guard s = guard' t)
    (hbody : ∀ s t, r s t → r (body s) (body' t)) {fuel : ℕ} {s s' : σ} {t : τ} (hr : r s t)
    (h : whileLoop guard body fuel s = some s') :
    ∃ t', whileLoop guard' body' fuel t = some t' ∧ r s' t' := by
  induction fuel generalizing s t with
  | zero =>
    rw [whileLoop] at h ⊢
    rw [← hguard s t hr]
    split at h
    · cases h
    · rename_i hfalse
      rw [if_neg hfalse]
      exact ⟨t, rfl, Option.some.inj h ▸ hr⟩
  | succ fuel ih =>
    rw [whileLoop] at h ⊢
    rw [← hguard s t hr]
    split at h
    · rename_i htrue
      rw [if_pos htrue]
      exact ih (hbody s t hr) h
    · rename_i hfalse
      rw [if_neg hfalse]
      exact ⟨t, rfl, Option.some.inj h ▸ hr⟩

/-- `do body while (guard)`, for at most `fuel` further iterations. -/
def doWhileLoop (guard : σ → Bool) (body : σ → σ) (fuel : ℕ) (s : σ) : Option σ :=
  whileLoop guard body fuel (body s)

theorem doWhileLoop_invariant {I : σ → Prop} (hstep : ∀ s, I s → I (body s)) {fuel : ℕ}
    {s t : σ} (hs : I s) (h : doWhileLoop guard body fuel s = some t) :
    I t ∧ guard t = false :=
  whileLoop_invariant (fun s hI _ => hstep s hI) (hstep s hs) h

theorem exists_doWhileLoop_of_rel {τ : Type*} {guard' : τ → Bool} {body' : τ → τ}
    {r : σ → τ → Prop} (hguard : ∀ s t, r s t → guard s = guard' t)
    (hbody : ∀ s t, r s t → r (body s) (body' t)) {fuel : ℕ} {s s' : σ} {t : τ} (hr : r s t)
    (h : doWhileLoop guard body fuel s = some s') :
    ∃ t', doWhileLoop guard' body' fuel t = some t' ∧ r s' t' :=
  exists_whileLoop_of_rel hguard hbody (hbody s t hr) h

theorem exists_doWhileLoop_of_measure {I : σ → Prop} (μ : σ → ℕ)
    (hstep : ∀ s, I s → I (body s))
    (hμ : ∀ s, I s → guard (body s) = true → μ (body s) < μ s)
    {s : σ} (hs : I s) : ∃ fuel t, doWhileLoop guard body fuel s = some t :=
  exists_whileLoop_of_measure μ (fun s hI _ => hstep s hI) (fun s hI _ => hμ s hI) (hstep s hs)

/-! ### Loops that may fail -/

/-- `while (guard) body`, where evaluating the guard or running the body may fail. -/
def whileLoopM (guard : σ → Option Bool) (body : σ → Option σ) : ℕ → σ → Option σ
  | 0, s => (guard s).bind fun b => if b then none else some s
  | fuel + 1, s =>
    (guard s).bind fun b => if b then (body s).bind (whileLoopM guard body fuel) else some s

section MayFail

variable {guard : σ → Option Bool} {body : σ → Option σ} {s t : σ}

theorem whileLoopM_of_false (hguard : guard s = some false) (fuel : ℕ) :
    whileLoopM guard body fuel s = some s := by
  cases fuel <;> rw [whileLoopM, hguard] <;> rfl

theorem whileLoopM_of_true (hguard : guard s = some true) (hbody : body s = some t) (fuel : ℕ) :
    whileLoopM guard body (fuel + 1) s = whileLoopM guard body fuel t := by
  rw [whileLoopM, hguard, Option.bind_some, if_pos rfl, hbody, Option.bind_some]

theorem whileLoopM_mono {fuel fuel' : ℕ} (hle : fuel ≤ fuel')
    (h : whileLoopM guard body fuel s = some t) : whileLoopM guard body fuel' s = some t := by
  induction fuel generalizing s fuel' with
  | zero =>
    rw [whileLoopM] at h
    obtain ⟨b, hguard, hb⟩ := Option.bind_eq_some_iff.mp h
    cases b with
    | true => cases hb
    | false =>
      obtain rfl := Option.some.inj hb
      exact whileLoopM_of_false hguard fuel'
  | succ fuel ih =>
    rw [whileLoopM] at h
    obtain ⟨b, hguard, hb⟩ := Option.bind_eq_some_iff.mp h
    cases b with
    | true =>
      obtain ⟨u, hbody, hrest⟩ := Option.bind_eq_some_iff.mp hb
      obtain ⟨more, rfl⟩ := Nat.exists_eq_add_of_le' (Nat.one_le_of_lt hle)
      rw [whileLoopM_of_true hguard hbody]
      exact ih (Nat.succ_le_succ_iff.mp hle) hrest
    | false =>
      obtain rfl := Option.some.inj hb
      exact whileLoopM_of_false hguard fuel'

/-- A loop whose iterations do not fail is the loop without failures. -/
theorem whileLoopM_eq_whileLoop {guard : σ → Bool} {body : σ → σ} {bodyM : σ → Option σ}
    {I : σ → Prop} (hstep : ∀ s, I s → guard s = true → I (body s))
    (hbody : ∀ s, I s → guard s = true → bodyM s = some (body s)) {s : σ} (hs : I s) (fuel : ℕ) :
    whileLoopM (fun s => some (guard s)) bodyM fuel s = whileLoop guard body fuel s := by
  induction fuel generalizing s with
  | zero => rfl
  | succ fuel ih =>
    rw [whileLoopM, whileLoop, Option.bind_some]
    split
    · rename_i hguard
      rw [hbody s hs hguard, Option.bind_some]
      exact ih (hstep s hs hguard)
    · rfl

/-- If none of its iterations fails, a loop is the loop without failures. -/
theorem whileLoop_of_whileLoopM {guard : σ → Bool} {body : σ → σ} {bodyM : σ → Option σ}
    (hbody : ∀ s t, bodyM s = some t → t = body s) {fuel : ℕ} {s t : σ}
    (h : whileLoopM (fun s => some (guard s)) bodyM fuel s = some t) :
    whileLoop guard body fuel s = some t := by
  induction fuel generalizing s with
  | zero => exact h
  | succ fuel ih =>
    rw [whileLoopM, Option.bind_some] at h
    rw [whileLoop]
    split at h
    · rename_i hguard
      obtain ⟨u, hu, hrest⟩ := Option.bind_eq_some_iff.mp h
      rw [if_pos hguard, ← hbody s u hu]
      exact ih hrest
    · rename_i hguard
      rw [if_neg hguard]
      exact h

/-- An invariant that the iterations keep that do not fail. -/
theorem whileLoopM_invariant {I : σ → Prop} (hstep : ∀ s t, I s → body s = some t → I t)
    {fuel : ℕ} {s t : σ} (hs : I s) (h : whileLoopM guard body fuel s = some t) : I t := by
  induction fuel generalizing s with
  | zero =>
    obtain ⟨b, -, hb⟩ := Option.bind_eq_some_iff.mp h
    cases b with
    | true => cases hb
    | false =>
      obtain rfl := Option.some.inj hb
      exact hs
  | succ fuel ih =>
    obtain ⟨b, -, hb⟩ := Option.bind_eq_some_iff.mp h
    cases b with
    | true =>
      obtain ⟨u, hu, hrest⟩ := Option.bind_eq_some_iff.mp hb
      exact ih (hstep s u hs hu) hrest
    | false =>
      obtain rfl := Option.some.inj hb
      exact hs

end MayFail

end OsLabs.Lib
