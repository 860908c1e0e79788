import Mathlib.Data.List.FinRange
import Mathlib.Tactic

/-!
# Counting loops

`for (i = 0; i < n; i++)` runs its body once for each index, in order.  `loopAt body k s` is the
state in which iteration number `k` begins, and an invariant of the loop may mention that number.
-/

namespace OsLabs.Lib

variable {n : ℕ} {σ : Type*} (body : σ → Fin n → σ)

def forLoop (s : σ) : σ := (List.finRange n).foldl body s

/-- The state after the first `k` iterations. -/
def loopAt (k : ℕ) (s : σ) : σ := ((List.finRange n).take k).foldl body s

@[simp] theorem loopAt_zero (s : σ) : loopAt body 0 s = s := rfl

theorem loopAt_succ (i : Fin n) (s : σ) :
    loopAt body (i + 1) s = body (loopAt body i s) i := by
  have hlt : (i : ℕ) < (List.finRange n).length := by
    rw [List.length_finRange]
    exact i.isLt
  rw [loopAt, List.take_succ_eq_append_getElem hlt, List.foldl_append, List.getElem_finRange]
  rfl

theorem loopAt_of_le {k : ℕ} (hk : n ≤ k) (s : σ) : loopAt body k s = forLoop body s := by
  have hall : (List.finRange n).take k = List.finRange n :=
    List.take_of_length_le (by rw [List.length_finRange]; exact hk)
  rw [loopAt, hall, forLoop]

variable {body} {I : ℕ → σ → Prop} {s : σ}

/-- An invariant that each iteration takes to the next index. -/
theorem loopAt_invariant (hinit : I 0 s) (hbody : ∀ (i : Fin n) s, I i s → I (i + 1) (body s i))
    {k : ℕ} (hk : k ≤ n) : I k (loopAt body k s) := by
  induction k with
  | zero => exact hinit
  | succ k ih =>
    have hstep := hbody ⟨k, hk⟩ (loopAt body k s) (ih (Nat.le_of_succ_le hk))
    rw [← loopAt_succ body ⟨k, hk⟩ s] at hstep
    exact hstep

theorem forLoop_invariant (hinit : I 0 s)
    (hbody : ∀ (i : Fin n) s, I i s → I (i + 1) (body s i)) : I n (forLoop body s) := by
  rw [← loopAt_of_le body le_rfl s]
  exact loopAt_invariant hinit hbody le_rfl

/-- A loop whose iterations do not fail is the loop without failures. -/
theorem foldlM_finRange_eq_forLoop {body : σ → Fin n → σ} {bodyM : σ → Fin n → Option σ}
    {I : ℕ → σ → Prop} (hstep : ∀ (i : Fin n) s, I i s → I (i + 1) (body s i))
    (hbody : ∀ (i : Fin n) s, I i s → bodyM s i = some (body s i)) {s : σ} (hinit : I 0 s) :
    (List.finRange n).foldlM bodyM s = some (forLoop body s) := by
  have hprefix : ∀ k ≤ n, ((List.finRange n).take k).foldlM bodyM s = some (loopAt body k s) := by
    intro k hk
    induction k with
    | zero => rfl
    | succ k ih =>
      have hlt : k < (List.finRange n).length := by
        rw [List.length_finRange]
        exact hk
      have hbefore := loopAt_invariant (k := k) hinit hstep (Nat.le_of_succ_le hk)
      have hlast := hbody ⟨k, hk⟩ _ hbefore
      have hsucc : loopAt body (k + 1) s = body (loopAt body k s) ⟨k, hk⟩ :=
        loopAt_succ body ⟨k, hk⟩ s
      rw [List.take_succ_eq_append_getElem hlt, List.foldlM_append, ih (Nat.le_of_succ_le hk),
        List.getElem_finRange, hsucc, ← hlast]
      exact bind_pure (m := Option) _
  have hall := hprefix n le_rfl
  rw [List.take_of_length_le (by rw [List.length_finRange]), loopAt_of_le body le_rfl] at hall
  exact hall

/-- An invariant that the iterations keep that do not fail. -/
theorem foldlM_invariant {bodyM : σ → Fin n → Option σ} {I : σ → Prop}
    (hbody : ∀ s i t, I s → bodyM s i = some t → I t) {l : List (Fin n)} {s t : σ} (hs : I s)
    (h : l.foldlM bodyM s = some t) : I t := by
  induction l generalizing s with
  | nil =>
    obtain rfl := Option.some.inj h
    exact hs
  | cons i l ih =>
    obtain ⟨u, hu, hrest⟩ := Option.bind_eq_some_iff.mp h
    exact ih (hbody s i u hs hu) hrest

/-- If none of its iterations fails, a loop is the loop without failures, iteration by
iteration. -/
theorem forLoop_of_foldlM {body : σ → Fin n → σ} {bodyM : σ → Fin n → Option σ}
    (hbody : ∀ s i t, bodyM s i = some t → t = body s i) {s t : σ}
    (h : (List.finRange n).foldlM bodyM s = some t) :
    t = forLoop body s ∧
      ∀ i : Fin n, bodyM (loopAt body i s) i = some (loopAt body (i + 1) s) := by
  have hfold : ∀ (l : List (Fin n)) s t, l.foldlM bodyM s = some t → t = l.foldl body s := by
    intro l
    induction l with
    | nil =>
      intro s t h
      exact (Option.some.inj h).symm
    | cons i l ih =>
      intro s t h
      obtain ⟨u, hu, hrest⟩ := Option.bind_eq_some_iff.mp h
      rw [List.foldl_cons, ← hbody s i u hu]
      exact ih u t hrest
  refine ⟨hfold _ s t h, fun i => ?_⟩
  have hlt : (i : ℕ) < (List.finRange n).length := by
    rw [List.length_finRange]
    exact i.isLt
  have htake := List.take_succ_eq_append_getElem hlt
  rw [List.getElem_finRange] at htake
  rw [← List.take_append_drop (i + 1) (List.finRange n), List.foldlM_append, htake,
    List.foldlM_append] at h
  obtain ⟨u, hu, -⟩ := Option.bind_eq_some_iff.mp h
  obtain ⟨v, hv, hlast⟩ := Option.bind_eq_some_iff.mp hu
  obtain ⟨w, hw, -⟩ := Option.bind_eq_some_iff.mp hlast
  have hbefore : v = loopAt body i s := hfold _ s v hv
  rw [loopAt_succ body i s, ← hbefore]
  rw [← hbody v i w hw]
  exact hw

end OsLabs.Lib
