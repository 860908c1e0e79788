import OsLabs.Lib.WhileLoop
import OsLabs.SchedSim.Process

/-!
# Shortest remaining time first

`findWaitingTimeSJF`.  One iteration of its `while` loop is one tick: the inner `for` loop
picks the arrived process with the least positive remaining time, and that process runs for
one unit.
-/

namespace OsLabs.SchedSim

open OsLabs.Lib

variable {n : ℕ}

/-- The `if` in the body of the inner `for` loop; `none` stands for `min_index == -1`. -/
def selectStep (plist : Fin n → ProcessType) (remBt : Fin n → ℤ) (t : ℤ)
    (sel : ℤ × Option (Fin n)) (i : Fin n) : ℤ × Option (Fin n) :=
  if (plist i).art ≤ t ∧ remBt i > 0 ∧ remBt i < sel.1 then (remBt i, some i) else sel

/-- `min_bt` and `min_index` after the inner `for` loop. -/
def selectMin (plist : Fin n → ProcessType) (remBt : Fin n → ℤ) (t : ℤ) :
    ℤ × Option (Fin n) :=
  (List.finRange n).foldl (selectStep plist remBt t) (INT_MAX, none)

/-- The variables of `findWaitingTimeSJF` that live across iterations. -/
structure SjfState (n : ℕ) where
  plist : Fin n → ProcessType
  remBt : Fin n → ℤ
  complete : ℤ
  t : ℤ

/-- The body of the `while` loop. -/
def sjfBody (s : SjfState n) : SjfState n :=
  match (selectMin s.plist s.remBt s.t).2 with
  | none => { s with t := s.t + 1 }
  | some i =>
    let remBt := Function.update s.remBt i (s.remBt i - 1)
    let t := s.t + 1
    if remBt i = 0 then
      let p := s.plist i
      { plist := Function.update s.plist i { p with wt := t - p.bt - p.art }
        remBt := remBt
        complete := s.complete + 1
        t := t }
    else { s with remBt := remBt, t := t }

/-- The test `complete < n` of the `while` loop. -/
def sjfGuard (s : SjfState n) : Bool := decide (s.complete < (n : ℤ))

def sjfInit (plist : Fin n → ProcessType) : SjfState n where
  plist := plist
  remBt i := (plist i).bt
  complete := 0
  t := 0

/-- The process list after `findWaitingTimeSJF(plist, n)`, if its loop ends within `fuel`
iterations. -/
def findWaitingTimeSJF (fuel : ℕ) (plist : Fin n → ProcessType) :
    Option (Fin n → ProcessType) :=
  (whileLoop sjfGuard sjfBody fuel (sjfInit plist)).map SjfState.plist

/-! ### The selection loop -/

section Select

variable (plist : Fin n → ProcessType) (remBt : Fin n → ℤ) (t : ℤ)

/-- A process that the loop may pick. -/
def Ready (i : Fin n) : Prop := (plist i).art ≤ t ∧ 0 < remBt i ∧ remBt i < INT_MAX

/-- What the selection loop knows after the processes of `l`. -/
def Selected (l : List (Fin n)) (sel : ℤ × Option (Fin n)) : Prop :=
  match sel.2 with
  | none => sel.1 = INT_MAX ∧ ∀ j ∈ l, ¬ Ready plist remBt t j
  | some i => sel.1 = remBt i ∧ i ∈ l ∧ Ready plist remBt t i ∧
      ∀ j ∈ l, Ready plist remBt t j → remBt i ≤ remBt j

theorem selected_foldl (l : List (Fin n)) :
    Selected plist remBt t l (l.foldl (selectStep plist remBt t) (INT_MAX, none)) := by
  induction l using List.reverseRecOn with
  | nil => exact ⟨rfl, by simp⟩
  | append_singleton l j ih =>
    rw [List.foldl_append, List.foldl_cons, List.foldl_nil]
    generalize hsel : l.foldl (selectStep plist remBt t) (INT_MAX, none) = sel at ih
    obtain ⟨v, m⟩ := sel
    unfold selectStep
    cases m with
    | none =>
      obtain ⟨rfl, hnone⟩ := ih
      split
      · rename_i hj
        refine ⟨rfl, by simp, hj, fun k hk hready => ?_⟩
        rcases List.mem_append.mp hk with hk | hk
        · exact absurd hready (hnone k hk)
        · rw [List.mem_singleton.mp hk]
      · rename_i hj
        refine ⟨rfl, fun k hk => ?_⟩
        rcases List.mem_append.mp hk with hk | hk
        · exact hnone k hk
        · rw [List.mem_singleton.mp hk]
          exact hj
    | some i =>
      obtain ⟨rfl, hmem, hready, hleast⟩ := ih
      split
      · rename_i hj
        refine ⟨rfl, by simp, ⟨hj.1, hj.2.1, lt_trans hj.2.2 hready.2.2⟩, fun k hk hk' => ?_⟩
        rcases List.mem_append.mp hk with hk | hk
        · exact le_of_lt (lt_of_lt_of_le hj.2.2 (hleast k hk hk'))
        · rw [List.mem_singleton.mp hk]
      · rename_i hj
        refine ⟨rfl, by simp [hmem], hready, fun k hk hk' => ?_⟩
        rcases List.mem_append.mp hk with hk | hk
        · exact hleast k hk hk'
        · rw [List.mem_singleton.mp hk] at hk' ⊢
          by_contra hlt
          exact hj ⟨hk'.1, hk'.2.1, not_le.mp hlt⟩

/-- Of several processes with the least remaining time the loop keeps the first. -/
theorem selected_foldl_first {l : List (Fin n)} (hl : l.Pairwise (· < ·)) {i : Fin n}
    (h : (l.foldl (selectStep plist remBt t) (INT_MAX, none)).2 = some i) :
    ∀ j ∈ l, j < i → Ready plist remBt t j → remBt i < remBt j := by
  induction l using List.reverseRecOn with
  | nil => exact nofun
  | append_singleton l k ih =>
    obtain ⟨hbefore, -, hlast⟩ := List.pairwise_append.mp hl
    have hsel := selected_foldl plist remBt t l
    rw [List.foldl_append, List.foldl_cons, List.foldl_nil] at h
    generalize l.foldl (selectStep plist remBt t) (INT_MAX, none) = sel at ih hsel h
    obtain ⟨v, m⟩ := sel
    intro j hj hji hready
    have hjl : i ∈ l ∨ i = k → j ∈ l := by
      intro hi
      rcases List.mem_append.mp hj with hj | hj
      · exact hj
      · have hjk := List.mem_singleton.mp hj
        rcases hi with hi | hik
        · exact absurd (hlast i hi k (List.mem_singleton_self k)) (not_lt.mpr (hjk ▸ hji.le))
        · exact absurd hji (by rw [hjk, hik]; exact lt_irrefl k)
    unfold selectStep at h
    cases m with
    | none =>
      obtain ⟨-, hnone⟩ := hsel
      split at h
      · exact absurd hready (hnone j (hjl (Or.inr (Option.some.inj h).symm)))
      · cases h
    | some m =>
      obtain ⟨rfl, hmem, -, hleast⟩ := hsel
      split at h
      · rename_i hk
        obtain rfl := Option.some.inj h
        exact lt_of_lt_of_le hk.2.2 (hleast j (hjl (Or.inr rfl)) hready)
      · obtain rfl := Option.some.inj h
        exact ih hbefore rfl j (hjl (Or.inl hmem)) hji hready

/-- The loop picks no process only if none is ready. -/
theorem selectMin_none (h : (selectMin plist remBt t).2 = none) (j : Fin n) :
    ¬ Ready plist remBt t j := by
  have hsel := selected_foldl plist remBt t (List.finRange n)
  rw [← selectMin, Selected, h] at hsel
  exact hsel.2 j (List.mem_finRange j)

/-- The loop picks a ready process with the least remaining time. -/
theorem selectMin_some {i : Fin n} (h : (selectMin plist remBt t).2 = some i) :
    Ready plist remBt t i ∧ ∀ j, Ready plist remBt t j → remBt i ≤ remBt j := by
  have hsel := selected_foldl plist remBt t (List.finRange n)
  rw [← selectMin, Selected, h] at hsel
  exact ⟨hsel.2.2.1, fun j hj => hsel.2.2.2 j (List.mem_finRange j) hj⟩

theorem selectMin_first {i : Fin n} (h : (selectMin plist remBt t).2 = some i) (j : Fin n)
    (hj : j < i) (hready : Ready plist remBt t j) : remBt i < remBt j :=
  selected_foldl_first plist remBt t (List.pairwise_lt_finRange n) h j (List.mem_finRange j) hj
    hready

end Select

end OsLabs.SchedSim
