import OsLabs.Lib.ForLoop
import OsLabs.SchedSim.Fcfs

/-!
# The order in which `findWaitingTime` serves

The processes start one after the other, in the order of the list.  So the order of service is
that of the arrivals exactly if the list is, and nothing in `findavgTimeFCFS` sorts it.
-/

namespace OsLabs.SchedSim

open OsLabs.Lib

variable {n : ℕ}

/-- The `for` loop of `findTurnAroundTime`. -/
def findTurnAroundTime (plist : Fin n → ProcessType) : Fin n → ProcessType := fun i =>
  { plist i with tat := (plist i).bt + (plist i).wt }

/-- `findavgTimeFCFS`, without what it prints. -/
def findavgTimeFCFS (plist : Fin n → ProcessType) : Fin n → ProcessType :=
  findTurnAroundTime (findWaitingTime plist)

/-- The time at which a process starts, as its fields report it. -/
def reportedStart (p : ProcessType) : ℤ := p.art + p.wt

/-! ### The loop, process by process -/

theorem fcfsStep_t (s : FcfsState n) (i : Fin n) :
    (fcfsStep s i).t = max s.t (s.plist i).art + (s.plist i).bt := by
  rw [max_def_lt]
  rfl

theorem fcfsStep_plist_self (s : FcfsState n) (i : Fin n) :
    (fcfsStep s i).plist i =
      { s.plist i with wt := max s.t (s.plist i).art - (s.plist i).art } := by
  rw [max_def_lt]
  exact Function.update_self i _ s.plist

theorem fcfsStep_plist_of_ne (s : FcfsState n) {i j : Fin n} (hj : j ≠ i) :
    (fcfsStep s i).plist j = s.plist j :=
  Function.update_of_ne hj _ s.plist

variable (plist : Fin n → ProcessType)

/-- The variables of `findWaitingTime` after `k` iterations. -/
def fcfsAt (k : ℕ) : FcfsState n := loopAt fcfsStep k ⟨plist, 0⟩

/-- The clock before process number `k`. -/
def fcfsClock (k : ℕ) : ℤ := (fcfsAt plist k).t

/-- The time at which a process starts. -/
def fcfsStart (i : Fin n) : ℤ := max (fcfsClock plist i) (plist i).art

theorem fcfsAt_succ (i : Fin n) : fcfsAt plist (i + 1) = fcfsStep (fcfsAt plist i) i :=
  loopAt_succ fcfsStep i _

/-- The loop sets the `wt` of the processes that it has passed, and no other field. -/
theorem fcfsAt_plist {k : ℕ} (hk : k ≤ n) (j : Fin n) :
    (fcfsAt plist k).plist j =
      if (j : ℕ) < k then { plist j with wt := fcfsStart plist j - (plist j).art }
      else plist j := by
  induction k with
  | zero => rfl
  | succ k ih =>
    have hkeep := ih (Nat.le_of_succ_le hk)
    have hsucc : fcfsAt plist (k + 1) = fcfsStep (fcfsAt plist k) ⟨k, hk⟩ :=
      fcfsAt_succ plist ⟨k, hk⟩
    rw [hsucc]
    by_cases hj : j = ⟨k, hk⟩
    · subst hj
      rw [if_neg (lt_irrefl k)] at hkeep
      rw [fcfsStep_plist_self, hkeep, if_pos (Nat.lt_succ_self k)]
      rfl
    · have hne : (j : ℕ) ≠ k := fun heq => hj (Fin.ext heq)
      have hiff : (j : ℕ) < k + 1 ↔ (j : ℕ) < k := by omega
      rw [fcfsStep_plist_of_ne _ hj, hkeep]
      simp only [hiff]

/-- **FCFS, process by process.**  The loop sets each `wt` to the time from the arrival of the
process to its start, and leaves the other fields. -/
theorem findWaitingTime_apply (j : Fin n) :
    findWaitingTime plist j = { plist j with wt := fcfsStart plist j - (plist j).art } := by
  have hend : findWaitingTime plist j = (fcfsAt plist n).plist j := by
    rw [fcfsAt, loopAt_of_le fcfsStep le_rfl]
    rfl
  rw [hend, fcfsAt_plist plist le_rfl, if_pos j.isLt]

theorem reportedStart_findavgTimeFCFS (i : Fin n) :
    reportedStart (findavgTimeFCFS plist i) = fcfsStart plist i := by
  rw [findavgTimeFCFS, findTurnAroundTime, findWaitingTime_apply, reportedStart]
  exact add_sub_cancel _ _

/-! ### Starts -/

theorem fcfsClock_zero : fcfsClock plist 0 = 0 := rfl

theorem fcfsClock_succ (i : Fin n) :
    fcfsClock plist (i + 1) = fcfsStart plist i + (plist i).bt := by
  have hself : (fcfsAt plist i).plist i = plist i := by
    rw [fcfsAt_plist plist i.isLt.le, if_neg (lt_irrefl _)]
  rw [fcfsClock, fcfsAt_succ, fcfsStep_t, hself]
  rfl

section Bursts

variable {plist} (hbt : ∀ i, 1 ≤ (plist i).bt)

include hbt

theorem fcfsClock_mono : Monotone (fcfsClock plist) := by
  refine monotone_nat_of_le_succ fun k => ?_
  by_cases hk : k < n
  · have hsucc := fcfsClock_succ plist ⟨k, hk⟩
    have hstart : fcfsClock plist k ≤ fcfsStart plist ⟨k, hk⟩ := le_max_left _ _
    have hpos := hbt ⟨k, hk⟩
    rw [hsucc]
    omega
  · rw [fcfsClock, fcfsClock, fcfsAt, fcfsAt, loopAt_of_le fcfsStep (not_lt.mp hk),
      loopAt_of_le fcfsStep (by omega)]

/-- A process starts when all those before it in the list have run. -/
theorem fcfsStart_add_bt_le {i j : Fin n} (hij : i < j) :
    fcfsStart plist i + (plist i).bt ≤ fcfsStart plist j := by
  rw [← fcfsClock_succ]
  exact (fcfsClock_mono hbt hij).trans (le_max_left _ _)

theorem fcfsStart_strictMono : StrictMono (fcfsStart plist) := by
  intro i j hij
  have hle := fcfsStart_add_bt_le hbt hij
  have hpos := hbt i
  omega

end Bursts

/-! ### Arrivals -/

/-- No process starts before one that arrived earlier. -/
def ServesInArrivalOrder (out : Fin n → ProcessType) : Prop :=
  ∀ i j, (out i).art < (out j).art → reportedStart (out i) ≤ reportedStart (out j)

/-- Over the integers the order of service is that of the arrivals if and only if the list is
already in this order. -/
theorem findavgTimeFCFS_inArrivalOrder_iff (plist : Fin n → ProcessType)
    (hbt : ∀ i, 1 ≤ (plist i).bt) :
    ServesInArrivalOrder (findavgTimeFCFS plist) ↔
      ∀ i j, i < j → (plist i).art ≤ (plist j).art := by
  have hart : ∀ i, (findavgTimeFCFS plist i).art = (plist i).art := by
    intro i
    rw [findavgTimeFCFS, findTurnAroundTime, findWaitingTime_apply]
  simp only [ServesInArrivalOrder, reportedStart_findavgTimeFCFS, hart]
  constructor
  · intro hserves i j hij
    by_contra hlate
    have hstart := hserves j i (not_le.mp hlate)
    exact absurd (fcfsStart_strictMono hbt hij) (not_lt.mpr hstart)
  · intro hsorted i j harrives
    apply (fcfsStart_strictMono hbt).monotone
    by_contra hji
    exact absurd (hsorted j i (not_le.mp hji)) (not_le.mpr harrives)

end OsLabs.SchedSim
