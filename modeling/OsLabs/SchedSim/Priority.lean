import OsLabs.Lib.MachineInt
import OsLabs.SchedSim.FcfsOrder

/-!
# Priority scheduling

`findavgTimePriority` sorts the processes by priority once and then runs them in this order.  A
process that starts is therefore never behind an unstarted one of larger priority, but the
processor waits for a process of large priority that has not arrived, whoever else is there.  It
is never idle in vain exactly if it is busy until such a process arrives.
-/

namespace OsLabs.SchedSim

open OsLabs.Lib

variable {n : ℕ}

def myComparer (a b : ProcessType) : ℤ :=
  if a.pri ≠ b.pri then wrapInt (b.pri - a.pri) else wrapInt (a.art - b.art)

/-- What `qsort` leaves: some permutation of the array that is sorted for the comparator. -/
def QsortSpec (comparer : ProcessType → ProcessType → ℤ) (plist sorted : Fin n → ProcessType) :
    Prop :=
  (∃ σ : Equiv.Perm (Fin n), sorted = plist ∘ σ) ∧
    ∀ i j, i < j → comparer (sorted i) (sorted j) ≤ 0

/-- `findavgTimePriority`, without what it prints. -/
def findavgTimePriority (qsort : (Fin n → ProcessType) → Fin n → ProcessType)
    (plist : Fin n → ProcessType) : Fin n → ProcessType :=
  findTurnAroundTime (findWaitingTime (qsort plist))

/-- What a reported schedule has to do at every decision. -/
structure DispatchesBest (out : Fin n → ProcessType) : Prop where
  /-- Nobody who is there and has not started has a larger priority than the one that starts. -/
  best : ∀ i j, j ≠ i → (out j).art ≤ reportedStart (out i) →
    reportedStart (out i) ≤ reportedStart (out j) → (out j).pri ≤ (out i).pri
  /-- Some process runs at each time at which one that has arrived has not started. -/
  busy : ∀ t j, (out j).art ≤ t → t < reportedStart (out j) →
    ∃ i, reportedStart (out i) ≤ t ∧ t < reportedStart (out i) + (out i).bt

/-- If a process arrives later than one behind it in the list, some of those before it keep the
processor busy until it arrives. -/
def BusyUntilArrival (plist : Fin n → ProcessType) : Prop :=
  ∀ k j, k < j → (plist j).art < (plist k).art →
    ∃ m < k, (plist k).art ≤ (plist m).art + ∑ l ∈ Finset.Ico m k, (plist l).bt

/-! ### The clock in closed form -/

variable (plist : Fin n → ProcessType)

/-- The end of the processes from `m` up to number `k`, if they run from the arrival of `m` on. -/
def endFrom (m : Fin n) (k : ℕ) : ℤ :=
  (plist m).art + ∑ l with m ≤ l ∧ (l : ℕ) < k, (plist l).bt

theorem endFrom_self (m : Fin n) : endFrom plist m m = (plist m).art := by
  have hnone : (Finset.univ.filter fun l : Fin n => m ≤ l ∧ (l : ℕ) < m) = ∅ := by
    refine Finset.filter_eq_empty_iff.mpr fun l _ hl => ?_
    exact absurd hl.1 (not_le.mpr hl.2)
  rw [endFrom, hnone, Finset.sum_empty, add_zero]

theorem endFrom_succ {m i : Fin n} (hmi : m ≤ i) :
    endFrom plist m (i + 1) = endFrom plist m i + (plist i).bt := by
  have hset : (Finset.univ.filter fun l : Fin n => m ≤ l ∧ (l : ℕ) < i + 1) =
      insert i (Finset.univ.filter fun l : Fin n => m ≤ l ∧ (l : ℕ) < i) := by
    ext l
    simp only [Finset.mem_filter, Finset.mem_univ, true_and, Finset.mem_insert, Fin.ext_iff,
      Fin.le_def] at hmi ⊢
    omega
  have hnot : i ∉ Finset.univ.filter fun l : Fin n => m ≤ l ∧ (l : ℕ) < i := by simp
  rw [endFrom, endFrom, hset, Finset.sum_insert hnot]
  ring

theorem endFrom_eq (m k : Fin n) :
    endFrom plist m k = (plist m).art + ∑ l ∈ Finset.Ico m k, (plist l).bt := by
  have hset : (Finset.univ.filter fun l : Fin n => m ≤ l ∧ (l : ℕ) < k) = Finset.Ico m k := by
    ext l
    simp only [Finset.mem_filter, Finset.mem_univ, true_and, Finset.mem_Ico, Fin.lt_def]
  rw [endFrom, hset]

section Admissible

variable {plist} (hart : ∀ i, 0 ≤ (plist i).art) (hbt : ∀ i, 1 ≤ (plist i).bt)

include hart hbt

/-- The clock is the latest end of those before. -/
theorem le_fcfsClock_iff {k : ℕ} (hk : k ≤ n) (x : ℤ) :
    x ≤ fcfsClock plist k ↔ x ≤ 0 ∨ ∃ m : Fin n, (m : ℕ) < k ∧ x ≤ endFrom plist m k := by
  induction k generalizing x with
  | zero =>
    rw [fcfsClock_zero]
    refine ⟨Or.inl, fun h => ?_⟩
    rcases h with h | ⟨m, hm, -⟩
    · exact h
    · exact absurd hm (Nat.not_lt_zero _)
  | succ k ih =>
    have hclock := fcfsClock_succ plist ⟨k, hk⟩
    have hself := endFrom_self plist ⟨k, hk⟩
    have hlast := endFrom_succ plist (le_refl (⟨k, hk⟩ : Fin n))
    have hpos := hart ⟨k, hk⟩
    have hburst := hbt ⟨k, hk⟩
    have hstep : x ≤ fcfsClock plist (k + 1) ↔
        x - (plist ⟨k, hk⟩).bt ≤ fcfsClock plist k ∨
          x - (plist ⟨k, hk⟩).bt ≤ (plist ⟨k, hk⟩).art := by
      rw [← le_max_iff]
      show x ≤ fcfsClock plist (k + 1) ↔ x - (plist ⟨k, hk⟩).bt ≤ fcfsStart plist ⟨k, hk⟩
      rw [hclock, sub_le_iff_le_add]
    rw [hself] at hlast
    rw [hstep, ih (Nat.le_of_succ_le hk)]
    constructor
    · rintro ((hzero | ⟨m, hm, hle⟩) | hself)
      · exact Or.inr ⟨⟨k, hk⟩, Nat.lt_succ_self k, by rw [hlast]; omega⟩
      · have hsucc : endFrom plist m (k + 1) = endFrom plist m k + (plist ⟨k, hk⟩).bt :=
          endFrom_succ plist (show m ≤ ⟨k, hk⟩ from hm.le)
        refine Or.inr ⟨m, hm.trans (Nat.lt_succ_self k), ?_⟩
        rw [hsucc]
        omega
      · exact Or.inr ⟨⟨k, hk⟩, Nat.lt_succ_self k, by rw [hlast]; omega⟩
    · rintro (hzero | ⟨m, hm, hle⟩)
      · exact Or.inl (Or.inl (by omega))
      · rcases Nat.lt_succ_iff_lt_or_eq.mp hm with hlt | heq
        · have hsucc : endFrom plist m (k + 1) = endFrom plist m k + (plist ⟨k, hk⟩).bt :=
            endFrom_succ plist (show m ≤ ⟨k, hk⟩ from hlt.le)
          refine Or.inl (Or.inr ⟨m, hlt, ?_⟩)
          rw [hsucc] at hle
          omega
        · obtain rfl : m = ⟨k, hk⟩ := Fin.ext heq
          rw [hlast] at hle
          exact Or.inr (by omega)

theorem busyUntilArrival_iff :
    BusyUntilArrival plist ↔
      ∀ k j, k < j → (plist j).art < (plist k).art → (plist k).art ≤ fcfsClock plist k := by
  refine forall_congr' fun k => forall_congr' fun j => imp_congr_right fun _ =>
    imp_congr_right fun hlate => ?_
  have hpos : ¬ (plist k).art ≤ 0 := not_le.mpr ((hart j).trans_lt hlate)
  rw [le_fcfsClock_iff hart hbt k.isLt.le, or_iff_right hpos]
  simp only [endFrom_eq, Fin.lt_def]

/-- The processor is never idle in vain exactly if nobody has to be waited for. -/
theorem fcfs_busy_iff :
    (∀ t j, (plist j).art ≤ t → t < fcfsStart plist j →
        ∃ i, fcfsStart plist i ≤ t ∧ t < fcfsStart plist i + (plist i).bt) ↔
      ∀ k j, k < j → (plist j).art < (plist k).art → (plist k).art ≤ fcfsClock plist k := by
  constructor
  · intro hbusy k j hkj hlate
    by_contra hwaits
    -- just before `k` arrives only a process before `k` could run, and these have ended
    have hstart : (plist k).art ≤ fcfsStart plist k := le_max_right _ _
    have hlater := fcfsStart_strictMono hbt hkj
    obtain ⟨i, hbegun, hruns⟩ := hbusy ((plist k).art - 1) j (by omega) (by omega)
    have hik : i < k := by
      refine (fcfsStart_strictMono hbt).lt_iff_lt.mp ?_
      omega
    have hend := fcfsClock_mono hbt (show (i : ℕ) + 1 ≤ k from hik)
    rw [fcfsClock_succ] at hend
    omega
  · intro hwaits t j harrived hlater
    -- the first process that starts after `t`
    obtain ⟨k, hafter, hfirst⟩ : ∃ k, t < fcfsStart plist k ∧
        ∀ i, i < k → fcfsStart plist i ≤ t := by
      have hex : ∃ k, ∃ hk : k < n, t < fcfsStart plist ⟨k, hk⟩ := ⟨j, j.isLt, hlater⟩
      obtain ⟨hk, hafter⟩ := Nat.find_spec hex
      refine ⟨⟨Nat.find hex, hk⟩, hafter, fun i hi => ?_⟩
      by_contra hnot
      exact Nat.find_min hex hi ⟨i.isLt, not_le.mp hnot⟩
    have hkj : k ≤ j := by
      by_contra hjk
      exact absurd (hfirst j (not_le.mp hjk)) (not_le.mpr hlater)
    have hpos := hart j
    -- the clock before `k` has not passed `t`, so `k` would have to be waited for
    have hidle : ¬ fcfsClock plist k ≤ t := by
      intro hclock
      have hart' : t < (plist k).art := by
        rcases lt_max_iff.mp hafter with hlt | hlt
        · omega
        · exact hlt
      have hne : k ≠ j := by
        rintro rfl
        omega
      have hbefore := hwaits k j (lt_of_le_of_ne hkj hne) (by omega)
      omega
    have hk : (k : ℕ) ≠ 0 := by
      intro hzero
      rw [hzero, fcfsClock_zero] at hidle
      omega
    obtain ⟨i, hi⟩ : ∃ i : Fin n, (i : ℕ) + 1 = k :=
      ⟨⟨k - 1, by omega⟩, Nat.sub_add_cancel (Nat.pos_of_ne_zero hk)⟩
    refine ⟨i, hfirst i (by rw [Fin.lt_def]; omega), ?_⟩
    rw [← fcfsClock_succ, hi]
    exact not_le.mp hidle

end Admissible

/-! ### The order of `my_comparer` -/

theorem pri_le_of_myComparer {a b : ProcessType} (hpri : InInt (b.pri - a.pri))
    (h : myComparer a b ≤ 0) : b.pri ≤ a.pri := by
  unfold myComparer at h
  split at h
  · rw [wrapInt_of_inInt hpri] at h
    omega
  · rename_i heq
    exact (not_not.mp heq).ge

/-- Over the integers the reported schedule dispatches the best process that has arrived, and
without idling, if and only if no process of the sorted list has to be waited for while one
behind it is there, whatever permutation `qsort` chooses among those that the comparator
allows. -/
theorem findavgTimePriority_dispatchesBest_iff
    (qsort : (Fin n → ProcessType) → Fin n → ProcessType) (plist : Fin n → ProcessType)
    (hqsort : QsortSpec myComparer plist (qsort plist))
    (hart : ∀ i, 0 ≤ (plist i).art) (hbt : ∀ i, 1 ≤ (plist i).bt)
    (hpri : ∀ i j, InInt ((plist j).pri - (plist i).pri)) :
    DispatchesBest (findavgTimePriority qsort plist) ↔ BusyUntilArrival (qsort plist) := by
  obtain ⟨⟨σ, hσ⟩, hsorted⟩ := hqsort
  have hart' : ∀ i, 0 ≤ (qsort plist i).art := by
    intro i
    rw [hσ]
    exact hart (σ i)
  have hbt' : ∀ i, 1 ≤ (qsort plist i).bt := by
    intro i
    rw [hσ]
    exact hbt (σ i)
  have hpri' : ∀ i j, i < j → (qsort plist j).pri ≤ (qsort plist i).pri := by
    intro i j hij
    refine pri_le_of_myComparer ?_ (hsorted i j hij)
    rw [hσ]
    exact hpri (σ i) (σ j)
  have hstart : ∀ i, reportedStart (findavgTimePriority qsort plist i) =
      fcfsStart (qsort plist) i := reportedStart_findavgTimeFCFS (qsort plist)
  have hkeep : ∀ i, (findavgTimePriority qsort plist i).art = (qsort plist i).art ∧
      (findavgTimePriority qsort plist i).bt = (qsort plist i).bt ∧
      (findavgTimePriority qsort plist i).pri = (qsort plist i).pri := by
    intro i
    rw [findavgTimePriority, findTurnAroundTime, findWaitingTime_apply]
    exact ⟨rfl, rfl, rfl⟩
  rw [busyUntilArrival_iff hart' hbt', ← fcfs_busy_iff hart' hbt']
  constructor
  · intro hdispatch t j
    have hbusy := hdispatch.busy t j
    simp only [hstart, (hkeep _).1, (hkeep _).2.1] at hbusy
    exact hbusy
  · intro hbusy
    constructor
    · intro i j hji _ hlater
      rw [hstart, hstart, (fcfsStart_strictMono hbt').le_iff_le] at hlater
      rw [(hkeep i).2.2, (hkeep j).2.2]
      exact hpri' i j (lt_of_le_of_ne hlater hji.symm)
    · intro t j
      simp only [hstart, (hkeep _).1, (hkeep _).2.1]
      exact hbusy t j

/-- A sort by insertion, for the samples. -/
def insertionSorted (plist : Fin n → ProcessType) : Fin n → ProcessType := fun i =>
  ((List.ofFn plist).insertionSort fun a b => myComparer a b ≤ 0).get
    (i.cast (by rw [List.length_insertionSort, List.length_ofFn]))

/-- The second process in priority arrives while the first one runs. -/
def busyPriorities : Fin 3 → ProcessType :=
  ![⟨1, 2, 2, 0, 0, 5⟩, ⟨2, 4, 0, 0, 0, 9⟩, ⟨3, 3, 0, 0, 0, 1⟩]

/-- The process of larger priority arrives at time 3. -/
def latePriority : Fin 2 → ProcessType := ![⟨1, 2, 0, 0, 0, 1⟩, ⟨2, 1, 3, 0, 0, 5⟩]

end OsLabs.SchedSim
