import OsLabs.SchedSim.IntClock

/-!
# Preemption under SRTF

`findWaitingTimeSJF` looks for the shortest process again in every tick, but it takes the
processor from an unfinished process only for one that arrives in that tick.
-/

namespace OsLabs.SchedSim

open OsLabs.Lib

variable {n : ℕ} {plist : Fin n → ProcessType}

/-- Iteration `k` of the loop runs a process that is unfinished after it and that iteration
`k + 1` does not run. -/
def SjfPreempts (plist : Fin n → ProcessType) (k : ℕ) : Prop :=
  ∃ i, sjfChoice (sjfAt plist k) = some i ∧ 0 < (sjfAt plist (k + 1)).remBt i ∧
    sjfChoice (sjfAt plist (k + 1)) ≠ some i

section Admissible

variable (hart : ∀ i, 0 ≤ (plist i).art) (hbt : ∀ i, 1 ≤ (plist i).bt ∧ (plist i).bt < INT_MAX)

include hbt

theorem sjfAt_remBt_pos_iff (k : ℕ) (i : Fin n) :
    0 < (sjfAt plist k).remBt i ↔ work (sjfSchedule plist) i k < burst plist i := by
  have := hbt i
  rw [sjfAt_remBt, burst]
  omega

theorem sjfPreempts_iff (k : ℕ) :
    SjfPreempts plist k ↔ Preempts (burst plist) (sjfSchedule plist) k := by
  refine exists_congr fun i => and_congr Iff.rfl (and_congr ?_ Iff.rfl)
  exact sjfAt_remBt_pos_iff hbt (k + 1) i

include hart

/-- The loop in `int` goes through the same states. -/
theorem sjfBodyInt_sjfAt (hlimit : clockLimit plist ≤ INT_MAX) {k : ℕ}
    (hguard : ∀ j ≤ k, sjfGuard (sjfAt plist j) = true) :
    sjfBodyInt INT_MAX (sjfAt plist k) = some (sjfAt plist (k + 1)) := by
  have hbt' : ∀ i, 1 ≤ (plist i).bt := fun i => (hbt i).1
  have hshort : ∀ i, (plist i).bt < INT_MAX := fun i => (hbt i).2
  have hclock : ∀ j ≤ k, SjfClock plist (sjfAt plist j) := by
    intro j hj
    induction j with
    | zero => exact sjfClock_init hbt'
    | succ j ih =>
      rw [sjfAt_succ]
      exact (ih (Nat.le_of_succ_le hj)).body hart hbt' hlimit le_rfl hshort
        (hguard j (Nat.le_of_succ_le hj))
  rw [sjfAt_succ]
  exact (hclock k le_rfl).bodyInt hart hbt' hlimit le_rfl hshort (hguard k le_rfl)

/-- **Preemption.**  With the latest arrival and all bursts in the range of `int` the loop goes
through the states `sjfAt`, and it takes the processor from an unfinished process `i` only for a
process that arrives in that tick and whose burst is at most what `i` still needs; over the
whole run this happens fewer times than there are processes. -/
theorem sjf_preempts_on_arrival (hlimit : clockLimit plist ≤ INT_MAX) :
    (∀ k, (∀ j ≤ k, sjfGuard (sjfAt plist j) = true) →
      sjfBodyInt INT_MAX (sjfAt plist k) = some (sjfAt plist (k + 1))) ∧
    (∀ k i, sjfChoice (sjfAt plist k) = some i → 0 < (sjfAt plist (k + 1)).remBt i →
      sjfChoice (sjfAt plist (k + 1)) ≠ some i →
        ∃ j, sjfChoice (sjfAt plist (k + 1)) = some j ∧ (plist j).art = k + 1 ∧
          (plist j).bt ≤ (sjfAt plist (k + 1)).remBt i) ∧
      {k | SjfPreempts plist k}.encard ≤ (n - 1 : ℕ) := by
  have hshort := sjfSchedule_shortestFirst hart hbt
  refine ⟨fun k hguard => sjfBodyInt_sjfAt hart hbt hlimit hguard, ?_, ?_⟩
  · intro k i hrun hleft hother
    obtain ⟨j, hj, harr, hburst⟩ :=
      hshort.arrival_of_preempted hrun ((sjfAt_remBt_pos_iff hbt (k + 1) i).mp hleft) hother
    have ha := hart j
    have hb := hbt j
    have hbi := hbt i
    refine ⟨j, hj, ?_, ?_⟩
    · unfold arrival at harr
      omega
    · rw [sjfAt_remBt]
      unfold burst at hburst
      omega
  · have hset : {k | SjfPreempts plist k} =
        {k | Preempts (burst plist) (sjfSchedule plist) k} :=
      Set.ext fun k => sjfPreempts_iff hbt k
    have hle := hshort.preempts_encard_le
    rwa [← hset, Fintype.card_fin] at hle

end Admissible

/-- Two processes of bursts 3 and 1 that arrive at times 0 and 1. -/
theorem sjf_preempts_on_arrival_twoProcesses :
    let plist : Fin 2 → ProcessType := ![⟨1, 3, 0, 0, 0, 0⟩, ⟨2, 1, 1, 0, 0, 0⟩]
    (∀ k, (∀ j ≤ k, sjfGuard (sjfAt plist j) = true) →
      sjfBodyInt INT_MAX (sjfAt plist k) = some (sjfAt plist (k + 1))) ∧
    (∀ k i, sjfChoice (sjfAt plist k) = some i → 0 < (sjfAt plist (k + 1)).remBt i →
      sjfChoice (sjfAt plist (k + 1)) ≠ some i →
        ∃ j, sjfChoice (sjfAt plist (k + 1)) = some j ∧ (plist j).art = k + 1 ∧
          (plist j).bt ≤ (sjfAt plist (k + 1)).remBt i) ∧
      {k | SjfPreempts plist k}.encard ≤ (2 - 1 : ℕ) :=
  sjf_preempts_on_arrival (by decide) (by decide) (by decide)

end OsLabs.SchedSim
