import OsLabs.SchedSim.Fcfs
import OsLabs.SchedSim.RoundRobin
import OsLabs.SchedSim.SrtfOptimal

/-!
# The schedules behind the waiting times

Each of `findWaitingTime`, `findWaitingTimeSJF` and `findWaitingTimeRR` ends and reports the
waiting times of a single-CPU schedule.  The last two never leave the processor idle while a
process is pending, so their last completions agree.
-/

namespace OsLabs.SchedSim

open OsLabs.Lib

variable {n : ℕ}

/-- The completion time that the fields of a process report. -/
def reportedCompletion (p : ProcessType) : ℤ := p.art + p.wt + p.bt

/-- The processes of `out` are those of `plist`, with the waiting times of a schedule. -/
structure ReportsSchedule (plist out : Fin n → ProcessType) : Prop where
  input : ∀ i, (out i).art = (plist i).art ∧ (out i).bt = (plist i).bt
  schedule : ∃ σ, IsSchedule (arrival plist) (burst plist) σ ∧
    ∀ i, (completion σ i : ℤ) = reportedCompletion (out i)
  wt_nonneg : ∀ i, 0 ≤ (out i).wt

variable {plist out : Fin n → ProcessType} {σ : Schedule (Fin n)}

section Admissible

variable (hart : ∀ i, 0 ≤ (plist i).art)
  (hbt : ∀ i, 1 ≤ (plist i).bt ∧ (plist i).bt < INT_MAX)

include hbt

theorem reportsSchedule_of_completion (hσ : IsSchedule (arrival plist) (burst plist) σ)
    (h : ∀ i, (out i).art = (plist i).art ∧ (out i).bt = (plist i).bt ∧
      (completion σ i : ℤ) = (plist i).art + (out i).wt + (plist i).bt) :
    ReportsSchedule plist out where
  input i := ⟨(h i).1, (h i).2.1⟩
  schedule := by
    refine ⟨σ, hσ, fun i => ?_⟩
    obtain ⟨hart, hbt, hcompletion⟩ := h i
    rw [hcompletion, reportedCompletion, hart, hbt]
  wt_nonneg i := by
    have hroom := hσ.arrival_add_burst_le (burst_pos hbt i)
    have hcompletion := (h i).2.2
    have harrival : (plist i).art ≤ arrival plist i := Int.self_le_toNat _
    have hburst : (plist i).bt ≤ burst plist i := Int.self_le_toNat _
    omega

include hart

theorem findWaitingTimeSJF_schedule {fuel : ℕ} (h : findWaitingTimeSJF fuel plist = some out) :
    ∃ σ, WorkConserving (arrival plist) (burst plist) σ ∧
      ∀ i, (out i).art = (plist i).art ∧ (out i).bt = (plist i).bt ∧
        (completion σ i : ℤ) = (plist i).art + (out i).wt + (plist i).bt := by
  refine ⟨sjfSchedule plist, (sjfSchedule_shortestFirst hart hbt).toWorkConserving, fun i => ?_⟩
  have hwt := findWaitingTimeSJF_wt hart hbt h i
  rw [findWaitingTimeSJF, Option.map_eq_some_iff] at h
  obtain ⟨s, hloop, rfl⟩ := h
  obtain ⟨k, -, rfl, -, -⟩ := whileLoop_eq_some_iff.mp hloop
  have hinput : ((sjfAt plist k).plist i).art = (plist i).art ∧
      ((sjfAt plist k).plist i).bt = (plist i).bt := sjfAt_input plist k i
  refine ⟨hinput.1, hinput.2, ?_⟩
  rw [hwt, waitingTime]
  omega

end Admissible

/-- **All schedulers report a schedule.**  Each of the three functions ends, and the waiting
times that it sets are those of a single-CPU schedule of the processes. -/
theorem schedulers_report_schedules (plist : Fin n → ProcessType) (quantum : ℤ)
    (hart : ∀ i, 0 ≤ (plist i).art) (hbt : ∀ i, 1 ≤ (plist i).bt ∧ (plist i).bt < INT_MAX)
    (hq : 1 ≤ quantum) :
    ReportsSchedule plist (findWaitingTime plist) ∧
      ((∃ fuel out, findWaitingTimeSJF fuel plist = some out) ∧
        ∀ fuel out, findWaitingTimeSJF fuel plist = some out → ReportsSchedule plist out) ∧
      (∃ fuel out, findWaitingTimeRR fuel quantum plist = some out) ∧
        ∀ fuel out, findWaitingTimeRR fuel quantum plist = some out →
          ReportsSchedule plist out := by
  have hbt' : ∀ i, 1 ≤ (plist i).bt := fun i => (hbt i).1
  refine ⟨?_, ⟨findWaitingTimeSJF_returns hart hbt, fun fuel out hout => ?_⟩,
    findWaitingTimeRR_returns hq, fun fuel out hout => ?_⟩
  · obtain ⟨σ, hσ, h⟩ := findWaitingTime_schedule hart hbt'
    exact reportsSchedule_of_completion hbt hσ h
  · obtain ⟨σ, hσ, h⟩ := findWaitingTimeSJF_schedule hart hbt hout
    exact reportsSchedule_of_completion hbt hσ.isSchedule h
  · obtain ⟨σ, hσ, h⟩ := findWaitingTimeRR_schedule hart hbt' hq hout
    exact reportsSchedule_of_completion hbt hσ.isSchedule h

/-- Three processes, the last of which arrives after a gap. -/
def threeProcesses : Fin 3 → ProcessType :=
  ![⟨1, 3, 0, 0, 0, 0⟩, ⟨2, 1, 1, 0, 0, 0⟩, ⟨3, 2, 9, 0, 0, 0⟩]

theorem schedulers_report_schedules_three :
    ReportsSchedule threeProcesses (findWaitingTime threeProcesses) ∧
      ((∃ fuel out, findWaitingTimeSJF fuel threeProcesses = some out) ∧
        ∀ fuel out, findWaitingTimeSJF fuel threeProcesses = some out →
          ReportsSchedule threeProcesses out) ∧
      (∃ fuel out, findWaitingTimeRR fuel 2 threeProcesses = some out) ∧
        ∀ fuel out, findWaitingTimeRR fuel 2 threeProcesses = some out →
          ReportsSchedule threeProcesses out :=
  schedulers_report_schedules threeProcesses 2 (by decide) (by decide) (by decide)

/-! ### The makespan -/

/-- The latest reported completion time. -/
def makespan (out : Fin (n + 1) → ProcessType) : ℤ :=
  Finset.univ.sup' Finset.univ_nonempty fun i => reportedCompletion (out i)

theorem makespan_eq {out plist : Fin (n + 1) → ProcessType} {σ : Schedule (Fin (n + 1))}
    (h : ∀ i, (out i).art = (plist i).art ∧ (out i).bt = (plist i).bt ∧
      (completion σ i : ℤ) = (plist i).art + (out i).wt + (plist i).bt) :
    makespan out = (Finset.univ.sup' Finset.univ_nonempty (completion σ) : ℕ) := by
  have hreported : (fun i => reportedCompletion (out i)) = fun i => (completion σ i : ℤ) := by
    funext i
    obtain ⟨hart, hbt, hcompletion⟩ := h i
    rw [hcompletion, reportedCompletion, hart, hbt]
  rw [makespan, hreported]
  exact (Finset.apply_sup'_eq_sup'_comp Finset.univ_nonempty Nat.cast
    fun a b => Nat.cast_max a b).symm

/-- Over the integers SRTF and round robin have the same makespan, whatever the quantum. -/
theorem makespan_srtf_eq_rr (plist : Fin (n + 1) → ProcessType) (quantum : ℤ)
    (hart : ∀ i, 0 ≤ (plist i).art) (hbt : ∀ i, 1 ≤ (plist i).bt ∧ (plist i).bt < INT_MAX)
    (hq : 1 ≤ quantum) :
    (∃ fuel srtf, findWaitingTimeSJF fuel plist = some srtf) ∧
      (∃ fuel rr, findWaitingTimeRR fuel quantum plist = some rr) ∧
      ∀ fuel srtf fuel' rr, findWaitingTimeSJF fuel plist = some srtf →
        findWaitingTimeRR fuel' quantum plist = some rr → makespan srtf = makespan rr := by
  have hbt' : ∀ i, 1 ≤ (plist i).bt := fun i => (hbt i).1
  refine ⟨findWaitingTimeSJF_returns hart hbt, findWaitingTimeRR_returns hq, ?_⟩
  intro fuel srtf fuel' rr hsrtf hrr
  obtain ⟨σ, hσ, hcompletionσ⟩ := findWaitingTimeSJF_schedule hart hbt hsrtf
  obtain ⟨τ, hτ, hcompletionτ⟩ := findWaitingTimeRR_schedule hart hbt' hq hrr
  rw [makespan_eq hcompletionσ, makespan_eq hcompletionτ,
    hσ.sup'_completion_eq hτ (burst_pos hbt)]

end OsLabs.SchedSim
