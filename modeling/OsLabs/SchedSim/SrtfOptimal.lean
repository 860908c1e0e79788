import OsLabs.SchedSim.Srtf

/-!
# SRTF minimises the total waiting time

The choices of `findWaitingTimeSJF`, one for each iteration of its loop, form a schedule
that always runs a pending process with the least remaining time.  The loop ends when that
schedule has finished every process, and the `wt` fields it leaves are the waiting times of
the schedule, so the optimality of shortest remaining work first carries over to them.
-/

namespace OsLabs.SchedSim

open OsLabs.Lib

variable {n : ℕ}

/-! ### One iteration -/

/-- The process that the next iteration runs. -/
def sjfChoice (s : SjfState n) : Option (Fin n) := (selectMin s.plist s.remBt s.t).2

theorem sjfBody_t (s : SjfState n) : (sjfBody s).t = s.t + 1 := by
  unfold sjfBody
  split
  · rfl
  · dsimp only
    split <;> rfl

theorem sjfBody_remBt (s : SjfState n) (i : Fin n) :
    (sjfBody s).remBt i = s.remBt i - if sjfChoice s = some i then 1 else 0 := by
  have hupdate : ∀ m, Function.update s.remBt m (s.remBt m - 1) i =
      s.remBt i - if some m = some i then 1 else 0 := by
    intro m
    by_cases hm : m = i
    · subst hm
      simp
    · simp [Function.update_of_ne (Ne.symm hm), hm]
  unfold sjfBody sjfChoice
  split
  · rename_i hnone
    simp [hnone]
  · rename_i m hm
    rw [hm]
    dsimp only
    split <;> exact hupdate m

/-- An iteration changes no input field of a process. -/
theorem sjfBody_input (s : SjfState n) (i : Fin n) :
    ((sjfBody s).plist i).art = (s.plist i).art ∧ ((sjfBody s).plist i).bt = (s.plist i).bt := by
  unfold sjfBody
  split
  · exact ⟨rfl, rfl⟩
  · rename_i m hm
    dsimp only
    split
    · by_cases hi : i = m
      · subst hi
        simp
      · simp [Function.update_of_ne hi]
    · exact ⟨rfl, rfl⟩

/-- An iteration sets the `wt` of the process it finishes and no other. -/
theorem sjfBody_wt (s : SjfState n) (i : Fin n) :
    ((sjfBody s).plist i).wt =
      if sjfChoice s = some i ∧ s.remBt i = 1 then
        s.t + 1 - (s.plist i).bt - (s.plist i).art
      else (s.plist i).wt := by
  unfold sjfBody sjfChoice
  split
  · rename_i hnone
    simp [hnone]
  · rename_i m hm
    rw [hm]
    dsimp only
    rw [Function.update_self]
    by_cases hi : i = m
    · subst hi
      by_cases hone : s.remBt i = 1
      · have hzero : s.remBt i - 1 = 0 := by omega
        rw [if_pos hzero, if_pos ⟨rfl, hone⟩]
        show (Function.update s.plist i _ i).wt = _
        rw [Function.update_self]
      · have hzero : ¬ s.remBt i - 1 = 0 := by omega
        rw [if_neg hzero, if_neg fun h : _ ∧ _ => hone h.2]
    · rw [if_neg fun h : some m = some i ∧ s.remBt i = 1 => hi (Option.some.inj h.1).symm]
      split
      · show (Function.update s.plist m _ i).wt = _
        rw [Function.update_of_ne hi]
      · rfl

/-- An iteration counts the process it finishes. -/
theorem sjfBody_complete (s : SjfState n) :
    (sjfBody s).complete =
      s.complete + if ∃ i, sjfChoice s = some i ∧ s.remBt i = 1 then 1 else 0 := by
  unfold sjfBody sjfChoice
  split
  · rename_i hnone
    simp [hnone]
  · rename_i m hm
    rw [hm]
    dsimp only
    rw [Function.update_self]
    have hiff : (∃ i, some m = some i ∧ s.remBt i = 1) ↔ s.remBt m - 1 = 0 := by
      constructor
      · rintro ⟨i, hi, hone⟩
        obtain rfl := Option.some.inj hi
        omega
      · intro hzero
        exact ⟨m, rfl, by omega⟩
    by_cases hzero : s.remBt m - 1 = 0
    · rw [if_pos hzero, if_pos (hiff.mpr hzero)]
    · rw [if_neg hzero, if_neg (fun h => hzero (hiff.mp h)), add_zero]

/-! ### The run of the loop -/

variable (plist : Fin n → ProcessType)

/-- The variables after `k` iterations. -/
def sjfAt (k : ℕ) : SjfState n := sjfBody^[k] (sjfInit plist)

/-- The schedule made of the choices of all iterations. -/
def sjfSchedule : Schedule (Fin n) := fun k => sjfChoice (sjfAt plist k)

theorem sjfAt_succ (k : ℕ) : sjfAt plist (k + 1) = sjfBody (sjfAt plist k) :=
  Function.iterate_succ_apply' sjfBody k (sjfInit plist)

theorem sjfAt_t (k : ℕ) : (sjfAt plist k).t = k := by
  induction k with
  | zero => rfl
  | succ k ih =>
    rw [sjfAt_succ, sjfBody_t, ih]
    push_cast
    rfl

theorem sjfAt_input (k : ℕ) (i : Fin n) :
    ((sjfAt plist k).plist i).art = (plist i).art ∧
      ((sjfAt plist k).plist i).bt = (plist i).bt := by
  induction k with
  | zero => exact ⟨rfl, rfl⟩
  | succ k ih =>
    rw [sjfAt_succ, (sjfBody_input _ i).1, (sjfBody_input _ i).2]
    exact ih

/-- `rem_bt` holds the burst less the ticks that the schedule gave the process. -/
theorem sjfAt_remBt (k : ℕ) (i : Fin n) :
    (sjfAt plist k).remBt i = (plist i).bt - work (sjfSchedule plist) i k := by
  induction k with
  | zero =>
    rw [work_zero, Nat.cast_zero, sub_zero]
    rfl
  | succ k ih =>
    have hchoice : sjfSchedule plist k = sjfChoice (sjfAt plist k) := rfl
    rw [sjfAt_succ, sjfBody_remBt, ih, work_succ, hchoice]
    by_cases hrun : sjfChoice (sjfAt plist k) = some i
    · rw [if_pos hrun, if_pos hrun]
      omega
    · rw [if_neg hrun, if_neg hrun, sub_zero, add_zero]

/-- `complete` counts the processes that had a burst and have no remaining time. -/
theorem sjfAt_complete (k : ℕ) :
    (sjfAt plist k).complete =
      (Finset.univ.filter fun i => (sjfAt plist k).remBt i = 0 ∧ (plist i).bt ≠ 0).card := by
  induction k with
  | zero =>
    have hnone : Finset.univ.filter
        (fun i => (sjfAt plist 0).remBt i = 0 ∧ (plist i).bt ≠ 0) = ∅ :=
      Finset.filter_eq_empty_iff.mpr fun i _ hboth => hboth.2 hboth.1
    rw [hnone]
    rfl
  | succ k ih =>
    have hrem : ∀ i, (sjfAt plist (k + 1)).remBt i = (sjfAt plist k).remBt i -
        if sjfChoice (sjfAt plist k) = some i then 1 else 0 := by
      intro i
      rw [sjfAt_succ, sjfBody_remBt]
    rw [sjfAt_succ, sjfBody_complete, ih, ← sjfAt_succ]
    split
    · rename_i hlast
      obtain ⟨m, hrun, hone⟩ := hlast
      -- the remaining time is at most the burst, so the process that finishes had one
      have hburst : (plist m).bt ≠ 0 := by
        have hleft := sjfAt_remBt plist k m
        omega
      have hset : Finset.univ.filter
          (fun i => (sjfAt plist (k + 1)).remBt i = 0 ∧ (plist i).bt ≠ 0) =
          insert m (Finset.univ.filter
            fun i => (sjfAt plist k).remBt i = 0 ∧ (plist i).bt ≠ 0) := by
        ext i
        simp only [Finset.mem_filter, Finset.mem_univ, true_and, Finset.mem_insert, hrem i, hrun]
        by_cases hi : m = i
        · subst hi
          simp [hone, hburst]
        · simp [hi, Ne.symm hi]
      have hnot : m ∉ Finset.univ.filter
          fun i => (sjfAt plist k).remBt i = 0 ∧ (plist i).bt ≠ 0 := by
        simp [hone]
      rw [hset, Finset.card_insert_of_notMem hnot]
      push_cast
      rfl
    · rename_i hlast
      have hsame : ∀ i, (sjfAt plist (k + 1)).remBt i = 0 ↔ (sjfAt plist k).remBt i = 0 := by
        intro i
        rw [hrem i]
        by_cases hrun : sjfChoice (sjfAt plist k) = some i
        · -- a process that runs without finishing had more than one unit left
          have hpos := (selectMin_some _ _ _ hrun).1.2.1
          have hne : (sjfAt plist k).remBt i ≠ 1 := fun hone => hlast ⟨i, hrun, hone⟩
          rw [if_pos hrun]
          omega
        · rw [if_neg hrun, sub_zero]
      simp only [hsame, add_zero]

/-- The loop ends when every process had a burst and has no remaining time. -/
theorem sjfGuard_eq_false_iff (k : ℕ) :
    sjfGuard (sjfAt plist k) = false ↔
      ∀ i, (sjfAt plist k).remBt i = 0 ∧ (plist i).bt ≠ 0 := by
  have hcard : (Finset.univ.filter
      fun i => (sjfAt plist k).remBt i = 0 ∧ (plist i).bt ≠ 0).card ≤ n := by
    simpa using Finset.card_le_univ (Finset.univ.filter
      fun i => (sjfAt plist k).remBt i = 0 ∧ (plist i).bt ≠ 0)
  have hall : (Finset.univ.filter
      fun i => (sjfAt plist k).remBt i = 0 ∧ (plist i).bt ≠ 0).card = n ↔
      ∀ i, (sjfAt plist k).remBt i = 0 ∧ (plist i).bt ≠ 0 := by
    have h := Finset.card_filter_eq_iff (s := Finset.univ)
      (p := fun i => (sjfAt plist k).remBt i = 0 ∧ (plist i).bt ≠ 0)
    rw [Finset.card_univ, Fintype.card_fin] at h
    simpa using h
  rw [← hall, sjfGuard, sjfAt_complete, decide_eq_false_iff_not]
  omega

section Admissible

variable {plist} (hart : ∀ i, 0 ≤ (plist i).art)
  (hbt : ∀ i, 1 ≤ (plist i).bt ∧ (plist i).bt < INT_MAX)

include hbt

theorem burst_pos (i : Fin n) : 0 < burst plist i := by
  have := hbt i
  unfold burst
  omega

include hart

/-- The processes that iteration `k` may pick are the pending ones. -/
theorem ready_iff_pending (k : ℕ) (i : Fin n) :
    Ready (sjfAt plist k).plist (sjfAt plist k).remBt (sjfAt plist k).t i ↔
      i ∈ pending (arrival plist) (burst plist) (sjfSchedule plist) k := by
  have ha := hart i
  have hb := hbt i
  rw [mem_pending, Ready, sjfAt_t, (sjfAt_input plist k i).1, sjfAt_remBt, arrival, burst]
  omega

/-- The choices of the loop always run a pending process with the least remaining time. -/
theorem sjfSchedule_shortestFirst :
    ShortestFirst (arrival plist) (burst plist) (sjfSchedule plist) where
  runs k i hrun := (ready_iff_pending hart hbt k i).mp (selectMin_some _ _ _ hrun).1
  busy k hidle := by
    rw [Finset.eq_empty_iff_forall_notMem]
    intro i hi
    exact selectMin_none _ _ _ hidle i ((ready_iff_pending hart hbt k i).mpr hi)
  least k i hrun j hj := by
    have hle := (selectMin_some _ _ _ hrun).2 j ((ready_iff_pending hart hbt k j).mpr hj)
    have hbi := hbt i
    have hbj := hbt j
    rw [sjfAt_remBt, sjfAt_remBt] at hle
    unfold burst
    omega

/-- A process has no remaining time exactly when its completion time is over. -/
theorem sjfAt_remBt_eq_zero_iff (k : ℕ) (i : Fin n) :
    (sjfAt plist k).remBt i = 0 ↔ completion (sjfSchedule plist) i ≤ k := by
  have hsched := (sjfSchedule_shortestFirst hart hbt).isSchedule
  have hlt := hsched.work_lt_iff (burst_pos hbt i) k
  have hle := hsched.work_le i k
  have hb := hbt i
  rw [sjfAt_remBt]
  unfold burst at hlt hle
  omega

/-- The iteration that takes the last remaining unit ends at the completion time. -/
theorem completion_of_last {k : ℕ} {i : Fin n} (hone : (sjfAt plist k).remBt i = 1)
    (hrun : sjfSchedule plist k = some i) : completion (sjfSchedule plist) i = k + 1 := by
  have hbefore : ¬ completion (sjfSchedule plist) i ≤ k := by
    rw [← sjfAt_remBt_eq_zero_iff hart hbt k i]
    omega
  have hafter : completion (sjfSchedule plist) i ≤ k + 1 := by
    have hrun' : sjfChoice (sjfAt plist k) = some i := hrun
    rw [← sjfAt_remBt_eq_zero_iff hart hbt (k + 1) i, sjfAt_succ, sjfBody_remBt,
      if_pos hrun', hone]
    rfl
  omega

/-- The `wt` of a finished process is its waiting time in the schedule. -/
theorem sjfAt_wt {k : ℕ} {i : Fin n} (hzero : (sjfAt plist k).remBt i = 0) :
    ((sjfAt plist k).plist i).wt = waitingTime plist (sjfSchedule plist) i := by
  induction k with
  | zero =>
    have hinit : (sjfAt plist 0).remBt i = (plist i).bt := rfl
    have := hbt i
    omega
  | succ k ih =>
    have hrem : (sjfAt plist (k + 1)).remBt i = (sjfAt plist k).remBt i -
        if sjfSchedule plist k = some i then 1 else 0 := by
      rw [sjfAt_succ, sjfBody_remBt]
      rfl
    rw [sjfAt_succ, sjfBody_wt]
    by_cases hlast : sjfChoice (sjfAt plist k) = some i ∧ (sjfAt plist k).remBt i = 1
    · rw [if_pos hlast, sjfAt_t, (sjfAt_input plist k i).1, (sjfAt_input plist k i).2,
        waitingTime, completion_of_last hart hbt hlast.2 hlast.1]
      push_cast
      rfl
    · rw [if_neg hlast]
      apply ih
      by_cases hrun : sjfSchedule plist k = some i
      · rw [if_pos hrun] at hrem
        exact absurd ⟨hrun, by omega⟩ hlast
      · rw [if_neg hrun] at hrem
        omega

/-- The loop of `findWaitingTimeSJF` ends. -/
theorem findWaitingTimeSJF_returns :
    ∃ fuel out, findWaitingTimeSJF fuel plist = some out := by
  obtain ⟨T, hT⟩ := (sjfSchedule_shortestFirst hart hbt).exists_finished
  have hguard : sjfGuard (sjfAt plist T) = false := by
    rw [sjfGuard_eq_false_iff]
    intro i
    have hb := hbt i
    rw [sjfAt_remBt, hT i]
    unfold burst
    omega
  obtain ⟨fuel, s, hloop⟩ := exists_whileLoop_eq_some hguard
  exact ⟨fuel, s.plist, by rw [findWaitingTimeSJF, hloop]; rfl⟩

/-- The `wt` fields that `findWaitingTimeSJF` leaves are the waiting times of its choices. -/
theorem findWaitingTimeSJF_wt {fuel : ℕ} {out : Fin n → ProcessType}
    (h : findWaitingTimeSJF fuel plist = some out) (i : Fin n) :
    (out i).wt = waitingTime plist (sjfSchedule plist) i := by
  rw [findWaitingTimeSJF, Option.map_eq_some_iff] at h
  obtain ⟨s, hloop, rfl⟩ := h
  obtain ⟨k, -, rfl, -, hguard⟩ := whileLoop_eq_some_iff.mp hloop
  exact sjfAt_wt hart hbt ((sjfGuard_eq_false_iff plist k).mp hguard i).1

end Admissible

/-- **SRTF optimality.**  `findWaitingTimeSJF` returns, and the `wt` fields it leaves sum to
at most the total waiting time of any preemptive single-CPU schedule of the processes. -/
theorem findWaitingTimeSJF_optimal (hart : ∀ i, 0 ≤ (plist i).art)
    (hbt : ∀ i, 1 ≤ (plist i).bt ∧ (plist i).bt < INT_MAX) :
    (∃ fuel out, findWaitingTimeSJF fuel plist = some out) ∧
      ∀ fuel out, findWaitingTimeSJF fuel plist = some out →
        ∀ τ, IsSchedule (arrival plist) (burst plist) τ →
          ∑ i, (out i).wt ≤ ∑ i, waitingTime plist τ i := by
  refine ⟨findWaitingTimeSJF_returns hart hbt, fun fuel out hout τ hτ => ?_⟩
  have hle := (sjfSchedule_shortestFirst hart hbt).sum_completion_le hτ (burst_pos hbt)
  have hcast : ∑ i, (completion (sjfSchedule plist) i : ℤ) ≤ ∑ i, (completion τ i : ℤ) := by
    exact_mod_cast hle
  calc ∑ i, (out i).wt
      = ∑ i, waitingTime plist (sjfSchedule plist) i :=
        Finset.sum_congr rfl fun i _ => findWaitingTimeSJF_wt hart hbt hout i
    _ ≤ ∑ i, waitingTime plist τ i := by
        simp only [waitingTime, Finset.sum_sub_distrib]
        omega

/-- Two processes of bursts 3 and 1 that arrive at times 0 and 1. -/
theorem findWaitingTimeSJF_optimal_sample :
    let plist : Fin 2 → ProcessType := ![⟨1, 3, 0, 0, 0, 0⟩, ⟨2, 1, 1, 0, 0, 0⟩]
    (∃ fuel out, findWaitingTimeSJF fuel plist = some out) ∧
      ∀ fuel out, findWaitingTimeSJF fuel plist = some out →
        ∀ τ, IsSchedule (arrival plist) (burst plist) τ →
          ∑ i, (out i).wt ≤ ∑ i, waitingTime plist τ i :=
  findWaitingTimeSJF_optimal _ (by decide) (by decide)

end OsLabs.SchedSim
