import OsLabs.Lib.Timeline
import OsLabs.SchedSim.Process

/-!
# First come, first served

`findWaitingTime`.  The clock jumps to the arrival of a process that is not there yet, and then
over its whole burst.  The processes run in the order of the list, which need not be the order
of their arrivals.
-/

namespace OsLabs.SchedSim

open OsLabs.Lib

variable {n : ℕ}

/-- The variables of `findWaitingTime`. -/
structure FcfsState (n : ℕ) where
  plist : Fin n → ProcessType
  t : ℤ

/-- The body of the `for` loop. -/
def fcfsStep (s : FcfsState n) (i : Fin n) : FcfsState n :=
  let p := s.plist i
  let t := if s.t < p.art then p.art else s.t
  { plist := Function.update s.plist i { p with wt := t - p.art }
    t := t + p.bt }

/-- The process list after `findWaitingTime(plist, n)`. -/
def findWaitingTime (plist : Fin n → ProcessType) : Fin n → ProcessType :=
  ((List.finRange n).foldl fcfsStep ⟨plist, 0⟩).plist

/-- What the ticks that have passed tell about the processes of `l`, which have run. -/
structure FcfsRecorded (plist : Fin n → ProcessType) (l : List (Fin n)) (s : FcfsState n)
    (ticks : List (Option (Fin n))) : Prop where
  t : s.t = ticks.length
  arrived : ∀ t i, timeline ticks t = some i → arrival plist i ≤ t
  count : ∀ i, ticks.count (some i) = if i ∈ l then burst plist i else 0
  input : ∀ i, (s.plist i).art = (plist i).art ∧ (s.plist i).bt = (plist i).bt
  wt : ∀ i ∈ l,
    (completion (timeline ticks) i : ℤ) = (plist i).art + (s.plist i).wt + (plist i).bt

variable {plist : Fin n → ProcessType} {l : List (Fin n)} {s : FcfsState n}
  {ticks : List (Option (Fin n))}

/-- The ticks of one process: idle up to its arrival, and then its burst. -/
def fcfsTicks (plist : Fin n → ProcessType) (ticks : List (Option (Fin n))) (i : Fin n) :
    List (Option (Fin n)) :=
  ticks ++ List.replicate (arrival plist i - ticks.length) none ++
    List.replicate (burst plist i) (some i)

theorem count_fcfsTicks (plist : Fin n → ProcessType) (ticks : List (Option (Fin n)))
    (i j : Fin n) :
    (fcfsTicks plist ticks i).count (some j) =
      ticks.count (some j) + if i = j then burst plist i else 0 := by
  rw [fcfsTicks, count_append_replicate, count_append_replicate,
    if_neg (Option.some_ne_none j).symm,
    Nat.add_zero]
  simp only [Option.some.injEq]

/-- The clock at which the process starts. -/
theorem FcfsRecorded.start (h : FcfsRecorded plist l s ticks) {i : Fin n}
    (hart : 0 ≤ (plist i).art) :
    (if s.t < (s.plist i).art then (s.plist i).art else s.t) =
      ((ticks ++ List.replicate (arrival plist i - ticks.length) none).length : ℤ) := by
  have harrival : (arrival plist i : ℤ) = (plist i).art := Int.toNat_of_nonneg hart
  have htime := h.t
  have hart' := (h.input i).1
  rw [List.length_append, List.length_replicate]
  split <;> omega

theorem FcfsRecorded.step (h : FcfsRecorded plist l s ticks) (hart : ∀ i, 0 ≤ (plist i).art)
    (hbt : ∀ i, 1 ≤ (plist i).bt) {i : Fin n} (hi : i ∉ l) :
    FcfsRecorded plist (l ++ [i]) (fcfsStep s i) (fcfsTicks plist ticks i) := by
  have hpos : 0 < burst plist i := by
    have := hbt i
    rw [burst]
    omega
  have hburst : (burst plist i : ℤ) = (plist i).bt := Int.toNat_of_nonneg (by have := hbt i; omega)
  have hstart := h.start (hart i)
  obtain ⟨hart', hbt'⟩ := h.input i
  refine ⟨?_, ?_, ?_, ?_, ?_⟩
  · show (if s.t < (s.plist i).art then (s.plist i).art else s.t) + (s.plist i).bt = _
    rw [hstart, hbt', fcfsTicks, ← hburst, ← Nat.cast_add, List.length_append,
      List.length_append, List.length_append, List.length_replicate, List.length_replicate]
  · intro t j hrun
    rcases timeline_append_replicate hrun with hbefore | ⟨heq, hle⟩
    · rcases timeline_append_replicate hbefore with hold | ⟨hnone, -⟩
      · exact h.arrived t j hold
      · cases hnone
    · obtain rfl := Option.some.inj heq
      rw [List.length_append, List.length_replicate] at hle
      omega
  · intro j
    rw [count_fcfsTicks, h.count j]
    by_cases hj : i = j
    · subst hj
      rw [if_neg hi, if_pos rfl, if_pos (by simp), Nat.zero_add]
    · rw [if_neg hj, Nat.add_zero]
      simp [Ne.symm hj]
  · intro j
    show (Function.update s.plist i _ j).art = _ ∧ (Function.update s.plist i _ j).bt = _
    by_cases hj : j = i
    · subst hj
      rw [Function.update_self]
      exact h.input j
    · rw [Function.update_of_ne hj]
      exact h.input j
  · intro j hj
    show _ = (plist j).art + (Function.update s.plist i _ j).wt + (plist j).bt
    by_cases hji : j = i
    · subst hji
      rw [Function.update_self, fcfsTicks, completion_append_replicate hpos]
      dsimp only
      rw [hstart]
      omega
    · have hold : j ∈ l := by
        rcases List.mem_append.mp hj with hold | hnew
        · exact hold
        · exact absurd (List.mem_singleton.mp hnew) hji
      have hne : some i ≠ some j := fun heq => hji (Option.some.inj heq).symm
      rw [Function.update_of_ne hji, fcfsTicks, completion_append_replicate_of_ne hne,
        completion_append_replicate_of_ne (Option.some_ne_none j).symm]
      exact h.wt j hold

theorem fcfsRecorded_foldl (hart : ∀ i, 0 ≤ (plist i).art) (hbt : ∀ i, 1 ≤ (plist i).bt)
    (hl : l.Nodup) :
    ∃ ticks, FcfsRecorded plist l (l.foldl fcfsStep ⟨plist, 0⟩) ticks := by
  induction l using List.reverseRecOn with
  | nil =>
    refine ⟨[], rfl, fun t i hrun => ?_, fun i => ?_, fun i => ⟨rfl, rfl⟩, nofun⟩
    · rw [timeline_of_length_le (Nat.zero_le t)] at hrun
      cases hrun
    · rw [List.count_nil, if_neg List.not_mem_nil]
  | append_singleton l i ih =>
    rw [List.nodup_append_comm, List.singleton_append, List.nodup_cons] at hl
    obtain ⟨ticks, hrec⟩ := ih hl.2
    rw [List.foldl_append, List.foldl_cons, List.foldl_nil]
    exact ⟨_, hrec.step hart hbt hl.1⟩

/-- The `wt` fields that `findWaitingTime` leaves are those of a schedule. -/
theorem findWaitingTime_schedule (hart : ∀ i, 0 ≤ (plist i).art) (hbt : ∀ i, 1 ≤ (plist i).bt) :
    ∃ σ, IsSchedule (arrival plist) (burst plist) σ ∧
      ∀ i, (findWaitingTime plist i).art = (plist i).art ∧
        (findWaitingTime plist i).bt = (plist i).bt ∧
        (completion σ i : ℤ) = (plist i).art + (findWaitingTime plist i).wt + (plist i).bt := by
  obtain ⟨ticks, hrec⟩ := fcfsRecorded_foldl hart hbt (List.nodup_finRange n)
  refine ⟨timeline ticks, isSchedule_timeline hrec.arrived fun i => ?_, fun i =>
    ⟨(hrec.input i).1, (hrec.input i).2, hrec.wt i (List.mem_finRange i)⟩⟩
  rw [hrec.count i, if_pos (List.mem_finRange i)]

end OsLabs.SchedSim
