import OsLabs.Lib.SingleCpu

/-!
# Schedules recorded tick by tick

The list of the ticks that a scheduler has gone through, each with the job that ran in it.
The schedule of such a record is idle after its end, so a longer record has the same schedule
up to the end of the shorter one.
-/

namespace OsLabs.Lib

variable {ι : Type*}

/-- The job of each recorded tick, and none afterwards. -/
def timeline (ticks : List (Option ι)) : Schedule ι := fun t => ticks[t]?.join

theorem timeline_eq_some_iff {ticks : List (Option ι)} {t : ℕ} {i : ι} :
    timeline ticks t = some i ↔ ticks[t]? = some (some i) := by
  rw [timeline, Option.join_eq_some_iff]

theorem timeline_append_left {ticks more : List (Option ι)} {t : ℕ} (h : t < ticks.length) :
    timeline (ticks ++ more) t = timeline ticks t := by
  rw [timeline, timeline, List.getElem?_append_left h]

theorem timeline_of_length_le {ticks : List (Option ι)} {t : ℕ} (h : ticks.length ≤ t) :
    timeline ticks t = none := by
  rw [timeline, List.getElem?_eq_none h]
  rfl

/-- A tick of a record that goes on with `k` equal ticks. -/
theorem timeline_append_replicate {ticks : List (Option ι)} {o : Option ι} {k t : ℕ} {i : ι}
    (h : timeline (ticks ++ List.replicate k o) t = some i) :
    timeline ticks t = some i ∨ o = some i ∧ ticks.length ≤ t := by
  by_cases ht : t < ticks.length
  · rw [timeline_append_left ht] at h
    exact Or.inl h
  · rw [timeline_eq_some_iff, List.getElem?_append_right (not_lt.mp ht)] at h
    exact Or.inr ⟨(List.eq_of_mem_replicate (List.mem_of_getElem? h)).symm, not_lt.mp ht⟩

/-! ### Completion times -/

theorem completion_eq {σ : Schedule ι} {i : ι} {t : ℕ} (hlast : σ t = some i)
    (hafter : ∀ u, t < u → σ u ≠ some i) : completion σ i = t + 1 := by
  have hgreatest : IsGreatest {u | σ u = some i} t := by
    refine ⟨hlast, fun u hu => ?_⟩
    by_contra hlt
    exact hafter u (not_le.mp hlt) hu
  rw [completion, hgreatest.csSup_eq]

/-- Ticks that do not run the job do not change its completion. -/
theorem completion_append {ticks more : List (Option ι)} {i : ι} (h : some i ∉ more) :
    completion (timeline (ticks ++ more)) i = completion (timeline ticks) i := by
  have hsame : ∀ t, timeline (ticks ++ more) t = some i ↔ timeline ticks t = some i := by
    intro t
    by_cases ht : t < ticks.length
    · rw [timeline_append_left ht]
    · rw [timeline_of_length_le (not_lt.mp ht), timeline_eq_some_iff,
        List.getElem?_append_right (not_lt.mp ht)]
      exact iff_of_false (fun hmem => h (List.mem_of_getElem? hmem)) nofun
  rw [completion, completion]
  simp only [hsame]

/-- A run of one job ends at the end of the record. -/
theorem completion_append_replicate {ticks : List (Option ι)} {i : ι} {k : ℕ} (hk : 0 < k) :
    completion (timeline (ticks ++ List.replicate k (some i))) i = ticks.length + k := by
  have hlast : timeline (ticks ++ List.replicate k (some i)) (ticks.length + (k - 1)) =
      some i := by
    rw [timeline_eq_some_iff, List.getElem?_append_right (Nat.le_add_right _ _),
      List.getElem?_replicate, if_pos (by omega)]
  rw [completion_eq hlast]
  · omega
  · intro u hu
    rw [timeline_of_length_le]
    · exact nofun
    · rw [List.length_append, List.length_replicate]
      omega

/-- Equal ticks that do not run the job do not change it either. -/
theorem completion_append_replicate_of_ne {ticks : List (Option ι)} {o : Option ι} {i : ι}
    (ho : o ≠ some i) (k : ℕ) :
    completion (timeline (ticks ++ List.replicate k o)) i = completion (timeline ticks) i :=
  completion_append fun hmem => ho (List.eq_of_mem_replicate hmem).symm

variable [DecidableEq ι]

theorem count_append_replicate (ticks : List (Option ι)) (o : Option ι) (k : ℕ) (i : ι) :
    (ticks ++ List.replicate k o).count (some i) =
      ticks.count (some i) + if o = some i then k else 0 := by
  rw [List.count_append, List.count_replicate]
  simp only [beq_iff_eq]

theorem work_timeline (ticks : List (Option ι)) (i : ι) (t : ℕ) :
    work (timeline ticks) i t = (ticks.take t).count (some i) := by
  induction t with
  | zero => rw [work_zero, List.take_zero, List.count_nil]
  | succ t ih =>
    rw [work_succ, ih, List.take_add_one, List.count_append]
    apply congrArg
    rw [timeline]
    cases ticks[t]? with
    | none => rfl
    | some o =>
      rw [Option.join_some, Option.toList_some, List.count_singleton]
      simp only [beq_iff_eq]

/-- Up to the end of a record a longer one gives the same work. -/
theorem work_timeline_append {ticks more : List (Option ι)} {t : ℕ} (h : t ≤ ticks.length)
    (i : ι) : work (timeline (ticks ++ more)) i t = work (timeline ticks) i t := by
  rw [work_timeline, work_timeline, List.take_append_of_le_length h]

theorem work_timeline_length (ticks : List (Option ι)) (i : ι) :
    work (timeline ticks) i ticks.length = ticks.count (some i) := by
  rw [work_timeline, List.take_length]

/-! ### Records that are schedules -/

variable {arrival burst : ι → ℕ} {ticks : List (Option ι)}

/-- A record without early ticks that gives every job its ticks is a schedule. -/
theorem isSchedule_timeline (harrived : ∀ t i, timeline ticks t = some i → arrival i ≤ t)
    (hticks : ∀ i, ticks.count (some i) = burst i) :
    IsSchedule arrival burst (timeline ticks) := by
  refine ⟨harrived, fun i => ?_⟩
  have hset : {t | timeline ticks t = some i} =
      (((Finset.range ticks.length).filter fun u => timeline ticks u = some i : Finset ℕ) :
        Set ℕ) := by
    ext t
    simp only [Finset.coe_filter, Finset.mem_range, Set.mem_ofPred_eq]
    refine ⟨fun hrun => ⟨?_, hrun⟩, fun hrun => hrun.2⟩
    by_contra hge
    rw [timeline_of_length_le (not_lt.mp hge)] at hrun
    cases hrun
  rw [hset, Set.encard_coe_eq_coe_finsetCard]
  exact congrArg Nat.cast ((work_timeline_length ticks i).trans (hticks i))

variable (arrival burst)

/-- So far only pending jobs have run, and no tick was idle with a job pending. -/
structure Conserving [Fintype ι] (ticks : List (Option ι)) : Prop where
  runs : ∀ t i, timeline ticks t = some i → i ∈ pending arrival burst (timeline ticks) t
  busy : ∀ t < ticks.length, timeline ticks t = none →
    pending arrival burst (timeline ticks) t = ∅

variable {arrival burst} [Fintype ι]

theorem conserving_nil : Conserving arrival burst [] where
  runs t i hrun := by
    rw [timeline_of_length_le (Nat.zero_le t)] at hrun
    cases hrun
  busy t ht := absurd ht (Nat.not_lt_zero t)

theorem pending_timeline_append {more : List (Option ι)} {t : ℕ} (h : t ≤ ticks.length) :
    pending arrival burst (timeline (ticks ++ more)) t =
      pending arrival burst (timeline ticks) t := by
  ext i
  rw [mem_pending, mem_pending, work_timeline_append h]

theorem mem_pending_length {i : ι} :
    i ∈ pending arrival burst (timeline ticks) ticks.length ↔
      arrival i ≤ ticks.length ∧ ticks.count (some i) < burst i := by
  rw [mem_pending, work_timeline_length]

/-- One more tick. -/
theorem Conserving.tick (h : Conserving arrival burst ticks) {o : Option ι}
    (hruns : ∀ i, o = some i → i ∈ pending arrival burst (timeline ticks) ticks.length)
    (hbusy : o = none → pending arrival burst (timeline ticks) ticks.length = ∅) :
    Conserving arrival burst (ticks ++ [o]) := by
  have hnew : timeline (ticks ++ [o]) ticks.length = o := by
    rw [timeline, List.getElem?_concat_length]
    rfl
  constructor
  · intro t i hrun
    rcases lt_trichotomy t ticks.length with hlt | rfl | hgt
    · rw [timeline_append_left hlt] at hrun
      rw [pending_timeline_append hlt.le]
      exact h.runs t i hrun
    · rw [hnew] at hrun
      rw [pending_timeline_append le_rfl]
      exact hruns i hrun
    · rw [timeline_of_length_le (by rw [List.length_append, List.length_singleton]; omega)] at hrun
      cases hrun
  · intro t ht hidle
    rw [List.length_append, List.length_singleton] at ht
    rcases lt_or_eq_of_le (Nat.lt_succ_iff.mp ht) with hlt | rfl
    · rw [timeline_append_left hlt] at hidle
      rw [pending_timeline_append hlt.le]
      exact h.busy t hlt hidle
    · rw [hnew] at hidle
      rw [pending_timeline_append le_rfl]
      exact hbusy hidle

/-- A job that has arrived runs for ticks that it still needs. -/
theorem Conserving.run (h : Conserving arrival burst ticks) {i : ι}
    (harrived : arrival i ≤ ticks.length) {k : ℕ} (hk : ticks.count (some i) + k ≤ burst i) :
    Conserving arrival burst (ticks ++ List.replicate k (some i)) := by
  induction k with
  | zero => rwa [List.replicate_zero, List.append_nil]
  | succ k ih =>
    rw [List.replicate_succ', ← List.append_assoc]
    refine (ih (by omega)).tick (fun j hj => ?_) nofun
    obtain rfl := Option.some.inj hj
    rw [mem_pending_length, List.count_append, List.count_replicate_self, List.length_append]
    omega

/-- With every job done the record is a work-conserving schedule. -/
theorem Conserving.workConserving (h : Conserving arrival burst ticks)
    (hdone : ∀ i, ticks.count (some i) = burst i) :
    WorkConserving arrival burst (timeline ticks) := by
  refine ⟨h.runs, fun t hidle => ?_⟩
  by_cases ht : t < ticks.length
  · exact h.busy t ht hidle
  · rw [Finset.eq_empty_iff_forall_notMem]
    intro i hi
    rw [mem_pending, work_timeline, List.take_of_length_le (not_lt.mp ht), hdone] at hi
    exact lt_irrefl _ hi.2

end OsLabs.Lib
