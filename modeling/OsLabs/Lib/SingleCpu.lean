import Mathlib.Data.Set.Card
import Mathlib.Tactic

/-!
# Preemptive schedules of one processor

Jobs from a finite type arrive at given times and need given numbers of unit ticks; a
schedule says which job, if any, runs in each tick.  The total time that the jobs spend
between arrival and completion is the number of pending jobs, summed over the ticks.

A schedule that always runs a pending job with the least remaining work keeps the number of
pending jobs at every tick as low as any schedule can.  The invariant is a domination of
the loads: whatever `k` jobs are set aside in the other schedule, some `k` jobs can be set
aside in this one so that at most as much work is left.
-/

namespace OsLabs.Lib

variable {ι : Type*}

/-- The job that runs in each tick `t`, from time `t` to time `t + 1`. -/
abbrev Schedule (ι : Type*) := ℕ → Option ι

section Work

variable [DecidableEq ι]

/-- The ticks that job `i` got before time `t`. -/
def work (σ : Schedule ι) (i : ι) (t : ℕ) : ℕ :=
  ((Finset.range t).filter fun u => σ u = some i).card

@[simp] theorem work_zero (σ : Schedule ι) (i : ι) : work σ i 0 = 0 := rfl

theorem work_succ (σ : Schedule ι) (i : ι) (t : ℕ) :
    work σ i (t + 1) = work σ i t + if σ t = some i then 1 else 0 := by
  unfold work
  rw [Finset.range_add_one, Finset.filter_insert]
  split
  · rw [Finset.card_insert_of_notMem (by simp)]
  · rfl

theorem work_mono (σ : Schedule ι) (i : ι) : Monotone (work σ i) := by
  refine monotone_nat_of_le_succ fun t => ?_
  rw [work_succ]
  omega

end Work

/-- No job runs before it arrives, and each gets exactly its ticks. -/
structure IsSchedule (arrival burst : ι → ℕ) (σ : Schedule ι) : Prop where
  arrived : ∀ t i, σ t = some i → arrival i ≤ t
  ticks : ∀ i, {t | σ t = some i}.encard = burst i

/-- The end of the last tick of job `i`. -/
noncomputable def completion (σ : Schedule ι) (i : ι) : ℕ := sSup {t | σ t = some i} + 1

section Completion

variable {arrival burst : ι → ℕ} {σ : Schedule ι}

theorem IsSchedule.finite (h : IsSchedule arrival burst σ) (i : ι) :
    {t | σ t = some i}.Finite := by
  refine Set.finite_of_encard_eq_coe (k := burst i) ?_
  exact h.ticks i

theorem IsSchedule.arrival_lt_completion (h : IsSchedule arrival burst σ) {i : ι}
    (hb : 0 < burst i) : arrival i < completion σ i := by
  have hne : {u | σ u = some i}.Nonempty := by
    rw [← Set.encard_pos, h.ticks i]
    exact_mod_cast hb
  have hmax : σ (sSup {u | σ u = some i}) = some i := hne.csSup_mem (h.finite i)
  exact Nat.lt_succ_of_le (h.arrived _ i hmax)

/-- Between arrival and completion there is room for the ticks of the job. -/
theorem IsSchedule.arrival_add_burst_le (h : IsSchedule arrival burst σ) {i : ι}
    (hb : 0 < burst i) : arrival i + burst i ≤ completion σ i := by
  have hsub : {t | σ t = some i} ⊆
      ((Finset.Ico (arrival i) (completion σ i) : Finset ℕ) : Set ℕ) := by
    intro t ht
    have hle : t ≤ sSup {u | σ u = some i} := le_csSup (h.finite i).bddAbove ht
    exact Finset.mem_coe.mpr (Finset.mem_Ico.mpr ⟨h.arrived t i ht, Nat.lt_succ_of_le hle⟩)
  have hcard := Set.encard_le_encard hsub
  rw [h.ticks i, Set.encard_coe_eq_coe_finsetCard, Nat.card_Ico] at hcard
  have hroom : burst i ≤ completion σ i - arrival i := by exact_mod_cast hcard
  have := h.arrival_lt_completion hb
  omega

variable [DecidableEq ι]

theorem IsSchedule.work_le (h : IsSchedule arrival burst σ) (i : ι) (t : ℕ) :
    work σ i t ≤ burst i := by
  have hsub : (((Finset.range t).filter fun u => σ u = some i : Finset ℕ) : Set ℕ) ⊆
      {u | σ u = some i} := fun u hu => (Finset.mem_filter.mp hu).2
  have hle := Set.encard_le_encard hsub
  rw [h.ticks i, Set.encard_coe_eq_coe_finsetCard] at hle
  exact_mod_cast hle

/-- A job is unfinished exactly before its completion time. -/
theorem IsSchedule.work_lt_iff (h : IsSchedule arrival burst σ) {i : ι} (hb : 0 < burst i)
    (t : ℕ) : work σ i t < burst i ↔ t < completion σ i := by
  have hfin := h.finite i
  have hne : {u | σ u = some i}.Nonempty := by
    rw [← Set.encard_pos, h.ticks i]
    exact_mod_cast hb
  have hmax : σ (sSup {u | σ u = some i}) = some i := hne.csSup_mem hfin
  constructor
  · intro hlt
    by_contra hge
    have hsub : {u | σ u = some i} ⊆
        (((Finset.range t).filter fun u => σ u = some i : Finset ℕ) : Set ℕ) := by
      intro u hu
      have hle : u ≤ sSup {u | σ u = some i} := le_csSup hfin.bddAbove hu
      have hge' : sSup {u | σ u = some i} + 1 ≤ t := not_lt.mp hge
      simp only [Finset.coe_filter, Finset.mem_range, Set.mem_ofPred_eq]
      exact ⟨by omega, hu⟩
    have hle := Set.encard_le_encard hsub
    rw [h.ticks i, Set.encard_coe_eq_coe_finsetCard] at hle
    have hle' : burst i ≤ work σ i t := by exact_mod_cast hle
    omega
  · intro hlt
    -- the last tick is still to come, so the ticks before `t` are not all of them
    have hstep := work_succ σ i (sSup {u | σ u = some i})
    rw [if_pos hmax] at hstep
    have hmono := work_mono σ i (show t ≤ sSup {u | σ u = some i} from Nat.lt_succ_iff.mp hlt)
    have hall := h.work_le i (sSup {u | σ u = some i} + 1)
    omega

end Completion

/-! ### The work that is left -/

section Load

variable [DecidableEq ι] (burst : ι → ℕ)

/-- The work left at time `u` in the jobs of `s`. -/
def load (σ : Schedule ι) (u : ℕ) (s : Finset ι) : ℕ := ∑ i ∈ s, (burst i - work σ i u)

theorem load_succ_le (σ : Schedule ι) (u : ℕ) (s : Finset ι) :
    load burst σ (u + 1) s ≤ load burst σ u s := by
  refine Finset.sum_le_sum fun i _ => ?_
  have := work_mono σ i (show u ≤ u + 1 by omega)
  omega

/-- One tick takes at most one unit of work. -/
theorem load_le_succ (σ : Schedule ι) (u : ℕ) (s : Finset ι) :
    load burst σ u s ≤ load burst σ (u + 1) s + 1 := by
  have hone : ∑ i ∈ s, (if σ u = some i then 1 else 0) ≤ 1 := by
    cases hσ : σ u with
    | none => simp
    | some m =>
      have hsum : ∑ i ∈ s, (if some m = some i then 1 else 0) = if m ∈ s then 1 else 0 := by
        simp only [Option.some.injEq]
        rw [Finset.sum_ite_eq]
      rw [hsum]
      split <;> omega
  calc load burst σ u s
      ≤ ∑ i ∈ s, ((burst i - work σ i (u + 1)) + if σ u = some i then 1 else 0) := by
        refine Finset.sum_le_sum fun i _ => ?_
        rw [work_succ]
        split <;> omega
    _ ≤ load burst σ (u + 1) s + 1 := by
        rw [Finset.sum_add_distrib]
        exact Nat.add_le_add_left hone _

variable {burst}

/-- A tick that runs an unfinished job of `s` takes one unit of work off `s`. -/
theorem load_succ_of_mem {σ : Schedule ι} {u : ℕ} {s : Finset ι} {m : ι} (hrun : σ u = some m)
    (hm : m ∈ s) (hleft : work σ m u < burst m) :
    load burst σ (u + 1) s + 1 = load burst σ u s := by
  unfold load
  rw [← Finset.add_sum_erase s _ hm, ← Finset.add_sum_erase s _ hm]
  have hother : ∑ i ∈ s.erase m, (burst i - work σ i (u + 1)) =
      ∑ i ∈ s.erase m, (burst i - work σ i u) := by
    refine Finset.sum_congr rfl fun i hi => ?_
    have hne : ¬ σ u = some i := by
      rw [hrun, Option.some.injEq]
      exact (Finset.ne_of_mem_erase hi).symm
    rw [work_succ, if_neg hne, add_zero]
  rw [hother, work_succ, if_pos hrun]
  omega

/-- Setting aside `j` in place of the running job `m`, which has no more work left than `j`,
leaves at most as much work. -/
theorem load_swap_le {σ : Schedule ι} {u : ℕ} {s B : Finset ι} {m j : ι} (hm : m ∈ s)
    (hmB : m ∈ B) (hj : j ∈ s \ B) (hle : burst m - work σ m u ≤ burst j - work σ j u) :
    load burst σ u (s \ insert j (B.erase m)) ≤ load burst σ u (s \ B) := by
  obtain ⟨hjs, hjB⟩ := Finset.mem_sdiff.mp hj
  have hmj : m ≠ j := fun h => hjB (h ▸ hmB)
  have hset : s \ insert j (B.erase m) = insert m ((s \ B).erase j) := by
    ext i
    simp only [Finset.mem_sdiff, Finset.mem_insert, Finset.mem_erase, not_or, not_and]
    by_cases hi : i = m
    · subst hi
      simp [hm, hmj]
    · simp [hi]
      tauto
  have hnot : m ∉ (s \ B).erase j := by simp [hmB]
  unfold load
  rw [hset, Finset.sum_insert hnot, ← Finset.add_sum_erase (s \ B) _ hj]
  omega

end Load

/-! ### Pending jobs and the total time in the system -/

variable [Fintype ι] [DecidableEq ι] (arrival burst : ι → ℕ)

/-- The jobs that have arrived by time `t` and are not finished at time `t`. -/
def pending (σ : Schedule ι) (t : ℕ) : Finset ι :=
  Finset.univ.filter fun i => arrival i ≤ t ∧ work σ i t < burst i

variable {arrival burst}

theorem mem_pending {σ : Schedule ι} {t : ℕ} {i : ι} :
    i ∈ pending arrival burst σ t ↔ arrival i ≤ t ∧ work σ i t < burst i := by
  simp [pending]

/-- Each job is pending from its arrival to its completion, so the total time in the system
is the number of pending jobs summed over the ticks. -/
theorem IsSchedule.sum_completion {σ : Schedule ι} (h : IsSchedule arrival burst σ)
    (hb : ∀ i, 0 < burst i) {H : ℕ} (hH : ∀ i, completion σ i ≤ H) :
    ∑ i, completion σ i =
      ∑ i, arrival i + ∑ t ∈ Finset.range H, (pending arrival burst σ t).card := by
  have hcard : ∀ t, (pending arrival burst σ t).card =
      ∑ i, if arrival i ≤ t ∧ t < completion σ i then 1 else 0 := by
    intro t
    rw [pending, Finset.card_filter]
    refine Finset.sum_congr rfl fun i _ => if_congr ?_ rfl rfl
    rw [h.work_lt_iff (hb i)]
  have hjob : ∀ i, completion σ i =
      arrival i + ∑ t ∈ Finset.range H, if arrival i ≤ t ∧ t < completion σ i then 1 else 0 := by
    intro i
    have hico : (Finset.range H).filter (fun t => arrival i ≤ t ∧ t < completion σ i) =
        Finset.Ico (arrival i) (completion σ i) := by
      ext t
      have := hH i
      simp only [Finset.mem_filter, Finset.mem_range, Finset.mem_Ico]
      omega
    have := h.arrival_lt_completion (hb i)
    rw [← Finset.card_filter, hico, Nat.card_Ico]
    omega
  calc ∑ i, completion σ i
      = ∑ i, (arrival i +
          ∑ t ∈ Finset.range H, if arrival i ≤ t ∧ t < completion σ i then 1 else 0) :=
        Finset.sum_congr rfl fun i _ => hjob i
    _ = ∑ i, arrival i + ∑ t ∈ Finset.range H, (pending arrival burst σ t).card := by
        rw [Finset.sum_add_distrib, Finset.sum_comm]
        simp only [hcard]

/-- A schedule with at most as many pending jobs at every tick has at most the total time. -/
theorem sum_completion_le {σ τ : Schedule ι} (hσ : IsSchedule arrival burst σ)
    (hτ : IsSchedule arrival burst τ) (hb : ∀ i, 0 < burst i)
    (hle : ∀ t, (pending arrival burst σ t).card ≤ (pending arrival burst τ t).card) :
    ∑ i, completion σ i ≤ ∑ i, completion τ i := by
  let H := ∑ i, (completion σ i + completion τ i)
  have hH : ∀ i, completion σ i + completion τ i ≤ H := fun i =>
    Finset.single_le_sum (f := fun i => completion σ i + completion τ i)
      (fun _ _ => Nat.zero_le _) (Finset.mem_univ i)
  rw [hσ.sum_completion hb (fun i => le_trans (Nat.le_add_right _ _) (hH i)),
    hτ.sum_completion hb (fun i => le_trans (Nat.le_add_left _ _) (hH i))]
  exact Nat.add_le_add_left (Finset.sum_le_sum fun t _ => hle t) _

/-! ### Work conservation -/

variable (arrival burst)

/-- Only pending jobs run, and the processor is idle only when no job is pending. -/
structure WorkConserving (σ : Schedule ι) : Prop where
  runs : ∀ t i, σ t = some i → i ∈ pending arrival burst σ t
  busy : ∀ t, σ t = none → pending arrival burst σ t = ∅

variable {arrival burst}

section

variable {σ : Schedule ι} (h : WorkConserving arrival burst σ)

include h

theorem WorkConserving.work_le (i : ι) (t : ℕ) : work σ i t ≤ burst i := by
  induction t with
  | zero => simp
  | succ t ih =>
    rw [work_succ]
    split
    · rename_i hrun
      exact (mem_pending.mp (h.runs t i hrun)).2
    · exact ih

/-- Once every job has arrived, each tick does a unit of work until all work is done. -/
theorem WorkConserving.le_sum_work (k : ℕ) :
    min k (∑ i, burst i) ≤ ∑ i, work σ i (∑ i, arrival i + k) := by
  induction k with
  | zero => simp
  | succ k ih =>
    have harr : ∀ i, arrival i ≤ ∑ i, arrival i + k := fun i =>
      le_trans (Finset.single_le_sum (fun _ _ => Nat.zero_le _) (Finset.mem_univ i))
        (Nat.le_add_right _ _)
    have hstep : ∑ i, work σ i (∑ i, arrival i + (k + 1)) =
        ∑ i, work σ i (∑ i, arrival i + k) +
          ∑ i, if σ (∑ i, arrival i + k) = some i then 1 else 0 := by
      rw [← Finset.sum_add_distrib]
      exact Finset.sum_congr rfl fun i _ => work_succ σ i _
    cases hrun : σ (∑ i, arrival i + k) with
    | none =>
      -- nothing is pending although everything has arrived, so all work is done
      have hdone : ∑ i, burst i ≤ ∑ i, work σ i (∑ i, arrival i + k) := by
        refine Finset.sum_le_sum fun i _ => ?_
        have hnot : i ∉ pending arrival burst σ (∑ i, arrival i + k) := by
          simp [h.busy _ hrun]
        rw [mem_pending] at hnot
        have := harr i
        omega
      omega
    | some m =>
      rw [hrun] at hstep
      simp only [Option.some.injEq, Finset.sum_ite_eq, Finset.mem_univ, if_true] at hstep
      omega

/-- All jobs are finished in the end. -/
theorem WorkConserving.exists_finished : ∃ T, ∀ i, work σ i T = burst i := by
  refine ⟨∑ i, arrival i + ∑ i, burst i, fun i => ?_⟩
  have hsum := h.le_sum_work (∑ i, burst i)
  rw [min_self] at hsum
  have hle : ∀ j ∈ Finset.univ, work σ j (∑ i, arrival i + ∑ i, burst i) ≤ burst j :=
    fun j _ => h.work_le j _
  exact (Finset.sum_eq_sum_iff_of_le hle).mp (le_antisymm (Finset.sum_le_sum hle) hsum) i
    (Finset.mem_univ i)

/-- A work-conserving schedule gives every job exactly its ticks. -/
theorem WorkConserving.isSchedule : IsSchedule arrival burst σ := by
  obtain ⟨T, hT⟩ := h.exists_finished
  refine ⟨fun t i hrun => (mem_pending.mp (h.runs t i hrun)).1, fun i => ?_⟩
  have hset : {t | σ t = some i} =
      (((Finset.range T).filter fun u => σ u = some i : Finset ℕ) : Set ℕ) := by
    ext t
    simp only [Finset.coe_filter, Finset.mem_range, Set.mem_ofPred_eq]
    refine ⟨fun hrun => ⟨?_, hrun⟩, fun hrun => hrun.2⟩
    by_contra hge
    have hpend := (mem_pending.mp (h.runs t i hrun)).2
    have hmono := work_mono σ i (not_lt.mp hge)
    rw [hT i] at hmono
    omega
  rw [hset, Set.encard_coe_eq_coe_finsetCard]
  exact congrArg Nat.cast (hT i)

end

/-! ### Shortest remaining work first -/

variable (arrival burst)

/-- In every tick a pending job with the least remaining work runs, if any job is pending. -/
structure ShortestFirst (σ : Schedule ι) : Prop extends WorkConserving arrival burst σ where
  least : ∀ t i, σ t = some i → ∀ j ∈ pending arrival burst σ t,
    burst i - work σ i t ≤ burst j - work σ j t

/-- The jobs that have arrived by time `t`. -/
def arrivedBy (t : ℕ) : Finset ι := Finset.univ.filter fun i => arrival i ≤ t

/-- Whatever jobs `A` are set aside under `τ`, no more jobs `B` can be set aside under `σ` so
that at most as much work is left in the jobs that arrived by time `t`. -/
def Dominates (σ τ : Schedule ι) (t u : ℕ) : Prop :=
  ∀ A : Finset ι, ∃ B : Finset ι, B.card ≤ A.card ∧
    load burst σ u (arrivedBy arrival t \ B) ≤ load burst τ u (arrivedBy arrival t \ A)

variable {arrival burst}

/-- The tick from `u = t` to `t + 1`: the load of the shortest job is the one to take. -/
theorem Dominates.tick {σ τ : Schedule ι} {t : ℕ} (hσ : ShortestFirst arrival burst σ)
    (h : Dominates arrival burst σ τ t t) : Dominates arrival burst σ τ t (t + 1) := by
  intro A
  obtain ⟨B, hcard, hload⟩ := h A
  have hτ := load_le_succ burst τ t (arrivedBy arrival t \ A)
  cases hrun : σ t with
  | none =>
    -- nothing is pending, so no work is left in any job that has arrived
    refine ⟨B, hcard, ?_⟩
    have hzero : load burst σ t (arrivedBy arrival t \ B) = 0 := by
      refine Finset.sum_eq_zero fun i hi => ?_
      have harr : arrival i ≤ t := by simpa [arrivedBy] using (Finset.mem_sdiff.mp hi).1
      have hnot : i ∉ pending arrival burst σ t := by simp [hσ.busy t hrun]
      rw [mem_pending] at hnot
      omega
    have := load_succ_le burst σ t (arrivedBy arrival t \ B)
    omega
  | some m =>
    obtain ⟨harr, hleft⟩ := mem_pending.mp (hσ.runs t m hrun)
    have hm : m ∈ arrivedBy arrival t := by simpa [arrivedBy] using harr
    by_cases hzero : load burst σ t (arrivedBy arrival t \ B) = 0
    · refine ⟨B, hcard, ?_⟩
      have := load_succ_le burst σ t (arrivedBy arrival t \ B)
      omega
    · by_cases hmB : m ∈ B
      · -- set aside an unfinished job in place of the running one
        obtain ⟨j, hj, hjleft⟩ : ∃ j ∈ arrivedBy arrival t \ B, burst j - work σ j t ≠ 0 := by
          by_contra hnone
          push Not at hnone
          exact hzero (Finset.sum_eq_zero hnone)
        obtain ⟨hjarr, hjB⟩ := Finset.mem_sdiff.mp hj
        have hjpend : j ∈ pending arrival burst σ t := by
          rw [mem_pending]
          exact ⟨by simpa [arrivedBy] using hjarr, by omega⟩
        have hswap := load_swap_le hm hmB hj (hσ.least t m hrun j hjpend)
        have hmem : m ∈ arrivedBy arrival t \ insert j (B.erase m) := by
          have hmj : m ≠ j := fun heq => hjB (heq ▸ hmB)
          simp [hm, hmj]
        have hdown := load_succ_of_mem hrun hmem hleft
        refine ⟨insert j (B.erase m), ?_, by omega⟩
        calc (insert j (B.erase m)).card
            ≤ (B.erase m).card + 1 := Finset.card_insert_le _ _
          _ = B.card := Finset.card_erase_add_one hmB
          _ ≤ A.card := hcard
      · have hdown := load_succ_of_mem hrun (Finset.mem_sdiff.mpr ⟨hm, hmB⟩) hleft
        exact ⟨B, hcard, by omega⟩

/-- Jobs that arrive at time `t + 1` have all their work left under both schedules. -/
theorem Dominates.arrive {σ τ : Schedule ι} {t : ℕ}
    (hσ : ∀ u i, σ u = some i → arrival i ≤ u) (hτ : ∀ u i, τ u = some i → arrival i ≤ u)
    (h : Dominates arrival burst σ τ t (t + 1)) :
    Dominates arrival burst σ τ (t + 1) (t + 1) := by
  intro A
  let old := arrivedBy arrival t
  let new := arrivedBy arrival (t + 1) \ old
  obtain ⟨B, hcard, hload⟩ := h (A ∩ old)
  have hunion : arrivedBy arrival (t + 1) = old ∪ new := by
    refine (Finset.union_sdiff_of_subset fun i hi => ?_).symm
    simp only [old, arrivedBy, Finset.mem_filter, Finset.mem_univ, true_and] at hi ⊢
    omega
  have hdisj : Disjoint old new := Finset.disjoint_sdiff
  have hsplit : ∀ (ρ : Schedule ι) (C : Finset ι),
      load burst ρ (t + 1) (arrivedBy arrival (t + 1) \ C) =
        load burst ρ (t + 1) (old \ C) + load burst ρ (t + 1) (new \ C) := by
    intro ρ C
    rw [hunion, Finset.union_sdiff_distrib]
    exact Finset.sum_union (hdisj.mono Finset.sdiff_subset Finset.sdiff_subset)
  have hfresh : ∀ (ρ : Schedule ι), (∀ u i, ρ u = some i → arrival i ≤ u) → ∀ i ∈ new,
      work ρ i (t + 1) = 0 := by
    intro ρ hρ i hi
    have hnot : ¬ arrival i ≤ t := by
      simpa [old, arrivedBy] using (Finset.mem_sdiff.mp hi).2
    refine Finset.card_eq_zero.mpr (Finset.filter_eq_empty_iff.mpr fun u hu hrun => ?_)
    have := hρ u i hrun
    have := Finset.mem_range.mp hu
    omega
  have hnew : load burst σ (t + 1) (new \ A) = load burst τ (t + 1) (new \ A) := by
    refine Finset.sum_congr rfl fun i hi => ?_
    have hi' := (Finset.mem_sdiff.mp hi).1
    rw [hfresh σ hσ i hi', hfresh τ hτ i hi']
  refine ⟨B ∪ (A \ old), ?_, ?_⟩
  · calc (B ∪ (A \ old)).card
        ≤ B.card + (A \ old).card := Finset.card_union_le _ _
      _ ≤ (A ∩ old).card + (A \ old).card := Nat.add_le_add_right hcard _
      _ = A.card := Finset.card_inter_add_card_sdiff A old
  · have hmono : ∀ {s s' : Finset ι}, s ⊆ s' →
        load burst σ (t + 1) s ≤ load burst σ (t + 1) s' :=
      fun hsub => Finset.sum_le_sum_of_subset hsub
    have hold : old \ (A ∩ old) = old \ A := by
      ext i
      simp only [Finset.mem_sdiff, Finset.mem_inter]
      tauto
    rw [hsplit, hsplit, ← hnew, ← hold]
    refine Nat.add_le_add (le_trans (hmono ?_) hload) (hmono ?_)
    · exact Finset.sdiff_subset_sdiff (Finset.Subset.refl _) Finset.subset_union_left
    · intro i hi
      simp only [Finset.mem_sdiff, Finset.mem_union, not_or, not_and, not_not] at hi ⊢
      exact ⟨hi.1, fun hA => (Finset.mem_sdiff.mp hi.1).2 (hi.2.2 hA)⟩

/-- The domination holds at every time. -/
theorem ShortestFirst.dominates {σ τ : Schedule ι} (hσ : ShortestFirst arrival burst σ)
    (hτ : ∀ u i, τ u = some i → arrival i ≤ u) (t : ℕ) :
    Dominates arrival burst σ τ t t := by
  have hσ' : ∀ u i, σ u = some i → arrival i ≤ u :=
    fun u i h => (mem_pending.mp (hσ.runs u i h)).1
  induction t with
  | zero =>
    intro A
    refine ⟨A, le_rfl, le_of_eq ?_⟩
    simp [load]
  | succ t ih => exact (ih.tick hσ).arrive hσ' hτ

/-- A schedule that always runs a shortest pending job has, at every time, at most as many
pending jobs as any other schedule. -/
theorem ShortestFirst.pending_card_le {σ τ : Schedule ι} (hσ : ShortestFirst arrival burst σ)
    (hτ : ∀ u i, τ u = some i → arrival i ≤ u) (t : ℕ) :
    (pending arrival burst σ t).card ≤ (pending arrival burst τ t).card := by
  obtain ⟨B, hcard, hload⟩ := hσ.dominates hτ t (pending arrival burst τ t)
  -- with all its pending jobs set aside, `τ` has no work left in what has arrived
  have hzero : load burst τ t (arrivedBy arrival t \ pending arrival burst τ t) = 0 := by
    refine Finset.sum_eq_zero fun i hi => ?_
    obtain ⟨harr, hnot⟩ := Finset.mem_sdiff.mp hi
    rw [mem_pending] at hnot
    have : arrival i ≤ t := by simpa [arrivedBy] using harr
    omega
  have hsub : pending arrival burst σ t ⊆ B := by
    intro i hi
    by_contra hB
    obtain ⟨harr, hleft⟩ := mem_pending.mp hi
    have hmem : i ∈ arrivedBy arrival t \ B := by
      simp [arrivedBy, harr, hB]
    have hle : burst i - work σ i t ≤ load burst σ t (arrivedBy arrival t \ B) :=
      Finset.single_le_sum (f := fun i => burst i - work σ i t) (fun _ _ => Nat.zero_le _) hmem
    omega
  exact le_trans (Finset.card_le_card hsub) hcard

/-- **Shortest remaining work first is optimal** for the total completion time. -/
theorem ShortestFirst.sum_completion_le {σ τ : Schedule ι}
    (hσ : ShortestFirst arrival burst σ) (hτ : IsSchedule arrival burst τ)
    (hb : ∀ i, 0 < burst i) : ∑ i, completion σ i ≤ ∑ i, completion τ i :=
  Lib.sum_completion_le hσ.isSchedule hτ hb (hσ.pending_card_le hτ.arrived)

/-! ### Busy ticks -/

section

variable {σ τ : Schedule ι} (hσ : WorkConserving arrival burst σ)

include hσ

/-- A job that has not arrived has got no tick. -/
theorem WorkConserving.work_eq_zero {i : ι} {t : ℕ} (ht : t < arrival i) : work σ i t = 0 := by
  refine Finset.card_eq_zero.mpr (Finset.filter_eq_empty_iff.mpr fun u hu hrun => ?_)
  have harr := (mem_pending.mp (hσ.runs u i hrun)).1
  have := Finset.mem_range.mp hu
  omega

/-- Nothing is pending exactly when all work that has arrived is done. -/
theorem WorkConserving.pending_eq_empty_iff (t : ℕ) :
    pending arrival burst σ t = ∅ ↔
      ∑ i, work σ i t = ∑ i ∈ arrivedBy arrival t, burst i := by
  have hsum : ∑ i, work σ i t = ∑ i ∈ arrivedBy arrival t, work σ i t := by
    refine (Finset.sum_subset (Finset.subset_univ _) fun i _ hi => ?_).symm
    apply hσ.work_eq_zero
    simpa [arrivedBy] using hi
  rw [hsum, Finset.sum_eq_sum_iff_of_le fun i _ => hσ.work_le i t,
    Finset.eq_empty_iff_forall_notMem]
  refine forall_congr' fun i => ?_
  have hle := hσ.work_le i t
  rw [mem_pending, arrivedBy, Finset.mem_filter]
  constructor
  · intro hnot hi
    by_contra hne
    exact hnot ⟨hi.2, lt_of_le_of_ne hle hne⟩
  · intro hdone hpend
    have := hdone ⟨Finset.mem_univ i, hpend.1⟩
    omega

theorem WorkConserving.sum_work_succ (t : ℕ) :
    ∑ i, work σ i (t + 1) =
      ∑ i, work σ i t + if pending arrival burst σ t = ∅ then 0 else 1 := by
  have hstep : ∑ i, work σ i (t + 1) = ∑ i, work σ i t + ∑ i, if σ t = some i then 1 else 0 := by
    rw [← Finset.sum_add_distrib]
    exact Finset.sum_congr rfl fun i _ => work_succ σ i t
  rw [hstep]
  apply congrArg
  cases hrun : σ t with
  | none => simp [hσ.busy t hrun]
  | some m =>
    have hne : pending arrival burst σ t ≠ ∅ := Finset.ne_empty_of_mem (hσ.runs t m hrun)
    simp [hne]

/-- Any two work-conserving schedules are busy in the same ticks. -/
theorem WorkConserving.sum_work_eq (hτ : WorkConserving arrival burst τ) (t : ℕ) :
    ∑ i, work σ i t = ∑ i, work τ i t := by
  induction t with
  | zero => rfl
  | succ t ih =>
    have hempty : pending arrival burst σ t = ∅ ↔ pending arrival burst τ t = ∅ := by
      rw [hσ.pending_eq_empty_iff, hτ.pending_eq_empty_iff, ih]
    rw [hσ.sum_work_succ, hτ.sum_work_succ, ih]
    simp only [hempty]

theorem WorkConserving.completion_le_iff (hb : ∀ i, 0 < burst i) (T : ℕ) :
    (∀ i, completion σ i ≤ T) ↔ ∑ i, work σ i T = ∑ i, burst i := by
  rw [Finset.sum_eq_sum_iff_of_le fun i _ => hσ.work_le i T]
  refine forall_congr' fun i => ?_
  have hlt := hσ.isSchedule.work_lt_iff (hb i) T
  have hle := hσ.work_le i T
  constructor
  · intro hdone _
    omega
  · intro hdone
    have := hdone (Finset.mem_univ i)
    omega

/-- **The makespan does not depend on the schedule.**  Work-conserving schedules of the same
jobs have the same last completion. -/
theorem WorkConserving.sup'_completion_eq [Nonempty ι] (hτ : WorkConserving arrival burst τ)
    (hb : ∀ i, 0 < burst i) :
    Finset.univ.sup' Finset.univ_nonempty (completion σ) =
      Finset.univ.sup' Finset.univ_nonempty (completion τ) := by
  refine eq_of_forall_ge_iff fun T => ?_
  have hall : (∀ i, completion σ i ≤ T) ↔ ∀ i, completion τ i ≤ T := by
    rw [hσ.completion_le_iff hb, hτ.completion_le_iff hb, hσ.sum_work_eq hτ T]
  simpa only [Finset.sup'_le_iff, Finset.mem_univ, true_implies] using hall

end

/-! ### Preemption -/

section Preemption

variable {σ : Schedule ι} (h : ShortestFirst arrival burst σ)

variable (burst) in
/-- The job of tick `t` is unfinished after it, but does not run in the next tick. -/
def Preempts (σ : Schedule ι) (t : ℕ) : Prop :=
  ∃ i, σ t = some i ∧ work σ i (t + 1) < burst i ∧ σ (t + 1) ≠ some i

include h

/-- Only a job that arrives at that moment takes the processor from an unfinished one, and it
needs no more than what is left of that one. -/
theorem ShortestFirst.arrival_of_preempted {t : ℕ} {i : ι} (hrun : σ t = some i)
    (hleft : work σ i (t + 1) < burst i) (hother : σ (t + 1) ≠ some i) :
    ∃ j, σ (t + 1) = some j ∧ arrival j = t + 1 ∧ burst j ≤ burst i - work σ i (t + 1) := by
  have harr : arrival i ≤ t := (mem_pending.mp (h.runs t i hrun)).1
  have hpend : i ∈ pending arrival burst σ (t + 1) := mem_pending.mpr ⟨by omega, hleft⟩
  cases hnext : σ (t + 1) with
  | none =>
    have hidle := h.busy (t + 1) hnext
    exact absurd hpend (by simp [hidle])
  | some j =>
    have hji : j ≠ i := fun heq => hother (heq ▸ hnext)
    obtain ⟨harrj, hleftj⟩ := mem_pending.mp (h.runs (t + 1) j hnext)
    have hleast := h.least (t + 1) j hnext i hpend
    have hworki := work_succ σ i t
    have hworkj := work_succ σ j t
    rw [hrun, if_pos rfl] at hworki
    rw [hrun, if_neg fun heq => hji (Option.some.inj heq).symm, add_zero] at hworkj
    have hnew : arrival j = t + 1 := by
      by_contra hne
      -- job `j` was there at tick `t`, with more work left than the job that ran
      have hpendj : j ∈ pending arrival burst σ t := mem_pending.mpr ⟨by omega, by omega⟩
      have := h.least t i hrun j hpendj
      omega
    refine ⟨j, rfl, hnew, ?_⟩
    have hfresh : work σ j (t + 1) = 0 := by
      rw [hworkj]
      exact h.toWorkConserving.work_eq_zero (by omega)
    omega

/-- **Fewer preemptions than jobs.**  Each preemption is the arrival of a job of its own, and
the first job to arrive preempts nothing. -/
theorem ShortestFirst.preempts_encard_le :
    {t | Preempts burst σ t}.encard ≤ (Fintype.card ι - 1 : ℕ) := by
  have hjob : ∀ t, Preempts burst σ t → ∃ j, σ (t + 1) = some j ∧ arrival j = t + 1 := by
    rintro t ⟨i, hrun, hleft, hother⟩
    obtain ⟨j, hj, harr, -⟩ := h.arrival_of_preempted hrun hleft hother
    exact ⟨j, hj, harr⟩
  rcases isEmpty_or_nonempty ι with hempty | hne
  · have hnone : {t | Preempts burst σ t} = ∅ :=
      Set.eq_empty_of_forall_notMem fun t ⟨i, _⟩ => hempty.elim i
    simp [hnone]
  · obtain ⟨m, hm⟩ := Finite.exists_min arrival
    let next : ℕ → ι := fun t => (σ (t + 1)).getD m
    have hnext : ∀ t, Preempts burst σ t → arrival (next t) = t + 1 := by
      intro t ht
      obtain ⟨j, hj, harr⟩ := hjob t ht
      simpa only [next, hj, Option.getD_some] using harr
    have hmaps : Set.MapsTo next {t | Preempts burst σ t} (Finset.univ.erase m : Finset ι) := by
      intro t ht
      refine Finset.mem_coe.mpr (Finset.mem_erase.mpr ⟨fun heq => ?_, Finset.mem_univ _⟩)
      have harr := hnext t ht
      obtain ⟨i, hrun, -, -⟩ := ht
      have harri : arrival i ≤ t := (mem_pending.mp (h.runs t i hrun)).1
      have := hm i
      rw [heq] at harr
      omega
    have hinj : Set.InjOn next {t | Preempts burst σ t} := by
      intro t ht u hu heq
      have harr := hnext t ht
      have := hnext u hu
      rw [heq] at harr
      omega
    have hle := Set.encard_le_encard_of_injOn hmaps hinj
    rwa [Set.encard_coe_eq_coe_finsetCard, Finset.card_erase_of_mem (Finset.mem_univ m),
      Finset.card_univ] at hle

end Preemption

/-! ### Relabelled jobs -/

section Relabel

variable {α κ : Type*} {arrival burst : κ → ℕ} {σ : Schedule α}

/-- The schedule of the jobs under other names. -/
def Schedule.relabel (e : α ≃ κ) (σ : Schedule α) : Schedule κ := fun t => (σ t).map e

theorem relabel_eq_some_iff (e : α ≃ κ) {t : ℕ} {i : α} :
    σ.relabel e t = some (e i) ↔ σ t = some i := by
  rw [Schedule.relabel, Option.map_eq_some_iff]
  constructor
  · rintro ⟨j, hj, heq⟩
    rwa [e.injective heq] at hj
  · exact fun h => ⟨i, h, rfl⟩

theorem completion_relabel (e : α ≃ κ) (i : α) :
    completion (σ.relabel e) (e i) = completion σ i := by
  have hsame : {t | σ.relabel e t = some (e i)} = {t | σ t = some i} :=
    Set.ext fun t => relabel_eq_some_iff e
  rw [completion, hsame, completion]

theorem IsSchedule.relabel (e : α ≃ κ) (h : IsSchedule (arrival ∘ e) (burst ∘ e) σ) :
    IsSchedule arrival burst (σ.relabel e) where
  arrived t k hk := by
    obtain ⟨i, rfl⟩ := e.surjective k
    exact h.arrived t i ((relabel_eq_some_iff e).mp hk)
  ticks k := by
    obtain ⟨i, rfl⟩ := e.surjective k
    have hsame : {t | σ.relabel e t = some (e i)} = {t | σ t = some i} :=
      Set.ext fun t => relabel_eq_some_iff e
    rw [hsame, h.ticks i]
    rfl

end Relabel

end OsLabs.Lib
