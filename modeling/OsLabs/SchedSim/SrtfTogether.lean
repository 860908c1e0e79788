import OsLabs.SchedSim.SrtfOptimal

/-!
# SRTF with simultaneous arrivals

When all processes arrive together nothing is preempted: the process that runs has the least
remaining time, and running makes it even less.  So the processes run one after the other by
burst, and by position where bursts are equal.
-/

namespace OsLabs.SchedSim

open OsLabs.Lib

variable {n : ℕ} {plist : Fin n → ProcessType} {a : ℤ} {s : SjfState n} {i j m : Fin n}

/-- Process `i` runs before process `j`: its burst is less, or equal and `i` comes first. -/
def Before (plist : Fin n → ProcessType) (i j : Fin n) : Prop :=
  (plist i).bt < (plist j).bt ∨ (plist i).bt = (plist j).bt ∧ i < j

instance decidableBefore (plist : Fin n → ProcessType) (i j : Fin n) :
    Decidable (Before plist i j) :=
  inferInstanceAs (Decidable (_ ∨ _))

theorem not_before_self (i : Fin n) : ¬ Before plist i i := by
  intro h
  rcases h with hlt | ⟨-, hlt⟩
  · exact lt_irrefl _ hlt
  · exact lt_irrefl _ hlt

theorem before_or_before (plist : Fin n → ProcessType) (h : i ≠ j) :
    Before plist i j ∨ Before plist j i := by
  unfold Before
  omega

/-- The bursts of the processes that run before `i`. -/
def burstsBefore (plist : Fin n → ProcessType) (i : Fin n) : ℤ :=
  ∑ j with Before plist j i, (plist j).bt

/-- What the ticks have done so far.  A process behind an unfinished one has not run, and all
ticks since the common arrival were spent on the processes. -/
structure OneByOne (plist : Fin n → ProcessType) (a : ℤ) (s : SjfState n) : Prop where
  input : ∀ i, (s.plist i).art = a ∧ (s.plist i).bt = (plist i).bt
  remBt : ∀ i, 0 ≤ s.remBt i ∧ s.remBt i ≤ (plist i).bt
  order : ∀ i j, Before plist i j → 0 < s.remBt i → s.remBt j = (plist j).bt
  spent : (∃ i, 0 < s.remBt i) → ∑ i, ((plist i).bt - s.remBt i) = max (s.t - a) 0
  wt : ∀ i, s.remBt i = 0 → (s.plist i).wt = burstsBefore plist i

section Tick

variable (h : OneByOne plist a s)

include h

theorem OneByOne.ready_iff (hmax : ∀ i, (plist i).bt < INT_MAX) (i : Fin n) :
    Ready s.plist s.remBt s.t i ↔ a ≤ s.t ∧ 0 < s.remBt i := by
  have hrem := (h.remBt i).2
  have hless := hmax i
  rw [Ready, (h.input i).1]
  constructor
  · exact fun hready => ⟨hready.1, hready.2.1⟩
  · exact fun hready => ⟨hready.1, hready.2, hrem.trans_lt hless⟩

/-- The processes before the one that the loop picks are finished. -/
theorem OneByOne.finished_before (hmax : ∀ i, (plist i).bt < INT_MAX)
    (hrun : sjfChoice s = some m) (hbefore : Before plist i m) : s.remBt i = 0 := by
  by_contra hne
  obtain ⟨hready, hleast⟩ := selectMin_some _ _ _ hrun
  have hthere := ((h.ready_iff hmax m).mp hready).1
  have hpos : 0 < s.remBt i := lt_of_le_of_ne (h.remBt i).1 (Ne.symm hne)
  have hready' : Ready s.plist s.remBt s.t i := (h.ready_iff hmax i).mpr ⟨hthere, hpos⟩
  -- process `m` is untouched, so both have the same burst, untouched
  have hwhole := h.order i m hbefore hpos
  have hle := hleast i hready'
  have hleft := (h.remBt i).2
  rcases hbefore with hlt | ⟨heq, hlt⟩
  · omega
  · have hfirst := selectMin_first _ _ _ hrun i hlt hready'
    omega

/-- What has been spent when the process that runs has one unit left. -/
theorem OneByOne.spent_last (hmax : ∀ i, (plist i).bt < INT_MAX)
    (hrun : sjfChoice s = some m) (hone : s.remBt m = 1) :
    ∑ i, ((plist i).bt - s.remBt i) + 1 = burstsBefore plist m + (plist m).bt := by
  have hterm : ∀ i, (plist i).bt - s.remBt i =
      (if Before plist i m then (plist i).bt else 0) +
        if i = m then (plist m).bt - 1 else 0 := by
    intro i
    by_cases him : i = m
    · subst him
      rw [if_neg (not_before_self i), if_pos rfl, hone, zero_add]
    · rw [if_neg him, add_zero]
      rcases before_or_before plist him with hbefore | hafter
      · rw [if_pos hbefore, h.finished_before hmax hrun hbefore, sub_zero]
      · have hnot : ¬ Before plist i m := by
          unfold Before at hafter ⊢
          omega
        have hwhole := h.order m i hafter (by omega)
        rw [if_neg hnot, hwhole, sub_self]
  rw [Finset.sum_congr rfl fun i _ => hterm i, Finset.sum_add_distrib, ← Finset.sum_filter,
    Finset.sum_ite_eq' Finset.univ m, if_pos (Finset.mem_univ m), burstsBefore]
  ring

theorem OneByOne.tick (hmax : ∀ i, (plist i).bt < INT_MAX) : OneByOne plist a (sjfBody s) := by
  have hrem : ∀ i, (sjfBody s).remBt i = s.remBt i - if sjfChoice s = some i then 1 else 0 :=
    sjfBody_remBt s
  have hpos : ∀ i, sjfChoice s = some i → a ≤ s.t ∧ 0 < s.remBt i := by
    intro i hrun
    exact (h.ready_iff hmax i).mp (selectMin_some _ _ _ hrun).1
  have hfewer : ∀ i, 0 < (sjfBody s).remBt i → 0 < s.remBt i := by
    intro i hi
    rw [hrem i] at hi
    split at hi <;> omega
  refine ⟨fun i => ?_, fun i => ?_, fun i j hij hi => ?_, fun hleft => ?_, fun i hzero => ?_⟩
  · rw [(sjfBody_input s i).1, (sjfBody_input s i).2]
    exact h.input i
  · have hold := h.remBt i
    rw [hrem i]
    split
    · rename_i hrun
      have := (hpos i hrun).2
      omega
    · omega
  · have hwhole := h.order i j hij (hfewer i hi)
    rw [hrem j, if_neg, sub_zero, hwhole]
    -- the process that runs is not behind an unfinished one
    intro hrun
    have hdone := h.finished_before hmax hrun hij
    have := hfewer i hi
    omega
  · obtain ⟨i, hi⟩ := hleft
    have hsum := h.spent ⟨i, hfewer i hi⟩
    have hterm : ∀ j, (plist j).bt - (sjfBody s).remBt j =
        ((plist j).bt - s.remBt j) + if sjfChoice s = some j then 1 else 0 := by
      intro j
      rw [hrem j]
      ring
    rw [Finset.sum_congr rfl fun j _ => hterm j, Finset.sum_add_distrib, hsum, sjfBody_t]
    cases hrun : sjfChoice s with
    | none =>
      have hearly : ¬ a ≤ s.t := fun hle =>
        selectMin_none _ _ _ hrun i ((h.ready_iff hmax i).mpr ⟨hle, hfewer i hi⟩)
      simp only [reduceCtorEq, if_false, Finset.sum_const_zero]
      omega
    | some m =>
      have hthere := (hpos m hrun).1
      simp only [Option.some.injEq, Finset.sum_ite_eq, Finset.mem_univ, if_true]
      omega
  · rw [sjfBody_wt]
    by_cases hlast : sjfChoice s = some i ∧ s.remBt i = 1
    · have hspent := h.spent_last hmax hlast.1 hlast.2
      have hsum := h.spent ⟨i, (hpos i hlast.1).2⟩
      have hthere := (hpos i hlast.1).1
      rw [if_pos hlast, (h.input i).1, (h.input i).2]
      omega
    · rw [if_neg hlast]
      apply h.wt
      rw [hrem i] at hzero
      split at hzero
      · rename_i hrun
        exact absurd ⟨hrun, by omega⟩ hlast
      · omega

end Tick

theorem oneByOne_init (ha : 0 ≤ a) (hart : ∀ i, (plist i).art = a)
    (hbt : ∀ i, 1 ≤ (plist i).bt) : OneByOne plist a (sjfInit plist) := by
  refine ⟨fun i => ⟨hart i, rfl⟩, fun i => ?_, fun i j _ _ => rfl, fun _ => ?_, fun i hzero => ?_⟩
  · have := hbt i
    exact ⟨by show 0 ≤ (plist i).bt; omega, le_rfl⟩
  · show ∑ i, ((plist i).bt - (plist i).bt) = max (0 - a) 0
    simp only [sub_self, Finset.sum_const_zero]
    omega
  · have hburst : (plist i).bt = 0 := hzero
    have := hbt i
    omega

/-- Over the integers the loop ends, and each process has waited for the bursts that are shorter
than its own and for equal ones that come before it in the list. -/
theorem findWaitingTimeSJF_together (plist : Fin n → ProcessType) (a : ℤ) (ha : 0 ≤ a)
    (hart : ∀ i, (plist i).art = a) (hbt : ∀ i, 1 ≤ (plist i).bt ∧ (plist i).bt < INT_MAX) :
    (∃ fuel out, findWaitingTimeSJF fuel plist = some out) ∧
      ∀ fuel out, findWaitingTimeSJF fuel plist = some out →
        ∀ i, (out i).wt = ∑ j with
          (plist j).bt < (plist i).bt ∨ (plist j).bt = (plist i).bt ∧ j < i, (plist j).bt := by
  refine ⟨findWaitingTimeSJF_returns (fun i => (hart i).symm ▸ ha) hbt, fun fuel out hout i => ?_⟩
  rw [findWaitingTimeSJF, Option.map_eq_some_iff] at hout
  obtain ⟨s, hloop, rfl⟩ := hout
  have hinit := oneByOne_init ha hart fun i => (hbt i).1
  have hend := (whileLoop_invariant (fun s hs _ => OneByOne.tick hs fun i => (hbt i).2)
    hinit hloop).1
  obtain ⟨k, -, rfl, -, hguard⟩ := whileLoop_eq_some_iff.mp hloop
  exact hend.wt i ((sjfGuard_eq_false_iff plist k).mp hguard i).1

end OsLabs.SchedSim
