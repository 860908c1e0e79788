import OsLabs.SchedSim.SrtfOptimal

/-!
# Which process lists SRTF finishes

The loop of `findWaitingTimeSJF` counts a completion on the tick that takes a remaining time to
zero, and it only runs processes whose remaining time is positive and below `INT_MAX`.  A burst
of 0 or of `INT_MAX` is never run, so its completion is never counted.  The clock of a loop that does
not end has no bound, and is an integer here.
-/

namespace OsLabs.SchedSim

open OsLabs.Lib

variable {n : ℕ} {plist : Fin n → ProcessType}

/-- A process whose burst is not positive or not below the sentinel never runs. -/
theorem sjfAt_remBt_of_outside {i : Fin n} (h : (plist i).bt ≤ 0 ∨ INT_MAX ≤ (plist i).bt)
    (k : ℕ) : (sjfAt plist k).remBt i = (plist i).bt := by
  induction k with
  | zero => rfl
  | succ k ih =>
    have hnot : sjfChoice (sjfAt plist k) ≠ some i := by
      intro hrun
      have hready := (selectMin_some _ _ _ hrun).1
      have hpos := hready.2.1
      have hless := hready.2.2
      omega
    rw [sjfAt_succ, sjfBody_remBt, if_neg hnot, sub_zero, ih]

/-- A loop that has ended ran every process. -/
theorem bt_of_findWaitingTimeSJF {fuel : ℕ} {out : Fin n → ProcessType}
    (h : findWaitingTimeSJF fuel plist = some out) (i : Fin n) :
    1 ≤ (plist i).bt ∧ (plist i).bt < INT_MAX := by
  rw [findWaitingTimeSJF, Option.map_eq_some_iff] at h
  obtain ⟨s, hloop, rfl⟩ := h
  obtain ⟨k, -, rfl, -, hguard⟩ := whileLoop_eq_some_iff.mp hloop
  obtain ⟨hzero, hburst⟩ := (sjfGuard_eq_false_iff plist k).mp hguard i
  by_contra houtside
  have hnever : (plist i).bt ≤ 0 ∨ INT_MAX ≤ (plist i).bt := by omega
  have hkept := sjfAt_remBt_of_outside hnever k
  exact hburst (hkept.symm.trans hzero)

/-- **When SRTF ends.**  The loop of `findWaitingTimeSJF` ends if and only if every burst is at
least 1 and below `INT_MAX`. -/
theorem findWaitingTimeSJF_returns_iff (plist : Fin n → ProcessType)
    (hart : ∀ i, 0 ≤ (plist i).art) :
    (∃ fuel out, findWaitingTimeSJF fuel plist = some out) ↔
      ∀ i, 1 ≤ (plist i).bt ∧ (plist i).bt < INT_MAX := by
  constructor
  · intro hreturns
    obtain ⟨fuel, out, hout⟩ := hreturns
    exact bt_of_findWaitingTimeSJF hout
  · exact findWaitingTimeSJF_returns hart

theorem findWaitingTimeSJF_returns_iff_sample :
    ∃ fuel out, findWaitingTimeSJF fuel
      ![⟨1, 3, 4, 0, 0, 0⟩, ⟨2, INT_MAX - 1, 0, 0, 0, 0⟩] = some out :=
  (findWaitingTimeSJF_returns_iff _ (by decide)).mpr (by decide)

/-- Neither a process without a burst nor one with the longest burst is ever completed. -/
theorem boundaryBurst_never_ends :
    (¬ ∃ fuel out, findWaitingTimeSJF fuel ![⟨1, 0, 0, 0, 0, 0⟩] = some out) ∧
      ¬ ∃ fuel out, findWaitingTimeSJF fuel ![⟨1, INT_MAX, 0, 0, 0, 0⟩] = some out := by
  constructor
  · intro hreturns
    obtain ⟨fuel, out, hout⟩ := hreturns
    exact absurd (bt_of_findWaitingTimeSJF hout 0).1 (by decide)
  · intro hreturns
    obtain ⟨fuel, out, hout⟩ := hreturns
    exact absurd (bt_of_findWaitingTimeSJF hout 0).2 (by decide)

end OsLabs.SchedSim
