import OsLabs.SchedSim.FcfsOrder
import OsLabs.SchedSim.RoundRobin

/-!
# The columns of the file that round robin depends on

`findWaitingTimeRR` reads `bt` and `art`, and it writes the `wt` of a process when it finishes
it.  A process without a burst is never run, so the `wt` that the file has for it stays, and
`findTurnAroundTime` adds to it.  The clock of the two runs is the same, whatever its range.
-/

namespace OsLabs.SchedSim

open OsLabs.Lib

variable {n : ℕ}

/-- `findavgTimeRR`, without what it prints, if its loop ends within `fuel` further iterations. -/
def findavgTimeRR (fuel : ℕ) (quantum : ℤ) (plist : Fin n → ProcessType) :
    Option (Fin n → ProcessType) :=
  (findWaitingTimeRR fuel quantum plist).map findTurnAroundTime

/-- The two agree in all columns but `wt` and `tat`. -/
structure SameInput (p p' : ProcessType) : Prop where
  pid : p.pid = p'.pid
  bt : p.bt = p'.bt
  art : p.art = p'.art
  pri : p.pri = p'.pri

instance (p p' : ProcessType) : Decidable (SameInput p p') :=
  decidable_of_iff (p.pid = p'.pid ∧ p.bt = p'.bt ∧ p.art = p'.art ∧ p.pri = p'.pri)
    ⟨fun h => ⟨h.1, h.2.1, h.2.2.1, h.2.2.2⟩, fun h => ⟨h.pid, h.bt, h.art, h.pri⟩⟩

/-- The function ends on both lists, and then with the same `wt` and `tat` in every process. -/
structure ReportsAlike (quantum : ℤ) (plist plist' : Fin n → ProcessType) : Prop where
  ends : ∃ fuel out, findavgTimeRR fuel quantum plist = some out
  ends' : ∃ fuel out, findavgTimeRR fuel quantum plist' = some out
  same : ∀ fuel out fuel' out', findavgTimeRR fuel quantum plist = some out →
    findavgTimeRR fuel' quantum plist' = some out' →
      ∀ i, (out i).wt = (out' i).wt ∧ (out i).tat = (out' i).tat

/-! ### Two runs in step -/

/-- The loops are at the same point, and a `wt` in which they differ is still to be written. -/
structure InStep (s s' : RrState n) : Prop where
  t : s.t = s'.t
  remBt : s.remBt = s'.remBt
  done : s.done = s'.done
  input : ∀ i, SameInput (s.plist i) (s'.plist i)
  wt : ∀ i, (s.plist i).wt = (s'.plist i).wt ∨ 0 < s.remBt i

variable {quantum : ℤ} {s s' : RrState n}

theorem InStep.ready_iff (h : InStep s s') (i : Fin n) : RrReady s i ↔ RrReady s' i := by
  rw [RrReady, RrReady, h.remBt, (h.input i).art, h.t]

/-- A slice that is not the last one leaves time. -/
theorem rrSlice_remBt_pos {i j : Fin n} (hready : RrReady s i) (hleft : 0 < s.remBt j)
    (hnot : ¬(j = i ∧ s.remBt i ≤ quantum)) : 0 < (rrSlice quantum s i).remBt j := by
  rw [rrSlice_remBt hready]
  by_cases hj : j = i
  · subst hj
    have hlong : quantum < s.remBt j := by
      by_contra hshort
      exact hnot ⟨rfl, not_lt.mp hshort⟩
    rw [Function.update_self, sliceOf, min_eq_left hlong.le]
    omega
  · rw [Function.update_of_ne hj]
    exact hleft

theorem InStep.slice (h : InStep s s') (i : Fin n) :
    InStep (rrSlice quantum s i) (rrSlice quantum s' i) := by
  by_cases hready : RrReady s i
  · have hready' := (h.ready_iff i).mp hready
    have hsame : sliceOf quantum s i = sliceOf quantum s' i := by
      rw [sliceOf, sliceOf, h.remBt]
    refine ⟨?_, ?_, ?_, fun j => ?_, fun j => ?_⟩
    · rw [rrSlice_t hready, rrSlice_t hready', h.t, hsame]
    · rw [rrSlice_remBt hready, rrSlice_remBt hready', hsame, h.remBt]
    · rw [rrSlice_done hready, rrSlice_done hready']
    · have hinput := h.input j
      rw [rrSlice_plist hready, rrSlice_plist hready', ← h.remBt]
      split
      · exact ⟨hinput.pid, hinput.bt, hinput.art, hinput.pri⟩
      · exact hinput
    · have hinput := h.input j
      rw [rrSlice_plist hready, rrSlice_plist hready', ← h.remBt]
      by_cases hfinish : j = i ∧ s.remBt i ≤ quantum
      · left
        rw [if_pos hfinish, if_pos hfinish]
        show s.t + s.remBt i - (s.plist j).bt - (s.plist j).art = _
        rw [h.t, hinput.bt, hinput.art]
      · rw [if_neg hfinish, if_neg hfinish]
        rcases h.wt j with hwt | hleft
        · exact Or.inl hwt
        · exact Or.inr (rrSlice_remBt_pos hready hleft hfinish)
  · rw [rrSlice_of_not_ready hready, rrSlice_of_not_ready fun hready' =>
      hready ((h.ready_iff i).mpr hready')]
    exact h

theorem InStep.setDone (h : InStep s s') (done : Bool) :
    InStep { s with done := done } { s' with done := done } :=
  ⟨h.t, h.remBt, rfl, h.input, h.wt⟩

theorem InStep.body (h : InStep s s') :
    InStep (rrBody quantum s) (rrBody quantum s') := by
  have hpass : InStep (rrPass quantum s) (rrPass quantum s') :=
    List.foldl_rel (h.setDone true) fun i _ _ _ hstep => InStep.slice hstep i
  rw [rrBody, rrBody, rrIdle, rrIdle, ← hpass.done, ← hpass.remBt]
  split
  · refine ⟨?_, rfl, rfl, hpass.input, hpass.wt⟩
    dsimp only
    rw [hpass.t]
  · exact hpass

/-! ### Processes without a burst -/

/-- A process that has nothing to do keeps its `wt`. -/
structure Untouched (plist : Fin n → ProcessType) (i : Fin n) (s : RrState n) : Prop where
  remBt : s.remBt i ≤ 0
  wt : (s.plist i).wt = (plist i).wt

variable {plist plist' : Fin n → ProcessType} {i : Fin n}

theorem Untouched.slice (h : Untouched plist i s) (j : Fin n) :
    Untouched plist i (rrSlice quantum s j) := by
  by_cases hready : RrReady s j
  · have hne : i ≠ j := by
      intro heq
      have hpos := hready.1
      have hzero := h.remBt
      rw [heq] at hzero
      omega
    constructor
    · rw [rrSlice_remBt hready, Function.update_of_ne hne]
      exact h.remBt
    · rw [rrSlice_plist hready, if_neg fun hpair => hne hpair.1]
      exact h.wt
  · rw [rrSlice_of_not_ready hready]
    exact h

theorem Untouched.body (h : Untouched plist i s) : Untouched plist i (rrBody quantum s) := by
  have hpass : Untouched plist i (rrPass quantum s) :=
    forLoop_invariant (I := fun _ s => Untouched plist i s) ⟨h.remBt, h.wt⟩
      fun j s hs => hs.slice j
  rw [rrBody, rrIdle]
  split
  · exact ⟨hpass.remBt, hpass.wt⟩
  · exact hpass

/-! ### The whole function -/

theorem findavgTimeRR_eq_some_iff {fuel : ℕ} {out : Fin n → ProcessType} :
    findavgTimeRR fuel quantum plist = some out ↔
      ∃ s, doWhileLoop (fun s => !s.done) (rrBody quantum) fuel (rrInit plist) = some s ∧
        findTurnAroundTime s.plist = out := by
  rw [findavgTimeRR, findWaitingTimeRR, Option.map_map, Option.map_eq_some_iff]
  rfl

theorem findavgTimeRR_returns (hq : 1 ≤ quantum) (plist : Fin n → ProcessType) :
    ∃ fuel out, findavgTimeRR fuel quantum plist = some out := by
  obtain ⟨fuel, out, hout⟩ : ∃ fuel out, findWaitingTimeRR fuel quantum plist = some out :=
    findWaitingTimeRR_returns hq
  exact ⟨fuel, findTurnAroundTime out, by rw [findavgTimeRR, hout]; rfl⟩

theorem findavgTimeRR_unique {fuel fuel' : ℕ} {out out' : Fin n → ProcessType}
    (h : findavgTimeRR fuel quantum plist = some out)
    (h' : findavgTimeRR fuel' quantum plist = some out') : out = out' := by
  obtain ⟨s, hloop, rfl⟩ := findavgTimeRR_eq_some_iff.mp h
  obtain ⟨s', hloop', rfl⟩ := findavgTimeRR_eq_some_iff.mp h'
  rw [whileLoop_unique hloop hloop']

theorem findavgTimeRR_wt_of_bt_nonpos {fuel : ℕ} {out : Fin n → ProcessType}
    (h : findavgTimeRR fuel quantum plist = some out) (hbt : (plist i).bt ≤ 0) :
    (out i).wt = (plist i).wt := by
  obtain ⟨s, hloop, rfl⟩ := findavgTimeRR_eq_some_iff.mp h
  have hkept : Untouched plist i s :=
    (doWhileLoop_invariant (fun _ hs => Untouched.body hs) ⟨hbt, rfl⟩ hloop).1
  exact hkept.wt

/-- Two runs with the same fuel end together, and with the same `wt` and `tat`. -/
theorem findavgTimeRR_inStep (hq : 1 ≤ quantum) (hinput : ∀ i, SameInput (plist i) (plist' i))
    (hwt : ∀ i, (plist i).bt = 0 → (plist i).wt = (plist' i).wt) (hbt : ∀ i, 0 ≤ (plist i).bt)
    {fuel : ℕ} {out : Fin n → ProcessType} (h : findavgTimeRR fuel quantum plist = some out) :
    ∃ out', findavgTimeRR fuel quantum plist' = some out' ∧
      ∀ i, (out i).wt = (out' i).wt ∧ (out i).tat = (out' i).tat := by
  obtain ⟨s, hloop, rfl⟩ := findavgTimeRR_eq_some_iff.mp h
  have hinit : InStep (rrInit plist) (rrInit plist') := by
    refine ⟨rfl, funext fun i => (hinput i).bt, rfl, hinput, fun i => ?_⟩
    rcases (hbt i).eq_or_lt with hzero | hpos
    · exact Or.inl (hwt i hzero.symm)
    · exact Or.inr hpos
  obtain ⟨s', hloop', hstep⟩ : ∃ s', doWhileLoop (fun s => !s.done) (rrBody quantum) fuel
      (rrInit plist') = some s' ∧ InStep s s' :=
    exists_doWhileLoop_of_rel (fun _ _ hs => congrArg not hs.done) (fun _ _ hs => InStep.body hs)
      hinit hloop
  refine ⟨findTurnAroundTime s'.plist, findavgTimeRR_eq_some_iff.mpr ⟨s', hloop', rfl⟩, fun i => ?_⟩
  -- every process has finished, so no difference is left
  have hsame : (s.plist i).wt = (s'.plist i).wt :=
    (hstep.wt i).resolve_right (not_lt.mpr (remBt_nonpos_of_loop hq hloop i))
  refine ⟨hsame, ?_⟩
  show (s.plist i).bt + (s.plist i).wt = (s'.plist i).bt + (s'.plist i).wt
  rw [hsame, (hstep.input i).bt]

/-- **The file's `wt` and `tat` in round robin.**  For two lists that differ in these columns
only, the reported times are the same if and only if the processes without a burst have the
same `wt` in both. -/
theorem findavgTimeRR_reportsAlike_iff (quantum : ℤ) (plist plist' : Fin n → ProcessType)
    (hq : 1 ≤ quantum) (hbt : ∀ i, 0 ≤ (plist i).bt)
    (hinput : ∀ i, SameInput (plist i) (plist' i)) :
    ReportsAlike quantum plist plist' ↔
      ∀ i, (plist i).bt = 0 → (plist i).wt = (plist' i).wt := by
  constructor
  · intro h i hzero
    obtain ⟨fuel, out, hout⟩ := h.ends
    obtain ⟨fuel', out', hout'⟩ := h.ends'
    have hkept := findavgTimeRR_wt_of_bt_nonpos hout hzero.le
    have hkept' := findavgTimeRR_wt_of_bt_nonpos hout' ((hinput i).bt ▸ hzero.le)
    rw [← hkept, ← hkept']
    exact (h.same fuel out fuel' out' hout hout' i).1
  · intro hwt
    refine ⟨findavgTimeRR_returns hq plist, findavgTimeRR_returns hq plist', ?_⟩
    intro fuel out fuel' out' hout hout'
    obtain ⟨out'', hout'', hsame⟩ := findavgTimeRR_inStep hq hinput hwt hbt hout
    rw [findavgTimeRR_unique hout' hout'']
    exact hsame

/-- The two lists differ in processes with a burst. -/
theorem findavgTimeRR_reportsAlike_sample :
    ReportsAlike 2 ![⟨1, 3, 0, 7, 8, 1⟩, ⟨2, 0, 4, 5, 6, 1⟩]
      ![⟨1, 3, 0, -1, 0, 1⟩, ⟨2, 0, 4, 5, 0, 1⟩] :=
  (findavgTimeRR_reportsAlike_iff 2 _ _ (by decide) (by decide) (by decide)).mpr (by decide)

/-- A process without a burst, with the waiting times 0 and 5 in the file. -/
theorem zeroBurst_not_reportsAlike :
    ¬ ReportsAlike 2 ![⟨1, 0, 0, 0, 0, 1⟩] ![⟨1, 0, 0, 5, 0, 1⟩] := by
  intro h
  obtain ⟨fuel, out, hout⟩ := h.ends
  obtain ⟨fuel', out', hout'⟩ := h.ends'
  have hsame := (h.same fuel out fuel' out' hout hout' 0).1
  rw [findavgTimeRR_wt_of_bt_nonpos hout (by decide),
    findavgTimeRR_wt_of_bt_nonpos hout' (by decide)] at hsame
  exact absurd hsame (by decide)

end OsLabs.SchedSim
