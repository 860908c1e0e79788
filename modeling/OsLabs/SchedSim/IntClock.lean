import OsLabs.SchedSim.ClockRange
import OsLabs.SchedSim.Priority
import OsLabs.SchedSim.RrWaiting
import OsLabs.SchedSim.Schedules
import OsLabs.SchedSim.SrtfTogether

/-!
# The schedulers in `int`

An addition that leaves `int` is undefined, so a run that makes one has no result.  A run with a
result has that of the integers, and every process ends within `int`.  The latest arrival plus the
sum of all bursts is enough of a bound for all three algorithms; first come, first served has a
result exactly if each process, with those behind it, ends within `int` from its arrival on.
-/

namespace OsLabs.SchedSim

open OsLabs.Lib

variable {n : ℕ} {limit : ℤ}

/-! ### Results are those of the integers -/

theorem setClock_eq_some {t t' : ℤ} (h : setClock limit t = some t') : t' = t ∧ t ≤ limit := by
  unfold setClock at h
  split at h
  · rename_i hrange
    exact ⟨(Option.some.inj h).symm, hrange.2⟩
  · cases h

theorem checkInt_eq_some {x y : ℤ} (h : checkInt x = some y) : y = x := by
  unfold checkInt at h
  split at h
  · exact (Option.some.inj h).symm
  · cases h

theorem waitedInt_eq_some {t wt : ℤ} {p : ProcessType} (h : waitedInt t p = some wt) :
    wt = t - p.bt - p.art := by
  obtain ⟨first, hfirst, hsecond⟩ := Option.bind_eq_some_iff.mp h
  rw [checkInt_eq_some hsecond, checkInt_eq_some hfirst]

theorem fcfsStepInt_eq_some {s s' : FcfsState n} {i : Fin n} (h : fcfsStepInt limit s i = some s') :
    s' = fcfsStep s i ∧ s'.t ≤ limit := by
  obtain ⟨t, ht, hrest⟩ := Option.bind_eq_some_iff.mp h
  obtain ⟨wt, hwt, hrest⟩ := Option.bind_eq_some_iff.mp hrest
  obtain ⟨t', ht', hs'⟩ := Option.bind_eq_some_iff.mp hrest
  obtain ⟨rfl, hle⟩ := setClock_eq_some ht'
  obtain rfl := checkInt_eq_some hwt
  have hbegin : t = if s.t < (s.plist i).art then (s.plist i).art else s.t := by
    split at ht
    · rename_i hearly
      rw [if_pos hearly, (setClock_eq_some ht).1]
    · rename_i hlate
      rw [if_neg hlate]
      exact (Option.some.inj ht).symm
  obtain rfl := Option.some.inj hs'
  exact ⟨by rw [hbegin]; rfl, hle⟩

theorem sjfBodyInt_eq_some {s s' : SjfState n} (h : sjfBodyInt limit s = some s') :
    s' = sjfBody s ∧ s.t + 1 ≤ limit := by
  rw [sjfBodyInt] at h
  rw [sjfBody]
  cases hsel : (selectMin s.plist s.remBt s.t).2 with
  | none =>
    rw [hsel] at h
    obtain ⟨t, ht, hs'⟩ := Option.bind_eq_some_iff.mp h
    obtain ⟨rfl, hle⟩ := setClock_eq_some ht
    exact ⟨(Option.some.inj hs').symm, hle⟩
  | some i =>
    rw [hsel] at h
    obtain ⟨rem, hrem, hrest⟩ := Option.bind_eq_some_iff.mp h
    obtain ⟨t, ht, hs'⟩ := Option.bind_eq_some_iff.mp hrest
    obtain rfl := checkInt_eq_some hrem
    obtain ⟨rfl, hle⟩ := setClock_eq_some ht
    dsimp only at hs' ⊢
    refine ⟨?_, hle⟩
    split at hs'
    · rename_i hzero
      obtain ⟨wt, hwt, hs'⟩ := Option.bind_eq_some_iff.mp hs'
      obtain rfl := waitedInt_eq_some hwt
      rw [if_pos hzero]
      exact (Option.some.inj hs').symm
    · rename_i hleft
      rw [if_neg hleft]
      exact (Option.some.inj hs').symm

theorem rrSliceInt_eq_some {quantum : ℤ} {s s' : RrState n} {i : Fin n}
    (h : rrSliceInt limit quantum s i = some s') :
    s' = rrSlice quantum s i ∧ (RrReady s i → s'.t ≤ limit) := by
  unfold rrSliceInt at h
  unfold rrSlice
  split at h
  · rename_i hready
    rw [if_pos hready]
    split at h
    · rename_i hlong
      obtain ⟨t, ht, hrest⟩ := Option.bind_eq_some_iff.mp h
      obtain ⟨rem, hrem, hs'⟩ := Option.bind_eq_some_iff.mp hrest
      obtain ⟨rfl, hle⟩ := setClock_eq_some ht
      obtain rfl := checkInt_eq_some hrem
      obtain rfl := Option.some.inj hs'
      rw [if_pos hlong]
      exact ⟨rfl, fun _ => hle⟩
    · rename_i hlast
      obtain ⟨t, ht, hrest⟩ := Option.bind_eq_some_iff.mp h
      obtain ⟨wt, hwt, hs'⟩ := Option.bind_eq_some_iff.mp hrest
      obtain ⟨rfl, hle⟩ := setClock_eq_some ht
      obtain rfl := waitedInt_eq_some hwt
      obtain rfl := Option.some.inj hs'
      rw [if_neg hlast]
      exact ⟨rfl, fun _ => hle⟩
  · rename_i hnot
    rw [if_neg hnot]
    exact ⟨(Option.some.inj h).symm, fun hready => absurd hready hnot⟩

theorem rrPassInt_eq_some {quantum : ℤ} {s s' : RrState n}
    (h : (List.finRange n).foldlM (rrSliceInt limit quantum) { s with done := true } = some s') :
    s' = rrPass quantum s :=
  (forLoop_of_foldlM (fun _ _ _ hslice => (rrSliceInt_eq_some hslice).1) h).1

theorem rrIdleInt_eq_some {s s' : RrState n} (h : rrIdleInt limit s = some s') : s' = rrIdle s := by
  unfold rrIdleInt at h
  unfold rrIdle
  split at h
  · rename_i hidle
    obtain ⟨t, ht, hs'⟩ := Option.bind_eq_some_iff.mp h
    obtain ⟨rfl, -⟩ := setClock_eq_some ht
    rw [if_pos hidle]
    exact (Option.some.inj hs').symm
  · rename_i hbusy
    rw [if_neg hbusy]
    exact (Option.some.inj h).symm

theorem rrBodyInt_eq_some {quantum : ℤ} {s s' : RrState n}
    (h : rrBodyInt limit quantum s = some s') : s' = rrBody quantum s := by
  obtain ⟨u, hu, hidle⟩ := Option.bind_eq_some_iff.mp h
  rw [rrIdleInt_eq_some hidle, rrPassInt_eq_some hu]
  rfl

variable {plist out : Fin n → ProcessType} {fuel : ℕ} {quantum : ℤ}

theorem findWaitingTimeInt_eq_some (h : findWaitingTimeInt limit plist = some out) :
    out = findWaitingTime plist := by
  obtain ⟨s, hloop, rfl⟩ := Option.map_eq_some_iff.mp h
  rw [(forLoop_of_foldlM (fun _ _ _ hstep => (fcfsStepInt_eq_some hstep).1) hloop).1]
  rfl

theorem findWaitingTimeSJFInt_eq_some (h : findWaitingTimeSJFInt limit fuel plist = some out) :
    findWaitingTimeSJF fuel plist = some out := by
  obtain ⟨s, hloop, rfl⟩ := Option.map_eq_some_iff.mp h
  rw [findWaitingTimeSJF, whileLoop_of_whileLoopM (fun _ _ hbody => (sjfBodyInt_eq_some hbody).1)
    hloop]
  rfl

/-- The first pass of round robin, and the loop behind it. -/
theorem rrLoopInt_eq_some {s t : RrState n}
    (hfirst : rrBodyInt limit quantum (rrInit plist) = some s)
    (hloop : whileLoopM (fun s => some (!s.done)) (rrBodyInt limit quantum) fuel s = some t) :
    doWhileLoop (fun s => !s.done) (rrBody quantum) fuel (rrInit plist) = some t := by
  rw [doWhileLoop, ← rrBodyInt_eq_some hfirst]
  exact whileLoop_of_whileLoopM (fun _ _ hbody => rrBodyInt_eq_some hbody) hloop

theorem findWaitingTimeRRInt_eq_some
    (h : findWaitingTimeRRInt limit fuel quantum plist = some out) :
    findWaitingTimeRR fuel quantum plist = some out := by
  obtain ⟨s, hfirst, hrest⟩ := Option.bind_eq_some_iff.mp h
  obtain ⟨t, hloop, rfl⟩ := Option.map_eq_some_iff.mp hrest
  rw [findWaitingTimeRR, rrLoopInt_eq_some hfirst hloop]
  rfl

theorem findTurnAroundTimeInt_eq_some {waited : Fin n → ProcessType}
    (h : findTurnAroundTimeInt waited = some out) : out = findTurnAroundTime waited := by
  have hbody : ∀ (current : Fin n → ProcessType) i next, (do
      let tat ← addInt (current i).bt (current i).wt
      return Function.update current i { current i with tat := tat }) = some next →
      next = turnAroundStep current i := by
    intro current i next hnext
    obtain ⟨tat, htat, hnext⟩ := Option.bind_eq_some_iff.mp hnext
    obtain rfl := checkInt_eq_some htat
    exact (Option.some.inj hnext).symm
  rw [(forLoop_of_foldlM hbody h).1]
  have hall : TurnedAround waited n (forLoop turnAroundStep waited) :=
    forLoop_invariant (turnedAround_zero waited) fun _ _ => TurnedAround.step
  funext j
  rw [hall j, if_pos j.isLt]

/-! ### Every process ends within the limit -/

/-- The processes that have no time left have ended by the limit. -/
def EndedBy (limit : ℤ) (current : Fin n → ProcessType) (remBt : Fin n → ℤ) : Prop :=
  ∀ j, remBt j ≤ 0 → reportedCompletion (current j) ≤ limit

/-- Process `i` runs for `d` ticks, and its `wt` is written if that is all it needed. -/
theorem EndedBy.run {current current' : Fin n → ProcessType} {remBt : Fin n → ℤ} {t d : ℤ}
    {i : Fin n} (h : EndedBy limit current remBt) (hle : d ≤ remBt i) (hend : t + d ≤ limit)
    (hcurrent : ∀ j, current' j = if j = i ∧ remBt i ≤ d then
      { current j with wt := t + remBt i - (current j).bt - (current j).art } else current j) :
    EndedBy limit current' (Function.update remBt i (remBt i - d)) := by
  intro j hj
  rw [hcurrent]
  by_cases hji : j = i
  · subst hji
    rw [Function.update_self] at hj
    rw [if_pos ⟨rfl, by omega⟩, reportedCompletion]
    dsimp only
    omega
  · rw [Function.update_of_ne hji] at hj
    rw [if_neg fun hpair => hji hpair.1]
    exact h j hj

theorem EndedBy.tick {s s' : SjfState n} (h : EndedBy limit s.plist s.remBt)
    (hbody : sjfBodyInt limit s = some s') : EndedBy limit s'.plist s'.remBt := by
  obtain ⟨rfl, hend⟩ := sjfBodyInt_eq_some hbody
  cases hchoice : sjfChoice s with
  | none =>
    rw [sjfBody_of_none hchoice]
    exact h
  | some i =>
    have hpos := (selectMin_some _ _ _ hchoice).1.2.1
    obtain ⟨hrem, hplist⟩ := sjfBody_of_some hchoice
    rw [hrem]
    exact h.run hpos hend hplist

theorem EndedBy.slice {s s' : RrState n} {i : Fin n} (h : EndedBy limit s.plist s.remBt)
    (hslice : rrSliceInt limit quantum s i = some s') : EndedBy limit s'.plist s'.remBt := by
  obtain ⟨rfl, hend⟩ := rrSliceInt_eq_some hslice
  by_cases hready : RrReady s i
  · have hend := hend hready
    rw [rrSlice_t hready] at hend
    rw [rrSlice_remBt hready]
    refine h.run (min_le_right _ _) hend fun j => ?_
    have hlast : s.remBt i ≤ sliceOf quantum s i ↔ s.remBt i ≤ quantum := by
      rw [sliceOf, le_min_iff, and_iff_left le_rfl]
    simp only [rrSlice_plist hready, hlast]
  · rw [rrSlice_of_not_ready hready]
    exact h

theorem EndedBy.round {s s' : RrState n} (h : EndedBy limit s.plist s.remBt)
    (hbody : rrBodyInt limit quantum s = some s') : EndedBy limit s'.plist s'.remBt := by
  obtain ⟨u, hpass, hidle⟩ := Option.bind_eq_some_iff.mp hbody
  have hu : EndedBy limit u.plist u.remBt :=
    foldlM_invariant (I := fun s : RrState n => EndedBy limit s.plist s.remBt)
      (s := { s with done := true }) (fun _ _ _ hs hslice => hs.slice hslice) h hpass
  obtain rfl := rrIdleInt_eq_some hidle
  rw [rrIdle]
  split
  · exact hu
  · exact hu

section Bursts

variable (hbt : ∀ i, 1 ≤ (plist i).bt)

include hbt

theorem endedBy_init : EndedBy limit plist fun i => (plist i).bt := by
  intro i hi
  exact absurd hi (not_le.mpr (hbt i))

theorem reportedCompletion_le_of_sjfInt
    (h : findWaitingTimeSJFInt limit fuel plist = some out) (i : Fin n) :
    reportedCompletion (out i) ≤ limit := by
  have hunchecked := findWaitingTimeSJFInt_eq_some h
  obtain ⟨s, hloop, rfl⟩ := Option.map_eq_some_iff.mp h
  have hend := whileLoopM_invariant (I := fun s : SjfState n => EndedBy limit s.plist s.remBt)
    (fun _ _ hs hbody => hs.tick hbody) (endedBy_init hbt) hloop
  have hexact := whileLoop_of_whileLoopM (fun _ _ hbody => (sjfBodyInt_eq_some hbody).1) hloop
  obtain ⟨k, -, rfl, -, hguard⟩ := whileLoop_eq_some_iff.mp hexact
  exact hend i ((sjfGuard_eq_false_iff plist k).mp hguard i).1.le

theorem reportedCompletion_le_of_rrInt (hq : 1 ≤ quantum)
    (h : findWaitingTimeRRInt limit fuel quantum plist = some out) (i : Fin n) :
    reportedCompletion (out i) ≤ limit := by
  obtain ⟨s, hfirst, hrest⟩ := Option.bind_eq_some_iff.mp h
  obtain ⟨t, hloop, rfl⟩ := Option.map_eq_some_iff.mp hrest
  have hend := whileLoopM_invariant (I := fun s : RrState n => EndedBy limit s.plist s.remBt)
    (fun _ _ hs hbody => hs.round hbody) ((endedBy_init hbt).round (s := rrInit plist) hfirst) hloop
  exact hend i (remBt_nonpos_of_loop hq (rrLoopInt_eq_some hfirst hloop) i)

end Bursts

/-! ### First come, first served -/

/-- `findavgTimeFCFS`, without what it prints. -/
def findavgTimeFCFSInt (plist : Fin n → ProcessType) : Option (Fin n → ProcessType) :=
  (findWaitingTimeInt INT_MAX plist).bind findTurnAroundTimeInt

/-- Each process, with those behind it, ends within `int` from its arrival on. -/
def EndsInInt (plist : Fin n → ProcessType) : Prop :=
  ∀ m, (plist m).art + ∑ l ∈ Finset.Ici m, (plist l).bt ≤ INT_MAX

theorem endFrom_all (plist : Fin n → ProcessType) (m : Fin n) :
    endFrom plist m n = (plist m).art + ∑ l ∈ Finset.Ici m, (plist l).bt := by
  have hset : (Finset.univ.filter fun l : Fin n => m ≤ l ∧ (l : ℕ) < n) = Finset.Ici m := by
    ext l
    simp only [Finset.mem_filter, Finset.mem_univ, true_and, Finset.mem_Ici, l.isLt, and_true]
  rw [endFrom, hset]

theorem fcfsAt_plist_self (plist : Fin n → ProcessType) (i : Fin n) :
    (fcfsAt plist i).plist i = plist i := by
  rw [fcfsAt_plist plist i.isLt.le, if_neg (lt_irrefl _)]

/-- An iteration in terms of the start of its process. -/
theorem fcfsAt_succ_eq (plist : Fin n → ProcessType) (i : Fin n) :
    fcfsAt plist (i + 1) =
      ⟨Function.update (fcfsAt plist i).plist i
          { plist i with wt := fcfsStart plist i - (plist i).art },
        fcfsStart plist i + (plist i).bt⟩ := by
  rw [fcfsAt_succ, fcfsStep, fcfsAt_plist_self, fcfsStart, max_def_lt]
  rfl

section Admissible

variable (hart : ∀ i, 0 ≤ (plist i).art) (hbt : ∀ i, 1 ≤ (plist i).bt)

include hart hbt

/-- The last value of the clock is the latest of these ends. -/
theorem fcfsClock_le_iff : fcfsClock plist n ≤ INT_MAX ↔ EndsInInt plist := by
  rw [← not_lt, ← Int.add_one_le_iff, le_fcfsClock_iff hart hbt le_rfl]
  constructor
  · intro hnot m
    by_contra hlate
    exact hnot (Or.inr ⟨m, m.isLt, by rw [endFrom_all]; omega⟩)
  · rintro hends (hzero | ⟨m, -, hlate⟩)
    · rw [INT_MAX] at hzero
      omega
    · have := hends m
      rw [endFrom_all] at hlate
      omega

/-- No iteration overflows if the last clock is in range. -/
theorem fcfsStepInt_fcfsAt (hclock : fcfsClock plist n ≤ INT_MAX) (i : Fin n) :
    fcfsStepInt INT_MAX (fcfsAt plist i) i = some (fcfsAt plist (i + 1)) := by
  have hlast : fcfsClock plist (i + 1) ≤ INT_MAX := (fcfsClock_mono hbt i.isLt).trans hclock
  have hfirst : 0 ≤ fcfsClock plist i := fcfsClock_mono hbt (Nat.zero_le i)
  have hend := fcfsClock_succ plist i
  have hlate : fcfsClock plist i ≤ fcfsStart plist i := le_max_left _ _
  have harrived : (plist i).art ≤ fcfsStart plist i := le_max_right _ _
  have ha := hart i
  have hb := hbt i
  have hset : ∀ t, 0 ≤ t → t ≤ INT_MAX → setClock INT_MAX t = some t := by
    intro t hnonneg hle
    rw [INT_MAX] at hle
    exact if_pos ⟨by constructor <;> omega, hle⟩
  have hbegin : (if (fcfsAt plist i).t < (plist i).art then setClock INT_MAX (plist i).art
      else some (fcfsAt plist i).t) = some (fcfsStart plist i) := by
    rw [fcfsStart, max_def_lt]
    show (if fcfsClock plist i < (plist i).art then _ else some (fcfsClock plist i)) = _
    split
    · exact hset _ ha (by omega)
    · rfl
  have hwt : InInt (fcfsStart plist i - (plist i).art) := by
    rw [INT_MAX] at hlast
    constructor <;> omega
  rw [fcfsStepInt, fcfsAt_plist_self, hbegin, Option.bind_eq_bind, Option.bind_some,
    subInt_of_inInt hwt, Option.bind_some, hset _ (by omega) (by omega), fcfsAt_succ_eq]
  rfl

theorem findWaitingTimeInt_of_endsInInt (h : EndsInInt plist) :
    findWaitingTimeInt INT_MAX plist = some (findWaitingTime plist) := by
  have hclock := (fcfsClock_le_iff hart hbt).mpr h
  have hloop : (List.finRange n).foldlM (fcfsStepInt INT_MAX) ⟨plist, 0⟩ =
      some (forLoop fcfsStep ⟨plist, 0⟩) :=
    foldlM_finRange_eq_forLoop (I := fun k s => s = fcfsAt plist k)
      (fun i s hs => by rw [hs, fcfsAt_succ])
      (fun i s hs => by rw [hs, fcfsStepInt_fcfsAt hart hbt hclock, fcfsAt_succ]) rfl
  rw [findWaitingTimeInt, hloop]
  rfl

theorem endsInInt_of_findWaitingTimeInt (h : findWaitingTimeInt INT_MAX plist = some out) :
    EndsInInt plist := by
  rw [← fcfsClock_le_iff hart hbt]
  obtain ⟨s, hloop, -⟩ := Option.map_eq_some_iff.mp h
  have hsteps := (forLoop_of_foldlM (fun _ _ _ hstep => (fcfsStepInt_eq_some hstep).1) hloop).2
  cases n with
  | zero =>
    rw [fcfsClock_zero, INT_MAX]
    decide
  | succ n => exact (fcfsStepInt_eq_some (hsteps (Fin.last n))).2

/-- The function has its result over the integers if every clock is in range, and otherwise
none. -/
theorem findavgTimeFCFSInt_eq_some_iff :
    findavgTimeFCFSInt plist = some out ↔ EndsInInt plist ∧ out = findavgTimeFCFS plist := by
  constructor
  · intro h
    obtain ⟨waited, hwaited, hturned⟩ := Option.bind_eq_some_iff.mp h
    refine ⟨endsInInt_of_findWaitingTimeInt hart hbt hwaited, ?_⟩
    rw [findTurnAroundTimeInt_eq_some hturned, findWaitingTimeInt_eq_some hwaited]
    rfl
  · rintro ⟨hends, rfl⟩
    have hclock := (fcfsClock_le_iff hart hbt).mpr hends
    rw [findavgTimeFCFSInt, findWaitingTimeInt_of_endsInInt hart hbt hends, Option.bind_some]
    refine findTurnAroundTimeInt_eq le_rfl fun i => ?_
    have hlast := fcfsClock_mono hbt (show (i : ℕ) + 1 ≤ n from i.isLt)
    have harrived : (plist i).art ≤ fcfsStart plist i := le_max_right _ _
    have ha := hart i
    have hb := hbt i
    rw [fcfsClock_succ] at hlast
    rw [findWaitingTime_apply]
    unfold InTime
    dsimp only
    rw [INT_MAX] at hclock ⊢
    constructor <;> omega

end Admissible

/-- **First come, first served.**  `findavgTimeFCFS` has a result, and one that serves in the
order of the arrivals, if and only if the list is already in this order and no clock overflows. -/
theorem findavgTimeFCFSInt_inArrivalOrder_iff (plist : Fin n → ProcessType)
    (hart : ∀ i, 0 ≤ (plist i).art) (hbt : ∀ i, 1 ≤ (plist i).bt) :
    (∃ out, findavgTimeFCFSInt plist = some out ∧ ServesInArrivalOrder out) ↔
      (∀ i j, i < j → (plist i).art ≤ (plist j).art) ∧ EndsInInt plist := by
  simp only [findavgTimeFCFSInt_eq_some_iff hart hbt]
  rw [← findavgTimeFCFS_inArrivalOrder_iff plist hbt]
  constructor
  · rintro ⟨out, ⟨hends, rfl⟩, hserves⟩
    exact ⟨hserves, hends⟩
  · rintro ⟨hserves, hends⟩
    exact ⟨_, ⟨hends, rfl⟩, hserves⟩

/-- The processes of `input1.txt`, in the order of their arrivals. -/
def sortedArrivals : Fin 4 → ProcessType :=
  ![⟨1, 6, 1, 0, 0, 0⟩, ⟨2, 8, 1, 0, 0, 0⟩, ⟨3, 7, 2, 0, 0, 0⟩, ⟨4, 3, 3, 0, 0, 0⟩]

theorem findavgTimeFCFSInt_inArrivalOrder_sample :
    ∃ out, findavgTimeFCFSInt sortedArrivals = some out ∧ ServesInArrivalOrder out := by
  have hends : EndsInInt sortedArrivals := by
    unfold EndsInInt
    decide
  exact (findavgTimeFCFSInt_inArrivalOrder_iff sortedArrivals (by decide) (by decide)).mpr
    ⟨by decide, hends⟩

/-- Two lines of `input2.txt`, the second of which arrives before the first. -/
def unsortedArrivals : Fin 2 → ProcessType := ![⟨4, 9, 10, 0, 0, 0⟩, ⟨5, 2, 0, 0, 0, 2⟩]

/-- Sorted by arrival, but the second process ends behind `INT_MAX`. -/
def longBursts : Fin 3 → ProcessType :=
  ![⟨1, 2000000000, 0, 0, 0, 3⟩, ⟨2, 2000000000, 1, 0, 0, 2⟩, ⟨3, 1, 2, 0, 0, 1⟩]

theorem unsortedArrivals_not_inArrivalOrder :
    (∃ out, findavgTimeFCFSInt unsortedArrivals = some out ∧ ¬ ServesInArrivalOrder out) ∧
      ∀ out, findavgTimeFCFSInt longBursts ≠ some out := by
  constructor
  · have hends : EndsInInt unsortedArrivals := by
      unfold EndsInInt
      decide
    refine ⟨_, (findavgTimeFCFSInt_eq_some_iff (by decide) (by decide)).mpr ⟨hends, rfl⟩, ?_⟩
    intro h
    exact absurd (h 1 0 (by decide)) (by decide)
  · intro out h
    have hends := ((findavgTimeFCFSInt_eq_some_iff (by decide) (by decide)).mp h).1 0
    revert hends
    decide

/-! ### Priority scheduling -/

/-- `findavgTimePriority`, without what it prints. -/
def findavgTimePriorityInt (qsort : (Fin n → ProcessType) → Fin n → ProcessType)
    (plist : Fin n → ProcessType) : Option (Fin n → ProcessType) :=
  (findWaitingTimeInt INT_MAX (qsort plist)).bind findTurnAroundTimeInt

/-- **Priority dispatch.**  Whatever permutation `qsort` chooses among those that the comparator
allows, `findavgTimePriority` has a result, and one that dispatches the best process that has
arrived and is never idle in vain, if and only if no process of the sorted list has to be waited
for while one behind it is there, and no clock overflows. -/
theorem findavgTimePriorityInt_dispatchesBest_iff
    (qsort : (Fin n → ProcessType) → Fin n → ProcessType) (plist : Fin n → ProcessType)
    (hqsort : QsortSpec myComparer plist (qsort plist))
    (hart : ∀ i, 0 ≤ (plist i).art) (hbt : ∀ i, 1 ≤ (plist i).bt)
    (hpri : ∀ i j, InInt ((plist j).pri - (plist i).pri)) :
    (∃ out, findavgTimePriorityInt qsort plist = some out ∧ DispatchesBest out) ↔
      BusyUntilArrival (qsort plist) ∧ EndsInInt (qsort plist) := by
  rw [← findavgTimePriority_dispatchesBest_iff qsort plist hqsort hart hbt hpri]
  obtain ⟨⟨σ, hσ⟩, -⟩ := hqsort
  have hart' : ∀ i, 0 ≤ (qsort plist i).art := by
    intro i
    rw [hσ]
    exact hart (σ i)
  have hbt' : ∀ i, 1 ≤ (qsort plist i).bt := by
    intro i
    rw [hσ]
    exact hbt (σ i)
  have hresult : ∀ out, findavgTimePriorityInt qsort plist = some out ↔
      EndsInInt (qsort plist) ∧ out = findavgTimePriority qsort plist :=
    fun out => findavgTimeFCFSInt_eq_some_iff hart' hbt'
  simp only [hresult]
  constructor
  · rintro ⟨out, ⟨hends, rfl⟩, hdispatch⟩
    exact ⟨hdispatch, hends⟩
  · rintro ⟨hdispatch, hends⟩
    exact ⟨_, ⟨hends, rfl⟩, hdispatch⟩

theorem findavgTimePriorityInt_dispatchesBest_sample :
    ∃ out, findavgTimePriorityInt insertionSorted busyPriorities = some out ∧
      DispatchesBest out := by
  have hqsort : QsortSpec myComparer busyPriorities (insertionSorted busyPriorities) :=
    ⟨⟨Equiv.swap 0 1, by decide⟩, by decide⟩
  have hbusy : BusyUntilArrival (insertionSorted busyPriorities) := by
    unfold BusyUntilArrival
    decide
  have hends : EndsInInt (insertionSorted busyPriorities) := by
    unfold EndsInInt
    decide
  exact (findavgTimePriorityInt_dispatchesBest_iff insertionSorted busyPriorities hqsort
    (by decide) (by decide) (by decide)).mpr ⟨hbusy, hends⟩

/-- In the one list the processor is idle at time 0, when the other process is there; in the
other one the clock overflows. -/
theorem latePriority_not_dispatchesBest :
    QsortSpec myComparer latePriority (insertionSorted latePriority) ∧
      (∃ out, findavgTimePriorityInt insertionSorted latePriority = some out ∧
        ¬ DispatchesBest out) ∧
      QsortSpec myComparer longBursts (insertionSorted longBursts) ∧
        ∀ out, findavgTimePriorityInt insertionSorted longBursts ≠ some out := by
  refine ⟨⟨⟨Equiv.swap 0 1, by decide⟩, by decide⟩, ?_, ⟨⟨1, by decide⟩, by decide⟩, ?_⟩
  · have hends : EndsInInt (insertionSorted latePriority) := by
      unfold EndsInInt
      decide
    refine ⟨_, (@findavgTimeFCFSInt_eq_some_iff _ (insertionSorted latePriority) _
      (by decide) (by decide)).mpr ⟨hends, rfl⟩, fun h => ?_⟩
    exact absurd (h.busy 0 1 (by decide) (by decide)) (by decide)
  · intro out h
    have hends := ((@findavgTimeFCFSInt_eq_some_iff _ (insertionSorted longBursts) out
      (by decide) (by decide)).mp h).1 0
    revert hends
    decide

/-! ### The preemptive policies -/

section Returns

variable (hart : ∀ i, 0 ≤ (plist i).art) (hlimit : clockLimit plist ≤ INT_MAX)

include hart hlimit

theorem findWaitingTimeSJFInt_returns (hbt : ∀ i, 1 ≤ (plist i).bt ∧ (plist i).bt < INT_MAX) :
    ∃ fuel out, findWaitingTimeSJFInt INT_MAX fuel plist = some out := by
  obtain ⟨fuel, out, hout⟩ := findWaitingTimeSJF_returns hart hbt
  refine ⟨fuel, out, ?_⟩
  rw [findWaitingTimeSJFInt_eq hart (fun i => (hbt i).1) hlimit le_rfl fun i => (hbt i).2]
  exact hout

theorem findWaitingTimeRRInt_returns (hbt : ∀ i, 1 ≤ (plist i).bt) (hq : 1 ≤ quantum) :
    ∃ fuel out, findWaitingTimeRRInt INT_MAX fuel quantum plist = some out := by
  obtain ⟨fuel, out, hout⟩ : ∃ fuel out, findWaitingTimeRR fuel quantum plist = some out :=
    findWaitingTimeRR_returns hq
  refine ⟨fuel, out, ?_⟩
  rw [findWaitingTimeRRInt_eq hart hbt hlimit le_rfl hq]
  exact hout

end Returns

/-- **SRTF and round robin have the same makespan**, whatever the quantum, if neither of them
overflows, and neither does if the latest arrival and all bursts add up to an `int`. -/
theorem makespan_srtfInt_eq_rrInt (plist : Fin (n + 1) → ProcessType) (quantum : ℤ)
    (hart : ∀ i, 0 ≤ (plist i).art) (hbt : ∀ i, 1 ≤ (plist i).bt ∧ (plist i).bt < INT_MAX)
    (hq : 1 ≤ quantum) :
    (clockLimit plist ≤ INT_MAX →
        (∃ fuel srtf, findWaitingTimeSJFInt INT_MAX fuel plist = some srtf) ∧
          ∃ fuel rr, findWaitingTimeRRInt INT_MAX fuel quantum plist = some rr) ∧
      ∀ fuel srtf fuel' rr, findWaitingTimeSJFInt INT_MAX fuel plist = some srtf →
        findWaitingTimeRRInt INT_MAX fuel' quantum plist = some rr →
          makespan srtf = makespan rr := by
  constructor
  · intro hlimit
    exact ⟨findWaitingTimeSJFInt_returns hart hlimit hbt,
      findWaitingTimeRRInt_returns hart hlimit (fun i => (hbt i).1) hq⟩
  · intro fuel srtf fuel' rr hsrtf hrr
    exact (makespan_srtf_eq_rr plist quantum hart hbt hq).2.2 fuel srtf fuel' rr
      (findWaitingTimeSJFInt_eq_some hsrtf) (findWaitingTimeRRInt_eq_some hrr)

theorem makespan_srtfInt_eq_rrInt_three :
    ((∃ fuel srtf, findWaitingTimeSJFInt INT_MAX fuel threeProcesses = some srtf) ∧
        ∃ fuel rr, findWaitingTimeRRInt INT_MAX fuel 2 threeProcesses = some rr) ∧
      ∀ fuel srtf fuel' rr, findWaitingTimeSJFInt INT_MAX fuel threeProcesses = some srtf →
        findWaitingTimeRRInt INT_MAX fuel' 2 threeProcesses = some rr →
          makespan srtf = makespan rr := by
  have h := makespan_srtfInt_eq_rrInt threeProcesses 2 (by decide) (by decide) (by decide)
  exact ⟨h.1 (by decide), h.2⟩

/-- **Bounded waiting.**  If round robin does not overflow, no process waits longer than for one
quantum of each of the others before each of the quanta that it needs. -/
theorem findWaitingTimeRRInt_wt_le (plist : Fin n → ProcessType) (quantum : ℤ)
    (hart : ∀ i, 0 ≤ (plist i).art) (hbt : ∀ i, 1 ≤ (plist i).bt) (hq : 1 ≤ quantum) :
    (clockLimit plist ≤ INT_MAX →
        ∃ fuel out, findWaitingTimeRRInt INT_MAX fuel quantum plist = some out) ∧
      ∀ fuel out, findWaitingTimeRRInt INT_MAX fuel quantum plist = some out →
        ∀ i, 0 ≤ (out i).wt ∧
          (out i).wt ≤ ⌈((plist i).bt : ℚ) / quantum⌉ * (n - 1) * quantum := by
  refine ⟨fun hlimit => findWaitingTimeRRInt_returns hart hlimit hbt hq, fun fuel out hout => ?_⟩
  exact (findWaitingTimeRR_wt_le plist quantum hart hbt hq).2 fuel out
    (findWaitingTimeRRInt_eq_some hout)

/-- The last process arrives in the middle of a pass that has gone by it. -/
theorem findWaitingTimeRRInt_wt_le_sample :
    let plist : Fin 3 → ProcessType :=
      ![⟨1, 5, 0, 0, 0, 0⟩, ⟨2, 3, 1, 0, 0, 0⟩, ⟨3, 4, 3, 0, 0, 0⟩]
    (∃ fuel out, findWaitingTimeRRInt INT_MAX fuel 2 plist = some out) ∧
      ∀ fuel out, findWaitingTimeRRInt INT_MAX fuel 2 plist = some out →
        ∀ i, 0 ≤ (out i).wt ∧
          (out i).wt ≤ ⌈((plist i).bt : ℚ) / (2 : ℤ)⌉ * ((3 : ℕ) - 1) * 2 := by
  intro plist
  have h := findWaitingTimeRRInt_wt_le plist 2 (by decide) (by decide) (by decide)
  exact ⟨h.1 (by decide), h.2⟩

/-- **SRTF with simultaneous arrivals.**  If the loop does not overflow, each process has waited
for the bursts that are shorter than its own and for equal ones that come before it in the
list. -/
theorem findWaitingTimeSJFInt_together (plist : Fin n → ProcessType) (a : ℤ) (ha : 0 ≤ a)
    (hart : ∀ i, (plist i).art = a) (hbt : ∀ i, 1 ≤ (plist i).bt ∧ (plist i).bt < INT_MAX) :
    (clockLimit plist ≤ INT_MAX →
        ∃ fuel out, findWaitingTimeSJFInt INT_MAX fuel plist = some out) ∧
      ∀ fuel out, findWaitingTimeSJFInt INT_MAX fuel plist = some out →
        ∀ i, (out i).wt = ∑ j with
          (plist j).bt < (plist i).bt ∨ (plist j).bt = (plist i).bt ∧ j < i, (plist j).bt := by
  constructor
  · intro hlimit
    exact findWaitingTimeSJFInt_returns (fun i => (hart i).symm ▸ ha) hlimit hbt
  · intro fuel out hout
    exact (findWaitingTimeSJF_together plist a ha hart hbt).2 fuel out
      (findWaitingTimeSJFInt_eq_some hout)

/-- Two of four bursts are equal. -/
theorem findWaitingTimeSJFInt_together_sample :
    let plist : Fin 4 → ProcessType :=
      ![⟨1, 4, 2, 0, 0, 0⟩, ⟨2, 2, 2, 0, 0, 0⟩, ⟨3, 4, 2, 0, 0, 0⟩, ⟨4, 1, 2, 0, 0, 0⟩]
    (∃ fuel out, findWaitingTimeSJFInt INT_MAX fuel plist = some out) ∧
      ∀ fuel out, findWaitingTimeSJFInt INT_MAX fuel plist = some out →
        ∀ i, (out i).wt = ∑ j with
          (plist j).bt < (plist i).bt ∨ (plist j).bt = (plist i).bt ∧ j < i, (plist j).bt := by
  intro plist
  have h := findWaitingTimeSJFInt_together plist 2 (by decide) (by decide) (by decide)
  exact ⟨h.1 (by decide), h.2⟩

/-! ### Two long bursts -/

/-- The second process ends at 4000000000. -/
def twoLong : Fin 2 → ProcessType :=
  ![⟨1, 2000000000, 0, 0, 0, 0⟩, ⟨2, 2000000000, 0, 0, 0, 0⟩]

/-- The loop of SRTF overflows. -/
theorem findWaitingTimeSJFInt_twoLong (fuel : ℕ) (out : Fin 2 → ProcessType) :
    findWaitingTimeSJFInt INT_MAX fuel twoLong ≠ some out := by
  intro h
  have hunchecked := findWaitingTimeSJFInt_eq_some h
  have hwt := (findWaitingTimeSJF_together twoLong 0 le_rfl (by decide) (by decide)).2 fuel out
    hunchecked 1
  have hwaited : (out 1).wt = 2000000000 := hwt.trans (by decide)
  have hend := reportedCompletion_le_of_sjfInt (by decide) h 1
  obtain ⟨σ, -, hfields⟩ := findWaitingTimeSJF_schedule (by decide) (by decide) hunchecked
  rw [reportedCompletion, (hfields 1).1, (hfields 1).2.1, hwaited] at hend
  revert hend
  decide

/-- The loop of round robin overflows. -/
theorem findWaitingTimeRRInt_twoLong (fuel : ℕ) (out : Fin 2 → ProcessType) :
    findWaitingTimeRRInt INT_MAX fuel 1000000000 twoLong ≠ some out := by
  intro h
  have hunchecked := findWaitingTimeRRInt_eq_some h
  obtain ⟨s, hloop, rfl⟩ := Option.map_eq_some_iff.mp hunchecked
  have hrun : (doWhileLoop (fun s => !s.done) (rrBody 1000000000) 4 (rrInit twoLong)).map
      (fun s => reportedCompletion (s.plist 1)) = some 4000000000 := by decide
  obtain ⟨t, ht, hcompletion⟩ := Option.map_eq_some_iff.mp hrun
  obtain rfl := whileLoop_unique hloop ht
  have hend := reportedCompletion_le_of_rrInt (by decide) (by decide) h 1
  rw [hcompletion] at hend
  revert hend
  decide

theorem twoLong_no_makespan :
    (∀ i, 0 ≤ (twoLong i).art ∧ 1 ≤ (twoLong i).bt ∧ (twoLong i).bt < INT_MAX) ∧
      ¬ ∃ fuel srtf fuel' rr, findWaitingTimeSJFInt INT_MAX fuel twoLong = some srtf ∧
        findWaitingTimeRRInt INT_MAX fuel' 1000000000 twoLong = some rr ∧
          makespan srtf = makespan rr := by
  refine ⟨by decide, ?_⟩
  rintro ⟨fuel, srtf, fuel', rr, hsrtf, -, -⟩
  exact findWaitingTimeSJFInt_twoLong fuel srtf hsrtf

theorem twoLong_no_bound :
    (∀ i, 0 ≤ (twoLong i).art ∧ 1 ≤ (twoLong i).bt) ∧
      ¬ ∃ fuel out, findWaitingTimeRRInt INT_MAX fuel 1000000000 twoLong = some out ∧
        ∀ i, 0 ≤ (out i).wt ∧ (out i).wt ≤
          ⌈((twoLong i).bt : ℚ) / (1000000000 : ℤ)⌉ * ((2 : ℕ) - 1) * 1000000000 := by
  refine ⟨by decide, ?_⟩
  rintro ⟨fuel, out, hout, -⟩
  exact findWaitingTimeRRInt_twoLong fuel out hout

theorem twoLong_no_closed_form :
    (∀ i, (twoLong i).art = 0 ∧ 1 ≤ (twoLong i).bt ∧ (twoLong i).bt < INT_MAX) ∧
      ¬ ∃ fuel out, findWaitingTimeSJFInt INT_MAX fuel twoLong = some out ∧
        ∀ i, (out i).wt = ∑ j with (twoLong j).bt < (twoLong i).bt ∨
          (twoLong j).bt = (twoLong i).bt ∧ j < i, (twoLong j).bt := by
  refine ⟨by decide, ?_⟩
  rintro ⟨fuel, out, hout, -⟩
  exact findWaitingTimeSJFInt_twoLong fuel out hout

end OsLabs.SchedSim
