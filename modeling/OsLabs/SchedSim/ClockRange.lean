import OsLabs.Lib.MachineInt
import OsLabs.SchedSim.FcfsOrder
import OsLabs.SchedSim.RoundRobin
import OsLabs.SchedSim.RrColumns
import OsLabs.SchedSim.SrtfOptimal

/-!
# The range of the clocks

The waiting and turnaround times of `schedsim.c` with each addition and subtraction checked
against the range of `int`, in the order in which the source evaluates it, and each value that
the clock `t` takes checked against a limit as well.  Idle ticks pass only before some arrival,
and the other ticks run a burst, so no clock passes the latest arrival plus the sum of all
bursts.
-/

namespace OsLabs.SchedSim

open OsLabs.Lib

variable {n : ℕ}

/-! ### The checked functions -/

/-- An assignment to the clock. -/
def setClock (limit t : ℤ) : Option ℤ := if InInt t ∧ t ≤ limit then some t else none

/-- `t - bt - art` -/
def waitedInt (t : ℤ) (p : ProcessType) : Option ℤ := do
  subInt (← subInt t p.bt) p.art

def fcfsStepInt (limit : ℤ) (s : FcfsState n) (i : Fin n) : Option (FcfsState n) := do
  let p := s.plist i
  let t ← (if s.t < p.art then setClock limit p.art else some s.t)
  let wt ← subInt t p.art
  let t' ← setClock limit (t + p.bt)
  return { plist := Function.update s.plist i { p with wt := wt }, t := t' }

def findWaitingTimeInt (limit : ℤ) (plist : Fin n → ProcessType) :
    Option (Fin n → ProcessType) :=
  ((List.finRange n).foldlM (fcfsStepInt limit) ⟨plist, 0⟩).map FcfsState.plist

def sjfBodyInt (limit : ℤ) (s : SjfState n) : Option (SjfState n) :=
  match (selectMin s.plist s.remBt s.t).2 with
  | none => do
    let t ← setClock limit (s.t + 1)
    return { s with t := t }
  | some i => do
    let rem ← subInt (s.remBt i) 1
    let remBt := Function.update s.remBt i rem
    let t ← setClock limit (s.t + 1)
    if remBt i = 0 then
      let p := s.plist i
      let wt ← waitedInt t p
      return { plist := Function.update s.plist i { p with wt := wt }
               remBt := remBt
               complete := s.complete + 1
               t := t }
    else return { s with remBt := remBt, t := t }

def findWaitingTimeSJFInt (limit : ℤ) (fuel : ℕ) (plist : Fin n → ProcessType) :
    Option (Fin n → ProcessType) :=
  (whileLoopM (fun s => some (sjfGuard s)) (sjfBodyInt limit) fuel (sjfInit plist)).map
    SjfState.plist

def rrSliceInt (limit quantum : ℤ) (s : RrState n) (i : Fin n) : Option (RrState n) :=
  if s.remBt i > 0 ∧ (s.plist i).art ≤ s.t then
    if s.remBt i > quantum then do
      let t ← setClock limit (s.t + quantum)
      let rem ← subInt (s.remBt i) quantum
      return { s with t := t, remBt := Function.update s.remBt i rem, done := false }
    else do
      let t ← setClock limit (s.t + s.remBt i)
      let p := s.plist i
      let wt ← waitedInt t p
      return { plist := Function.update s.plist i { p with wt := wt }
               t := t
               remBt := Function.update s.remBt i 0
               done := false }
  else some s

def rrIdleInt (limit : ℤ) (s : RrState n) : Option (RrState n) :=
  if s.done = true ∧ ∃ i, s.remBt i > 0 then do
    let t ← setClock limit (s.t + 1)
    return { s with t := t, done := false }
  else some s

def rrBodyInt (limit quantum : ℤ) (s : RrState n) : Option (RrState n) := do
  rrIdleInt limit (← (List.finRange n).foldlM (rrSliceInt limit quantum) { s with done := true })

def findWaitingTimeRRInt (limit : ℤ) (fuel : ℕ) (quantum : ℤ) (plist : Fin n → ProcessType) :
    Option (Fin n → ProcessType) := do
  let s ← rrBodyInt limit quantum (rrInit plist)
  (whileLoopM (fun s => some (!s.done)) (rrBodyInt limit quantum) fuel s).map RrState.plist

def findTurnAroundTimeInt (plist : Fin n → ProcessType) : Option (Fin n → ProcessType) :=
  (List.finRange n).foldlM (fun plist i => do
    let tat ← addInt (plist i).bt (plist i).wt
    return Function.update plist i { plist i with tat := tat }) plist

/-! ### The clock and the work that is left -/

/-- The latest arrival, 0 for an empty list. -/
def latestArrival (plist : Fin n → ProcessType) : ℤ := (Finset.univ.sup (arrival plist) : ℕ)

/-- The latest arrival plus the sum of all bursts. -/
def clockLimit (plist : Fin n → ProcessType) : ℤ := latestArrival plist + ∑ i, (plist i).bt

/-- The clock has not passed the latest arrival by more than the work that has been done. -/
structure ClockInv (plist : Fin n → ProcessType) (t : ℤ) (remBt : Fin n → ℤ) : Prop where
  t_nonneg : 0 ≤ t
  rem_nonneg : ∀ i, 0 ≤ remBt i
  rem_le : ∀ i, remBt i ≤ (plist i).bt
  t_le : t ≤ latestArrival plist + ∑ i, ((plist i).bt - remBt i)

variable {plist : Fin n → ProcessType} {t : ℤ} {remBt : Fin n → ℤ} {i : Fin n}

theorem art_le_latestArrival (plist : Fin n → ProcessType) (i : Fin n) :
    (plist i).art ≤ latestArrival plist := by
  have hle : arrival plist i ≤ Finset.univ.sup (arrival plist) :=
    Finset.le_sup (Finset.mem_univ i)
  have hart : (plist i).art ≤ arrival plist i := Int.self_le_toNat _
  rw [latestArrival]
  omega

theorem ClockInv.le_clockLimit (h : ClockInv plist t remBt) : t ≤ clockLimit plist := by
  have hsum : ∑ i, ((plist i).bt - remBt i) ≤ ∑ i, (plist i).bt :=
    Finset.sum_le_sum fun i _ => by
      have := h.rem_nonneg i
      omega
  have := h.t_le
  rw [clockLimit]
  omega

/-- Time may pass up to the arrival of any process. -/
theorem ClockInv.wait (h : ClockInv plist t remBt) {t' : ℤ} (hle : t ≤ t')
    (hart : t' ≤ (plist i).art) : ClockInv plist t' remBt := by
  have hwork : 0 ≤ ∑ i, ((plist i).bt - remBt i) :=
    Finset.sum_nonneg fun i _ => sub_nonneg.mpr (h.rem_le i)
  have := art_le_latestArrival plist i
  have := h.t_nonneg
  exact ⟨by omega, h.rem_nonneg, h.rem_le, by omega⟩

theorem ClockInv.run (h : ClockInv plist t remBt) {d : ℤ} (hd : 0 ≤ d) (hle : d ≤ remBt i) :
    ClockInv plist (t + d) (Function.update remBt i (remBt i - d)) := by
  have hrem : ∀ j, Function.update remBt i (remBt i - d) j = remBt j - if j = i then d else 0 := by
    intro j
    by_cases hj : j = i
    · subst hj
      rw [Function.update_self, if_pos rfl]
    · rw [Function.update_of_ne hj, if_neg hj, sub_zero]
  have hnonneg := h.t_nonneg
  refine ⟨by omega, fun j => ?_, fun j => ?_, ?_⟩
  · have := h.rem_nonneg j
    rw [hrem]
    split
    · rename_i hj
      rw [hj]
      omega
    · omega
  · have := h.rem_le j
    rw [hrem]
    split <;> omega
  · have hsum : ∑ j, ((plist j).bt - Function.update remBt i (remBt i - d) j) =
        ∑ j, ((plist j).bt - remBt j) + d := by
      have hsplit : ∀ j, (plist j).bt - Function.update remBt i (remBt i - d) j =
          (plist j).bt - remBt j + if j = i then d else 0 := by
        intro j
        rw [hrem]
        ring
      rw [Finset.sum_congr rfl fun j _ => hsplit j, Finset.sum_add_distrib, Finset.sum_ite_eq',
        if_pos (Finset.mem_univ i)]
    have := h.t_le
    rw [hsum]
    omega

/-- Finished by the limit, as the fields report it. -/
def InTime (limit : ℤ) (p : ProcessType) : Prop := -limit ≤ p.bt + p.wt ∧ p.bt + p.wt ≤ limit

section Admissible

variable (hart : ∀ i, 0 ≤ (plist i).art) (hbt : ∀ i, 1 ≤ (plist i).bt) {limit : ℤ}
  (hlimit : clockLimit plist ≤ limit) (hmax : limit ≤ INT_MAX)

include hbt in
theorem clockInv_init : ClockInv plist 0 fun i => (plist i).bt := by
  refine ⟨le_rfl, fun i => ?_, fun i => le_rfl, ?_⟩
  · have := hbt i
    omega
  · have hzero : ∑ i, ((plist i).bt - (plist i).bt) = 0 :=
      Finset.sum_eq_zero fun i _ => sub_self _
    rw [hzero, latestArrival]
    omega

include hbt in
theorem art_add_bt_le (i : Fin n) : (plist i).art + (plist i).bt ≤ clockLimit plist := by
  have hart := art_le_latestArrival plist i
  have hsum : (plist i).bt ≤ ∑ j, (plist j).bt :=
    Finset.single_le_sum (f := fun j => (plist j).bt) (fun j _ => by have := hbt j; omega)
      (Finset.mem_univ i)
  rw [clockLimit]
  omega

include hlimit hmax in
theorem setClock_eq (h : ClockInv plist t remBt) : setClock limit t = some t := by
  have hle := h.le_clockLimit
  have hnonneg := h.t_nonneg
  rw [INT_MAX] at hmax
  have hrange : InInt t := by constructor <;> omega
  exact if_pos ⟨hrange, hle.trans hlimit⟩

include hart hbt hlimit hmax

/-- The waiting time of a process, and what is reported for it. -/
theorem waitedInt_eq (h : ClockInv plist t remBt) {p : ProcessType}
    (hp : p.art = (plist i).art ∧ p.bt = (plist i).bt) :
    waitedInt t p = some (t - p.bt - p.art) ∧
      InTime (clockLimit plist) { p with wt := t - p.bt - p.art } := by
  have hle := h.le_clockLimit
  have hnonneg := h.t_nonneg
  have hstart := art_add_bt_le hbt i
  have hart := hart i
  have hbt := hbt i
  obtain ⟨hpart, hpbt⟩ := hp
  rw [INT_MAX] at hmax
  have hfirst : InInt (t - p.bt) := by constructor <;> omega
  have hsecond : InInt (t - p.bt - p.art) := by constructor <;> omega
  constructor
  · rw [waitedInt, subInt_of_inInt hfirst, Option.bind_eq_bind, Option.bind_some,
      subInt_of_inInt hsecond]
  · unfold InTime
    dsimp only
    constructor <;> omega

/-! ### First come, first served -/

/-- What the loop keeps, with process number `k` next. -/
structure FcfsClock (plist : Fin n → ProcessType) (k : ℕ) (s : FcfsState n) : Prop where
  clock : ClockInv plist s.t fun j : Fin n => if (j : ℕ) < k then 0 else (plist j).bt
  input : ∀ j, (s.plist j).art = (plist j).art ∧ (s.plist j).bt = (plist j).bt
  inTime : ∀ j : Fin n, (j : ℕ) < k → InTime (clockLimit plist) (s.plist j)

omit hart hlimit hmax in
/-- The clock when the process starts, and when it ends. -/
theorem FcfsClock.clocks {s : FcfsState n} (h : FcfsClock plist i s) :
    ClockInv plist (if s.t < (s.plist i).art then (s.plist i).art else s.t)
        (fun j : Fin n => if (j : ℕ) < i then 0 else (plist j).bt) ∧
      ClockInv plist (fcfsStep s i).t
        fun j : Fin n => if (j : ℕ) < i + 1 then 0 else (plist j).bt := by
  have hstart : ClockInv plist (if s.t < (s.plist i).art then (s.plist i).art else s.t)
      fun j : Fin n => if (j : ℕ) < i then 0 else (plist j).bt := by
    split
    · rename_i hearly
      exact h.clock.wait hearly.le (h.input i).1.le
    · exact h.clock
  have hself : (fun j : Fin n => if (j : ℕ) < i then 0 else (plist j).bt) i = (plist i).bt :=
    if_neg (lt_irrefl _)
  have hrun := hstart.run (i := i) (d := (plist i).bt) (by have := hbt i; omega) hself.ge
  have hrest : Function.update (fun j : Fin n => if (j : ℕ) < i then 0 else (plist j).bt) i
      ((fun j : Fin n => if (j : ℕ) < i then 0 else (plist j).bt) i - (plist i).bt) =
        fun j : Fin n => if (j : ℕ) < i + 1 then 0 else (plist j).bt := by
    funext j
    by_cases hj : j = i
    · subst hj
      rw [Function.update_self, hself, sub_self, if_pos (Nat.lt_succ_self _)]
    · have hne : (j : ℕ) ≠ i := fun heq => hj (Fin.ext heq)
      have hiff : (j : ℕ) < i + 1 ↔ (j : ℕ) < i := by omega
      rw [Function.update_of_ne hj]
      simp only [hiff]
  rw [hrest] at hrun
  refine ⟨hstart, ?_⟩
  show ClockInv plist ((if s.t < (s.plist i).art then (s.plist i).art else s.t) + (s.plist i).bt) _
  rw [(h.input i).2]
  exact hrun

theorem FcfsClock.stepInt {s : FcfsState n} (h : FcfsClock plist i s) :
    fcfsStepInt limit s i = some (fcfsStep s i) := by
  obtain ⟨hstart, hend⟩ := h.clocks hbt
  have hset : setClock limit
      ((if s.t < (s.plist i).art then (s.plist i).art else s.t) + (s.plist i).bt) =
        some (fcfsStep s i).t := setClock_eq hlimit hmax hend
  have hle := hstart.le_clockLimit
  have hnonneg := hstart.t_nonneg
  have hart' := hart i
  have hstart' := art_add_bt_le hbt i
  have hbt' := hbt i
  have hinput := (h.input i).1
  have hbegin : (if s.t < (s.plist i).art then setClock limit (s.plist i).art
      else some s.t) = some (if s.t < (s.plist i).art then (s.plist i).art else s.t) := by
    split
    · rename_i hearly
      rw [if_pos hearly] at hstart
      exact setClock_eq hlimit hmax hstart
    · rfl
  rw [INT_MAX] at hmax
  have hwt : InInt
      ((if s.t < (s.plist i).art then (s.plist i).art else s.t) - (s.plist i).art) := by
    constructor <;> omega
  rw [fcfsStepInt]
  simp only [hbegin, subInt_of_inInt hwt, hset, Option.bind_eq_bind, Option.bind_some]
  rfl

omit hlimit hmax in
theorem FcfsClock.step {s : FcfsState n} (h : FcfsClock plist i s) :
    FcfsClock plist (i + 1) (fcfsStep s i) := by
  obtain ⟨-, hend⟩ := h.clocks hbt
  refine ⟨hend, fun j => ?_, fun j hj => ?_⟩
  · by_cases hji : j = i
    · subst hji
      rw [fcfsStep_plist_self]
      exact h.input j
    · rw [fcfsStep_plist_of_ne s hji]
      exact h.input j
  · by_cases hji : j = i
    · subst hji
      have hlast := hend.le_clockLimit
      have hnonneg := hend.t_nonneg
      have hlate := art_add_bt_le hbt j
      have hart := hart j
      have hbt := hbt j
      have hinput := h.input j
      rw [fcfsStep_t] at hlast hnonneg
      rw [fcfsStep_plist_self]
      unfold InTime
      dsimp only
      constructor <;> omega
    · rw [fcfsStep_plist_of_ne s hji]
      refine h.inTime j ?_
      have hne : (j : ℕ) ≠ i := fun heq => hji (Fin.ext heq)
      omega

omit hart hlimit hmax in
theorem fcfsClock_init : FcfsClock plist 0 ⟨plist, 0⟩ :=
  ⟨clockInv_init hbt, fun _ => ⟨rfl, rfl⟩, nofun⟩

omit hlimit hmax in
theorem findWaitingTime_inTime (i : Fin n) :
    InTime (clockLimit plist) (findWaitingTime plist i) := by
  have hend : FcfsClock plist n (forLoop fcfsStep ⟨plist, 0⟩) :=
    forLoop_invariant (fcfsClock_init hbt) fun _ _ hs => hs.step hart hbt
  exact hend.inTime i i.isLt

theorem findWaitingTimeInt_eq :
    findWaitingTimeInt limit plist = some (findWaitingTime plist) := by
  rw [findWaitingTimeInt, foldlM_finRange_eq_forLoop (fun _ _ hs => hs.step hart hbt)
    (fun _ _ hs => hs.stepInt hart hbt hlimit hmax) (fcfsClock_init hbt)]
  rfl

/-! ### What the other two loops keep -/

/-- The clock, and what is reported for the processes that have no time left. -/
structure RunClock (plist current : Fin n → ProcessType) (t : ℤ) (remBt : Fin n → ℤ) : Prop where
  clock : ClockInv plist t remBt
  input : ∀ j, (current j).art = (plist j).art ∧ (current j).bt = (plist j).bt
  inTime : ∀ j, remBt j ≤ 0 → InTime (clockLimit plist) (current j)

variable {current : Fin n → ProcessType}

omit hart hlimit hmax in
theorem runClock_init : RunClock plist plist 0 fun i => (plist i).bt := by
  refine ⟨clockInv_init hbt, fun _ => ⟨rfl, rfl⟩, fun i hi => ?_⟩
  have := hbt i
  omega

omit hbt hart hlimit hmax in
/-- Time passes while some unfinished process has not arrived. -/
theorem RunClock.idle (h : RunClock plist current t remBt) (hlate : t < (current i).art) :
    RunClock plist current (t + 1) remBt := by
  have hart := (h.input i).1
  exact ⟨h.clock.wait (i := i) (by omega) (by omega), h.input, h.inTime⟩

/-- Process `i` runs for `d` ticks, and its `wt` is written if that is all it needed. -/
theorem RunClock.run (h : RunClock plist current t remBt) {d : ℤ} (hd : 1 ≤ d)
    (hle : d ≤ remBt i) {current' : Fin n → ProcessType}
    (hcurrent : ∀ j, current' j = if j = i ∧ remBt i ≤ d then
      { current j with wt := t + remBt i - (current j).bt - (current j).art } else current j) :
    RunClock plist current' (t + d) (Function.update remBt i (remBt i - d)) := by
  have hrun := h.clock.run (i := i) (d := d) (by omega) hle
  refine ⟨hrun, fun j => ?_, fun j hj => ?_⟩
  · rw [hcurrent]
    split
    · exact h.input j
    · exact h.input j
  · rw [hcurrent]
    by_cases hji : j = i
    · subst hji
      rw [Function.update_self] at hj
      have hall : d = remBt j := by omega
      rw [if_pos ⟨rfl, hall.ge⟩, ← hall]
      exact (waitedInt_eq hart hbt hlimit hmax hrun (h.input j)).2
    · rw [Function.update_of_ne hji] at hj
      rw [if_neg fun hpair => hji hpair.1]
      exact h.inTime j hj

omit hart in
/-- Taking `d` ticks from a remaining time does not overflow. -/
theorem RunClock.subInt_remBt (h : RunClock plist current t remBt) {d : ℤ} (hd : 1 ≤ d)
    (hle : d ≤ remBt i) : subInt (remBt i) d = some (remBt i - d) := by
  have hrem := h.clock.rem_le i
  have hwork : (plist i).bt ≤ ∑ j, (plist j).bt :=
    Finset.single_le_sum (f := fun j => (plist j).bt) (fun j _ => by have := hbt j; omega)
      (Finset.mem_univ i)
  have hnonneg : 0 ≤ latestArrival plist := Nat.cast_nonneg _
  rw [clockLimit] at hlimit
  rw [INT_MAX] at hmax
  exact subInt_of_inInt (by constructor <;> omega)

/-! ### Round robin -/

section Slice

variable {quantum : ℤ} {s : RrState n} (hq : 1 ≤ quantum)
  (h : RunClock plist s.plist s.t s.remBt)

include hq h

theorem rrSliceInt_eq (i : Fin n) :
    rrSliceInt limit quantum s i = some (rrSlice quantum s i) := by
  rw [rrSliceInt, rrSlice]
  split
  · rename_i hready
    split
    · rename_i hlong
      have hrun := h.clock.run (i := i) (d := quantum) (by omega) hlong.le
      rw [setClock_eq hlimit hmax hrun, h.subInt_remBt hbt hlimit hmax hq hlong.le]
      rfl
    · have hrun := h.clock.run (i := i) (d := s.remBt i) hready.1.le le_rfl
      have hwaited := (waitedInt_eq hart hbt hlimit hmax hrun (h.input i)).1
      simp only [setClock_eq hlimit hmax hrun, hwaited, Option.bind_eq_bind, Option.bind_some]
      rfl
  · rfl

theorem runClock_rrSlice (i : Fin n) :
    RunClock plist (rrSlice quantum s i).plist (rrSlice quantum s i).t
      (rrSlice quantum s i).remBt := by
  by_cases hready : RrReady s i
  · have hpos : 1 ≤ sliceOf quantum s i := le_min hq hready.1
    rw [rrSlice_t hready, rrSlice_remBt hready]
    refine h.run hart hbt hlimit hmax hpos (min_le_right _ _) fun j => ?_
    have hlast : s.remBt i ≤ sliceOf quantum s i ↔ s.remBt i ≤ quantum := by
      rw [sliceOf, le_min_iff, and_iff_left le_rfl]
    simp only [rrSlice_plist hready, hlast]
  · rw [rrSlice_of_not_ready hready]
    exact h

end Slice

section Loop

variable {quantum : ℤ} {s : RrState n} (hq : 1 ≤ quantum)
  (h : RunClock plist s.plist s.t s.remBt)

include hq h

theorem runClock_rrPass :
    RunClock plist (rrPass quantum s).plist (rrPass quantum s).t (rrPass quantum s).remBt :=
  forLoop_invariant (I := fun _ (s : RrState n) => RunClock plist s.plist s.t s.remBt) h
    fun i _ hs => runClock_rrSlice hart hbt hlimit hmax hq hs i

/-- An idle tick passes before the arrival of an unfinished process. -/
theorem runClock_rrBody :
    RunClock plist (rrBody quantum s).plist (rrBody quantum s).t (rrBody quantum s).remBt := by
  rcases rrBody_cases hq s with ⟨hbody, -, -⟩ | ⟨hnone, ⟨⟨i, hi⟩, hbody⟩ | ⟨-, hbody⟩⟩
  · rw [hbody]
    exact runClock_rrPass hart hbt hlimit hmax hq h
  · have hlate : s.t < (s.plist i).art := by
      by_contra hle
      exact hnone i ⟨hi, not_lt.mp hle⟩
    rw [hbody]
    exact h.idle hlate
  · rw [hbody]
    exact h

theorem rrBodyInt_eq :
    rrBodyInt limit quantum s = some (rrBody quantum s) := by
  have hpass : (List.finRange n).foldlM (rrSliceInt limit quantum)
      { s with done := true } = some (rrPass quantum s) :=
    foldlM_finRange_eq_forLoop (I := fun _ (s : RrState n) => RunClock plist s.plist s.t s.remBt)
      (fun i _ hs => runClock_rrSlice hart hbt hlimit hmax hq hs i)
      (fun i _ hs => rrSliceInt_eq hart hbt hlimit hmax hq hs i) h
  have hbody := (runClock_rrBody hart hbt hlimit hmax hq h).clock
  rw [rrBodyInt, hpass, Option.bind_eq_bind, Option.bind_some]
  rw [rrBody, rrIdle] at hbody
  rw [rrIdleInt, rrBody, rrIdle]
  split
  · rename_i hidle
    rw [if_pos hidle] at hbody
    rw [setClock_eq hlimit hmax hbody]
    rfl
  · rfl

end Loop

section Returns

variable {quantum : ℤ} (hq : 1 ≤ quantum)

include hq

theorem findWaitingTimeRRInt_eq (fuel : ℕ) :
    findWaitingTimeRRInt limit fuel quantum plist = findWaitingTimeRR fuel quantum plist := by
  have hinit : RunClock plist (rrInit plist).plist (rrInit plist).t (rrInit plist).remBt :=
    runClock_init hbt
  rw [findWaitingTimeRRInt, rrBodyInt_eq hart hbt hlimit hmax hq hinit, Option.bind_eq_bind,
    Option.bind_some, whileLoopM_eq_whileLoop
      (I := fun s : RrState n => RunClock plist s.plist s.t s.remBt)
      (fun _ hs _ => runClock_rrBody hart hbt hlimit hmax hq hs)
      (fun _ hs _ => rrBodyInt_eq hart hbt hlimit hmax hq hs)
      (runClock_rrBody hart hbt hlimit hmax hq hinit)]
  rfl

theorem findWaitingTimeRR_inTime {fuel : ℕ} {out : Fin n → ProcessType}
    (h : findWaitingTimeRR fuel quantum plist = some out) (i : Fin n) :
    InTime (clockLimit plist) (out i) := by
  rw [findWaitingTimeRR, Option.map_eq_some_iff] at h
  obtain ⟨s, hloop, rfl⟩ := h
  have hrun := (doWhileLoop_invariant (I := fun s : RrState n => RunClock plist s.plist s.t s.remBt)
    (fun _ hs => runClock_rrBody hart hbt hlimit hmax hq hs) (runClock_init hbt) hloop).1
  exact hrun.inTime i (remBt_nonpos_of_loop hq hloop i)

end Returns

/-! ### Shortest remaining time first -/

/-- What the loop keeps before its last iteration: it has run for some iterations. -/
def SjfClock (plist : Fin n → ProcessType) (s : SjfState n) : Prop :=
  (∃ k, s = sjfAt plist k) ∧ RunClock plist s.plist s.t s.remBt

section Sjf

variable {s : SjfState n} (hshort : ∀ i, (plist i).bt < INT_MAX)

omit hart hbt hlimit hmax in
theorem sjfBody_of_none (hnone : sjfChoice s = none) : sjfBody s = { s with t := s.t + 1 } := by
  unfold sjfBody
  unfold sjfChoice at hnone
  rw [hnone]

omit hart hbt hlimit hmax in
theorem sjfBody_of_some (hsome : sjfChoice s = some i) :
    (sjfBody s).remBt = Function.update s.remBt i (s.remBt i - 1) ∧
      ∀ j, (sjfBody s).plist j = if j = i ∧ s.remBt i ≤ 1 then
        { s.plist j with wt := s.t + s.remBt i - (s.plist j).bt - (s.plist j).art }
      else s.plist j := by
  have hpos := (selectMin_some _ _ _ hsome).1.2.1
  unfold sjfBody
  unfold sjfChoice at hsome
  rw [hsome]
  dsimp only
  rw [Function.update_self]
  split
  · rename_i hzero
    have hone : s.remBt i = 1 := by omega
    refine ⟨rfl, fun j => ?_⟩
    dsimp only
    by_cases hji : j = i
    · subst hji
      rw [Function.update_self, hone, if_pos ⟨rfl, le_rfl⟩]
    · rw [Function.update_of_ne hji, if_neg fun hpair => hji hpair.1]
  · refine ⟨rfl, fun j => ?_⟩
    rw [if_neg]
    rintro ⟨-, hle⟩
    omega

omit hart hlimit hmax in
include hshort in
/-- A tick without a choice passes before the arrival of an unfinished process. -/
theorem SjfClock.late (h : SjfClock plist s) (hguard : sjfGuard s = true)
    (hnone : sjfChoice s = none) : ∃ i, s.t < (s.plist i).art := by
  obtain ⟨⟨k, rfl⟩, hrun⟩ := h
  by_contra hall
  push Not at hall
  have hdone : sjfGuard (sjfAt plist k) = false := by
    rw [sjfGuard_eq_false_iff]
    intro i
    have hready := selectMin_none _ _ _ hnone i
    have hnonneg := hrun.clock.rem_nonneg i
    have hrem := hrun.clock.rem_le i
    have hbt := hbt i
    have hshort := hshort i
    refine ⟨?_, by omega⟩
    by_contra hleft
    exact hready ⟨hall i, by omega, by omega⟩
  rw [hdone] at hguard
  cases hguard

include hshort in
theorem SjfClock.body (h : SjfClock plist s) (hguard : sjfGuard s = true) :
    SjfClock plist (sjfBody s) := by
  refine ⟨?_, ?_⟩
  · obtain ⟨⟨k, rfl⟩, -⟩ := h
    exact ⟨k + 1, (sjfAt_succ plist k).symm⟩
  · cases hchoice : sjfChoice s with
    | none =>
      obtain ⟨i, hlate⟩ := h.late hbt hshort hguard hchoice
      rw [sjfBody_of_none hchoice]
      exact h.2.idle hlate
    | some i =>
      have hpos := (selectMin_some _ _ _ hchoice).1.2.1
      obtain ⟨hrem, hplist⟩ := sjfBody_of_some hchoice
      rw [sjfBody_t, hrem]
      exact h.2.run hart hbt hlimit hmax le_rfl hpos hplist

include hshort in
theorem SjfClock.bodyInt (h : SjfClock plist s) (hguard : sjfGuard s = true) :
    sjfBodyInt limit s = some (sjfBody s) := by
  have hclock := (h.body hart hbt hlimit hmax hshort hguard).2.clock
  have hset := setClock_eq hlimit hmax hclock
  rw [sjfBody_t] at hset hclock
  rw [sjfBodyInt, sjfBody]
  cases hchoice : (selectMin s.plist s.remBt s.t).2 with
  | none =>
    dsimp only
    rw [hset]
    rfl
  | some i =>
    have hpos : 1 ≤ s.remBt i := (selectMin_some _ _ _ hchoice).1.2.1
    have hsub := h.2.subInt_remBt hbt hlimit hmax le_rfl hpos
    have hwaited := (waitedInt_eq hart hbt hlimit hmax hclock (h.2.input i)).1
    simp only [hset, hsub, hwaited, Option.bind_eq_bind, Option.bind_some]
    split
    · rfl
    · rfl

end Sjf

omit hart hlimit hmax in
theorem sjfClock_init : SjfClock plist (sjfInit plist) := ⟨⟨0, rfl⟩, runClock_init hbt⟩

section Returns

variable (hshort : ∀ i, (plist i).bt < INT_MAX)

include hshort

theorem findWaitingTimeSJFInt_eq (fuel : ℕ) :
    findWaitingTimeSJFInt limit fuel plist = findWaitingTimeSJF fuel plist := by
  rw [findWaitingTimeSJFInt, whileLoopM_eq_whileLoop
    (fun _ hs hguard => SjfClock.body hart hbt hlimit hmax hshort hs hguard)
    (fun _ hs hguard => hs.bodyInt hart hbt hlimit hmax hshort hguard) (sjfClock_init hbt)]
  rfl

theorem findWaitingTimeSJF_inTime {fuel : ℕ} {out : Fin n → ProcessType}
    (h : findWaitingTimeSJF fuel plist = some out) (i : Fin n) :
    InTime (clockLimit plist) (out i) := by
  rw [findWaitingTimeSJF, Option.map_eq_some_iff] at h
  obtain ⟨s, hloop, rfl⟩ := h
  obtain ⟨⟨⟨k, rfl⟩, hrun⟩, hguard⟩ := whileLoop_invariant
    (fun _ hs hguard => SjfClock.body hart hbt hlimit hmax hshort hs hguard) (sjfClock_init hbt)
    hloop
  exact hrun.inTime i ((sjfGuard_eq_false_iff plist k).mp hguard i).1.le

end Returns

/-! ### The turnaround times -/

/-- An iteration over the integers. -/
def turnAroundStep (current : Fin n → ProcessType) (i : Fin n) : Fin n → ProcessType :=
  Function.update current i { current i with tat := (current i).bt + (current i).wt }

/-- The `tat` of the processes before number `k` are stored. -/
def TurnedAround (out : Fin n → ProcessType) (k : ℕ) (current : Fin n → ProcessType) : Prop :=
  ∀ j : Fin n, current j = if (j : ℕ) < k then findTurnAroundTime out j else out j

omit hart hbt hlimit hmax in
theorem turnedAround_zero (out : Fin n → ProcessType) : TurnedAround out 0 out :=
  fun _ => (if_neg (Nat.not_lt_zero _)).symm

omit hart hbt hlimit hmax in
theorem TurnedAround.step {out current : Fin n → ProcessType} {i : Fin n}
    (h : TurnedAround out i current) : TurnedAround out (i + 1) (turnAroundStep current i) := by
  intro j
  by_cases hji : j = i
  · subst hji
    have hj := h j
    rw [if_neg (lt_irrefl _)] at hj
    rw [turnAroundStep, Function.update_self, if_pos (Nat.lt_succ_self _), hj]
    rfl
  · have hne : (j : ℕ) ≠ i := fun heq => hji (Fin.ext heq)
    have hiff : (j : ℕ) < i + 1 ↔ (j : ℕ) < i := by omega
    rw [turnAroundStep, Function.update_of_ne hji, h j]
    simp only [hiff]

omit hart hbt hlimit in
theorem TurnedAround.addInt {out current : Fin n → ProcessType} {i : Fin n}
    (h : TurnedAround out i current) (hin : InTime limit (out i)) :
    addInt (current i).bt (current i).wt = some ((current i).bt + (current i).wt) := by
  have hi := h i
  rw [if_neg (lt_irrefl _)] at hi
  refine addInt_of_inInt ?_
  rw [hi]
  unfold InTime at hin
  rw [INT_MAX] at hmax
  constructor <;> omega

omit hart hbt hlimit in
theorem findTurnAroundTimeInt_eq {out : Fin n → ProcessType} (h : ∀ i, InTime limit (out i)) :
    findTurnAroundTimeInt out = some (findTurnAroundTime out) := by
  have hbody : ∀ (i : Fin n) current, TurnedAround out i current →
      (do
        let tat ← addInt (current i).bt (current i).wt
        return Function.update current i { current i with tat := tat }) =
        some (turnAroundStep current i) := by
    intro i current hcurrent
    rw [hcurrent.addInt hmax (h i)]
    rfl
  have hall : TurnedAround out n (forLoop turnAroundStep out) :=
    forLoop_invariant (turnedAround_zero out) fun _ _ => TurnedAround.step
  rw [findTurnAroundTimeInt,
    foldlM_finRange_eq_forLoop (fun _ _ => TurnedAround.step) hbody (turnedAround_zero out)]
  congr 1
  funext j
  rw [hall j, if_pos j.isLt]

end Admissible

/-- **Clocks in range.**  With every step checked against `int`, and the clock against the latest
arrival plus the sum of the bursts, the three algorithms and the turnaround loop compute what
they compute over the integers, and the loops of the two preemptive algorithms end. -/
theorem clocks_inRange (plist : Fin n → ProcessType) (hart : ∀ i, 0 ≤ (plist i).art)
    (hbt : ∀ i, 1 ≤ (plist i).bt) (hlimit : clockLimit plist < INT_MAX) :
    (findWaitingTimeInt (clockLimit plist) plist).bind findTurnAroundTimeInt =
        some (findTurnAroundTime (findWaitingTime plist)) ∧
      (∃ fuel out, findWaitingTimeSJF fuel plist = some out ∧
        (findWaitingTimeSJFInt (clockLimit plist) fuel plist).bind findTurnAroundTimeInt =
          some (findTurnAroundTime out)) ∧
      ∀ quantum, 1 ≤ quantum → quantum ≤ INT_MAX →
        ∃ fuel out, findWaitingTimeRR fuel quantum plist = some out ∧
          (findWaitingTimeRRInt (clockLimit plist) fuel quantum plist).bind
            findTurnAroundTimeInt = some (findTurnAroundTime out) := by
  refine ⟨?_, ?_, fun quantum hq _ => ?_⟩
  · rw [findWaitingTimeInt_eq hart hbt le_rfl hlimit.le, Option.bind_some]
    exact findTurnAroundTimeInt_eq hlimit.le (findWaitingTime_inTime hart hbt)
  · have hburst : ∀ i, 1 ≤ (plist i).bt ∧ (plist i).bt < INT_MAX := by
      intro i
      have := hart i
      have := hbt i
      have := art_add_bt_le hbt i
      omega
    obtain ⟨fuel, out, hout⟩ := findWaitingTimeSJF_returns hart hburst
    refine ⟨fuel, out, hout, ?_⟩
    have hshort := fun i => (hburst i).2
    rw [findWaitingTimeSJFInt_eq hart hbt le_rfl hlimit.le hshort, hout, Option.bind_some]
    exact findTurnAroundTimeInt_eq hlimit.le
      (findWaitingTimeSJF_inTime hart hbt le_rfl hlimit.le hshort hout)
  · obtain ⟨fuel, out, hout⟩ : ∃ fuel out, findWaitingTimeRR fuel quantum plist = some out :=
      findWaitingTimeRR_returns hq
    refine ⟨fuel, out, hout, ?_⟩
    rw [findWaitingTimeRRInt_eq hart hbt le_rfl hlimit.le hq, hout, Option.bind_some]
    exact findTurnAroundTimeInt_eq hlimit.le
      (findWaitingTimeRR_inTime hart hbt le_rfl hlimit.le hq hout)

/-- The latest arrival and the bursts add up to `INT_MAX - 1`. -/
theorem clocks_inRange_sample :
    let plist : Fin 2 → ProcessType := ![⟨1, INT_MAX - 6, 0, 0, 0, 0⟩, ⟨2, 2, 3, 0, 0, 0⟩]
    (findWaitingTimeInt (clockLimit plist) plist).bind findTurnAroundTimeInt =
        some (findTurnAroundTime (findWaitingTime plist)) ∧
      (∃ fuel out, findWaitingTimeSJF fuel plist = some out ∧
        (findWaitingTimeSJFInt (clockLimit plist) fuel plist).bind findTurnAroundTimeInt =
          some (findTurnAroundTime out)) ∧
      ∀ quantum, 1 ≤ quantum → quantum ≤ INT_MAX →
        ∃ fuel out, findWaitingTimeRR fuel quantum plist = some out ∧
          (findWaitingTimeRRInt (clockLimit plist) fuel quantum plist).bind
            findTurnAroundTimeInt = some (findTurnAroundTime out) :=
  clocks_inRange _ (by decide) (by decide) (by decide)

end OsLabs.SchedSim
