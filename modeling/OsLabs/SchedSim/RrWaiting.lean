import OsLabs.Lib.ForLoop
import OsLabs.SchedSim.RoundRobin

/-!
# Round robin: termination and bounded waiting

A pass over the processes comes back to an unfinished process after at most one slice of each of
the others, and no tick is idle while it waits.  A process that arrives in the middle of a pass
which has already gone by it waits for even fewer slices.
-/

namespace OsLabs.SchedSim

open OsLabs.Lib

variable {n : ℕ} {quantum : ℤ}

/-- **Round robin ends** for any burst and arrival times, with no remaining time left. -/
theorem findWaitingTimeRR_ends (plist : Fin n → ProcessType) (quantum : ℤ) (hq : 1 ≤ quantum) :
    (∃ fuel out, findWaitingTimeRR fuel quantum plist = some out) ∧
      ∀ fuel s, doWhileLoop (fun s => !s.done) (rrBody quantum) fuel (rrInit plist) = some s →
        ∀ i, s.remBt i ≤ 0 :=
  ⟨findWaitingTimeRR_returns hq, fun _ _ h => remBt_nonpos_of_loop hq h⟩

/-- Bursts of 0 and of less, and an arrival before time 0. -/
theorem findWaitingTimeRR_ends_sample :
    ∃ fuel out, findWaitingTimeRR fuel 2
      ![⟨1, 0, 3, 0, 0, 0⟩, ⟨2, -4, 0, 0, 0, 0⟩, ⟨3, 5, -1, 0, 0, 0⟩] = some out :=
  (findWaitingTimeRR_ends _ 2 (by decide)).1

/-! ### Bounded waiting -/

/-- The number of slices that others can have got since the last turn of process `i`, when
process number `p` is the next in the pass. -/
def slicesSince (n p i : ℕ) : ℤ := if i < p then p - 1 - i else n - 1 - i + p

theorem slicesSince_self (n i : ℕ) : slicesSince n i i = n - 1 := by
  rw [slicesSince, if_neg (lt_irrefl i)]
  ring

theorem slicesSince_succ_self (n i : ℕ) : slicesSince n (i + 1) i = 0 := by
  rw [slicesSince, if_pos (Nat.lt_succ_self i)]
  push_cast
  ring

theorem slicesSince_succ_of_ne (n : ℕ) {p i : ℕ} (h : i ≠ p) :
    slicesSince n (p + 1) i = slicesSince n p i + 1 := by
  unfold slicesSince
  split <;> split <;> omega

theorem slicesSince_pass {n i : ℕ} (h : i < n) : slicesSince n n i = slicesSince n 0 i := by
  rw [slicesSince, slicesSince, if_pos h, if_neg (Nat.not_lt_zero i)]
  push_cast
  ring

theorem slicesSince_nonneg {n p i : ℕ} (h : i < n) : 0 ≤ slicesSince n p i := by
  unfold slicesSince
  split <;> omega

/-- The time that a process has waited since its arrival. -/
def waited (plist : Fin n → ProcessType) (s : RrState n) (i : Fin n) : ℤ :=
  s.t - (plist i).art - ((plist i).bt - s.remBt i)

/-- An unfinished process has had whole quanta so far, and has waited for at most one slice of
each of the others before each of them and for those since its last turn. -/
structure Waiting (plist : Fin n → ProcessType) (quantum : ℤ) (since : ℤ) (s : RrState n)
    (i : Fin n) : Prop where
  quanta : quantum ∣ (plist i).bt - s.remBt i
  untouched : s.t < (plist i).art → s.remBt i = (plist i).bt
  nonneg : (plist i).art ≤ s.t → 0 ≤ waited plist s i
  bounded : (plist i).art ≤ s.t →
    waited plist s i ≤ ((plist i).bt - s.remBt i) * (n - 1) + since * quantum

/-- The bound on the waiting time of a process. -/
def waitingBound (n : ℕ) (quantum : ℤ) (p : ProcessType) : ℤ :=
  ⌈(p.bt : ℚ) / quantum⌉ * (n - 1) * quantum

/-- What the loop keeps, with process number `p` the next in the pass. -/
structure RrWaiting (plist : Fin n → ProcessType) (quantum : ℤ) (p : ℕ) (s : RrState n) :
    Prop where
  input : ∀ i, (s.plist i).art = (plist i).art ∧ (s.plist i).bt = (plist i).bt
  unfinished : ∀ i, 0 < s.remBt i → Waiting plist quantum (slicesSince n p i) s i
  finished : ∀ i, s.remBt i ≤ 0 →
    0 ≤ (s.plist i).wt ∧ (s.plist i).wt ≤ waitingBound n quantum (plist i)

variable {plist : Fin n → ProcessType} {s s' : RrState n} {i j : Fin n}

/-- The slice that a process has got, and one more, fit in the quanta that it needs. -/
theorem add_quantum_le_ceil (hq : 1 ≤ quantum) {bt rem : ℤ} (hrem : 0 < rem)
    (hquanta : quantum ∣ bt - rem) : bt - rem + quantum ≤ ⌈(bt : ℚ) / quantum⌉ * quantum := by
  obtain ⟨k, hk⟩ := hquanta
  have hpos : (0 : ℚ) < quantum := by exact_mod_cast (show 0 < quantum by omega)
  have hlt : k < ⌈(bt : ℚ) / quantum⌉ := by
    rw [Int.lt_ceil, lt_div_iff₀ hpos]
    have hless : k * quantum < bt := by
      rw [mul_comm, ← hk]
      omega
    exact_mod_cast hless
  calc bt - rem + quantum = (k + 1) * quantum := by rw [hk]; ring
    _ ≤ ⌈(bt : ℚ) / quantum⌉ * quantum := by
      exact mul_le_mul_of_nonneg_right hlt (by omega)

/-! ### One turn -/

/-- An unfinished process goes on waiting through `d` ticks, at most one slice, of others. -/
theorem Waiting.other {since d : ℤ} (h : Waiting plist quantum since s i) (hsince : 0 ≤ since)
    (hd : 0 ≤ d) (hdq : d ≤ quantum) (htime : s'.t = s.t + d) (hrem : s'.remBt i = s.remBt i) :
    Waiting plist quantum (since + 1) s' i := by
  have hwaited : waited plist s' i = waited plist s i + d := by
    rw [waited, waited, htime, hrem]
    ring
  have hfirst : quantum ≤ (since + 1) * quantum := by
    have hq : 0 ≤ since * quantum := mul_nonneg hsince (hd.trans hdq)
    linarith
  refine ⟨hrem ▸ h.quanta, fun hearly => ?_, fun hthere => ?_, fun hthere => ?_⟩
  · rw [hrem]
    exact h.untouched (by omega)
  · by_cases hbefore : (plist i).art ≤ s.t
    · have hold := h.nonneg hbefore
      omega
    · have hnew := h.untouched (not_le.mp hbefore)
      rw [waited, hrem, hnew]
      omega
  · by_cases hbefore : (plist i).art ≤ s.t
    · have hold := h.bounded hbefore
      rw [hwaited, hrem]
      linarith
    · -- it arrives during the slice, with its whole burst to go
      have hnew := h.untouched (not_le.mp hbefore)
      rw [waited, hrem, hnew, sub_self, zero_mul, zero_add]
      omega

/-- A ready process gets a whole quantum. -/
theorem Waiting.slice {since : ℤ} (h : Waiting plist quantum since s i) (hq : 1 ≤ quantum)
    (harrived : (plist i).art ≤ s.t) (hsince : since = n - 1)
    (htime : s'.t = s.t + quantum) (hrem : s'.remBt i = s.remBt i - quantum) :
    Waiting plist quantum 0 s' i := by
  have hwaited : waited plist s' i = waited plist s i := by
    rw [waited, waited, htime, hrem]
    ring
  have hhad : (plist i).bt - s'.remBt i = (plist i).bt - s.remBt i + quantum := by
    rw [hrem]
    ring
  refine ⟨?_, fun hearly => ?_, fun _ => ?_, fun _ => ?_⟩
  · rw [hhad]
    exact h.quanta.add (dvd_refl quantum)
  · omega
  · rw [hwaited]
    exact h.nonneg harrived
  · have hold := h.bounded harrived
    rw [hwaited, hhad, zero_mul, add_zero]
    rw [hsince] at hold
    linarith

/-- A ready process gets what it still needs. -/
theorem Waiting.finish {since : ℤ} (h : Waiting plist quantum since s i) (hq : 1 ≤ quantum)
    (hready : 0 < s.remBt i) (harrived : (plist i).art ≤ s.t) (hsince : since = n - 1) :
    0 ≤ waited plist s i ∧ waited plist s i ≤ waitingBound n quantum (plist i) := by
  have hceil := add_quantum_le_ceil hq hready h.quanta
  have hn : (0 : ℤ) ≤ n - 1 := by
    have := i.isLt
    omega
  refine ⟨h.nonneg harrived, (h.bounded harrived).trans ?_⟩
  calc ((plist i).bt - s.remBt i) * (n - 1) + since * quantum
      = ((plist i).bt - s.remBt i + quantum) * (n - 1) := by rw [hsince]; ring
    _ ≤ ⌈((plist i).bt : ℚ) / quantum⌉ * quantum * (n - 1) :=
      mul_le_mul_of_nonneg_right hceil hn
    _ = waitingBound n quantum (plist i) := by rw [waitingBound]; ring

theorem RrWaiting.slice (h : RrWaiting plist quantum i s) (hq : 1 ≤ quantum) :
    RrWaiting plist quantum (i + 1) (rrSlice quantum s i) := by
  have hinput := h.input i
  by_cases hready : RrReady s i
  · have hwaiting := h.unfinished i hready.1
    have hsince : slicesSince n i i = (n : ℤ) - 1 := slicesSince_self n i
    have harrived : (plist i).art ≤ s.t := hinput.1 ▸ hready.2
    refine ⟨fun j => ?_, fun j hj => ?_, fun j hj => ?_⟩
    · rw [rrSlice_plist hready]
      split
      · exact h.input j
      · exact h.input j
    · rw [rrSlice_remBt hready] at hj
      by_cases hji : j = i
      · subst hji
        rw [Function.update_self] at hj
        have hlong : sliceOf quantum s j = quantum := by
          unfold sliceOf at hj ⊢
          omega
        rw [slicesSince_succ_self]
        refine hwaiting.slice hq harrived hsince ?_ ?_
        · rw [rrSlice_t hready, hlong]
        · rw [rrSlice_remBt hready, Function.update_self, hlong]
      · rw [Function.update_of_ne hji] at hj
        rw [slicesSince_succ_of_ne n fun heq => hji (Fin.ext heq)]
        refine (h.unfinished j hj).other (slicesSince_nonneg j.isLt) ?_ ?_
          (rrSlice_t hready) ?_
        · exact le_min (by omega) hready.1.le
        · exact min_le_left _ _
        · rw [rrSlice_remBt hready, Function.update_of_ne hji]
    · rw [rrSlice_remBt hready] at hj
      rw [rrSlice_plist hready]
      by_cases hji : j = i
      · subst hji
        rw [Function.update_self] at hj
        have hshort : s.remBt j ≤ quantum := by
          unfold sliceOf at hj
          have hpos := hready.1
          omega
        have hwt : s.t + s.remBt j - (s.plist j).bt - (s.plist j).art = waited plist s j := by
          rw [hinput.1, hinput.2, waited]
          ring
        rw [if_pos ⟨rfl, hshort⟩]
        dsimp only
        rw [hwt]
        exact hwaiting.finish hq hready.1 harrived hsince
      · rw [Function.update_of_ne hji] at hj
        rw [if_neg fun hpair => hji hpair.1]
        exact h.finished j hj
  · rw [rrSlice_of_not_ready hready]
    refine ⟨h.input, fun j hj => ?_, h.finished⟩
    by_cases hji : j = i
    · -- an unfinished process that is not ready has not arrived
      subst hji
      have hearly : s.t < (plist j).art := by
        by_contra hle
        exact hready ⟨hj, hinput.1 ▸ not_lt.mp hle⟩
      have hold := h.unfinished j hj
      exact ⟨hold.quanta, hold.untouched, fun hle => absurd hle (not_le.mpr hearly),
        fun hle => absurd hle (not_le.mpr hearly)⟩
    · rw [slicesSince_succ_of_ne n fun heq => hji (Fin.ext heq)]
      exact (h.unfinished j hj).other (slicesSince_nonneg j.isLt) le_rfl (by omega)
        (add_zero s.t).symm rfl

/-! ### The whole loop -/

/-- Nobody who is unfinished has arrived when an idle tick passes. -/
theorem RrWaiting.idle (h : RrWaiting plist quantum 0 s) (hq : 1 ≤ quantum)
    (hnone : ∀ i, ¬ RrReady s i) :
    RrWaiting plist quantum 0 { s with t := s.t + 1, done := false } := by
  refine ⟨h.input, fun i hi => ?_, h.finished⟩
  have hold := h.unfinished i hi
  have hearly : s.t < (plist i).art := by
    by_contra hle
    exact hnone i ⟨hi, (h.input i).1 ▸ not_lt.mp hle⟩
  have hnew := hold.untouched hearly
  have hzero : (plist i).art ≤ s.t + 1 →
      waited plist { s with t := s.t + 1, done := false } i = 0 := by
    intro hle
    rw [waited, hnew]
    dsimp only
    omega
  refine ⟨hold.quanta, fun _ => hnew, fun hle => (hzero hle).ge, fun hle => ?_⟩
  rw [hzero hle, hnew, sub_self, zero_mul, zero_add]
  exact mul_nonneg (slicesSince_nonneg i.isLt) (by omega)

theorem RrWaiting.setDone (h : RrWaiting plist quantum 0 s) (done : Bool) :
    RrWaiting plist quantum 0 { s with done := done } :=
  ⟨h.input, fun i hi => ⟨(h.unfinished i hi).quanta, (h.unfinished i hi).untouched,
    (h.unfinished i hi).nonneg, (h.unfinished i hi).bounded⟩, h.finished⟩

theorem RrWaiting.pass (h : RrWaiting plist quantum 0 s) (hq : 1 ≤ quantum) :
    RrWaiting plist quantum 0 (rrPass quantum s) := by
  have hend : RrWaiting plist quantum n (rrPass quantum s) :=
    forLoop_invariant (I := RrWaiting plist quantum) (h.setDone true)
      fun i s hs => RrWaiting.slice hs hq
  refine ⟨hend.input, fun i hi => ?_, hend.finished⟩
  rw [← slicesSince_pass i.isLt]
  exact hend.unfinished i hi

theorem RrWaiting.body (h : RrWaiting plist quantum 0 s) (hq : 1 ≤ quantum) :
    RrWaiting plist quantum 0 (rrBody quantum s) := by
  rcases rrBody_cases hq s with ⟨hbody, -, -⟩ | ⟨hnone, ⟨-, hbody⟩ | ⟨-, hbody⟩⟩
  · rw [hbody]
    exact h.pass hq
  · rw [hbody]
    exact h.idle hq hnone
  · rw [hbody]
    exact h.setDone true

theorem rrWaiting_init (hart : ∀ i, 0 ≤ (plist i).art) (hbt : ∀ i, 1 ≤ (plist i).bt)
    (hq : 1 ≤ quantum) : RrWaiting plist quantum 0 (rrInit plist) := by
  refine ⟨fun i => ⟨rfl, rfl⟩, fun i _ => ?_, fun i hi => ?_⟩
  · have hwaited : waited plist (rrInit plist) i = - (plist i).art := by
      rw [waited]
      show 0 - (plist i).art - ((plist i).bt - (plist i).bt) = - (plist i).art
      ring
    have hpos := hart i
    refine ⟨?_, fun _ => rfl, fun hle => ?_, fun hle => ?_⟩
    · show quantum ∣ (plist i).bt - (plist i).bt
      rw [sub_self]
      exact dvd_zero quantum
    · rw [hwaited]
      have hle' : (plist i).art ≤ 0 := hle
      omega
    · have hsince : 0 ≤ slicesSince n 0 i * quantum :=
        mul_nonneg (slicesSince_nonneg i.isLt) (by omega)
      have hburst : (plist i).bt - (rrInit plist).remBt i = 0 := sub_self _
      rw [hwaited, hburst, zero_mul, zero_add]
      omega
  · have hburst : (plist i).bt ≤ 0 := hi
    have := hbt i
    omega

/-- Over the integers round robin ends, and no process waits longer than for one quantum of each
of the others before each of the quanta that it needs. -/
theorem findWaitingTimeRR_wt_le (plist : Fin n → ProcessType) (quantum : ℤ)
    (hart : ∀ i, 0 ≤ (plist i).art) (hbt : ∀ i, 1 ≤ (plist i).bt) (hq : 1 ≤ quantum) :
    (∃ fuel out, findWaitingTimeRR fuel quantum plist = some out) ∧
      ∀ fuel out, findWaitingTimeRR fuel quantum plist = some out →
        ∀ i, 0 ≤ (out i).wt ∧
          (out i).wt ≤ ⌈((plist i).bt : ℚ) / quantum⌉ * (n - 1) * quantum := by
  refine ⟨findWaitingTimeRR_returns hq, fun fuel out hout i => ?_⟩
  rw [findWaitingTimeRR, Option.map_eq_some_iff] at hout
  obtain ⟨s, hloop, rfl⟩ := hout
  have hwaiting := (doWhileLoop_invariant (fun s hs => RrWaiting.body hs hq)
    (rrWaiting_init hart hbt hq) hloop).1
  exact hwaiting.finished i (remBt_nonpos_of_loop hq hloop i)

end OsLabs.SchedSim
