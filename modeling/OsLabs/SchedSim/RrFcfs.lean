import OsLabs.SchedSim.FcfsOrder
import OsLabs.SchedSim.RrWaiting

/-!
# Round robin with a large quantum

If no burst exceeds the quantum, every slice runs a process to its end.  In a list sorted by
arrival a process that is not ready keeps all those behind it from running, so the passes serve
the list in order, and their idle ticks take the clock to where `findWaitingTime` lets it jump.  The
clocks are integers here; they stay within `int` if the latest arrival plus all bursts does, which
is `clockLimit` of `ClockRange`.
-/

namespace OsLabs.SchedSim

open OsLabs.Lib

variable {n : ℕ} {quantum : ℤ} {plist : Fin n → ProcessType} {s : RrState n} {p m : ℕ}

/-- The first `m` processes have run as in `findWaitingTime`, the others have not, and process
number `p` is the next in the pass. -/
structure ServedFirst (plist : Fin n → ProcessType) (p m : ℕ) (s : RrState n) : Prop where
  le : m ≤ n
  table : s.plist = (fcfsAt plist m).plist
  remBt : ∀ i, s.remBt i = if (i : ℕ) < m then 0 else (plist i).bt
  clock : fcfsClock plist m ≤ s.t
  next : ∀ i : Fin n, (i : ℕ) = m → s.t ≤ fcfsStart plist i
  passed : ∀ i : Fin n, (i : ℕ) = m → m < p → s.t < (plist i).art

/-- The input fields are as they were. -/
theorem ServedFirst.input (h : ServedFirst plist p m s) (i : Fin n) :
    (s.plist i).art = (plist i).art ∧ (s.plist i).bt = (plist i).bt := by
  rw [h.table, fcfsAt_plist plist h.le]
  split
  · exact ⟨rfl, rfl⟩
  · exact ⟨rfl, rfl⟩

theorem ServedFirst.not_ready_of_lt (h : ServedFirst plist p m s) {i : Fin n} (hi : (i : ℕ) < m) :
    ¬ RrReady s i := by
  intro hready
  have hpos := hready.1
  rw [h.remBt i, if_pos hi] at hpos
  exact lt_irrefl 0 hpos

/-- The turn of a process that has not arrived, or has already run, changes nothing. -/
theorem ServedFirst.skip {i : Fin n} (h : ServedFirst plist i m s)
    (hready : ¬ RrReady s i) (hlate : (i : ℕ) = m → s.t < (plist i).art) :
    ServedFirst plist (i + 1) m (rrSlice quantum s i) := by
  rw [rrSlice_of_not_ready hready]
  refine ⟨h.le, h.table, h.remBt, h.clock, h.next, fun j hj hm => ?_⟩
  rcases Nat.lt_succ_iff_lt_or_eq.mp hm with hlt | heq
  · exact h.passed j hj hlt
  · obtain rfl : j = i := Fin.ext (hj.trans heq)
    exact hlate hj

/-- The next process of the list runs to its end. -/
theorem ServedFirst.serve {i : Fin n} (h : ServedFirst plist i i s)
    (hquantum : (plist i).bt ≤ quantum) (hready : RrReady s i) :
    ServedFirst plist (i + 1) (i + 1) (rrSlice quantum s i) := by
  obtain ⟨hart, hbt⟩ := h.input i
  have hrem : s.remBt i = (plist i).bt := by
    rw [h.remBt i, if_neg (lt_irrefl _)]
  have hslice : sliceOf quantum s i = (plist i).bt := by
    rw [sliceOf, hrem, min_eq_right hquantum]
  have hstart : s.t = fcfsStart plist i :=
    le_antisymm (h.next i rfl) (max_le h.clock (hart ▸ hready.2))
  have htime : (rrSlice quantum s i).t = fcfsClock plist (i + 1) := by
    rw [rrSlice_t hready, hslice, hstart, fcfsClock_succ]
  refine ⟨i.isLt, ?_, fun j => ?_, htime.ge, fun j hj => ?_, fun j _ hm => ?_⟩
  · funext j
    rw [rrSlice_plist hready, h.table, fcfsAt_succ]
    by_cases hji : j = i
    · subst hji
      have hself : (fcfsAt plist j).plist j = plist j := by
        rw [fcfsAt_plist plist h.le, if_neg (lt_irrefl _)]
      rw [if_pos ⟨rfl, hrem.trans_le hquantum⟩, fcfsStep_plist_self, hself, hstart, hrem]
      show { plist j with wt := fcfsStart plist j + (plist j).bt - (plist j).bt - (plist j).art } =
        { plist j with wt := fcfsStart plist j - (plist j).art }
      rw [add_sub_cancel_right]
    · rw [if_neg fun hpair => hji hpair.1, fcfsStep_plist_of_ne _ hji]
  · rw [rrSlice_remBt hready]
    by_cases hji : j = i
    · subst hji
      rw [Function.update_self, hslice, hrem, sub_self, if_pos (Nat.lt_succ_self _)]
    · have hne : (j : ℕ) ≠ i := fun heq => hji (Fin.ext heq)
      have hiff : (j : ℕ) < i + 1 ↔ (j : ℕ) < i := by omega
      rw [Function.update_of_ne hji, h.remBt j]
      simp only [hiff]
  · rw [htime, ← hj]
    exact le_max_left _ _
  · exact absurd hm (lt_irrefl _)

section Sorted

variable (hsorted : ∀ i j, i ≤ j → (plist i).art ≤ (plist j).art)
  (hbt : ∀ i, 1 ≤ (plist i).bt) (hquantum : ∀ i, (plist i).bt ≤ quantum)

include hsorted hquantum hbt

theorem ServedFirst.slice {i : Fin n} (h : ServedFirst plist i m s) :
    ∃ m', ServedFirst plist (i + 1) m' (rrSlice quantum s i) := by
  rcases lt_trichotomy (i : ℕ) m with hlt | rfl | hgt
  · exact ⟨m, h.skip (h.not_ready_of_lt hlt) fun heq => absurd heq hlt.ne⟩
  · by_cases hready : RrReady s i
    · exact ⟨i + 1, h.serve (hquantum i) hready⟩
    · refine ⟨i, h.skip hready fun _ => ?_⟩
      by_contra hle
      refine hready ⟨?_, ?_⟩
      · rw [h.remBt i, if_neg (lt_irrefl _)]
        exact Int.lt_of_lt_of_le zero_lt_one (hbt i)
      · rw [(h.input i).1]
        exact not_lt.mp hle
  · -- process `m` has been passed without being ready, and `i` arrives no earlier
    have hm : m < n := hgt.trans i.isLt
    have hlate := h.passed ⟨m, hm⟩ rfl hgt
    have hle : (plist ⟨m, hm⟩).art ≤ (plist i).art := hsorted _ _ hgt.le
    refine ⟨m, h.skip (fun hready => ?_) fun heq => absurd heq hgt.ne'⟩
    have harrived := hready.2
    rw [(h.input i).1] at harrived
    omega

theorem ServedFirst.pass (h : ServedFirst plist 0 m s) :
    ∃ m', ServedFirst plist 0 m' (rrPass quantum s) := by
  have hbegin : ServedFirst plist 0 m { s with done := true } :=
    ⟨h.le, h.table, h.remBt, h.clock, h.next, h.passed⟩
  obtain ⟨m', hend⟩ : ∃ m', ServedFirst plist n m' (rrPass quantum s) :=
    forLoop_invariant (I := fun p s => ∃ m, ServedFirst plist p m s)
      ⟨m, hbegin⟩ fun i s ⟨m, hs⟩ => hs.slice hsorted hbt hquantum
  exact ⟨m', hend.le, hend.table, hend.remBt, hend.clock, hend.next,
    fun i _ hm => absurd hm (Nat.not_lt_zero m')⟩

theorem ServedFirst.body (hq : 1 ≤ quantum) (h : ServedFirst plist 0 m s) :
    ∃ m', ServedFirst plist 0 m' (rrBody quantum s) := by
  rcases rrBody_cases hq s with ⟨hbody, -, -⟩ | ⟨hnone, ⟨-, hbody⟩ | ⟨-, hbody⟩⟩
  · rw [hbody]
    exact h.pass hsorted hbt hquantum
  · rw [hbody]
    refine ⟨m, h.le, h.table, h.remBt, h.clock.trans (by dsimp only; omega), fun i hi => ?_,
      fun i _ hm => absurd hm (Nat.not_lt_zero m)⟩
    -- the next process has not arrived, or it would be ready
    have hlate : s.t < (plist i).art := by
      by_contra hle
      refine hnone i ⟨?_, (h.input i).1 ▸ not_lt.mp hle⟩
      rw [h.remBt i, if_neg hi.not_lt]
      exact Int.lt_of_lt_of_le zero_lt_one (hbt i)
    exact le_max_of_le_right hlate
  · rw [hbody]
    exact ⟨m, h.le, h.table, h.remBt, h.clock, h.next, h.passed⟩

/-- What a loop that has ended leaves. -/
theorem findWaitingTimeRR_eq (hart : ∀ i, 0 ≤ (plist i).art) (hq : 1 ≤ quantum) {fuel : ℕ}
    {out : Fin n → ProcessType} (h : findWaitingTimeRR fuel quantum plist = some out) :
    out = findWaitingTime plist := by
  rw [findWaitingTimeRR, Option.map_eq_some_iff] at h
  obtain ⟨s, hloop, rfl⟩ := h
  have hinit : ServedFirst plist 0 0 (rrInit plist) :=
    ⟨Nat.zero_le n, rfl, fun i => rfl, le_rfl,
      fun i _ => le_max_of_le_right (hart i), fun i _ hm => absurd hm (lt_irrefl 0)⟩
  have hstep : ∀ s, (∃ m, ServedFirst plist 0 m s) →
      ∃ m, ServedFirst plist 0 m (rrBody quantum s) := by
    intro s hserved
    obtain ⟨m, hm⟩ := hserved
    exact hm.body hsorted hbt hquantum hq
  obtain ⟨⟨m, hend⟩, -⟩ := doWhileLoop_invariant hstep ⟨0, hinit⟩ hloop
  -- no process is left, so all `n` have run
  have hm : m = n := by
    by_contra hne
    have hlt : m < n := lt_of_le_of_ne hend.le hne
    have hrem := remBt_nonpos_of_loop hq hloop ⟨m, hlt⟩
    rw [hend.remBt, if_neg (lt_irrefl m)] at hrem
    exact absurd (hbt ⟨m, hlt⟩) (by omega)
  rw [hend.table, hm, fcfsAt, loopAt_of_le fcfsStep le_rfl]
  rfl

end Sorted

/-- **Round robin with a large quantum is FCFS.**  On a list sorted by arrival, with a quantum
that no burst exceeds, round robin ends with the process list that `findWaitingTime` leaves. -/
theorem findWaitingTimeRR_eq_fcfs (plist : Fin n → ProcessType) (quantum : ℤ)
    (hsorted : ∀ i j, i ≤ j → (plist i).art ≤ (plist j).art) (hart : ∀ i, 0 ≤ (plist i).art)
    (hbt : ∀ i, 1 ≤ (plist i).bt) (hquantum : ∀ i, (plist i).bt ≤ quantum) :
    (∃ fuel out, findWaitingTimeRR fuel quantum plist = some out) ∧
      ∀ fuel out, findWaitingTimeRR fuel quantum plist = some out →
        ∀ i, (out i).wt = (findWaitingTime plist i).wt := by
  cases n with
  | zero => exact ⟨⟨0, plist, rfl⟩, fun _ _ _ i => i.elim0⟩
  | succ n =>
    have hq : 1 ≤ quantum := (hbt 0).trans (hquantum 0)
    refine ⟨findWaitingTimeRR_returns hq, fun fuel out hout i => ?_⟩
    rw [findWaitingTimeRR_eq hsorted hbt hquantum hart hq hout]

/-- Two processes arrive together, and the last one after a gap. -/
theorem findWaitingTimeRR_eq_fcfs_sample :
    let plist : Fin 4 → ProcessType :=
      ![⟨1, 3, 1, 0, 0, 0⟩, ⟨2, 2, 1, 0, 0, 0⟩, ⟨3, 4, 5, 0, 0, 0⟩, ⟨4, 1, 20, 0, 0, 0⟩]
    (∃ fuel out, findWaitingTimeRR fuel 4 plist = some out) ∧
      ∀ fuel out, findWaitingTimeRR fuel 4 plist = some out →
        ∀ i, (out i).wt = (findWaitingTime plist i).wt :=
  findWaitingTimeRR_eq_fcfs _ 4 (by decide) (by decide) (by decide) (by decide)

end OsLabs.SchedSim
