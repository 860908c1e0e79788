import OsLabs.Lib.Timeline
import OsLabs.Lib.WhileLoop
import OsLabs.SchedSim.Process

/-!
# Round robin

`findWaitingTimeRR`.  A pass of the `for` loop gives each process that is ready at its turn a
slice of the quantum or of what it still needs.  A pass without a slice is followed by an idle
tick if some process is unfinished, and otherwise ends the `do` loop.
-/

namespace OsLabs.SchedSim

open OsLabs.Lib

variable {n : ℕ}

/-- The variables of `findWaitingTimeRR` that live across iterations. -/
structure RrState (n : ℕ) where
  plist : Fin n → ProcessType
  remBt : Fin n → ℤ
  t : ℤ
  done : Bool

/-- The body of the `for` loop. -/
def rrSlice (quantum : ℤ) (s : RrState n) (i : Fin n) : RrState n :=
  if s.remBt i > 0 ∧ (s.plist i).art ≤ s.t then
    if s.remBt i > quantum then
      { s with
        t := s.t + quantum
        remBt := Function.update s.remBt i (s.remBt i - quantum)
        done := false }
    else
      let t := s.t + s.remBt i
      let p := s.plist i
      { plist := Function.update s.plist i { p with wt := t - p.bt - p.art }
        t := t
        remBt := Function.update s.remBt i 0
        done := false }
  else s

/-- `done = 1` and the `for` loop. -/
def rrPass (quantum : ℤ) (s : RrState n) : RrState n :=
  (List.finRange n).foldl (rrSlice quantum) { s with done := true }

/-- `if (done)`: one tick passes if some process has remaining time. -/
def rrIdle (s : RrState n) : RrState n :=
  if s.done = true ∧ ∃ i, s.remBt i > 0 then { s with t := s.t + 1, done := false } else s

/-- The body of the `do` loop. -/
def rrBody (quantum : ℤ) (s : RrState n) : RrState n := rrIdle (rrPass quantum s)

/-- `done` has no value before the first pass sets it. -/
def rrInit (plist : Fin n → ProcessType) : RrState n where
  plist := plist
  remBt i := (plist i).bt
  t := 0
  done := false

/-- The process list after `findWaitingTimeRR(plist, n, quantum)`, if its loop ends within
`fuel` further iterations. -/
def findWaitingTimeRR (fuel : ℕ) (quantum : ℤ) (plist : Fin n → ProcessType) :
    Option (Fin n → ProcessType) :=
  (doWhileLoop (fun s => !s.done) (rrBody quantum) fuel (rrInit plist)).map RrState.plist

/-! ### One slice -/

/-- The process has arrived and needs more time. -/
def RrReady (s : RrState n) (i : Fin n) : Prop := s.remBt i > 0 ∧ (s.plist i).art ≤ s.t

/-- The length of the slice that a ready process gets. -/
def sliceOf (quantum : ℤ) (s : RrState n) (i : Fin n) : ℤ := min quantum (s.remBt i)

variable {quantum : ℤ} {s : RrState n} {i : Fin n}

theorem rrSlice_of_not_ready (h : ¬ RrReady s i) : rrSlice quantum s i = s := if_neg h

theorem rrSlice_t (h : RrReady s i) : (rrSlice quantum s i).t = s.t + sliceOf quantum s i := by
  rw [rrSlice, if_pos (show _ ∧ _ from h), sliceOf]
  split
  · rename_i hlong
    rw [min_eq_left hlong.le]
  · rename_i hshort
    rw [min_eq_right (not_lt.mp hshort)]

theorem rrSlice_remBt (h : RrReady s i) :
    (rrSlice quantum s i).remBt =
      Function.update s.remBt i (s.remBt i - sliceOf quantum s i) := by
  rw [rrSlice, if_pos (show _ ∧ _ from h), sliceOf]
  split
  · rename_i hlong
    rw [min_eq_left hlong.le]
  · rename_i hshort
    rw [min_eq_right (not_lt.mp hshort), sub_self]

theorem rrSlice_done (h : RrReady s i) : (rrSlice quantum s i).done = false := by
  rw [rrSlice, if_pos (show _ ∧ _ from h)]
  split <;> rfl

/-- A slice sets the `wt` of the process that it finishes, and no other field. -/
theorem rrSlice_plist (h : RrReady s i) (j : Fin n) :
    (rrSlice quantum s i).plist j =
      if j = i ∧ s.remBt i ≤ quantum then
        { s.plist j with wt := s.t + s.remBt i - (s.plist j).bt - (s.plist j).art }
      else s.plist j := by
  rw [rrSlice, if_pos (show _ ∧ _ from h)]
  by_cases hlong : s.remBt i > quantum
  · rw [if_pos hlong, if_neg]
    rintro ⟨-, hshort⟩
    omega
  · rw [if_neg hlong]
    dsimp only
    by_cases hj : j = i
    · subst hj
      rw [Function.update_self, if_pos ⟨rfl, not_lt.mp hlong⟩]
    · rw [Function.update_of_ne hj, if_neg (fun hpair => hj hpair.1)]

/-! ### Progress of the loop -/

/-- What is left to do: the time until the processes arrive and the time that they need. -/
def rrMeasure (s : RrState n) : ℕ :=
  ∑ i, ((s.remBt i).toNat + ((s.plist i).art - s.t).toNat)

/-- A slice has been given, or nothing has changed. -/
def Advanced (s s' : RrState n) : Prop :=
  s' = s ∨ s'.done = false ∧ rrMeasure s' < rrMeasure s

theorem Advanced.trans {s₁ s₂ s₃ : RrState n} (h : Advanced s₁ s₂) (h' : Advanced s₂ s₃) :
    Advanced s₁ s₃ := by
  rcases h with rfl | ⟨hdone, hless⟩
  · exact h'
  · rcases h' with rfl | ⟨hdone', hless'⟩
    · exact Or.inr ⟨hdone, hless⟩
    · exact Or.inr ⟨hdone', hless'.trans hless⟩

theorem rrSlice_art (s : RrState n) (i j : Fin n) :
    ((rrSlice quantum s i).plist j).art = (s.plist j).art := by
  by_cases h : RrReady s i
  · rw [rrSlice_plist h]
    split <;> rfl
  · rw [rrSlice_of_not_ready h]

theorem rrSlice_advanced (hq : 1 ≤ quantum) (s : RrState n) (i : Fin n) :
    Advanced s (rrSlice quantum s i) := by
  by_cases h : RrReady s i
  · refine Or.inr ⟨rrSlice_done h, ?_⟩
    have hpos : 1 ≤ sliceOf quantum s i := le_min hq h.1
    have hleft : sliceOf quantum s i ≤ s.remBt i := min_le_right _ _
    refine Finset.sum_lt_sum (fun j _ => ?_) ⟨i, Finset.mem_univ i, ?_⟩
    · rw [rrSlice_art, rrSlice_t h, rrSlice_remBt h]
      by_cases hj : j = i
      · subst hj
        rw [Function.update_self]
        omega
      · rw [Function.update_of_ne hj]
        omega
    · rw [rrSlice_art, rrSlice_t h, rrSlice_remBt h, Function.update_self]
      omega
  · exact Or.inl (rrSlice_of_not_ready h)

theorem foldl_advanced (hq : 1 ≤ quantum) (l : List (Fin n)) (s : RrState n) :
    Advanced s (l.foldl (rrSlice quantum) s) := by
  induction l generalizing s with
  | nil => exact Or.inl rfl
  | cons i l ih => exact (rrSlice_advanced hq s i).trans (ih _)

/-- A pass that gives no slice has found no process ready. -/
theorem not_ready_of_foldl_eq (hq : 1 ≤ quantum) {l : List (Fin n)} {s : RrState n}
    (h : l.foldl (rrSlice quantum) s = s) : ∀ i ∈ l, ¬ RrReady s i := by
  induction l with
  | nil => exact nofun
  | cons i l ih =>
    rw [List.foldl_cons] at h
    have hslice : ¬ RrReady s i := by
      intro hready
      have hless : rrMeasure (rrSlice quantum s i) < rrMeasure s := by
        rcases rrSlice_advanced hq s i with hsame | ⟨-, hless⟩
        · have htime : (rrSlice quantum s i).t = s.t + sliceOf quantum s i := rrSlice_t hready
          have hpos : 1 ≤ sliceOf quantum s i := le_min hq hready.1
          rw [hsame] at htime
          omega
        · exact hless
      rcases foldl_advanced hq l (rrSlice quantum s i) with hrest | ⟨-, hrest⟩
      · rw [hrest] at h
        rw [h] at hless
        exact lt_irrefl _ hless
      · rw [h] at hrest
        omega
    rw [rrSlice_of_not_ready hslice] at h
    exact List.forall_mem_cons.mpr ⟨hslice, ih h⟩

/-- An iteration gives slices, lets a tick pass while nobody is ready, or ends the loop. -/
theorem rrBody_cases (hq : 1 ≤ quantum) (s : RrState n) :
    (rrBody quantum s = rrPass quantum s ∧ (rrPass quantum s).done = false ∧
        rrMeasure (rrPass quantum s) < rrMeasure s) ∨
      (∀ i, ¬ RrReady s i) ∧
        ((∃ i, s.remBt i > 0) ∧ rrBody quantum s = { s with t := s.t + 1, done := false } ∨
          (∀ i, s.remBt i ≤ 0) ∧ rrBody quantum s = { s with done := true }) := by
  rw [rrBody]
  rcases foldl_advanced hq (List.finRange n) { s with done := true } with hsame | ⟨hdone, hless⟩
  · have hnone := not_ready_of_foldl_eq hq hsame
    rw [rrPass, hsame, rrIdle]
    refine Or.inr ⟨fun i => hnone i (List.mem_finRange i), ?_⟩
    by_cases hleft : ∃ i, s.remBt i > 0
    · exact Or.inl ⟨hleft, if_pos ⟨rfl, hleft⟩⟩
    · refine Or.inr ⟨fun i => not_lt.mp fun hi => hleft ⟨i, hi⟩, if_neg ?_⟩
      exact fun hboth => hleft hboth.2
  · refine Or.inl ⟨?_, hdone, hless⟩
    rw [rrIdle, if_neg]
    intro hboth
    rw [rrPass, hdone] at hboth
    cases hboth.1

theorem rrBody_measure (hq : 1 ≤ quantum) (h : (rrBody quantum s).done = false) :
    rrMeasure (rrBody quantum s) < rrMeasure s := by
  rcases rrBody_cases hq s with ⟨hbody, -, hless⟩ | ⟨hnone, ⟨⟨i, hi⟩, hbody⟩ | ⟨-, hbody⟩⟩
  · rw [hbody]
    exact hless
  · -- the unfinished process has not arrived yet
    have hart : s.t < (s.plist i).art := by
      by_contra hle
      exact hnone i ⟨hi, not_lt.mp hle⟩
    rw [hbody]
    refine Finset.sum_lt_sum (fun j _ => ?_) ⟨i, Finset.mem_univ i, ?_⟩ <;> dsimp only <;> omega
  · rw [hbody] at h
    cases h

/-! ### The schedule of the loop -/

variable (plist : Fin n → ProcessType)

/-- The ticks that have passed, as far as the variables of the loop tell them. -/
structure Recorded (s : RrState n) (ticks : List (Option (Fin n))) : Prop where
  conserving : Conserving (arrival plist) (burst plist) ticks
  t : s.t = ticks.length
  remBt : ∀ i, s.remBt i = (plist i).bt - ticks.count (some i)
  nonneg : ∀ i, 0 ≤ s.remBt i
  input : ∀ i, (s.plist i).art = (plist i).art ∧ (s.plist i).bt = (plist i).bt
  wt : ∀ i, s.remBt i = 0 →
    (completion (timeline ticks) i : ℤ) = (plist i).art + (s.plist i).wt + (plist i).bt

variable {plist} {ticks : List (Option (Fin n))}

theorem recorded_init (hbt : ∀ i, 1 ≤ (plist i).bt) : Recorded plist (rrInit plist) [] where
  conserving := conserving_nil
  t := rfl
  remBt i := by
    rw [List.count_nil]
    exact (sub_zero _).symm
  nonneg i := by
    have := hbt i
    show 0 ≤ (plist i).bt
    omega
  input _ := ⟨rfl, rfl⟩
  wt i hzero := by
    have := hbt i
    change (plist i).bt = 0 at hzero
    omega

theorem Recorded.setDone (h : Recorded plist s ticks) (done : Bool) :
    Recorded plist { s with done := done } ticks :=
  ⟨h.conserving, h.t, h.remBt, h.nonneg, h.input, h.wt⟩

/-- A ready process runs for the ticks of its slice. -/
theorem Recorded.slice (h : Recorded plist s ticks) (hq : 1 ≤ quantum) (i : Fin n) :
    ∃ ticks', Recorded plist (rrSlice quantum s i) ticks' := by
  by_cases hready : RrReady s i
  · have hpos : 1 ≤ sliceOf quantum s i := le_min hq hready.1
    have hleft : sliceOf quantum s i ≤ s.remBt i := min_le_right _ _
    obtain ⟨k, hk⟩ := Int.eq_ofNat_of_zero_le (show 0 ≤ sliceOf quantum s i by omega)
    have hi := h.remBt i
    have hinput := h.input i
    have htime := h.t
    have harrived := hready.2
    refine ⟨ticks ++ List.replicate k (some i), ?_, ?_, ?_, ?_, ?_, ?_⟩
    · refine h.conserving.run ?_ ?_
      · rw [arrival]
        omega
      · rw [burst]
        omega
    · rw [rrSlice_t hready, hk, htime, List.length_append, List.length_replicate, Nat.cast_add]
    · intro j
      rw [rrSlice_remBt hready, count_append_replicate]
      by_cases hj : j = i
      · subst hj
        rw [Function.update_self, if_pos rfl, hi, hk, Nat.cast_add, sub_sub]
      · have hne : some i ≠ some j := fun heq => hj (Option.some.inj heq).symm
        rw [Function.update_of_ne hj, if_neg hne, Nat.add_zero, h.remBt j]
    · intro j
      rw [rrSlice_remBt hready]
      by_cases hj : j = i
      · subst hj
        rw [Function.update_self]
        omega
      · rw [Function.update_of_ne hj]
        exact h.nonneg j
    · intro j
      rw [rrSlice_plist hready]
      split
      · exact h.input j
      · exact h.input j
    · intro j hzero
      rw [rrSlice_remBt hready] at hzero
      rw [rrSlice_plist hready]
      by_cases hj : j = i
      · subst hj
        rw [Function.update_self] at hzero
        have hshort : sliceOf quantum s j ≤ quantum := min_le_left _ _
        rw [if_pos ⟨rfl, by omega⟩, completion_append_replicate (by omega)]
        dsimp only
        omega
      · rw [Function.update_of_ne hj] at hzero
        have hne : some i ≠ some j := fun heq => hj (Option.some.inj heq).symm
        rw [if_neg (fun hpair => hj hpair.1), completion_append_replicate_of_ne hne]
        exact h.wt j hzero
  · rw [rrSlice_of_not_ready hready]
    exact ⟨ticks, h⟩

theorem Recorded.foldl (h : Recorded plist s ticks) (hq : 1 ≤ quantum) (l : List (Fin n)) :
    ∃ ticks', Recorded plist (l.foldl (rrSlice quantum) s) ticks' := by
  induction l generalizing s ticks with
  | nil => exact ⟨ticks, h⟩
  | cons i l ih =>
    obtain ⟨ticks₁, h₁⟩ := h.slice hq i
    exact ih h₁

/-- A tick that passes while nobody is ready finds no process pending. -/
theorem Recorded.idle (h : Recorded plist s ticks) (hart : ∀ i, 0 ≤ (plist i).art)
    (hnone : ∀ i, ¬ RrReady s i) :
    Recorded plist { s with t := s.t + 1, done := false } (ticks ++ [none]) := by
  have hnot : ∀ i, some i ∉ [(none : Option (Fin n))] := fun i => by simp
  refine ⟨h.conserving.tick nofun fun _ => ?_, ?_, ?_, h.nonneg, h.input, ?_⟩
  · rw [Finset.eq_empty_iff_forall_notMem]
    intro i hi
    rw [mem_pending_length, arrival, burst] at hi
    have hrem := h.remBt i
    have hinput := h.input i
    have htime := h.t
    have harrived := hart i
    exact hnone i ⟨by omega, by omega⟩
  · rw [List.length_append, List.length_singleton, Nat.cast_add, ← h.t]
    rfl
  · intro i
    rw [List.count_append, List.count_eq_zero.mpr (hnot i), Nat.add_zero]
    exact h.remBt i
  · intro i hzero
    rw [completion_append (hnot i)]
    exact h.wt i hzero

/-- The loop has recorded its ticks, and it has given every process its time when it is done. -/
def RrInv (plist : Fin n → ProcessType) (s : RrState n) : Prop :=
  (∃ ticks, Recorded plist s ticks) ∧ (s.done = true → ∀ i, s.remBt i = 0)

theorem RrInv.body (h : RrInv plist s) (hart : ∀ i, 0 ≤ (plist i).art) (hq : 1 ≤ quantum) :
    RrInv plist (rrBody quantum s) := by
  obtain ⟨⟨ticks, hrec⟩, -⟩ := h
  rcases rrBody_cases hq s with ⟨hbody, hdone, -⟩ | ⟨hnone, ⟨-, hbody⟩ | ⟨hleft, hbody⟩⟩
  · rw [hbody]
    refine ⟨(hrec.setDone true).foldl hq _, fun htrue => ?_⟩
    rw [hdone] at htrue
    cases htrue
  · rw [hbody]
    exact ⟨⟨_, hrec.idle hart hnone⟩, nofun⟩
  · rw [hbody]
    exact ⟨⟨ticks, hrec.setDone true⟩, fun _ i => le_antisymm (hleft i) (hrec.nonneg i)⟩

/-- The loop of `findWaitingTimeRR` ends, whatever the fields of the processes are. -/
theorem findWaitingTimeRR_returns (hq : 1 ≤ quantum) :
    ∃ fuel out, findWaitingTimeRR fuel quantum plist = some out := by
  have hends : ∃ fuel s, doWhileLoop (fun s => !s.done) (rrBody quantum) fuel (rrInit plist) =
      some s :=
    exists_doWhileLoop_of_measure (I := fun _ => True) rrMeasure (fun _ _ => trivial)
      (fun s _ hgoes => rrBody_measure hq (by simpa using hgoes)) trivial
  obtain ⟨fuel, s, hloop⟩ := hends
  exact ⟨fuel, s.plist, by rw [findWaitingTimeRR, hloop]; rfl⟩

/-- When the loop has ended no process has remaining time. -/
theorem remBt_nonpos_of_loop (hq : 1 ≤ quantum) {fuel : ℕ}
    (h : doWhileLoop (fun s => !s.done) (rrBody quantum) fuel (rrInit plist) = some s)
    (i : Fin n) : s.remBt i ≤ 0 := by
  have hdone := doWhileLoop_invariant (I := fun s => s.done = true → ∀ i, s.remBt i ≤ 0)
    (fun s _ => ?_) nofun h
  · exact hdone.1 (by simpa using hdone.2) i
  · rcases rrBody_cases hq s with ⟨hbody, hpass, -⟩ | ⟨-, ⟨-, hbody⟩ | ⟨hleft, hbody⟩⟩
    · intro htrue
      rw [hbody, hpass] at htrue
      cases htrue
    · rw [hbody]
      exact nofun
    · rw [hbody]
      exact fun _ => hleft

section Admissible

variable (hart : ∀ i, 0 ≤ (plist i).art) (hbt : ∀ i, 1 ≤ (plist i).bt) (hq : 1 ≤ quantum)

include hart hbt hq

/-- The `wt` fields that `findWaitingTimeRR` leaves are those of a work-conserving schedule. -/
theorem findWaitingTimeRR_schedule {fuel : ℕ} {out : Fin n → ProcessType}
    (h : findWaitingTimeRR fuel quantum plist = some out) :
    ∃ σ, WorkConserving (arrival plist) (burst plist) σ ∧
      ∀ i, (out i).art = (plist i).art ∧ (out i).bt = (plist i).bt ∧
        (completion σ i : ℤ) = (plist i).art + (out i).wt + (plist i).bt := by
  rw [findWaitingTimeRR, Option.map_eq_some_iff] at h
  obtain ⟨s, hloop, rfl⟩ := h
  obtain ⟨⟨⟨ticks, hrec⟩, hfinal⟩, hguard⟩ := doWhileLoop_invariant
    (fun s hI => RrInv.body hI hart hq) ⟨⟨[], recorded_init hbt⟩, nofun⟩ hloop
  have hzero := hfinal (by simpa using hguard)
  refine ⟨timeline ticks, hrec.conserving.workConserving fun i => ?_, fun i =>
    ⟨(hrec.input i).1, (hrec.input i).2, hrec.wt i (hzero i)⟩⟩
  have hrem := hrec.remBt i
  rw [hzero i] at hrem
  rw [burst]
  omega

end Admissible

end OsLabs.SchedSim
