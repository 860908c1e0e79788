import OsLabs.SchedSim.IntClock
import OsLabs.SchedSim.ParseFile

/-!
# The four tables of `main`

`main` reads the file once for each policy and prints a table of the processes with the totals
of their waiting and turn around times.  The processes are the same in all tables, the totals of
each differ by all the bursts, and no policy waits less in total than SRTF.  All of it is `int`
arithmetic, and a run in which some of it overflows has no result.
-/

namespace OsLabs.SchedSim

open OsLabs.Lib

variable {n : ℕ}

/-! ### The program -/

/-- What `printMetrics` prints, without the averages: a line for each process, and the totals that
the averages are taken of. -/
structure Metrics where
  rows : List (ℤ × ℤ × ℤ × ℤ)
  totalWt : ℤ
  totalTat : ℤ
  deriving DecidableEq

def metricsStep (plist : Fin n → ProcessType) (m : Metrics) (i : Fin n) : Option Metrics := do
  let totalWt ← addInt m.totalWt (plist i).wt
  let totalTat ← addInt m.totalTat (plist i).tat
  return {
    rows := m.rows ++ [((plist i).pid, (plist i).bt, (plist i).wt, (plist i).tat)]
    totalWt := totalWt
    totalTat := totalTat }

def printMetrics (plist : Fin n → ProcessType) : Option Metrics :=
  (List.finRange n).foldlM (metricsStep plist) ⟨[], 0, 0⟩

/-- `findavgTimeSJF`, without what it prints. -/
def findavgTimeSJFInt (fuel : ℕ) (plist : Fin n → ProcessType) : Option (Fin n → ProcessType) :=
  (findWaitingTimeSJFInt INT_MAX fuel plist).bind findTurnAroundTimeInt

/-- `findavgTimeRR`, without what it prints. -/
def findavgTimeRRInt (fuel : ℕ) (quantum : ℤ) (plist : Fin n → ProcessType) :
    Option (Fin n → ProcessType) :=
  (findWaitingTimeRRInt INT_MAX fuel quantum plist).bind findTurnAroundTimeInt

/-- `initProc` on a file that can be opened. -/
def initProc (fuel : ℕ) (bytes : List Char) : Option (List ProcessType) :=
  (parseFile fuel bytes 0).map Parsed.pptr

structure Tables where
  fcfs : Metrics
  sjf : Metrics
  priority : Metrics
  rr : Metrics
  deriving DecidableEq

/-- `main` with the bytes of its file, if its loops end within `fuel` iterations. -/
def schedsim (qsort : ∀ n, (Fin n → ProcessType) → Fin n → ProcessType) (fuel : ℕ)
    (bytes : List Char) : Option Tables := do
  let forFcfs ← initProc fuel bytes
  let fcfs ← printMetrics (← findavgTimeFCFSInt forFcfs.get)
  let forSjf ← initProc fuel bytes
  let sjf ← printMetrics (← findavgTimeSJFInt fuel forSjf.get)
  let forPriority ← initProc fuel bytes
  let priority ← printMetrics (← findavgTimePriorityInt (qsort _) forPriority.get)
  let forRr ← initProc fuel bytes
  let rr ← printMetrics (← findavgTimeRRInt fuel 2 forRr.get)
  return { fcfs := fcfs, sjf := sjf, priority := priority, rr := rr }

/-! ### Totals -/

theorem foldlM_metricsStep {plist : Fin n → ProcessType} {l : List (Fin n)} {m m' : Metrics}
    (h : l.foldlM (metricsStep plist) m = some m') :
    m' = ⟨m.rows ++ l.map fun i => ((plist i).pid, (plist i).bt, (plist i).wt, (plist i).tat),
      m.totalWt + (l.map fun i => (plist i).wt).sum,
      m.totalTat + (l.map fun i => (plist i).tat).sum⟩ := by
  induction l generalizing m with
  | nil =>
    obtain rfl := Option.some.inj h
    simp
  | cons i l ih =>
    obtain ⟨next, hnext, hrest⟩ := Option.bind_eq_some_iff.mp h
    obtain ⟨totalWt, hwt, hnext⟩ := Option.bind_eq_some_iff.mp hnext
    obtain ⟨totalTat, htat, hnext⟩ := Option.bind_eq_some_iff.mp hnext
    obtain rfl := checkInt_eq_some hwt
    obtain rfl := checkInt_eq_some htat
    obtain rfl := Option.some.inj hnext
    rw [ih hrest]
    simp only [List.append_assoc, List.map_cons, List.sum_cons, List.singleton_append, add_assoc]

theorem printMetrics_eq_some {plist : Fin n → ProcessType} {m : Metrics}
    (h : printMetrics plist = some m) :
    m = ⟨List.ofFn fun i => ((plist i).pid, (plist i).bt, (plist i).wt, (plist i).tat),
      ∑ i, (plist i).wt, ∑ i, (plist i).tat⟩ := by
  rw [foldlM_metricsStep h, List.ofFn_eq_map, Fin.sum_univ_def, Fin.sum_univ_def]
  simp only [List.nil_append, zero_add]

/-- Totals of times that are not negative are in range if they are in the end. -/
theorem exists_foldlM_metricsStep {plist : Fin n → ProcessType}
    (hwt : ∀ i, 0 ≤ (plist i).wt) (htat : ∀ i, (plist i).wt ≤ (plist i).tat) {l : List (Fin n)}
    {m : Metrics} (hm : 0 ≤ m.totalWt) (hle : m.totalWt ≤ m.totalTat)
    (hmax : m.totalTat + (l.map fun i => (plist i).tat).sum ≤ INT_MAX) :
    ∃ m', l.foldlM (metricsStep plist) m = some m' := by
  induction l generalizing m with
  | nil => exact ⟨m, rfl⟩
  | cons i l ih =>
    have hi := hwt i
    have hi' := htat i
    have hrest : 0 ≤ (l.map fun i => (plist i).tat).sum := by
      refine List.sum_nonneg fun x hx => ?_
      obtain ⟨j, -, rfl⟩ := List.mem_map.mp hx
      exact (hwt j).trans (htat j)
    rw [List.map_cons, List.sum_cons, INT_MAX] at hmax
    have hfirst : InInt (m.totalWt + (plist i).wt) := by constructor <;> omega
    have hsecond : InInt (m.totalTat + (plist i).tat) := by constructor <;> omega
    have hstep : metricsStep plist m i =
        some ⟨m.rows ++ [((plist i).pid, (plist i).bt, (plist i).wt, (plist i).tat)],
          m.totalWt + (plist i).wt, m.totalTat + (plist i).tat⟩ := by
      rw [metricsStep, addInt_of_inInt hfirst, addInt_of_inInt hsecond]
      rfl
    rw [List.foldlM_cons, hstep]
    refine ih ?_ ?_ ?_
    · show 0 ≤ m.totalWt + (plist i).wt
      omega
    · show m.totalWt + (plist i).wt ≤ m.totalTat + (plist i).tat
      omega
    · show m.totalTat + (plist i).tat + _ ≤ INT_MAX
      rw [INT_MAX]
      omega

/-! ### What the policies leave -/

/-- Only the waiting times are written. -/
def Stamped (plist current : Fin n → ProcessType) : Prop :=
  ∀ i, { current i with wt := (plist i).wt } = plist i

theorem stamped_refl (plist : Fin n → ProcessType) : Stamped plist plist := fun _ => rfl

theorem Stamped.update {plist current : Fin n → ProcessType} (h : Stamped plist current)
    (i : Fin n) (wt : ℤ) :
    Stamped plist (Function.update current i { current i with wt := wt }) := by
  intro j
  by_cases hj : j = i
  · subst hj
    rw [Function.update_self]
    exact h j
  · rw [Function.update_of_ne hj]
    exact h j

theorem findWaitingTime_stamped (plist : Fin n → ProcessType) :
    Stamped plist (findWaitingTime plist) := by
  show Stamped plist (forLoop fcfsStep ⟨plist, 0⟩).plist
  exact forLoop_invariant (I := fun _ (s : FcfsState n) => Stamped plist s.plist) (stamped_refl plist)
    fun i _ h => h.update i _

theorem findWaitingTimeSJF_stamped {plist out : Fin n → ProcessType} {fuel : ℕ}
    (h : findWaitingTimeSJF fuel plist = some out) : Stamped plist out := by
  obtain ⟨s, hloop, rfl⟩ := Option.map_eq_some_iff.mp h
  refine (whileLoop_invariant (I := fun s => Stamped plist s.plist) (fun s hs _ => ?_)
    (stamped_refl plist) hloop).1
  rw [sjfBody]
  split
  · exact hs
  · dsimp only
    split
    · exact hs.update _ _
    · exact hs

theorem findWaitingTimeRR_stamped {plist out : Fin n → ProcessType} {fuel : ℕ} {quantum : ℤ}
    (h : findWaitingTimeRR fuel quantum plist = some out) : Stamped plist out := by
  obtain ⟨s, hloop, rfl⟩ := Option.map_eq_some_iff.mp h
  refine (doWhileLoop_invariant (I := fun s => Stamped plist s.plist) (fun s hs => ?_)
    (stamped_refl plist) hloop).1
  have hpass : Stamped plist (rrPass quantum s).plist := by
    show Stamped plist (forLoop (rrSlice quantum) { s with done := true }).plist
    refine forLoop_invariant (I := fun _ (s : RrState n) => Stamped plist s.plist) hs
      fun i s hs => ?_
    rw [rrSlice]
    split
    · split
      · exact hs
      · exact hs.update i _
    · exact hs
  rw [rrBody, rrIdle]
  split
  · exact hpass
  · exact hpass

/-- The lines of a table are the processes, in some order, with the times of a schedule. -/
structure Reported (plist out : Fin n → ProcessType) (e : Equiv.Perm (Fin n)) : Prop where
  input : ∀ i, (out i).pid = (plist (e i)).pid ∧ (out i).bt = (plist (e i)).bt
  tat : ∀ i, (out i).tat = (out i).bt + (out i).wt
  schedule : ∃ τ, IsSchedule (arrival plist) (burst plist) τ ∧ ∀ i,
    (completion τ (e i) : ℤ) = (plist (e i)).art + (out i).wt + (plist (e i)).bt

variable {plist out : Fin n → ProcessType}

theorem Stamped.reported (h : Stamped plist out)
    (hschedule : ∃ τ, IsSchedule (arrival plist) (burst plist) τ ∧ ∀ i,
      (completion τ i : ℤ) = (plist i).art + (out i).wt + (plist i).bt) :
    Reported plist (findTurnAroundTime out) (Equiv.refl (Fin n)) where
  input i := by
    have hpid := congrArg ProcessType.pid (h i)
    have hbt := congrArg ProcessType.bt (h i)
    exact ⟨hpid, hbt⟩
  tat _ := rfl
  schedule := hschedule

namespace Reported

variable {e : Equiv.Perm (Fin n)}

/-- The processes in another order. -/
theorem relabel {σ : Equiv.Perm (Fin n)} (h : Reported (plist ∘ σ) out e) :
    Reported plist out (e.trans σ) where
  input := h.input
  tat := h.tat
  schedule := by
    obtain ⟨τ, hτ, hcompletion⟩ := h.schedule
    have hrelabel : IsSchedule (arrival plist) (burst plist) (τ.relabel σ) :=
      IsSchedule.relabel σ hτ
    refine ⟨τ.relabel σ, hrelabel, fun i => ?_⟩
    show (completion (τ.relabel σ) (σ (e i)) : ℤ) = _
    rw [completion_relabel]
    exact hcompletion i

theorem sum_wt (h : Reported plist out e) : ∃ τ, IsSchedule (arrival plist) (burst plist) τ ∧
    ∑ i, (out i).wt = ∑ i, waitingTime plist τ i := by
  obtain ⟨τ, hτ, hcompletion⟩ := h.schedule
  refine ⟨τ, hτ, ?_⟩
  rw [← Equiv.sum_comp e (waitingTime plist τ)]
  refine Finset.sum_congr rfl fun i _ => ?_
  rw [waitingTime, hcompletion i]
  omega

theorem sum_tat (h : Reported plist out e) :
    ∑ i, (out i).tat = ∑ i, (out i).wt + ∑ i, (plist i).bt := by
  have hbt : ∑ i, (out i).bt = ∑ i, (plist i).bt := by
    rw [← Equiv.sum_comp e fun i => (plist i).bt]
    exact Finset.sum_congr rfl fun i _ => (h.input i).2
  simp only [h.tat]
  rw [Finset.sum_add_distrib, hbt, add_comm]

/-- The first two columns of the table are those of the processes. -/
theorem columns (h : Reported plist out e) :
    (List.ofFn fun i => ((out i).pid, (out i).bt)).Perm
      (List.ofFn fun i => ((plist i).pid, (plist i).bt)) := by
  have hsame : (fun i => ((out i).pid, (out i).bt)) =
      (fun i => ((plist i).pid, (plist i).bt)) ∘ e := by
    funext i
    rw [Function.comp_apply, (h.input i).1, (h.input i).2]
  rw [hsame]
  exact Equiv.Perm.ofFn_comp_perm e _

end Reported

section Admissible

variable (hart : ∀ i, 0 ≤ (plist i).art)
  (hbt : ∀ i, 1 ≤ (plist i).bt ∧ (plist i).bt < INT_MAX)

include hart hbt

theorem findavgTimeFCFSInt_reported (h : findavgTimeFCFSInt plist = some out) :
    Reported plist out (Equiv.refl (Fin n)) := by
  obtain ⟨-, rfl⟩ := (findavgTimeFCFSInt_eq_some_iff hart fun i => (hbt i).1).mp h
  refine (findWaitingTime_stamped plist).reported ?_
  obtain ⟨τ, hτ, h⟩ := findWaitingTime_schedule hart fun i => (hbt i).1
  exact ⟨τ, hτ, fun i => (h i).2.2⟩

theorem findavgTimeSJFInt_reported {fuel : ℕ} (h : findavgTimeSJFInt fuel plist = some out) :
    Reported plist out (Equiv.refl (Fin n)) := by
  obtain ⟨waited, hwaited, hturned⟩ := Option.bind_eq_some_iff.mp h
  obtain rfl := findTurnAroundTimeInt_eq_some hturned
  have hunchecked := findWaitingTimeSJFInt_eq_some hwaited
  refine (findWaitingTimeSJF_stamped hunchecked).reported ?_
  obtain ⟨τ, hτ, h⟩ := findWaitingTimeSJF_schedule hart hbt hunchecked
  exact ⟨τ, hτ.isSchedule, fun i => (h i).2.2⟩

theorem findavgTimeRRInt_reported {quantum : ℤ} (hq : 1 ≤ quantum) {fuel : ℕ}
    (h : findavgTimeRRInt fuel quantum plist = some out) :
    Reported plist out (Equiv.refl (Fin n)) := by
  obtain ⟨waited, hwaited, hturned⟩ := Option.bind_eq_some_iff.mp h
  obtain rfl := findTurnAroundTimeInt_eq_some hturned
  have hunchecked := findWaitingTimeRRInt_eq_some hwaited
  refine (findWaitingTimeRR_stamped hunchecked).reported ?_
  obtain ⟨τ, hτ, h⟩ := findWaitingTimeRR_schedule hart (fun i => (hbt i).1) hq hunchecked
  exact ⟨τ, hτ.isSchedule, fun i => (h i).2.2⟩

/-- Sorting changes the order of the lines only. -/
theorem findavgTimePriorityInt_reported {qsort : (Fin n → ProcessType) → Fin n → ProcessType}
    {σ : Equiv.Perm (Fin n)} (hqsort : qsort plist = plist ∘ σ)
    (h : findavgTimePriorityInt qsort plist = some out) : Reported plist out σ := by
  rw [findavgTimePriorityInt, hqsort] at h
  have hsorted : Reported (plist ∘ σ) out (Equiv.refl (Fin n)) :=
    findavgTimeFCFSInt_reported (fun i => hart (σ i)) (fun i => hbt (σ i)) h
  exact hsorted.relabel

/-- No other table has a smaller total than that of SRTF. -/
theorem sum_wt_sjf_le {fuel : ℕ} {sjf : Fin n → ProcessType}
    (h : findavgTimeSJFInt fuel plist = some sjf) {e : Equiv.Perm (Fin n)}
    (hout : Reported plist out e) : ∑ i, (sjf i).wt ≤ ∑ i, (out i).wt := by
  obtain ⟨waited, hwaited, hturned⟩ := Option.bind_eq_some_iff.mp h
  obtain rfl := findTurnAroundTimeInt_eq_some hturned
  have hunchecked := findWaitingTimeSJFInt_eq_some hwaited
  obtain ⟨τ, hτ, hsum⟩ := hout.sum_wt
  have hle := (sjfSchedule_shortestFirst hart hbt).sum_completion_le hτ (burst_pos hbt)
  have hcast : ∑ i, (completion (sjfSchedule plist) i : ℤ) ≤ ∑ i, (completion τ i : ℤ) := by
    exact_mod_cast hle
  have hsjf : ∑ i, (waited i).wt = ∑ i, waitingTime plist (sjfSchedule plist) i :=
    Finset.sum_congr rfl fun i _ => findWaitingTimeSJF_wt hart hbt hunchecked i
  show ∑ i, (waited i).wt ≤ _
  rw [hsjf, hsum]
  simp only [waitingTime, Finset.sum_sub_distrib]
  omega

end Admissible

/-! ### Results -/

/-- The totals are in range if all processes together do not take too long. -/
theorem Reported.printMetrics_returns {e : Equiv.Perm (Fin n)} (h : Reported plist out e)
    (hart : ∀ i, 0 ≤ (plist i).art) (hbt : ∀ i, 1 ≤ (plist i).bt)
    (hin : ∀ i, (out i).bt + (out i).wt ≤ clockLimit plist)
    (hmax : n * clockLimit plist ≤ INT_MAX) : ∃ m, printMetrics out = some m := by
  obtain ⟨τ, hτ, hcompletion⟩ := h.schedule
  have hwt : ∀ i, 0 ≤ (out i).wt := by
    intro i
    have hb := hbt (e i)
    have ha := hart (e i)
    have hle := hτ.arrival_add_burst_le (i := e i) (by unfold burst; omega)
    have := hcompletion i
    unfold arrival burst at hle
    omega
  have htat : ∀ i, (out i).wt ≤ (out i).tat := by
    intro i
    have hb := hbt (e i)
    rw [h.tat, (h.input i).2]
    omega
  have hsum : ∑ i, (out i).tat ≤ n * clockLimit plist := by
    have hle := Finset.sum_le_card_nsmul Finset.univ (fun i => (out i).tat) (clockLimit plist)
      fun i _ => (h.tat i).le.trans (hin i)
    rwa [Finset.card_univ, Fintype.card_fin, nsmul_eq_mul] at hle
  refine exists_foldlM_metricsStep hwt htat le_rfl le_rfl ?_
  rw [← Fin.sum_univ_def]
  show 0 + _ ≤ _
  omega

theorem clockLimit_comp (plist : Fin n → ProcessType) (σ : Equiv.Perm (Fin n)) :
    clockLimit (plist ∘ σ) = clockLimit plist := by
  have hlatest : latestArrival (plist ∘ σ) = latestArrival plist := by
    have hsup : Finset.univ.sup (arrival (plist ∘ σ)) = Finset.univ.sup (arrival plist) := by
      refine le_antisymm (Finset.sup_le fun i _ => ?_) (Finset.sup_le fun i _ => ?_)
      · exact Finset.le_sup (f := arrival plist) (Finset.mem_univ (σ i))
      · have hi : arrival (plist ∘ σ) (σ.symm i) = arrival plist i := by
          unfold arrival
          rw [Function.comp_apply, Equiv.apply_symm_apply]
        rw [← hi]
        exact Finset.le_sup (Finset.mem_univ (σ.symm i))
    rw [latestArrival, latestArrival, hsup]
  have hsum : ∑ i, ((plist ∘ σ) i).bt = ∑ i, (plist i).bt :=
    Equiv.sum_comp σ fun i => (plist i).bt
  rw [clockLimit, clockLimit, hlatest, hsum]

section Returns

variable (hart : ∀ i, 0 ≤ (plist i).art)
  (hbt : ∀ i, 1 ≤ (plist i).bt ∧ (plist i).bt < INT_MAX) (hlimit : clockLimit plist ≤ INT_MAX)

include hart hbt hlimit

theorem findavgTimeFCFSInt_returns : ∃ out, findavgTimeFCFSInt plist = some out ∧
    ∀ i, (out i).bt + (out i).wt ≤ clockLimit plist := by
  have hbt' : ∀ i, 1 ≤ (plist i).bt := fun i => (hbt i).1
  have hin := findWaitingTime_inTime hart hbt'
  refine ⟨findavgTimeFCFS plist, ?_, fun i => (hin i).2⟩
  rw [findavgTimeFCFSInt, findWaitingTimeInt_eq hart hbt' hlimit le_rfl, Option.bind_some]
  exact findTurnAroundTimeInt_eq hlimit hin

theorem findavgTimeSJFInt_returns : ∃ fuel out, findavgTimeSJFInt fuel plist = some out ∧
    ∀ i, (out i).bt + (out i).wt ≤ clockLimit plist := by
  obtain ⟨fuel, waited, hwaited⟩ := findWaitingTimeSJFInt_returns hart hlimit hbt
  have hin := findWaitingTimeSJF_inTime hart (fun i => (hbt i).1) hlimit le_rfl
    (fun i => (hbt i).2) (findWaitingTimeSJFInt_eq_some hwaited)
  refine ⟨fuel, findTurnAroundTime waited, ?_, fun i => (hin i).2⟩
  rw [findavgTimeSJFInt, hwaited, Option.bind_some]
  exact findTurnAroundTimeInt_eq hlimit hin

theorem findavgTimeRRInt_returns {quantum : ℤ} (hq : 1 ≤ quantum) :
    ∃ fuel out, findavgTimeRRInt fuel quantum plist = some out ∧
      ∀ i, (out i).bt + (out i).wt ≤ clockLimit plist := by
  have hbt' : ∀ i, 1 ≤ (plist i).bt := fun i => (hbt i).1
  obtain ⟨fuel, waited, hwaited⟩ := findWaitingTimeRRInt_returns hart hlimit hbt' hq
  have hin := findWaitingTimeRR_inTime hart hbt' hlimit le_rfl hq
    (findWaitingTimeRRInt_eq_some hwaited)
  refine ⟨fuel, findTurnAroundTime waited, ?_, fun i => (hin i).2⟩
  rw [findavgTimeRRInt, hwaited, Option.bind_some]
  exact findTurnAroundTimeInt_eq hlimit hin

theorem findavgTimePriorityInt_returns {qsort : (Fin n → ProcessType) → Fin n → ProcessType}
    {σ : Equiv.Perm (Fin n)} (hqsort : qsort plist = plist ∘ σ) :
    ∃ out, findavgTimePriorityInt qsort plist = some out ∧
      ∀ i, (out i).bt + (out i).wt ≤ clockLimit plist := by
  have hsame := clockLimit_comp plist σ
  rw [← hsame] at hlimit ⊢
  rw [findavgTimePriorityInt, hqsort]
  exact findavgTimeFCFSInt_returns (fun i => hart (σ i)) (fun i => hbt (σ i)) hlimit

end Returns

/-! ### The whole program -/

theorem parseFile_mono {fuel fuel' : ℕ} (hle : fuel ≤ fuel') {bytes : List Char} {size : ℤ}
    {parsed : Parsed} (h : parseFile fuel bytes size = some parsed) :
    parseFile fuel' bytes size = some parsed := by
  obtain ⟨counted, hcount, hrest⟩ := Option.bind_eq_some_iff.mp h
  obtain ⟨read, hread, hparsed⟩ := Option.bind_eq_some_iff.mp hrest
  rw [parseFile, whileLoopM_mono hle hcount, Option.bind_eq_bind, Option.bind_some,
    whileLoopM_mono hle hread]
  exact hparsed

/-- A file of processes is read back. -/
theorem parseFile_prints {ps : List ProcessType} {text : List Char} (h : Prints ps text)
    (hps : ps ≠ []) (hmax : (ps.length : ℤ) ≤ INT_MAX) :
    parseFile ps.length text 0 = some ⟨ps.length, ps, ps.length⟩ := by
  have hle : (0 : ℤ) + ps.length ≤ INT_MAX := by omega
  have hcount := whileLoopM_countBody h hps (f := fopen text) rfl rfl le_rfl hle
  have hread := whileLoopM_readBody h hps (f := fopen text) rfl rfl [] hle
  rw [parseFile, hcount, Option.bind_eq_bind, Option.bind_some, zero_add]
  simp only [List.nil_append, List.length_nil, Nat.cast_zero, zero_add] at hread
  rw [Int.toNat_natCast, hread]
  rfl

theorem initProc_prints {ps : List ProcessType} {text : List Char} (h : Prints ps text)
    (hps : ps ≠ []) (hmax : (ps.length : ℤ) ≤ INT_MAX) {fuel : ℕ} :
    (ps.length ≤ fuel → initProc fuel text = some ps) ∧
      ∀ ps', initProc fuel text = some ps' → ps' = ps := by
  have hparse := parseFile_prints h hps hmax
  refine ⟨fun hle => ?_, fun ps' hinit => ?_⟩
  · rw [initProc, parseFile_mono hle hparse]
    rfl
  · obtain ⟨parsed, hparsed, rfl⟩ := Option.map_eq_some_iff.mp hinit
    have hmore := parseFile_mono (le_max_left fuel ps.length) hparsed
    rw [parseFile_mono (le_max_right fuel ps.length) hparse] at hmore
    rw [← Option.some.inj hmore]

/-- What the tables have to do with the processes and with each other. -/
structure TablesAgree (ps : List ProcessType) (tables : Tables) : Prop where
  lines : ∀ m ∈ [tables.fcfs, tables.sjf, tables.priority, tables.rr],
    (m.rows.map fun row => (row.1, row.2.1)).Perm (ps.map fun p => (p.pid, p.bt))
  totals : ∀ m ∈ [tables.fcfs, tables.sjf, tables.priority, tables.rr],
    m.totalTat = m.totalWt + (ps.map ProcessType.bt).sum
  least : ∀ m ∈ [tables.fcfs, tables.sjf, tables.priority, tables.rr],
    tables.sjf.totalWt ≤ m.totalWt

theorem reported_lines {ps : List ProcessType} {out : Fin ps.length → ProcessType}
    {e : Equiv.Perm (Fin ps.length)} (h : Reported ps.get out e) {m : Metrics}
    (hm : printMetrics out = some m) :
    (m.rows.map fun row => (row.1, row.2.1)).Perm (ps.map fun p => (p.pid, p.bt)) ∧
      m.totalTat = m.totalWt + (ps.map ProcessType.bt).sum := by
  have hmap : ∀ {α : Type} (f : ProcessType → α), ps.map f = List.ofFn fun i => f (ps.get i) := by
    intro α f
    conv_lhs => rw [← List.ofFn_get ps, List.map_ofFn]
    rfl
  obtain rfl := printMetrics_eq_some hm
  constructor
  · rw [hmap, List.map_ofFn]
    exact h.columns
  · rw [hmap, List.sum_ofFn]
    exact h.sum_tat

theorem schedsim_eq (qsort : ∀ n, (Fin n → ProcessType) → Fin n → ProcessType) {fuel : ℕ}
    {bytes : List Char} {ps : List ProcessType} (h : initProc fuel bytes = some ps) :
    schedsim qsort fuel bytes = do
      let fcfs ← printMetrics (← findavgTimeFCFSInt ps.get)
      let sjf ← printMetrics (← findavgTimeSJFInt fuel ps.get)
      let priority ← printMetrics (← findavgTimePriorityInt (qsort _) ps.get)
      let rr ← printMetrics (← findavgTimeRRInt fuel 2 ps.get)
      return { fcfs := fcfs, sjf := sjf, priority := priority, rr := rr } := by
  rw [schedsim, h]
  rfl

theorem findavgTimeSJFInt_mono {fuel fuel' : ℕ} (hle : fuel ≤ fuel')
    (h : findavgTimeSJFInt fuel plist = some out) : findavgTimeSJFInt fuel' plist = some out := by
  obtain ⟨waited, hwaited, hturned⟩ := Option.bind_eq_some_iff.mp h
  obtain ⟨s, hloop, rfl⟩ := Option.map_eq_some_iff.mp hwaited
  rw [findavgTimeSJFInt, findWaitingTimeSJFInt, whileLoopM_mono hle hloop]
  exact hturned

theorem findavgTimeRRInt_mono {fuel fuel' : ℕ} (hle : fuel ≤ fuel') {quantum : ℤ}
    (h : findavgTimeRRInt fuel quantum plist = some out) :
    findavgTimeRRInt fuel' quantum plist = some out := by
  obtain ⟨waited, hwaited, hturned⟩ := Option.bind_eq_some_iff.mp h
  obtain ⟨s, hfirst, hrest⟩ := Option.bind_eq_some_iff.mp hwaited
  obtain ⟨t, hloop, rfl⟩ := Option.map_eq_some_iff.mp hrest
  rw [findavgTimeRRInt, findWaitingTimeRRInt, hfirst, Option.bind_eq_bind, Option.bind_some,
    whileLoopM_mono hle hloop]
  exact hturned

/-- The second process arrives while the first one runs, and has the larger priority. -/
def twoLines : List Char :=
  numberLine (ProcessType.fields ⟨1, 3, 0, 0, 0, 1⟩) ++ ([] ++ '\n' ::
    (numberLine (ProcessType.fields ⟨2, 1, 1, 0, 0, 5⟩) ++ ['\n']))

end OsLabs.SchedSim
