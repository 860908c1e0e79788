import OsLabs.Lib.Monitor

/-!
# Chat server: readers and writers

`start_read`, `end_read`, `start_write` and `end_write` as a program over the two locks of
`server.c`.  Each thread runs a sequence of sections, finite or not.  `rw_lock` belongs to a
writer, or to the readers as a group: the first one takes it and the last one, often another
thread, releases it.
-/

namespace OsLabs.Chat

open OsLabs.Lib OsLabs.Lib.Monitor

inductive RwMutex
  | mutex
  | rwLock
  deriving DecidableEq

/-- `start_read(); end_read();` or `start_write(); end_write();`. -/
inductive Section
  | read
  | write
  deriving DecidableEq

structure RwShared where
  numReaders : ℤ
  deriving DecidableEq

/-- The next statement of a thread, in its section number `i`. -/
inductive RwLoc
  /-- The first lock of `start_read` or `start_write`, if there is a section left. -/
  | start (i : ℕ)
  | readIncr (i : ℕ)
  /-- `if (numReaders == 1) pthread_mutex_lock(&rw_lock)`. -/
  | readTest (i : ℕ)
  | readUnlock (i : ℕ)
  /-- Inside the read section, up to the lock of `end_read`. -/
  | reading (i : ℕ)
  | endDecr (i : ℕ)
  /-- `if (numReaders == 0) pthread_mutex_unlock(&rw_lock)`. -/
  | endTest (i : ℕ)
  | endUnlock (i : ℕ)
  /-- Inside the write section, up to the unlock of `end_write`. -/
  | writing (i : ℕ)
  deriving DecidableEq

abbrev RwAction := Action RwMutex Empty RwShared RwLoc

def rwCode (plan : ℕ → Option Section) : RwLoc → RwShared → List RwAction
  | .start i, _ =>
    match plan i with
    | none => []
    | some .read => [.lock .mutex (.readIncr i)]
    | some .write => [.lock .rwLock (.writing i)]
  | .readIncr i, d => [.exec { d with numReaders := d.numReaders + 1 } (.readTest i)]
  | .readTest i, d =>
    if d.numReaders = 1 then [.lock .rwLock (.readUnlock i)] else [.exec d (.readUnlock i)]
  | .readUnlock i, _ => [.unlock .mutex (.reading i)]
  | .reading i, _ => [.lock .mutex (.endDecr i)]
  | .endDecr i, d => [.exec { d with numReaders := d.numReaders - 1 } (.endTest i)]
  | .endTest i, d =>
    if d.numReaders = 0 then [.unlock .rwLock (.endUnlock i)] else [.exec d (.endUnlock i)]
  | .endUnlock i, _ => [.unlock .mutex (.start (i + 1))]
  | .writing i, _ => [.unlock .rwLock (.start (i + 1))]

/-- The threads with their sections; a thread without a further section has finished. -/
def rwProgram {n : ℕ} (plan : Fin n → ℕ → Option Section) :
    Program (Fin n) RwMutex Empty RwShared fun _ => RwLoc where
  start _ := .start 0
  data := ⟨0⟩
  code t := rwCode (plan t)
  spurious := false

namespace RwLoc

def Writing : RwLoc → Prop
  | writing _ => True
  | _ => False

def Reading : RwLoc → Prop
  | reading _ => True
  | _ => False

/-- The thread owns `mutex`. -/
def HoldsMutex : RwLoc → Prop
  | readIncr _ | readTest _ | readUnlock _ | endDecr _ | endTest _ | endUnlock _ => True
  | _ => False

/-- The thread is counted in `numReaders`. -/
def Counted : RwLoc → Prop
  | readTest _ | readUnlock _ | reading _ | endDecr _ => True
  | _ => False

/-- The thread is one of the readers that hold `rw_lock` as a group. -/
def Shares : RwLoc → Prop
  | readUnlock _ | reading _ | endDecr _ | endTest _ => True
  | _ => False

instance decidableReading : DecidablePred Reading
  | reading _ => inferInstanceAs (Decidable True)
  | start _ | readIncr _ | readTest _ | readUnlock _ | endDecr _ | endTest _ | endUnlock _
  | writing _ => inferInstanceAs (Decidable False)

instance decidableCounted : DecidablePred Counted
  | readTest _ | readUnlock _ | reading _ | endDecr _ => inferInstanceAs (Decidable True)
  | start _ | readIncr _ | endTest _ | endUnlock _ | writing _ =>
    inferInstanceAs (Decidable False)

theorem reading_iff {l : RwLoc} (h : ¬ l.HoldsMutex) : l.Reading ↔ l.Counted := by
  cases l <;> first | exact Iff.rfl | exact absurd trivial h

theorem Shares.reading {l : RwLoc} (hl : l.Shares) (h : ¬ l.HoldsMutex) : l.Reading := by
  cases l <;> first | exact hl | exact absurd trivial h

end RwLoc

variable {n : ℕ} {plan : Fin n → ℕ → Option Section}

abbrev RwState (n : ℕ) := State (Fin n) RwMutex Empty RwShared fun _ => RwLoc

variable {s s' : RwState n}

/-! ### The statements -/

/-- The statement at a location, with the outcome of its test. -/
inductive RwStatement (plan : ℕ → Option Section) (d : RwShared) : RwLoc → RwAction → Prop
  | startRead {i : ℕ} : plan i = some .read →
      RwStatement plan d (.start i) (.lock .mutex (.readIncr i))
  | startWrite {i : ℕ} : plan i = some .write →
      RwStatement plan d (.start i) (.lock .rwLock (.writing i))
  | readIncr {i : ℕ} : RwStatement plan d (.readIncr i)
      (.exec { d with numReaders := d.numReaders + 1 } (.readTest i))
  | readFirst {i : ℕ} : d.numReaders = 1 →
      RwStatement plan d (.readTest i) (.lock .rwLock (.readUnlock i))
  | readOther {i : ℕ} : d.numReaders ≠ 1 →
      RwStatement plan d (.readTest i) (.exec d (.readUnlock i))
  | readUnlock {i : ℕ} : RwStatement plan d (.readUnlock i) (.unlock .mutex (.reading i))
  | reading {i : ℕ} : RwStatement plan d (.reading i) (.lock .mutex (.endDecr i))
  | endDecr {i : ℕ} : RwStatement plan d (.endDecr i)
      (.exec { d with numReaders := d.numReaders - 1 } (.endTest i))
  | endLast {i : ℕ} : d.numReaders = 0 →
      RwStatement plan d (.endTest i) (.unlock .rwLock (.endUnlock i))
  | endOther {i : ℕ} : d.numReaders ≠ 0 →
      RwStatement plan d (.endTest i) (.exec d (.endUnlock i))
  | endUnlock {i : ℕ} : RwStatement plan d (.endUnlock i) (.unlock .mutex (.start (i + 1)))
  | writing {i : ℕ} : RwStatement plan d (.writing i) (.unlock .rwLock (.start (i + 1)))

theorem rwStatement_of_mem {plan : ℕ → Option Section} {l : RwLoc} {d : RwShared} {a : RwAction}
    (ha : a ∈ rwCode plan l d) : RwStatement plan d l a := by
  cases l with
  | start i =>
    rw [rwCode] at ha
    split at ha
    · cases ha
    · rename_i hplan
      obtain rfl := List.mem_singleton.mp ha
      exact .startRead hplan
    · rename_i hplan
      obtain rfl := List.mem_singleton.mp ha
      exact .startWrite hplan
  | readTest i =>
    rw [rwCode] at ha
    split at ha
    · rename_i hfirst
      obtain rfl := List.mem_singleton.mp ha
      exact .readFirst hfirst
    · rename_i hother
      obtain rfl := List.mem_singleton.mp ha
      exact .readOther hother
  | endTest i =>
    rw [rwCode] at ha
    split at ha
    · rename_i hlast
      obtain rfl := List.mem_singleton.mp ha
      exact .endLast hlast
    · rename_i hother
      obtain rfl := List.mem_singleton.mp ha
      exact .endOther hother
  | _ =>
    obtain rfl := List.mem_singleton.mp ha
    constructor

/-- Only `start`, without a further section, has no statement. -/
theorem exists_rwStatement (plan : ℕ → Option Section) {l : RwLoc} (d : RwShared)
    (h : ∀ i, l ≠ .start i) : ∃ a, a ∈ rwCode plan l d := by
  cases l with
  | start i => exact absurd rfl (h i)
  | readTest i =>
    rw [rwCode]
    split <;> exact ⟨_, List.mem_cons_self⟩
  | endTest i =>
    rw [rwCode]
    split <;> exact ⟨_, List.mem_cons_self⟩
  | _ => exact ⟨_, List.mem_cons_self⟩

/-! ### The mutex and the counter -/

theorem guarded_mutex : Guarded (rwProgram plan) .mutex fun _ => RwLoc.HoldsMutex where
  start t := id
  lock t l d k ha := by
    cases rwStatement_of_mem ha <;> trivial
  unlock t l d k ha := by
    cases rwStatement_of_mem ha <;> exact ⟨trivial, id⟩
  wait t l d c := isEmptyElim c
  other t l d a ha huse := by
    cases rwStatement_of_mem ha <;> first | exact Iff.rfl | exact absurd rfl huse

theorem holdsMutex_iff (h : (rwProgram plan).machine.Reachable s) (t : Fin n) :
    s.owner .mutex = some t ↔ (s.loc t).HoldsMutex := by
  rw [guarded_mutex.owner_eq_some_iff h t, running_loc h t]
  exact Iff.rfl

/-- A thread that owns the mutex keeps the others out of the statements that it guards. -/
theorem not_holdsMutex (h : (rwProgram plan).machine.Reachable s) {t u : Fin n}
    (ht : (s.loc t).HoldsMutex) (hne : u ≠ t) : ¬ (s.loc u).HoldsMutex := by
  intro hu
  have howner := (holdsMutex_iff h t).mpr ht
  rw [(holdsMutex_iff h u).mpr hu] at howner
  exact hne (Option.some.inj howner)

/-- `numReaders` counts the threads at the counted locations. -/
theorem numReaders_eq (h : (rwProgram plan).machine.Reachable s) :
    s.data.numReaders = ∑ t, if (s.loc t).Counted then 1 else 0 := by
  have hcount := account (P := rwProgram plan) (p := RwShared.numReaders) (q := fun _ => (0 : ℤ))
    (w := fun _ l => if l.Counted then 1 else 0) (I := fun _ _ => True) (fun _ _ _ => trivial)
    ?_ ?_ h
  · rw [hcount, zero_add]
  · simp [rwProgram, RwLoc.Counted]
  · intro t l d a _ ha
    cases rwStatement_of_mem ha <;> simp [Action.effect, Action.next, RwLoc.Counted]

theorem numReaders_of_mutex_free (h : (rwProgram plan).machine.Reachable s)
    (hfree : s.owner .mutex = none) :
    s.data.numReaders = (Finset.univ.filter fun t => (s.loc t).Reading).card := by
  have hnone : ∀ t, ¬ (s.loc t).HoldsMutex := by
    intro t ht
    rw [(holdsMutex_iff h t).mpr ht] at hfree
    cases hfree
  rw [numReaders_eq h, Finset.card_filter, Nat.cast_sum]
  refine Finset.sum_congr rfl fun t _ => ?_
  simp only [RwLoc.reading_iff (hnone t), Nat.cast_ite, Nat.cast_one, Nat.cast_zero]

/-- While `t` owns the mutex, the other threads that are counted are inside a read section. -/
theorem exists_reading_iff (h : (rwProgram plan).machine.Reachable s) {t : Fin n}
    (ht : (s.loc t).HoldsMutex) :
    (∃ u, u ≠ t ∧ (s.loc u).Reading) ↔
      s.data.numReaders ≠ if (s.loc t).Counted then 1 else 0 := by
  rw [numReaders_eq h, ← Finset.sum_erase_add _ _ (Finset.mem_univ t), Ne, add_eq_right,
    Finset.sum_eq_zero_iff_of_nonneg (fun u _ => by split <;> simp)]
  push Not
  constructor
  · rintro ⟨u, hne, hu⟩
    refine ⟨u, Finset.mem_erase.mpr ⟨hne, Finset.mem_univ u⟩, ?_⟩
    rw [if_pos ((RwLoc.reading_iff (not_holdsMutex h ht hne)).mp hu)]
    exact one_ne_zero
  · rintro ⟨u, hmem, hu⟩
    have hne := Finset.ne_of_mem_erase hmem
    refine ⟨u, hne, (RwLoc.reading_iff (not_holdsMutex h ht hne)).mpr ?_⟩
    by_contra hnot
    exact hu (if_neg hnot)

/-! ### The read/write lock -/

/-- `rw_lock` is held exactly while a thread writes or the readers hold it as a group, and a
thread that writes is alone. -/
structure RwInv (s : RwState n) : Prop where
  held : s.owner .rwLock ≠ none ↔ ∃ t, (s.loc t).Writing ∨ (s.loc t).Shares
  alone : ∀ t, (s.loc t).Writing → ∀ u, u ≠ t → ¬ (s.loc u).Writing ∧ ¬ (s.loc u).Shares

/-- With the lock free nobody writes or shares. -/
theorem RwInv.of_free (h : RwInv s) (hfree : s.owner .rwLock = none) (t : Fin n) :
    ¬ (s.loc t).Writing ∧ ¬ (s.loc t).Shares := by
  rw [← not_or]
  intro ht
  exact h.held.mpr ⟨t, ht⟩ hfree

theorem RwLoc.not_writing_of_shares {l : RwLoc} (h : l.Shares) : ¬ l.Writing := by
  cases l <;> first | exact id | exact h.elim

variable {t : Fin n} {l : RwLoc}

/-- A statement that neither uses the lock nor changes who does. -/
theorem RwInv.keep (h : RwInv s) (howner : s'.owner .rwLock = s.owner .rwLock)
    (hloc : s'.loc = Function.update s.loc t l) (hwriting : l.Writing ↔ (s.loc t).Writing)
    (hshares : l.Shares ↔ (s.loc t).Shares) : RwInv s' := by
  have hsame : ∀ u, ((s'.loc u).Writing ↔ (s.loc u).Writing) ∧
      ((s'.loc u).Shares ↔ (s.loc u).Shares) := by
    intro u
    rw [hloc]
    by_cases hu : u = t
    · subst hu
      rw [Function.update_self]
      exact ⟨hwriting, hshares⟩
    · rw [Function.update_of_ne hu]
      exact ⟨Iff.rfl, Iff.rfl⟩
  constructor
  · rw [howner, h.held]
    exact exists_congr fun u => or_congr (hsame u).1.symm (hsame u).2.symm
  · intro u hu v hv
    rw [(hsame v).1, (hsame v).2]
    exact h.alone u ((hsame u).1.mp hu) v hv

/-- The thread that takes the free lock is the only one to use it. -/
theorem RwInv.take (h : RwInv s) (hfree : s.owner .rwLock = none)
    (howner : s'.owner .rwLock ≠ none) (hloc : s'.loc = Function.update s.loc t l)
    (huse : l.Writing ∨ l.Shares) : RwInv s' := by
  have hself : s'.loc t = l := by rw [hloc, Function.update_self]
  have hother : ∀ u, u ≠ t → ¬ (s'.loc u).Writing ∧ ¬ (s'.loc u).Shares := by
    intro u hu
    rw [hloc, Function.update_of_ne hu]
    exact h.of_free hfree u
  constructor
  · exact iff_of_true howner ⟨t, hself ▸ huse⟩
  · intro u hu v hv
    have hut : u = t := by
      by_contra hne
      exact (hother u hne).1 hu
    exact hother v (hut ▸ hv)

/-- The lock is released when nobody else uses it. -/
theorem RwInv.release (howner : s'.owner .rwLock = none)
    (hloc : s'.loc = Function.update s.loc t l) (huse : ¬ l.Writing ∧ ¬ l.Shares)
    (hother : ∀ u, u ≠ t → ¬ (s.loc u).Writing ∧ ¬ (s.loc u).Shares) : RwInv s' := by
  have hnone : ∀ u, ¬ (s'.loc u).Writing ∧ ¬ (s'.loc u).Shares := by
    intro u
    rw [hloc]
    by_cases hu : u = t
    · subst hu
      rw [Function.update_self]
      exact huse
    · rw [Function.update_of_ne hu]
      exact hother u hu
  constructor
  · refine iff_of_false (fun hne => hne howner) ?_
    rintro ⟨u, hu | hu⟩
    · exact (hnone u).1 hu
    · exact (hnone u).2 hu
  · intro u hu
    exact absurd hu (hnone u).1

/-- A reader joins or leaves the group, in which another one stays. -/
theorem RwInv.join (h : RwInv s) (howner : s'.owner .rwLock = s.owner .rwLock)
    (hloc : s'.loc = Function.update s.loc t l) (hwriting : ¬ l.Writing) {u : Fin n}
    (hne : u ≠ t) (hu : (s.loc u).Shares) : RwInv s' := by
  have hnobody : ∀ v, ¬ (s.loc v).Writing := by
    intro v hv
    by_cases hvu : u = v
    · subst hvu
      exact RwLoc.not_writing_of_shares hu hv
    · exact (h.alone v hv u hvu).2 hu
  constructor
  · rw [howner]
    refine iff_of_true (h.held.mpr ⟨u, Or.inr hu⟩) ⟨u, Or.inr ?_⟩
    rw [hloc, Function.update_of_ne hne]
    exact hu
  · intro v hv
    rw [hloc] at hv
    by_cases hvt : v = t
    · subst hvt
      rw [Function.update_self] at hv
      exact absurd hv hwriting
    · rw [Function.update_of_ne hvt] at hv
      exact absurd hv (hnobody v)

theorem RwLoc.shares_of_reading {l : RwLoc} (h : l.Reading) : l.Shares := by
  cases l <;> first | exact h | exact h.elim

theorem RwInv.step (h : RwInv s) (hreach : (rwProgram plan).machine.Reachable s)
    (hstep : Step (rwProgram plan) s t s') : RwInv s' := by
  obtain ⟨a, ha, hacts⟩ := hstep.acts_of_isEmpty hreach
  have hloc := hacts.loc
  have howner := hacts.owner
  have hunused : ¬ a.Uses .rwLock → s'.owner .rwLock = s.owner .rwLock :=
    hacts.owner_of_not_uses
  have hreading := exists_reading_iff hreach (t := t)
  generalize hl : s.loc t = l at ha hreading
  cases rwStatement_of_mem ha with
  | startRead hplan => exact h.keep (hunused nofun) hloc (by rw [hl]; rfl) (by rw [hl]; rfl)
  | startWrite hplan =>
    refine h.take (hacts.free _ _ rfl) ?_ hloc (Or.inl trivial)
    rw [howner]
    exact Option.some_ne_none t
  | readIncr => exact h.keep (hunused id) hloc (by rw [hl]; rfl) (by rw [hl]; rfl)
  | readFirst hfirst =>
    refine h.take (hacts.free _ _ rfl) ?_ hloc (Or.inr trivial)
    rw [howner]
    exact Option.some_ne_none t
  | readOther hother =>
    -- the other readers that are counted hold the lock already
    obtain ⟨u, hne, hu⟩ := (hreading trivial).mpr hother
    exact h.join (hunused id) hloc id hne (RwLoc.shares_of_reading hu)
  | readUnlock => exact h.keep (hunused nofun) hloc (by rw [hl]; rfl) (by rw [hl]; rfl)
  | reading => exact h.keep (hunused nofun) hloc (by rw [hl]; rfl) (by rw [hl]; rfl)
  | endDecr => exact h.keep (hunused id) hloc (by rw [hl]; rfl) (by rw [hl]; rfl)
  | endLast hlast =>
    refine RwInv.release ?_ hloc ⟨id, id⟩ fun u hne => ⟨fun hu => ?_, fun hu => ?_⟩
    · rw [howner]
      exact Function.update_self RwMutex.rwLock none s.owner
    · exact (h.alone u hu t hne.symm).2 (hl ▸ trivial)
    · -- a reader that is left would be counted
      have hmutex : ¬ (s.loc u).HoldsMutex := not_holdsMutex hreach (hl ▸ trivial) hne
      exact (hreading trivial).mp ⟨u, hne, hu.reading hmutex⟩ hlast
  | endOther hother =>
    obtain ⟨u, hne, hu⟩ := (hreading trivial).mpr hother
    exact h.join (hunused id) hloc id hne (RwLoc.shares_of_reading hu)
  | endUnlock => exact h.keep (hunused nofun) hloc (by rw [hl]; rfl) (by rw [hl]; rfl)
  | writing =>
    refine RwInv.release ?_ hloc ⟨id, id⟩ fun u hne => h.alone t (hl ▸ trivial) u hne
    rw [howner]
    exact Function.update_self RwMutex.rwLock none s.owner

theorem rwInv_of_reachable (h : (rwProgram plan).machine.Reachable s) : RwInv s := by
  refine h.invariant (I := RwInv) ⟨?_, ?_⟩ fun s t s' hreach hinv hstep => hinv.step hreach hstep
  · refine iff_of_false (fun hne => hne rfl) ?_
    rintro ⟨t, ht | ht⟩ <;> exact ht
  · intro t ht
    exact ht.elim

/-! ### Deadlocks -/

section Deadlocks

variable (h : (rwProgram plan).machine.Reachable s) (hstuck : Stuck (rwProgram plan) s)

include h hstuck

/-- A thread inside a write section can always leave it. -/
theorem not_writing_of_stuck (t : Fin n) : ¬ (s.loc t).Writing := by
  intro ht
  have hstart : ∀ i, s.loc t ≠ .start i := by
    intro i hl
    rw [hl] at ht
    exact ht
  obtain ⟨a, ha⟩ := exists_rwStatement (plan t) s.data hstart
  obtain ⟨m, k, rfl, howner⟩ := hstuck.running (running_loc h t) ha
  generalize s.loc t = l at ha ht
  cases rwStatement_of_mem ha <;> exact ht

/-- The owner of the mutex can only wait for `rw_lock` as the first reader, which a writer
then holds. -/
theorem mutex_free_of_stuck : s.owner .mutex = none := by
  cases howner : s.owner .mutex with
  | none => rfl
  | some u =>
    have hu := (holdsMutex_iff h u).mp howner
    have hstart : ∀ i, s.loc u ≠ .start i := by
      intro i hl
      rw [hl] at hu
      exact hu
    obtain ⟨a, ha⟩ := exists_rwStatement (plan u) s.data hstart
    obtain ⟨m, k, rfl, hheld⟩ := hstuck.running (running_loc h u) ha
    have hreading := exists_reading_iff h hu
    generalize hl : s.loc u = l at ha hu hreading
    cases rwStatement_of_mem ha with
    | readFirst hfirst =>
      obtain ⟨v, hv | hv⟩ := (rwInv_of_reachable h).held.mp hheld
      · exact absurd hv (not_writing_of_stuck h hstuck v)
      · have hne : v ≠ u := by
          intro heq
          rw [heq, hl] at hv
          exact hv
        have hmutex : ¬ (s.loc v).HoldsMutex := not_holdsMutex h (hl ▸ hu) hne
        exact absurd hfirst (hreading.mp ⟨v, hne, hv.reading hmutex⟩)
    | startRead hplan => exact hu.elim
    | startWrite hplan => exact hu.elim
    | reading => exact hu.elim

theorem rwLock_free_of_stuck : s.owner .rwLock = none := by
  by_contra hheld
  have hfree := mutex_free_of_stuck h hstuck
  obtain ⟨v, hv | hv⟩ := (rwInv_of_reachable h).held.mp hheld
  · exact not_writing_of_stuck h hstuck v hv
  · have hmutex : ¬ (s.loc v).HoldsMutex := by
      intro hholds
      rw [(holdsMutex_iff h v).mpr hholds] at hfree
      cases hfree
    have hread := hv.reading hmutex
    have hstart : ∀ i, s.loc v ≠ .start i := by
      intro i hl
      rw [hl] at hread
      exact hread
    obtain ⟨a, ha⟩ := exists_rwStatement (plan v) s.data hstart
    obtain ⟨m, k, rfl, howner⟩ := hstuck.running (running_loc h v) ha
    generalize s.loc v = l at ha hread
    cases rwStatement_of_mem ha with
    | reading => exact howner hfree
    | _ => exact hread

theorem finished_of_stuck (t : Fin n) : Finished (rwProgram plan) s t := by
  rw [finished_iff h, List.eq_nil_iff_forall_not_mem]
  intro a ha
  obtain ⟨m, k, rfl, howner⟩ := hstuck.running (running_loc h t) ha
  cases m with
  | mutex => exact howner (mutex_free_of_stuck h hstuck)
  | rwLock => exact howner (rwLock_free_of_stuck h hstuck)

end Deadlocks

/-- **Readers and writers.**  In every interleaving a thread in a write section is alone in its
section, `numReaders` is the number of threads in read sections whenever the mutex is free, and
only finished threads are left when none can step. -/
theorem readersWriters (h : (rwProgram plan).machine.Reachable s) :
    (∀ t, (s.loc t).Writing → ∀ u, u ≠ t → ¬ (s.loc u).Writing ∧ ¬ (s.loc u).Reading) ∧
      (s.owner .mutex = none →
        s.data.numReaders = (Finset.univ.filter fun t => (s.loc t).Reading).card) ∧
      (Stuck (rwProgram plan) s → ∀ t, Finished (rwProgram plan) s t) := by
  refine ⟨?_, numReaders_of_mutex_free h, finished_of_stuck h⟩
  intro t ht u hu
  obtain ⟨hwriting, hshares⟩ := (rwInv_of_reachable h).alone t ht u hu
  exact ⟨hwriting, mt RwLoc.shares_of_reading hshares⟩

/-- Two threads read at the same time, and a third one waits to write. -/
def twoReaders : Fin 3 → ℕ → Option Section
  | 0, 0 | 1, 0 => some .read
  | 2, 0 => some .write
  | _, _ => none

theorem readersWriters_two_readers :
    ∃ s, (rwProgram twoReaders).machine.Reachable s ∧ s.loc 0 = .reading 0 ∧
      s.loc 1 = .reading 0 ∧
      (∀ t, (s.loc t).Writing → ∀ u, u ≠ t → ¬ (s.loc u).Writing ∧ ¬ (s.loc u).Reading) ∧
      (s.owner .mutex = none →
        s.data.numReaders = (Finset.univ.filter fun t => (s.loc t).Reading).card) ∧
      (Stuck (rwProgram twoReaders) s → ∀ t, Finished (rwProgram twoReaders) s t) := by
  have hrun : (([0, 0, 0, 0, 1, 1, 1, 1].map fun t => (t, 0, none)).foldlM
      (rwProgram twoReaders).next (rwProgram twoReaders).machine.init).map
        (fun s => (s.loc 0, s.loc 1)) = some (.reading 0, .reading 0) := by decide
  obtain ⟨s, hs, heq⟩ := Option.map_eq_some_iff.mp hrun
  have hreach := reachable_of_choices hs
  exact ⟨s, hreach, congrArg Prod.fst heq, congrArg Prod.snd heq, readersWriters hreach⟩

end OsLabs.Chat
