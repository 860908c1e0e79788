import OsLabs.Chat.ReadersWriters

/-!
# Chat server: who releases `rw_lock`

`rw_lock` is a default mutex, which only the thread that locked it may unlock.  A writer always
releases the lock that it took itself.  The readers take it as a group: it is locked by the
reader that finds itself alone in the counter and unlocked by the one that leaves last, so that
the lock is always released by its owner exactly if, in each group of readers, the first one that
enters is the last one that leaves.
-/

namespace OsLabs.Chat

open OsLabs.Lib OsLabs.Lib.Monitor

variable {n : ℕ} {plan : Fin n → ℕ → Option Section} {s s' : RwState n}

/-- Whoever unlocks `rw_lock` next is the thread that locked it. -/
def ReleasesOwn (plan : Fin n → ℕ → Option Section) (s : RwState n) : Prop :=
  ∀ t k, Action.unlock .rwLock k ∈ (rwProgram plan).code t (s.loc t) s.data →
    s.owner .rwLock = some t

/-- The thread decrements `numReaders` next. -/
def RwLoc.Leaves : RwLoc → Prop
  | endDecr _ => True
  | _ => False

/-- The thread increments `numReaders` next. -/
def RwLoc.Enters : RwLoc → Prop
  | readIncr _ => True
  | _ => False

/-- The thread tests next whether it is the first reader. -/
def RwLoc.Tests : RwLoc → Prop
  | readTest _ => True
  | _ => False

instance decidableEnters : DecidablePred RwLoc.Enters
  | .readIncr _ => inferInstanceAs (Decidable True)
  | .start _ | .readTest _ | .readUnlock _ | .reading _ | .endDecr _ | .endTest _
  | .endUnlock _ | .writing _ => inferInstanceAs (Decidable False)

/-- A thread that takes `numReaders` from 1 to 0 is the one that locked `rw_lock`. -/
def LastReaderOwns (s : RwState n) (t : Fin n) : Prop :=
  (s.loc t).Leaves → s.data.numReaders = 1 → s.owner .rwLock = some t

/-- The thread increments `numReaders` from 0 next. -/
def Opens (s : RwState n) (t : Fin n) : Prop := (s.loc t).Enters ∧ s.data.numReaders = 0

instance decidableOpens (s : RwState n) (t : Fin n) : Decidable (Opens s t) :=
  inferInstanceAs (Decidable (_ ∧ _))

/-- While a thread owns the mutex, the others neither open a group nor change the counter. -/
theorem unchanged_of_holdsMutex (h : (rwProgram plan).machine.Reachable s) {t u : Fin n}
    (hu : (s.loc u).HoldsMutex) (hut : u ≠ t) {a : RwAction}
    (ha : a ∈ rwCode (plan t) (s.loc t) s.data) (hacts : Acts s t a s') :
    ¬ Opens s t ∧ s'.data = s.data := by
  have hmutex : ¬ (s.loc t).HoldsMutex := not_holdsMutex h hu hut.symm
  rw [hacts.data, Opens]
  generalize s.loc t = l at ha hmutex
  cases rwStatement_of_mem ha with
  | readIncr => exact absurd trivial hmutex
  | endDecr => exact absurd trivial hmutex
  | _ => exact ⟨fun hopens => hopens.1.elim, rfl⟩

/-! ### Writers -/

/-- While a thread writes, no other thread locks or unlocks `rw_lock`. -/
theorem not_uses_of_writing (h : (rwProgram plan).machine.Reachable s) {t u : Fin n}
    (ht : (s.loc t).Writing) (hut : u ≠ t) (howner : s.owner .rwLock = some t) {a : RwAction}
    (ha : a ∈ rwCode (plan u) (s.loc u) s.data) (hacts : Acts s u a s') :
    ¬ a.Uses .rwLock := by
  obtain ⟨hwriting, hshares⟩ := (rwInv_of_reachable h).alone t ht u hut
  generalize s.loc u = l at ha hwriting hshares
  cases rwStatement_of_mem ha with
  | startWrite hplan =>
    rw [hacts.free _ _ rfl] at howner
    cases howner
  | readFirst hfirst =>
    rw [hacts.free _ _ rfl] at howner
    cases howner
  | endLast hlast => exact absurd trivial hshares
  | writing => exact absurd trivial hwriting
  | startRead hplan => exact fun huse => RwMutex.noConfusion huse
  | readUnlock => exact fun huse => RwMutex.noConfusion huse
  | reading => exact fun huse => RwMutex.noConfusion huse
  | endUnlock => exact fun huse => RwMutex.noConfusion huse
  | _ => exact id

/-- A writer owns `rw_lock`. -/
theorem owner_of_writing (h : (rwProgram plan).machine.Reachable s) :
    ∀ t, (s.loc t).Writing → s.owner .rwLock = some t := by
  refine h.invariant (I := fun s => ∀ t, (s.loc t).Writing → s.owner .rwLock = some t) ?_ ?_
  · intro t ht
    exact ht.elim
  · intro s u s' hreach ih hstep t ht
    obtain ⟨a, ha, hacts⟩ := hstep.acts_of_isEmpty hreach
    rw [hacts.loc] at ht
    by_cases htu : t = u
    · subst htu
      rw [Function.update_self] at ht
      generalize s.loc t = l at ha
      cases rwStatement_of_mem ha with
      | startWrite hplan =>
        rw [hacts.owner]
        exact Function.update_self RwMutex.rwLock (some t) s.owner
      | _ => exact ht.elim
    · rw [Function.update_of_ne htu] at ht
      have hown := ih t ht
      rw [hacts.owner_of_not_uses (not_uses_of_writing hreach ht (Ne.symm htu) hown ha hacts)]
      exact hown

/-! ### The last reader -/

/-- The thread unlocks `rw_lock` as the last reader next. -/
def RwLoc.UnlocksLast (numReaders : ℤ) : RwLoc → Prop
  | endTest _ => numReaders = 0
  | _ => False

theorem unlock_mem_iff {l : RwLoc} {d : RwShared} {t : Fin n} :
    (∃ k, Action.unlock .rwLock k ∈ (rwProgram plan).code t l d) ↔
      l.Writing ∨ l.UnlocksLast d.numReaders := by
  constructor
  · intro h
    obtain ⟨k, hk⟩ := h
    have hmem : Action.unlock .rwLock k ∈ rwCode (plan t) l d := hk
    cases rwStatement_of_mem hmem with
    | writing => exact Or.inl trivial
    | endLast hlast => exact Or.inr hlast
  · intro h
    cases l with
    | writing i => exact ⟨_, List.mem_singleton_self _⟩
    | endTest i =>
      have hlast : d.numReaders = 0 := h.resolve_left id
      refine ⟨.endUnlock i, ?_⟩
      show _ ∈ rwCode (plan t) (.endTest i) d
      rw [rwCode, if_pos hlast]
      exact List.mem_singleton_self _
    | _ => exact h.elim False.elim False.elim

/-- Only the last reader may unlock what another thread has locked. -/
theorem releasesOwn_iff (h : (rwProgram plan).machine.Reachable s) :
    ReleasesOwn plan s ↔
      ∀ t, (s.loc t).UnlocksLast s.data.numReaders → s.owner .rwLock = some t := by
  constructor
  · intro hown t ht
    obtain ⟨k, hk⟩ := unlock_mem_iff.mpr (Or.inr ht)
    exact hown t k hk
  · intro hlast t k hk
    rcases unlock_mem_iff.mp ⟨k, hk⟩ with hwriting | hunlocks
    · exact owner_of_writing h t hwriting
    · exact hlast t hunlocks

theorem RwLoc.UnlocksLast.holdsMutex {l : RwLoc} {numReaders : ℤ}
    (h : l.UnlocksLast numReaders) : l.HoldsMutex := by
  cases l <;> trivial

theorem RwLoc.UnlocksLast.shares {l : RwLoc} {numReaders : ℤ}
    (h : l.UnlocksLast numReaders) : l.Shares := by
  cases l <;> trivial

/-- While the last reader is about to unlock, no other thread touches the lock. -/
theorem not_uses_of_last (h : (rwProgram plan).machine.Reachable s) {t u : Fin n}
    (ht : (s.loc t).UnlocksLast s.data.numReaders) (hut : u ≠ t)
    (howner : s.owner .rwLock = some t) {a : RwAction}
    (ha : a ∈ rwCode (plan u) (s.loc u) s.data) (hacts : Acts s u a s') :
    ¬ a.Uses .rwLock := by
  have hmutex : ¬ (s.loc u).HoldsMutex := not_holdsMutex h ht.holdsMutex hut
  have hwriting : ¬ (s.loc u).Writing := by
    intro hu
    exact ((rwInv_of_reachable h).alone u hu t hut.symm).2 ht.shares
  generalize s.loc u = l at ha hmutex hwriting
  cases rwStatement_of_mem ha with
  | startWrite hplan =>
    rw [hacts.free _ _ rfl] at howner
    cases howner
  | startRead hplan => exact fun huse => RwMutex.noConfusion huse
  | reading => exact fun huse => RwMutex.noConfusion huse
  | writing => exact absurd trivial hwriting
  | _ => exact absurd trivial hmutex

theorem ReleasesOwn.step (hreach : (rwProgram plan).machine.Reachable s)
    (h : ReleasesOwn plan s) {t : Fin n} (hlast : LastReaderOwns s t)
    (hstep : Step (rwProgram plan) s t s') : ReleasesOwn plan s' := by
  rw [releasesOwn_iff hreach] at h
  rw [releasesOwn_iff (hreach.step hstep)]
  intro u hu
  obtain ⟨a, ha, hacts⟩ := hstep.acts_of_isEmpty hreach
  rw [hacts.loc] at hu
  by_cases hut : u = t
  · subst hut
    rw [Function.update_self, hacts.data] at hu
    generalize hl : s.loc u = l at ha
    cases rwStatement_of_mem ha with
    | endDecr =>
      have hzero : s.data.numReaders - 1 = 0 := hu
      rw [hacts.owner_of_not_uses (m := .rwLock) id]
      exact hlast (hl ▸ trivial) (by omega)
    | _ => exact hu.elim
  · rw [Function.update_of_ne hut] at hu
    -- a thread other than `t` was at its test already, with the mutex
    obtain ⟨-, hsame⟩ := unchanged_of_holdsMutex hreach hu.holdsMutex hut ha hacts
    rw [hsame] at hu
    have hown := h u hu
    rw [hacts.owner_of_not_uses (not_uses_of_last hreach hu (Ne.symm hut) hown ha hacts)]
    exact hown

/-- A reader that leaves last without owning the lock comes to unlock it. -/
theorem not_releasesOwn_of_leaves (hreach : (rwProgram plan).machine.Reachable s) {t : Fin n}
    (hlast : ¬ LastReaderOwns s t) (hstep : Step (rwProgram plan) s t s') :
    ¬ ReleasesOwn plan s' := by
  unfold LastReaderOwns at hlast
  push Not at hlast
  obtain ⟨hleaves, hone, hother⟩ := hlast
  obtain ⟨a, ha, hacts⟩ := hstep.acts_of_isEmpty hreach
  rw [releasesOwn_iff (hreach.step hstep)]
  intro h
  have hself := h t
  rw [hacts.loc, Function.update_self, hacts.data] at hself
  generalize s.loc t = l at ha hleaves
  cases rwStatement_of_mem ha with
  | endDecr =>
    rw [hacts.owner_of_not_uses (m := .rwLock) id] at hself
    refine hother (hself ?_)
    show s.data.numReaders - 1 = 0
    omega
  | _ => exact hleaves.elim

theorem releasesOwn_iff_lastReaderOwns {tr : List (RwState n × Fin n)}
    (h : (rwProgram plan).machine.Run tr s) :
    (∀ x ∈ Machine.visited tr s, ReleasesOwn plan x) ↔ ∀ x ∈ tr, LastReaderOwns x.1 x.2 := by
  refine Machine.Run.forall_visited_iff
    (I := fun s => (rwProgram plan).machine.Reachable s ∧ ReleasesOwn plan s)
    ⟨Machine.reachable_init, ?_⟩ (fun s hs => hs.2) ?_ ?_ h
  · rw [releasesOwn_iff Machine.reachable_init]
    intro t ht
    exact ht.elim
  · intro s t s' hs hlast hstep
    exact ⟨hs.1.step hstep, hs.2.step hs.1 hlast hstep⟩
  · intro s t s' hs hlast hstep
    exact not_releasesOwn_of_leaves hs.1 hlast hstep

/-! ### The first reader of a group -/

/-- The thread that was the last to increment `numReaders` from 0. -/
def firstReader (tr : List (RwState n × Fin n)) : Option (Fin n) :=
  tr.foldl (fun first x => if Opens x.1 x.2 then some x.2 else first) none

theorem firstReader_snoc (tr : List (RwState n × Fin n)) (s : RwState n) (t : Fin n) :
    firstReader (tr ++ [(s, t)]) = if Opens s t then some t else firstReader tr := by
  rw [firstReader, List.foldl_append]
  rfl

/-- The thread that found `numReaders` at 0 is the first reader while it takes `rw_lock`, and the
owner of `rw_lock` as long as there are readers. -/
structure FirstInv (first : Option (Fin n)) (s : RwState n) : Prop where
  testing : ∀ t, (s.loc t).Tests → s.data.numReaders = 1 → first = some t
  sharing : ∀ t, (s.loc t).Shares → s.owner .rwLock = first

theorem RwLoc.Tests.holdsMutex {l : RwLoc} (h : l.Tests) : l.HoldsMutex := by
  cases l <;> first | exact trivial | exact h.elim

theorem RwLoc.Leaves.shares {l : RwLoc} (h : l.Leaves) : l.Shares := by
  cases l <;> first | exact trivial | exact h.elim

theorem FirstInv.step_testing {first : Option (Fin n)} (h : FirstInv first s)
    (hreach : (rwProgram plan).machine.Reachable s) {t : Fin n} {a : RwAction}
    (ha : a ∈ rwCode (plan t) (s.loc t) s.data) (hacts : Acts s t a s') (u : Fin n)
    (hu : (s'.loc u).Tests) (hone : s'.data.numReaders = 1) :
    (if Opens s t then some t else first) = some u := by
  rw [hacts.loc] at hu
  by_cases hut : u = t
  · subst hut
    rw [Function.update_self] at hu
    rw [hacts.data] at hone
    generalize hl : s.loc u = l at ha
    cases rwStatement_of_mem ha with
    | readIncr =>
      have hzero : s.data.numReaders + 1 = 1 := hone
      exact if_pos ⟨hl ▸ trivial, by omega⟩
    | _ => exact hu.elim
  · rw [Function.update_of_ne hut] at hu
    obtain ⟨hopens, hsame⟩ := unchanged_of_holdsMutex hreach hu.holdsMutex hut ha hacts
    rw [hsame] at hone
    rw [if_neg hopens]
    exact h.testing u hu hone

theorem FirstInv.step_sharing {first : Option (Fin n)} (h : FirstInv first s)
    (hreach : (rwProgram plan).machine.Reachable s) {t : Fin n} {a : RwAction}
    (ha : a ∈ rwCode (plan t) (s.loc t) s.data) (hacts : Acts s t a s') (u : Fin n)
    (hu : (s'.loc u).Shares) :
    s'.owner .rwLock = if Opens s t then some t else first := by
  have hinv := rwInv_of_reachable hreach
  have hreading := exists_reading_iff hreach (t := t)
  -- a sharing thread other than `t` has not moved, and reads if `t` has the mutex
  have hother : u ≠ t → (s.loc u).Shares := by
    intro hut
    rwa [hacts.loc, Function.update_of_ne hut] at hu
  have hreads : u ≠ t → (s.loc t).HoldsMutex → ∃ v, v ≠ t ∧ (s.loc v).Reading := by
    intro hut hmutex
    exact ⟨u, hut, (hother hut).reading (not_holdsMutex hreach hmutex hut)⟩
  have hunused : ¬ a.Uses .rwLock → s'.owner .rwLock = s.owner .rwLock :=
    hacts.owner_of_not_uses
  have hkeep : ¬ ((s.loc t).Enters ∧ s.data.numReaders = 0) →
      (if Opens s t then some t else first) = first := fun hopens => if_neg hopens
  generalize (if Opens s t then some t else first) = first' at hkeep
  by_cases hut : u = t
  · subst hut
    have hshares := h.sharing u
    have htesting := h.testing u
    rw [hacts.loc, Function.update_self] at hu
    generalize s.loc u = l at ha hshares htesting hreading hkeep
    cases rwStatement_of_mem ha with
    | readFirst hfirst =>
      rw [hkeep fun hopens => hopens.1.elim, htesting trivial hfirst, hacts.owner]
      exact Function.update_self RwMutex.rwLock (some u) s.owner
    | readOther hmore =>
      obtain ⟨v, -, hv⟩ := (hreading trivial).mpr hmore
      rw [hkeep fun hopens => hopens.1.elim, hunused id]
      exact h.sharing v (RwLoc.shares_of_reading hv)
    | readUnlock =>
      rw [hkeep fun hopens => hopens.1.elim, hunused nofun]
      exact hshares trivial
    | reading =>
      rw [hkeep fun hopens => hopens.1.elim, hunused nofun]
      exact hshares trivial
    | endDecr =>
      rw [hkeep fun hopens => hopens.1.elim, hunused id]
      exact hshares trivial
    | _ => exact hu.elim
  · have hshares := h.sharing u (hother hut)
    have halone := hinv.alone t
    specialize hreads hut
    generalize s.loc t = l at ha hreads hreading halone hkeep
    cases rwStatement_of_mem ha with
    | startWrite hplan => exact absurd (hother hut) (hinv.of_free (hacts.free _ _ rfl) u).2
    | readIncr =>
      have hsome : s.data.numReaders ≠ 0 := (hreading trivial).mp (hreads trivial)
      rw [hkeep fun hopens => hsome hopens.2, hunused id]
      exact hshares
    | readFirst hfirst => exact absurd (hother hut) (hinv.of_free (hacts.free _ _ rfl) u).2
    | endLast hlast => exact absurd hlast ((hreading trivial).mp (hreads trivial))
    | writing => exact absurd (hother hut) (halone trivial u hut).2
    | readOther hmore => rw [hkeep fun hopens => hopens.1.elim, hunused id, hshares]
    | endDecr => rw [hkeep fun hopens => hopens.1.elim, hunused id, hshares]
    | endOther hmore => rw [hkeep fun hopens => hopens.1.elim, hunused id, hshares]
    | _ => rw [hkeep fun hopens => hopens.1.elim, hunused nofun, hshares]

theorem firstInv_of_run {tr : List (RwState n × Fin n)}
    (h : (rwProgram plan).machine.Run tr s) : FirstInv (firstReader tr) s := by
  induction h with
  | start => exact ⟨fun t ht => ht.elim, fun t ht => ht.elim⟩
  | @snoc tr s s' t hrun hstep ih =>
    have hreach : (rwProgram plan).machine.Reachable s := ⟨tr, hrun⟩
    obtain ⟨a, ha, hacts⟩ := Step.acts_of_isEmpty hreach hstep
    rw [firstReader_snoc]
    exact ⟨ih.step_testing hreach ha hacts, ih.step_sharing hreach ha hacts⟩

/-- Whenever a thread takes `numReaders` from 1 to 0, it is the one that last took it from 0
to 1. -/
def FirstLeavesLast (tr : List (RwState n × Fin n)) : Prop :=
  ∀ pre x post, tr = pre ++ x :: post → (x.1.loc x.2).Leaves → x.1.data.numReaders = 1 →
    firstReader pre = some x.2

/-- The last reader owns `rw_lock` exactly if it was the first. -/
theorem lastReaderOwns_iff {tr : List (RwState n × Fin n)}
    (h : (rwProgram plan).machine.Run tr s) :
    (∀ x ∈ tr, LastReaderOwns x.1 x.2) ↔ FirstLeavesLast tr := by
  constructor
  · intro hown pre x post htr hleaves hone
    have hfirst := (firstInv_of_run (h.before htr)).sharing x.2 hleaves.shares
    rw [← hfirst]
    exact hown x (htr ▸ List.mem_append_right pre List.mem_cons_self) hleaves hone
  · intro hfirst x hx hleaves hone
    obtain ⟨pre, post, htr⟩ := List.append_of_mem hx
    rw [(firstInv_of_run (h.before htr)).sharing x.2 hleaves.shares]
    exact hfirst pre x post htr hleaves hone

/-- **Who releases `rw_lock`.**  In a run of any number of threads with any sections, whoever
comes to unlock `rw_lock` is always the thread that locked it, if and only if in each group of
overlapping read sections the first thread that enters is also the last one that leaves. -/
theorem releasesOwn_iff_firstLeavesLast (n : ℕ) (plan : Fin n → ℕ → Option Section)
    (tr : List (RwState n × Fin n)) (s : RwState n) (h : (rwProgram plan).machine.Run tr s) :
    (∀ x ∈ Machine.visited tr s, ReleasesOwn plan x) ↔ FirstLeavesLast tr := by
  rw [releasesOwn_iff_lastReaderOwns h, lastReaderOwns_iff h]

instance decidableLeaves : DecidablePred RwLoc.Leaves
  | .endDecr _ => inferInstanceAs (Decidable True)
  | .start _ | .readIncr _ | .readTest _ | .readUnlock _ | .reading _ | .endTest _
  | .endUnlock _ | .writing _ => inferInstanceAs (Decidable False)

instance decidableLastReaderOwns (s : RwState n) (t : Fin n) : Decidable (LastReaderOwns s t) :=
  inferInstanceAs (Decidable ((s.loc t).Leaves → s.data.numReaders = 1 →
    s.owner .rwLock = some t))

/-- The second reader leaves first. -/
def nestedReaders : List (Fin 3 × ℕ × Option (Fin 3)) :=
  [0, 0, 0, 0, 1, 1, 1, 1, 1, 1, 1, 1, 0, 0, 0, 0].map fun t => (t, 0, none)

theorem releasesOwn_iff_firstLeavesLast_nested :
    ∃ tr s, (rwProgram twoReaders).machine.Run tr s ∧ s.loc 0 = .start 1 ∧
      s.loc 1 = .start 1 ∧ ∀ x ∈ Machine.visited tr s, ReleasesOwn twoReaders x := by
  have hrun : (nestedReaders.foldlM (rwProgram twoReaders).next
      (rwProgram twoReaders).machine.init).map (fun s => (s.loc 0, s.loc 1)) =
        some (.start 1, .start 1) := by decide
  obtain ⟨s, hs, heq⟩ := Option.map_eq_some_iff.mp hrun
  have hlast : ∀ x ∈ Machine.steps (rwProgram twoReaders).next Prod.fst
      (rwProgram twoReaders).machine.init nestedReaders, LastReaderOwns x.1 x.2 := by
    decide +kernel
  exact ⟨_, s, run_of_choices hs, congrArg Prod.fst heq, congrArg Prod.snd heq,
    (releasesOwn_iff_firstLeavesLast 3 twoReaders _ s (run_of_choices hs)).mpr
      ((lastReaderOwns_iff (run_of_choices hs)).mp hlast)⟩

/-- The first reader leaves first. -/
def chainedReaders : List (Fin 3 × ℕ × Option (Fin 3)) :=
  [0, 0, 0, 0, 1, 1, 1, 1, 0, 0, 0, 0, 1, 1].map fun t => (t, 0, none)

/-- Thread 1 then unlocks what thread 0 has locked. -/
theorem chainedReaders_release_other :
    ¬ ∀ s, (rwProgram twoReaders).machine.Reachable s → ReleasesOwn twoReaders s := by
  intro h
  have hrun : (chainedReaders.foldlM (rwProgram twoReaders).next
      (rwProgram twoReaders).machine.init).map
        (fun s => (s.loc 1, s.data.numReaders, s.owner .rwLock)) =
          some (.endTest 0, 0, some 0) := by decide
  obtain ⟨s, hs, heq⟩ := Option.map_eq_some_iff.mp hrun
  simp only [Prod.mk.injEq] at heq
  obtain ⟨hloc, hcount, howner⟩ := heq
  have hunlock : Action.unlock .rwLock (.endUnlock 0) ∈
      (rwProgram twoReaders).code 1 (s.loc 1) s.data := by
    rw [hloc]
    show _ ∈ rwCode (twoReaders 1) (.endTest 0) s.data
    rw [rwCode, if_pos hcount]
    exact List.mem_singleton_self _
  have hown := h s (reachable_of_choices hs) 1 _ hunlock
  rw [howner] at hown
  exact absurd hown (by decide)

end OsLabs.Chat
