import Mathlib.Data.Nat.Count
import OsLabs.Chat.ReadersWriters
import OsLabs.Chat.Threads
import OsLabs.Lib.Projection

/-!
# Chat server: the sections of a session

The locks of a session are those of the readers and writers: behind each thread stands a thread
that runs the read and write sections of its tasks, one for each task that takes a lock.  What
keeps the sections apart there keeps them apart here.
-/

namespace OsLabs.Chat

open OsLabs.Lib OsLabs.Lib.Monitor

variable {n : ℕ} {cfg : Scenario n} {t : Fin n}

/-! ### The tasks of a thread -/

/-- The tasks of a thread, in their order. -/
def Scenario.task (cfg : Scenario n) (t : Fin n) : ℕ → Task
  | 0 => .welcome
  | k + 1 => taskOf (cfg.inbox t k)

/-- The number of a task, at a location with the number of the call of `recv`. -/
def Task.turn (k : ℕ) : Task → ℕ
  | .welcome => 0
  | .hangup | .request _ => k + 1

/-- The task is the last one of its session. -/
def Task.Ends : Task → Prop
  | .hangup | .request .exit => True
  | .welcome | .request _ => False

instance decidableEnds : DecidablePred Task.Ends
  | .hangup | .request .exit => inferInstanceAs (Decidable True)
  | .welcome | .request (.create _) | .request (.join _) | .request (.leave _)
  | .request (.connect _) | .request (.disconnect _) | .request .rooms | .request .users
  | .request (.login _) | .request .help | .request (.say _) | .request .empty =>
    inferInstanceAs (Decidable False)

theorem after_of_ends {task : Task} (h : task.Ends) (k : ℕ) : task.after k = .close := by
  cases task with
  | welcome => exact h.elim
  | hangup => rfl
  | request q => cases q <;> first | rfl | exact h.elim

theorem after_of_not_ends {task : Task} (h : ¬ task.Ends) (k : ℕ) :
    task.after k = .recv (task.turn k) := by
  cases task with
  | welcome => rfl
  | hangup => exact absurd trivial h
  | request q => cases q <;> first | rfl | exact absurd trivial h

theorem turn_taskOf (m : Option Received) (k : ℕ) : (taskOf m).turn k = k + 1 := by
  cases m <;> rfl

namespace Scenario

/-- Task number `j` is reached. -/
def Goes (cfg : Scenario n) (t : Fin n) (j : ℕ) : Prop := ∀ i < j, ¬ (cfg.task t i).Ends

/-- Task number `j` takes a lock. -/
def Locks (cfg : Scenario n) (t : Fin n) (j : ℕ) : Prop :=
  cfg.Goes t j ∧ (cfg.task t j).mode ≠ none

open Classical in
/-- The sections before task number `j`. -/
noncomputable def sections (cfg : Scenario n) (t : Fin n) (j : ℕ) : ℕ := Nat.count (cfg.Locks t) j

open Classical in
/-- The sections of the thread. -/
noncomputable def plan (cfg : Scenario n) (t : Fin n) (i : ℕ) : Option Section :=
  if h : ∃ j, cfg.Locks t j ∧ cfg.sections t j = i then (cfg.task t h.choose).mode else none

theorem plan_sections {j : ℕ} (h : cfg.Locks t j) :
    cfg.plan t (cfg.sections t j) = (cfg.task t j).mode := by
  classical
  have hex : ∃ j', cfg.Locks t j' ∧ cfg.sections t j' = cfg.sections t j := ⟨j, h, rfl⟩
  rw [plan, dif_pos hex]
  have hsame : hex.choose = j := Nat.count_injective hex.choose_spec.1 h hex.choose_spec.2
  rw [hsame]

/-- No section is left behind the last task. -/
theorem plan_eq_none {j : ℕ} (h : (cfg.task t j).Ends) :
    cfg.plan t (cfg.sections t (j + 1)) = none := by
  classical
  rw [plan, dif_neg]
  rintro ⟨i, hi, heq⟩
  have hle : i ≤ j := by
    by_contra hlt
    exact hi.1 j (by omega) h
  have hlt : cfg.sections t i < cfg.sections t (j + 1) :=
    Nat.count_strict_mono hi (Nat.lt_succ_of_le hle)
  omega

theorem sections_succ {j : ℕ} (h : cfg.Locks t j) :
    cfg.sections t (j + 1) = cfg.sections t j + 1 := by
  classical
  rw [sections, Nat.count_succ, if_pos h, sections]

theorem sections_succ_of_none {j : ℕ} (h : (cfg.task t j).mode = none) :
    cfg.sections t (j + 1) = cfg.sections t j := by
  classical
  rw [sections, Nat.count_succ, if_neg fun hlocks => hlocks.2 h, add_zero, sections]

theorem sections_zero : cfg.sections t 0 = 0 := by
  classical
  exact Nat.count_zero _

end Scenario

/-! ### The sections -/

/-- A location of the thread, with the location of its sections. -/
inductive InSections (cfg : Scenario n) (t : Fin n) : ChatLoc → RwLoc → Prop
  | accept : InSections cfg t .accept (.start 0)
  | motd : InSections cfg t .motd (.start 0)
  | recv {k : ℕ} : cfg.Goes t (k + 1) →
      InSections cfg t (.recv k) (.start (cfg.sections t (k + 1)))
  | start {task : Task} {k : ℕ} : task = cfg.task t (task.turn k) → cfg.Goes t (task.turn k) →
      InSections cfg t (.start task k) (.start (cfg.sections t (task.turn k)))
  | readIncr {task : Task} {k : ℕ} : task = cfg.task t (task.turn k) →
      cfg.Goes t (task.turn k) → task.mode = some .read →
      InSections cfg t (.readIncr task k) (.readIncr (cfg.sections t (task.turn k)))
  | readTest {task : Task} {k : ℕ} : task = cfg.task t (task.turn k) →
      cfg.Goes t (task.turn k) → task.mode = some .read →
      InSections cfg t (.readTest task k) (.readTest (cfg.sections t (task.turn k)))
  | readUnlock {task : Task} {k : ℕ} : task = cfg.task t (task.turn k) →
      cfg.Goes t (task.turn k) → task.mode = some .read →
      InSections cfg t (.readUnlock task k) (.readUnlock (cfg.sections t (task.turn k)))
  | reading {task : Task} {k pc : ℕ} {v : Locals} : task = cfg.task t (task.turn k) →
      cfg.Goes t (task.turn k) → task.mode = some .read →
      InSections cfg t (.body task k pc v) (.reading (cfg.sections t (task.turn k)))
  | writing {task : Task} {k pc : ℕ} {v : Locals} : task = cfg.task t (task.turn k) →
      cfg.Goes t (task.turn k) → task.mode = some .write →
      InSections cfg t (.body task k pc v) (.writing (cfg.sections t (task.turn k)))
  | endDecr {task : Task} {k : ℕ} {v : Locals} : task = cfg.task t (task.turn k) →
      cfg.Goes t (task.turn k) → task.mode = some .read →
      InSections cfg t (.endDecr task k v) (.endDecr (cfg.sections t (task.turn k)))
  | endTest {task : Task} {k : ℕ} {v : Locals} : task = cfg.task t (task.turn k) →
      cfg.Goes t (task.turn k) → task.mode = some .read →
      InSections cfg t (.endTest task k v) (.endTest (cfg.sections t (task.turn k)))
  | endUnlock {task : Task} {k : ℕ} {v : Locals} : task = cfg.task t (task.turn k) →
      cfg.Goes t (task.turn k) → task.mode = some .read →
      InSections cfg t (.endUnlock task k v) (.endUnlock (cfg.sections t (task.turn k)))
  | answer {task : Task} {k : ℕ} {v : Locals} : task = cfg.task t (task.turn k) →
      cfg.Goes t (task.turn k) →
      InSections cfg t (.answer task k v) (.start (cfg.sections t (task.turn k + 1)))
  | close {i : ℕ} : cfg.plan t i = none → InSections cfg t .close (.start i)
  | done {i : ℕ} : cfg.plan t i = none → InSections cfg t .done (.start i)

/-- The statement is one of the sections. -/
def ChatLoc.visible (cfg : Scenario n) (t : Fin n) : ChatLoc → ChatShared n → Bool
  | .accept, _ | .motd, _ | .recv _, _ | .answer _ _ _, _ | .close, _ | .done, _ => false
  | .start task _, _ => task.mode.isSome
  | .body task _ pc _, d => (task.statements (cfg.client t) d.lists)[pc]?.isNone
  | .readIncr _ _, _ | .readTest _ _, _ | .readUnlock _ _, _ | .endDecr _ _ _, _
  | .endTest _ _ _, _ | .endUnlock _ _ _, _ => true

def SameReaders (d : ChatShared n) (r : RwShared) : Prop := d.numReaders = r.numReaders

/-- What a thread does outside the sections. -/
theorem inSections_hidden {l : ChatLoc} {d : ChatShared n} {a : ChatAction n} {l' : RwLoc}
    {r : RwShared} (ha : a ∈ chatCode cfg t l d) (hvisible : l.visible cfg t d = false)
    (hat : InSections cfg t l l') (hd : SameReaders d r) :
    (∀ m, ¬ a.Uses m) ∧ InSections cfg t a.next l' ∧ SameReaders (a.effect d) r := by
  cases chatStatement_of_mem ha with
  | accept hclient hfree =>
    cases hat
    exact ⟨fun _ => id, .motd, hd⟩
  | motd =>
    cases hat
    have hstart : InSections cfg t (.start .welcome 0) (.start (cfg.sections t 0)) :=
      .start rfl fun i hi => absurd hi (Nat.not_lt_zero i)
    rw [Scenario.sections_zero] at hstart
    exact ⟨fun _ => id, hstart, hd⟩
  | @recv k =>
    cases hat with
    | recv hgoes =>
      have hstart : InSections cfg t (.start (taskOf (cfg.inbox t k)) k)
          (.start (cfg.sections t ((taskOf (cfg.inbox t k)).turn k))) :=
        .start (by rw [turn_taskOf]; rfl) (by rw [turn_taskOf]; exact hgoes)
      rw [turn_taskOf] at hstart
      exact ⟨fun _ => id, hstart, hd⟩
  | @noLock task k hmode =>
    cases hat with
    | start htask hgoes =>
      have hanswer : InSections cfg t (.answer task k .start) _ := .answer htask hgoes
      rw [Scenario.sections_succ_of_none (htask ▸ hmode)] at hanswer
      exact ⟨fun _ => id, hanswer, hd⟩
  | @execute task k pc v v' statement lists calls hstatement hnow =>
    refine ⟨fun _ => id, ?_, hd⟩
    cases hat with
    | reading htask hgoes hmode => exact .reading htask hgoes hmode
    | writing htask hgoes hmode => exact .writing htask hgoes hmode
  | @answer task k v =>
    cases hat with
    | answer htask hgoes =>
      refine ⟨fun _ => id, ?_, hd⟩
      show InSections cfg t (task.after k) _
      by_cases hends : task.Ends
      · rw [after_of_ends hends]
        exact .close (Scenario.plan_eq_none (htask ▸ hends))
      · rw [after_of_not_ends hends]
        refine .recv fun i hi => ?_
        rcases Nat.lt_succ_iff_lt_or_eq.mp hi with hlt | rfl
        · exact hgoes i hlt
        · exact htask ▸ hends
  | close =>
    cases hat with
    | close hplan => exact ⟨fun _ => id, .done hplan, hd⟩
  | startRead hmode => rw [ChatLoc.visible, hmode] at hvisible; cases hvisible
  | startWrite hmode => rw [ChatLoc.visible, hmode] at hvisible; cases hvisible
  | endRead hend hmode => rw [ChatLoc.visible, hend] at hvisible; cases hvisible
  | endWrite hend hmode => rw [ChatLoc.visible, hend] at hvisible; cases hvisible
  | readIncr => cases hvisible
  | readFirst hfirst => cases hvisible
  | readOther hother => cases hvisible
  | readUnlock => cases hvisible
  | endDecr => cases hvisible
  | endLast hlast => cases hvisible
  | endOther hother => cases hvisible
  | endUnlock => cases hvisible

theorem mem_rwCode {plan : ℕ → Option Section} {d : RwShared} {l : RwLoc} {b : RwAction}
    (h : RwStatement plan d l b) : b ∈ rwCode plan l d := by
  cases h with
  | startRead hplan => rw [rwCode, hplan]; exact List.mem_cons_self
  | startWrite hplan => rw [rwCode, hplan]; exact List.mem_cons_self
  | readFirst hfirst => rw [rwCode, if_pos hfirst]; exact List.mem_cons_self
  | readOther hother => rw [rwCode, if_neg hother]; exact List.mem_cons_self
  | endLast hlast => rw [rwCode, if_pos hlast]; exact List.mem_cons_self
  | endOther hother => rw [rwCode, if_neg hother]; exact List.mem_cons_self
  | _ => exact List.mem_cons_self

theorem locks_turn {task : Task} {k : ℕ} {mode : Section}
    (htask : task = cfg.task t (task.turn k)) (hgoes : cfg.Goes t (task.turn k))
    (hmode : task.mode = some mode) : cfg.Locks t (task.turn k) := by
  refine ⟨hgoes, ?_⟩
  rw [← htask, hmode]
  exact Option.some_ne_none mode

theorem plan_turn {task : Task} {k : ℕ} {mode : Section}
    (htask : task = cfg.task t (task.turn k)) (hgoes : cfg.Goes t (task.turn k))
    (hmode : task.mode = some mode) :
    cfg.plan t (cfg.sections t (task.turn k)) = some mode := by
  rw [Scenario.plan_sections (locks_turn htask hgoes hmode), ← htask, hmode]

/-- What a thread does in the sections. -/
theorem inSections_shown {l : ChatLoc} {d : ChatShared n} {a : ChatAction n} {l' : RwLoc}
    {r : RwShared} (ha : a ∈ chatCode cfg t l d) (hvisible : l.visible cfg t d = true)
    (hat : InSections cfg t l l') (hd : SameReaders d r) :
    ∃ b ∈ rwCode (cfg.plan t) l' r, a.Mirrors b ∧ InSections cfg t a.next b.next ∧
      SameReaders (a.effect d) (b.effect r) := by
  have hreaders : d.numReaders = r.numReaders := hd
  cases chatStatement_of_mem ha with
  | accept hclient hfree => cases hvisible
  | motd => cases hvisible
  | recv => cases hvisible
  | noLock hmode => rw [ChatLoc.visible, hmode] at hvisible; cases hvisible
  | execute hstatement hnow => rw [ChatLoc.visible, hstatement] at hvisible; cases hvisible
  | answer => cases hvisible
  | close => cases hvisible
  | startRead hmode =>
    cases hat with
    | start htask hgoes =>
      exact ⟨_, mem_rwCode (.startRead (plan_turn htask hgoes hmode)), rfl,
        .readIncr htask hgoes hmode, hd⟩
  | startWrite hmode =>
    cases hat with
    | start htask hgoes =>
      exact ⟨_, mem_rwCode (.startWrite (plan_turn htask hgoes hmode)), rfl,
        .writing htask hgoes hmode, hd⟩
  | readIncr =>
    cases hat with
    | readIncr htask hgoes hmode =>
      exact ⟨_, mem_rwCode .readIncr, trivial, .readTest htask hgoes hmode,
        congrArg (· + 1) hreaders⟩
  | readFirst hfirst =>
    cases hat with
    | readTest htask hgoes hmode =>
      exact ⟨_, mem_rwCode (.readFirst (hreaders ▸ hfirst)), rfl,
        .readUnlock htask hgoes hmode, hd⟩
  | readOther hother =>
    cases hat with
    | readTest htask hgoes hmode =>
      exact ⟨_, mem_rwCode (.readOther (hreaders ▸ hother)), trivial,
        .readUnlock htask hgoes hmode, hd⟩
  | readUnlock =>
    cases hat with
    | readUnlock htask hgoes hmode =>
      exact ⟨_, mem_rwCode .readUnlock, rfl, .reading htask hgoes hmode, hd⟩
  | endRead hend hmode =>
    cases hat with
    | reading htask hgoes hmode' =>
      exact ⟨_, mem_rwCode .reading, rfl, .endDecr htask hgoes hmode, hd⟩
    | writing htask hgoes hmode' =>
      rw [hmode] at hmode'
      cases hmode'
  | endWrite hend hmode =>
    cases hat with
    | reading htask hgoes hmode' => exact absurd hmode' hmode
    | writing htask hgoes hmode' =>
      refine ⟨_, mem_rwCode .writing, rfl, ?_, hd⟩
      show InSections cfg t (.answer _ _ _) (.start (cfg.sections t _ + 1))
      rw [← Scenario.sections_succ (locks_turn htask hgoes hmode')]
      exact .answer htask hgoes
  | endDecr =>
    cases hat with
    | endDecr htask hgoes hmode =>
      exact ⟨_, mem_rwCode .endDecr, trivial, .endTest htask hgoes hmode,
        congrArg (· - 1) hreaders⟩
  | endLast hlast =>
    cases hat with
    | endTest htask hgoes hmode =>
      exact ⟨_, mem_rwCode (.endLast (hreaders ▸ hlast)), rfl,
        .endUnlock htask hgoes hmode, hd⟩
  | endOther hother =>
    cases hat with
    | endTest htask hgoes hmode =>
      exact ⟨_, mem_rwCode (.endOther (hreaders ▸ hother)), trivial,
        .endUnlock htask hgoes hmode, hd⟩
  | endUnlock =>
    cases hat with
    | endUnlock htask hgoes hmode =>
      refine ⟨_, mem_rwCode .endUnlock, rfl, ?_, hd⟩
      show InSections cfg t (.answer _ _ _) (.start (cfg.sections t _ + 1))
      rw [← Scenario.sections_succ (locks_turn htask hgoes hmode)]
      exact .answer htask hgoes

theorem sections_projection (cfg : Scenario n) :
    Projection (chatThreads cfg) (rwProgram cfg.plan) (fun t => ChatLoc.visible cfg t)
      (InSections cfg) SameReaders where
  start _ := .accept
  data := rfl
  hidden _ _ _ _ _ _ ha hvisible hat hd := inSections_hidden ha hvisible hat hd
  shown _ _ _ _ _ _ ha hvisible hat hd := inSections_shown ha hvisible hat hd

/-- The readers and writers behind a state of the threads. -/
theorem exists_sections {s : ChatState n} (h : (chatThreads cfg).machine.Reachable s) :
    ∃ r, (rwProgram cfg.plan).machine.Reachable r ∧ Projects (InSections cfg) SameReaders s r :=
  (sections_projection cfg).simulation.reachable h

/-! ### Exclusion -/

namespace ChatLoc

/-- Inside a section that the thread took `rw_lock` for. -/
def Writes : ChatLoc → Prop
  | .body task _ _ _ => task.mode = some .write
  | _ => False

/-- Inside a section of a reader. -/
def Reads : ChatLoc → Prop
  | .body task _ _ _ => task.mode = some .read
  | _ => False

theorem not_reads_of_writes {l : ChatLoc} (h : l.Writes) : ¬ l.Reads := by
  cases l with
  | body task k pc v =>
    intro hreads
    have hwrite : task.mode = some .write := h
    have hread : task.mode = some .read := hreads
    rw [hread] at hwrite
    cases hwrite
  | _ => exact h.elim

end ChatLoc

theorem InSections.isWriting {l : ChatLoc} {l' : RwLoc} (h : InSections cfg t l l')
    (hl : l.Writes) : l'.Writing := by
  cases h with
  | writing htask hgoes hmode => trivial
  | reading htask hgoes hmode => exact absurd hmode (ChatLoc.not_reads_of_writes hl)
  | _ => exact hl.elim

theorem InSections.isReading {l : ChatLoc} {l' : RwLoc} (h : InSections cfg t l l')
    (hl : l.Reads) : l'.Reading := by
  cases h with
  | reading htask hgoes hmode => trivial
  | writing htask hgoes hmode => exact absurd hl (ChatLoc.not_reads_of_writes hmode)
  | _ => exact hl.elim

variable {s : ChatState n}

/-- A thread that changes the lists is alone with them. -/
theorem alone_of_writes (h : (chatThreads cfg).machine.Reachable s) (ht : (s.loc t).Writes)
    {u : Fin n} (hu : u ≠ t) : ¬ (s.loc u).Writes ∧ ¬ (s.loc u).Reads := by
  obtain ⟨r, hr, hproj⟩ := exists_sections h
  obtain ⟨hwriting, hshares⟩ :=
    (rwInv_of_reachable hr).alone t ((hproj.loc t).isWriting ht) u hu
  exact ⟨fun hw => hwriting ((hproj.loc u).isWriting hw),
    fun hread => hshares (RwLoc.shares_of_reading ((hproj.loc u).isReading hread))⟩

/-! ### Deadlocks -/

/-- The next statement dereferences a `NULL` node. -/
def ChatLoc.Crashes (cfg : Scenario n) (t : Fin n) (d : ChatShared n) : ChatLoc → Prop
  | .body task _ pc v => ∃ statement,
      (task.statements (cfg.client t) d.lists)[pc]? = some statement ∧ statement d.lists v = none
  | _ => False

/-- Between `accept_client` and `close`. -/
def ChatLoc.InSession : ChatLoc → Prop
  | .accept | .done => False
  | _ => True

theorem exists_mem_chatCode {l : ChatLoc} {d : ChatShared n} (hsession : l.InSession)
    (hcrash : ¬ l.Crashes cfg t d) : ∃ a, a ∈ chatCode cfg t l d := by
  cases l with
  | accept => exact hsession.elim
  | done => exact hsession.elim
  | start task k =>
    rw [chatCode]
    split <;> exact ⟨_, List.mem_cons_self⟩
  | readTest task k =>
    rw [chatCode]
    split <;> exact ⟨_, List.mem_cons_self⟩
  | endTest task k v =>
    rw [chatCode]
    split <;> exact ⟨_, List.mem_cons_self⟩
  | body task k pc v =>
    rw [chatCode]
    split
    · rename_i statement hstatement
      split
      · exact ⟨_, List.mem_cons_self⟩
      · rename_i hnone
        exact absurd ⟨statement, hstatement, hnone⟩ hcrash
    · split <;> exact ⟨_, List.mem_cons_self⟩
  | _ => exact ⟨_, List.mem_cons_self⟩

section Deadlocks

variable {r : RwState n} (h : (chatThreads cfg).machine.Reachable s)
  (hstuck : Stuck (chatThreads cfg) s) (hcrash : ∀ t, ¬ (s.loc t).Crashes cfg t s.data)
  (hr : (rwProgram cfg.plan).machine.Reachable r)
  (hproj : Projects (InSections cfg) SameReaders s r)

include h hstuck hcrash

/-- Only a mutex keeps a session from going on. -/
theorem exists_lock_of_stuck (ht : (s.loc t).InSession) :
    ∃ m k, Action.lock m k ∈ chatCode cfg t (s.loc t) s.data ∧ s.owner m ≠ none := by
  obtain ⟨a, ha⟩ := exists_mem_chatCode ht (hcrash t)
  obtain ⟨m, k, rfl, howner⟩ := hstuck.running (running_loc h t) ha
  exact ⟨m, k, ha, howner⟩

include hproj

theorem not_writing_of_chatStuck (t : Fin n) : ¬ (r.loc t).Writing := by
  intro ht
  have hloc := hproj.loc t
  have hlock := exists_lock_of_stuck h hstuck hcrash (t := t)
  generalize r.loc t = l' at ht hloc
  generalize s.loc t = l at hloc hlock
  cases hloc with
  | writing htask hgoes hmode =>
    obtain ⟨m, k, ha, -⟩ := hlock trivial
    cases chatStatement_of_mem ha with
    | endRead hend hmode' =>
      rw [hmode] at hmode'
      cases hmode'
  | _ => exact ht.elim

include hr

/-- The owner of the mutex can only wait for `rw_lock` as the first reader, which a writer
then holds. -/
theorem mutex_free_of_chatStuck : s.owner .mutex = none := by
  cases howner : s.owner .mutex with
  | none => rfl
  | some u =>
    rw [← hproj.owner] at howner
    have hu := (holdsMutex_iff hr u).mp howner
    have hreading := exists_reading_iff hr hu
    have hloc := hproj.loc u
    have hlock := exists_lock_of_stuck h hstuck hcrash (t := u)
    have hreaders : s.data.numReaders = r.data.numReaders := hproj.data
    have hshares : ∀ v, (r.loc v).Shares → ¬ (r.loc u).Shares →
        ∃ v, v ≠ u ∧ (r.loc v).Reading := by
      intro v hv hnot
      have hne : v ≠ u := fun heq => hnot (heq ▸ hv)
      exact ⟨v, hne, hv.reading (not_holdsMutex hr hu hne)⟩
    generalize r.loc u = l' at hu hreading hloc hshares
    generalize s.loc u = l at hloc hlock
    cases hloc with
    | readTest htask hgoes hmode =>
      obtain ⟨m, k, ha, hheld⟩ := hlock trivial
      cases chatStatement_of_mem ha with
      | readFirst hfirst =>
        rw [← hproj.owner] at hheld
        obtain ⟨v, hv | hv⟩ := (rwInv_of_reachable hr).held.mp hheld
        · exact absurd hv (not_writing_of_chatStuck h hstuck hcrash hproj v)
        · exact absurd (hreaders ▸ hfirst) (hreading.mp (hshares v hv id))
    | readIncr htask hgoes hmode =>
      obtain ⟨m, k, ha, -⟩ := hlock trivial
      cases chatStatement_of_mem ha
    | readUnlock htask hgoes hmode =>
      obtain ⟨m, k, ha, -⟩ := hlock trivial
      cases chatStatement_of_mem ha
    | endDecr htask hgoes hmode =>
      obtain ⟨m, k, ha, -⟩ := hlock trivial
      cases chatStatement_of_mem ha
    | endTest htask hgoes hmode =>
      obtain ⟨m, k, ha, -⟩ := hlock trivial
      cases chatStatement_of_mem ha
    | endUnlock htask hgoes hmode =>
      obtain ⟨m, k, ha, -⟩ := hlock trivial
      cases chatStatement_of_mem ha
    | _ => exact hu.elim

theorem rwLock_free_of_chatStuck : s.owner .rwLock = none := by
  by_contra hheld
  have hfree := mutex_free_of_chatStuck h hstuck hcrash hr hproj
  rw [← hproj.owner] at hheld
  obtain ⟨v, hv | hv⟩ := (rwInv_of_reachable hr).held.mp hheld
  · exact not_writing_of_chatStuck h hstuck hcrash hproj v hv
  · have hmutex : ¬ (r.loc v).HoldsMutex := by
      intro hholds
      rw [← hproj.owner, (holdsMutex_iff hr v).mpr hholds] at hfree
      cases hfree
    have hread := hv.reading hmutex
    have hloc := hproj.loc v
    have hlock := exists_lock_of_stuck h hstuck hcrash (t := v)
    generalize r.loc v = l' at hread hloc
    generalize s.loc v = l at hloc hlock
    cases hloc with
    | reading htask hgoes hmode =>
      obtain ⟨m, k, ha, howner⟩ := hlock trivial
      cases chatStatement_of_mem ha with
      | endRead hend hmode' => exact howner hfree
    | _ => exact hread.elim

omit hproj hr in
/-- **No deadlock.**  Where no thread can step and none dereferences `NULL`, no session is left. -/
theorem not_inSession_of_stuck (t : Fin n) : ¬ (s.loc t).InSession := by
  intro ht
  obtain ⟨r, hr, hproj⟩ := exists_sections h
  obtain ⟨m, k, -, howner⟩ := exists_lock_of_stuck h hstuck hcrash ht
  cases m with
  | mutex => exact howner (mutex_free_of_chatStuck h hstuck hcrash hr hproj)
  | rwLock => exact howner (rwLock_free_of_chatStuck h hstuck hcrash hr hproj)

end Deadlocks

end OsLabs.Chat
