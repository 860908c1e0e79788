import OsLabs.Chat.Atomic
import OsLabs.Chat.Dangling

/-!
# Chat server: from the threads to the sessions

The server that does one task at a time is the machine of the sessions, so that what holds of
every run of the sessions holds of the lists of the threads, whenever nobody writes.
-/

namespace OsLabs.Chat

open OsLabs.Lib OsLabs.Lib.Monitor

variable {n : ℕ} {cfg : Scenario n} {t : Fin n} {a : AtomicState n}

/-! ### Sessions -/

def Stage.phase : Stage → Phase
  | .incoming | .gone => .closed
  | .greeting | .serving 0 => .accepted
  | .serving (_ + 1) => .live
  | .leaving => .ended

/-- The descriptor of the thread is open. -/
def Stage.InSession : Stage → Prop
  | .incoming | .gone => False
  | _ => True

/-- What a step of a thread is for the sessions; the greeting is nothing to them. -/
def eventOf (cfg : Scenario n) (a : AtomicState n) (t : Fin n) : Option Event :=
  match a.stage t with
  | .incoming => some (.accept (cfg.client t))
  | .greeting => none
  | .serving 0 => some (.welcome (cfg.client t))
  | .serving (k + 1) =>
    match cfg.inbox t k with
    | none => some (.hangup (cfg.client t))
    | some m => some (.message (cfg.client t) m.arguments)
  | .leaving => some (.close (cfg.client t))
  | .gone => none

structure SameSessions (cfg : Scenario n) (a : AtomicState n) (srv : Server) : Prop where
  lists : srv.lists = a.lists
  phase : ∀ t, (a.stage t).InSession → srv.phase (cfg.client t) = (a.stage t).phase
  closed : ∀ c, c ∉ a.opened → srv.phase c = .closed
  opened : ∀ t, (a.stage t).InSession → cfg.client t ∈ a.opened
  alone : ∀ t u, (a.stage t).InSession → (a.stage u).InSession →
    cfg.client t = cfg.client u → t = u

namespace SameSessions

variable {srv : Server}

/-- A session goes on. -/
theorem move (h : SameSessions cfg a srv) (ht : (a.stage t).InSession) (lists : Lists)
    (calls : List Call) (stage : Stage) :
    SameSessions cfg ({ a with lists := lists }.move t calls stage)
      (srv.set (cfg.client t) stage.phase lists) := by
  have hstages : ∀ u, (Function.update a.stage t stage u).InSession → (a.stage u).InSession := by
    intro u hu
    by_cases hut : u = t
    · exact hut ▸ ht
    · rwa [Function.update_of_ne hut] at hu
  refine ⟨rfl, fun u hu => ?_, fun c hc => ?_, fun u hu => h.opened u (hstages u hu),
    fun u v hu hv => h.alone u v (hstages u hu) (hstages v hv)⟩
  · show Function.update srv.phase (cfg.client t) stage.phase (cfg.client u) =
      (Function.update a.stage t stage u).phase
    by_cases hut : u = t
    · subst hut
      rw [Function.update_self, Function.update_self]
    · have hne : cfg.client u ≠ cfg.client t :=
        fun heq => hut (h.alone u t (hstages u hu) ht heq)
      rw [Function.update_of_ne hne, Function.update_of_ne hut]
      exact h.phase u (hstages u hu)
  · show Function.update srv.phase (cfg.client t) stage.phase c = .closed
    have hne : c ≠ cfg.client t := fun heq => hc (heq ▸ h.opened t ht)
    rw [Function.update_of_ne hne]
    exact h.closed c hc

theorem enter (h : SameSessions cfg a srv) (ht : ¬ (a.stage t).InSession)
    (hfree : cfg.client t ∉ a.opened) :
    SameSessions cfg ({ a with opened := insert (cfg.client t) a.opened }.move t [] .greeting)
      (srv.set (cfg.client t) .accepted srv.lists) := by
  have hstages : ∀ u, u ≠ t → (Function.update a.stage t .greeting u).InSession →
      (a.stage u).InSession := by
    intro u hut hu
    rwa [Function.update_of_ne hut] at hu
  have hne : ∀ u, u ≠ t → (Function.update a.stage t .greeting u).InSession →
      cfg.client u ≠ cfg.client t :=
    fun u hut hu heq => hfree (heq ▸ h.opened u (hstages u hut hu))
  refine ⟨h.lists, fun u hu => ?_, fun c hc => ?_, fun u hu => ?_, fun u v hu hv heq => ?_⟩
  · show Function.update srv.phase (cfg.client t) .accepted (cfg.client u) =
      (Function.update a.stage t .greeting u).phase
    by_cases hut : u = t
    · subst hut
      rw [Function.update_self, Function.update_self]
      rfl
    · rw [Function.update_of_ne (hne u hut hu), Function.update_of_ne hut]
      exact h.phase u (hstages u hut hu)
  · have hnot : c ≠ cfg.client t ∧ c ∉ a.opened := by
      rw [← not_or, ← Finset.mem_insert]
      exact hc
    show Function.update srv.phase (cfg.client t) .accepted c = .closed
    rw [Function.update_of_ne hnot.1]
    exact h.closed c hnot.2
  · by_cases hut : u = t
    · exact hut ▸ Finset.mem_insert_self _ _
    · exact Finset.mem_insert_of_mem (h.opened u (hstages u hut hu))
  · by_cases hut : u = t
    · by_cases hvt : v = t
      · rw [hut, hvt]
      · exact absurd (heq.symm.trans (congrArg cfg.client hut)) (hne v hvt hv)
    · by_cases hvt : v = t
      · exact absurd (heq.trans (congrArg cfg.client hvt)) (hne u hut hu)
      · exact h.alone u v (hstages u hut hu) (hstages v hvt hv) heq

theorem leave (h : SameSessions cfg a srv) (ht : (a.stage t).InSession) :
    SameSessions cfg ({ a with opened := a.opened.erase (cfg.client t) }.move t [] .gone)
      (srv.set (cfg.client t) .closed srv.lists) := by
  have hstages : ∀ u, (Function.update a.stage t .gone u).InSession →
      u ≠ t ∧ (a.stage u).InSession := by
    intro u hu
    by_cases hut : u = t
    · subst hut
      rw [Function.update_self] at hu
      exact hu.elim
    · rw [Function.update_of_ne hut] at hu
      exact ⟨hut, hu⟩
  have hne : ∀ u, (Function.update a.stage t .gone u).InSession →
      cfg.client u ≠ cfg.client t :=
    fun u hu heq => (hstages u hu).1 (h.alone u t (hstages u hu).2 ht heq)
  refine ⟨h.lists, fun u hu => ?_, fun c hc => ?_, fun u hu => ?_,
    fun u v hu hv => h.alone u v (hstages u hu).2 (hstages v hv).2⟩
  · show Function.update srv.phase (cfg.client t) .closed (cfg.client u) =
      (Function.update a.stage t .gone u).phase
    rw [Function.update_of_ne (hne u hu), Function.update_of_ne (hstages u hu).1]
    exact h.phase u (hstages u hu).2
  · show Function.update srv.phase (cfg.client t) .closed c = .closed
    by_cases heq : c = cfg.client t
    · subst heq
      rw [Function.update_self]
    · rw [Function.update_of_ne heq]
      exact h.closed c fun hmem => hc (Finset.mem_erase.mpr ⟨heq, hmem⟩)
  · exact Finset.mem_erase.mpr ⟨hne u hu, h.opened u (hstages u hu).2⟩

end SameSessions

/-- The steps of the server, by the stage of the thread. -/
inductive AtomicStep (cfg : Scenario n) (a : AtomicState n) (t : Fin n) : AtomicState n → Prop
  | accept : a.stage t = .incoming → cfg.client t ≠ -1 → cfg.client t ∉ a.opened →
      AtomicStep cfg a t
        ({ a with opened := insert (cfg.client t) a.opened }.move t [] .greeting)
  | greet : a.stage t = .greeting →
      AtomicStep cfg a t (a.move t [(cfg.client t, serverMOTD)] (.serving 0))
  | serve {j : ℕ} {lists : Lists} {calls : List Call} : a.stage t = .serving j →
      perform (cfg.client t) a.lists (cfg.task t j) = some (lists, calls) →
      AtomicStep cfg a t
        ({ a with lists := lists }.move t calls ((cfg.task t j).stage j))
  | leave : a.stage t = .leaving →
      AtomicStep cfg a t
        ({ a with opened := a.opened.erase (cfg.client t) }.move t [] .gone)

theorem atomicStep_of_step {a' : AtomicState n} (h : (atomicServer cfg).step a t a') :
    AtomicStep cfg a t a' := by
  have hnext : a.next cfg t = some a' := h
  rw [AtomicState.next] at hnext
  split at hnext
  · rename_i hstage
    split at hnext
    · rename_i hfree
      obtain rfl := Option.some.inj hnext
      exact .accept hstage hfree.1 hfree.2
    · cases hnext
  · rename_i hstage
    obtain rfl := Option.some.inj hnext
    exact .greet hstage
  · rename_i j hstage
    obtain ⟨⟨lists, calls⟩, hperform, rfl⟩ := Option.map_eq_some_iff.mp hnext
    exact .serve hstage hperform
  · rename_i hstage
    obtain rfl := Option.some.inj hnext
    exact .leave hstage
  · cases hnext

/-- The tasks of the receive loop are the messages and the end of the connection. -/
theorem next_message {srv : Server} {k : ℕ} {lists : Lists} {calls : List Call}
    (hlive : srv.phase (cfg.client t) = .live) {e : Event}
    (hevent : (match cfg.inbox t k with
      | none => some (Event.hangup (cfg.client t))
      | some m => some (Event.message (cfg.client t) m.arguments)) = some e)
    (hperform : perform (cfg.client t) srv.lists (taskOf (cfg.inbox t k)) = some (lists, calls)) :
    srv.next e = some (srv.set (cfg.client t) ((taskOf (cfg.inbox t k)).stage (k + 1)).phase
      lists) := by
  cases hinbox : cfg.inbox t k with
  | none =>
    rw [hinbox] at hevent hperform
    obtain rfl := Option.some.inj hevent
    obtain ⟨rfl, -⟩ := Prod.mk.inj (Option.some.inj hperform)
    rw [Server.next, if_pos hlive]
    rfl
  | some m =>
    rw [hinbox] at hevent hperform
    obtain rfl := Option.some.inj hevent
    obtain ⟨lists', hserve, heq⟩ := Option.map_eq_some_iff.mp hperform
    obtain ⟨rfl, -⟩ := Prod.mk.inj heq
    rw [Server.next, if_pos hlive, parseCommand_eq, hserve, Option.map_some]
    refine congrArg (fun phase => some (srv.set (cfg.client t) phase lists')) ?_
    rw [taskOf, Task.stage]
    cases requestOf m <;> rfl

theorem sessions_simulation (cfg : Scenario n) :
    Machine.Simulation (atomicServer cfg) chatServer (eventOf cfg) (SameSessions cfg) where
  init := ⟨rfl, fun _ h => h.elim, fun _ _ => rfl, fun _ h => h.elim, fun _ _ h => h.elim⟩
  silent a t a' srv _ h hstep hemit := by
    cases atomicStep_of_step hstep with
    | greet hstage =>
      have hin : (a.stage t).InSession := hstage ▸ trivial
      have hsame : srv.set (cfg.client t) (Stage.serving 0).phase a.lists = srv := by
        have hphase := h.phase t hin
        rw [hstage] at hphase
        rw [Server.set, ← h.lists]
        exact congrArg (Server.mk srv.lists) (Function.update_eq_self_iff.mpr hphase.symm)
      rw [← hsame]
      exact h.move hin a.lists _ (.serving 0)
    | accept hstage hclient hfree => rw [eventOf, hstage] at hemit; cases hemit
    | leave hstage => rw [eventOf, hstage] at hemit; cases hemit
    | @serve j lists calls hstage hperform =>
      rw [eventOf, hstage] at hemit
      cases j with
      | zero => cases hemit
      | succ k =>
        dsimp only at hemit
        split at hemit <;> cases hemit
  matched a t a' srv e _ h hstep hemit := by
    cases atomicStep_of_step hstep with
    | accept hstage hclient hfree =>
      rw [eventOf, hstage] at hemit
      obtain rfl := Option.some.inj hemit
      refine ⟨srv.set (cfg.client t) .accepted srv.lists, ?_, h.enter (hstage ▸ id) hfree⟩
      show srv.next (.accept (cfg.client t)) = _
      rw [Server.next, if_pos ⟨hclient, h.closed _ hfree⟩]
    | greet hstage => rw [eventOf, hstage] at hemit; cases hemit
    | leave hstage =>
      rw [eventOf, hstage] at hemit
      obtain rfl := Option.some.inj hemit
      have hin : (a.stage t).InSession := hstage ▸ trivial
      have hphase : srv.phase (cfg.client t) = .ended := (h.phase t hin).trans (by rw [hstage]; rfl)
      refine ⟨srv.set (cfg.client t) .closed srv.lists, ?_, h.leave hin⟩
      show srv.next (.close (cfg.client t)) = _
      rw [Server.next, if_pos hphase]
    | @serve j lists calls hstage hperform =>
      have hin : (a.stage t).InSession := hstage ▸ trivial
      have hphase := h.phase t hin
      rw [hstage] at hphase
      rw [eventOf, hstage] at hemit
      rw [← h.lists] at hperform
      refine ⟨_, ?_, h.move hin lists calls _⟩
      cases j with
      | zero =>
        obtain rfl := Option.some.inj hemit
        obtain ⟨rfl, -⟩ := Prod.mk.inj (Option.some.inj hperform)
        show srv.next (.welcome (cfg.client t)) = _
        exact if_pos hphase
      | succ k => exact next_message hphase hemit hperform

/-! ### The events of the threads -/

/-- What a task of the thread is for the sessions. -/
def arrival (cfg : Scenario n) (t : Fin n) (k : ℕ) : Task → Event
  | .welcome => .welcome (cfg.client t)
  | .hangup | .request _ =>
    match cfg.inbox t k with
    | none => .hangup (cfg.client t)
    | some m => .message (cfg.client t) m.arguments

/-- The event of the sessions that a statement stands for. -/
def eventAt (cfg : Scenario n) (s : ChatState n) (t : Fin n) : Option Event :=
  match s.loc t with
  | .accept => some (.accept (cfg.client t))
  | .close => some (.close (cfg.client t))
  | .start task k => if task.mode = none then some (arrival cfg t k task) else none
  | .body task k pc _ =>
    if (task.statements (cfg.client t) s.data.lists)[pc]? = none then some (arrival cfg t k task)
    else none
  | _ => none

theorem eventOf_serving {task : Task} {k : ℕ} (hstage : a.stage t = .serving (task.turn k)) :
    eventOf cfg a t = some (arrival cfg t k task) := by
  have hloop : a.stage t = .serving (k + 1) → eventOf cfg a t =
      some (arrival cfg t k .hangup) := by
    intro hstage
    rw [eventOf, hstage, arrival]
    dsimp only
    cases cfg.inbox t k <;> rfl
  cases task with
  | welcome =>
    rw [eventOf, hstage]
    rfl
  | hangup => exact hloop hstage
  | request q => exact hloop hstage

theorem eventAt_eq {s : ChatState n} (h : SameTasks cfg s a) (t : Fin n) :
    eventAt cfg s t = (commitOf cfg s t).bind (eventOf cfg a) := by
  have hkeeps := h.keeps t
  rw [eventAt, commitOf]
  generalize s.loc t = l at hkeeps
  cases hkeeps with
  | accept hsent hstage =>
    have hstage : a.stage t = .incoming := hstage
    show _ = eventOf cfg a t
    rw [eventOf, hstage]
  | motd hsent hstage =>
    have hstage : a.stage t = .greeting := hstage
    show _ = eventOf cfg a t
    rw [eventOf, hstage]
  | close hsent hstage =>
    have hstage : a.stage t = .leaving := hstage
    show _ = eventOf cfg a t
    rw [eventOf, hstage]
  | @start task k htask hsent hstage =>
    dsimp only [ChatLoc.commits]
    simp only [Option.isNone_iff_eq_none]
    split
    · exact (eventOf_serving hstage).symm
    · rfl
  | @body task k pc v out htask hstage hexecute hsent =>
    dsimp only [ChatLoc.commits]
    simp only [Option.isNone_iff_eq_none]
    split
    · exact (eventOf_serving hstage).symm
    · rfl
  | _ => rfl

end OsLabs.Chat
