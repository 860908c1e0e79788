import OsLabs.Chat.Exclusion

/-!
# Chat server: one task at a time

A server that does each task of a session in a single step.  Every run of the threads is a run
of it: a task takes effect where its section ends, and the tasks take effect in the order of
these moments.
-/

namespace OsLabs.Chat

open OsLabs.Lib OsLabs.Lib.Monitor

variable {n : ℕ} {cfg : Scenario n} {t : Fin n}

/-- How far the session of a thread is. -/
inductive Stage
  | incoming
  | greeting
  /-- Before task number `j`. -/
  | serving (j : ℕ)
  | leaving
  | gone
  deriving DecidableEq, Repr

/-- The stage behind task number `j`. -/
def Task.stage (j : ℕ) (task : Task) : Stage := if task.Ends then .leaving else .serving (j + 1)

structure AtomicState (n : ℕ) where
  lists : Lists
  opened : Finset Socket
  sent : Fin n → List Call
  stage : Fin n → Stage

/-- The state after a step of `t` with some calls. -/
def AtomicState.move (a : AtomicState n) (t : Fin n) (calls : List Call) (stage : Stage) :
    AtomicState n :=
  { a with
    sent := Function.update a.sent t (a.sent t ++ calls)
    stage := Function.update a.stage t stage }

def AtomicState.next (cfg : Scenario n) (a : AtomicState n) (t : Fin n) :
    Option (AtomicState n) :=
  match a.stage t with
  | .incoming =>
    if cfg.client t ≠ -1 ∧ cfg.client t ∉ a.opened then
      some ({ a with opened := insert (cfg.client t) a.opened }.move t [] .greeting)
    else none
  | .greeting => some (a.move t [(cfg.client t, serverMOTD)] (.serving 0))
  | .serving j =>
    (perform (cfg.client t) a.lists (cfg.task t j)).map fun done =>
      { a with lists := done.1 }.move t done.2 ((cfg.task t j).stage j)
  | .leaving => some ({ a with opened := a.opened.erase (cfg.client t) }.move t [] .gone)
  | .gone => none

def atomicServer (cfg : Scenario n) : Machine (AtomicState n) (Fin n) :=
  Machine.ofNext ⟨⟨[], createRoom [] defaultRoom⟩, ∅, fun _ => [], fun _ => .incoming⟩
    (AtomicState.next cfg)

/-! ### Where a task takes effect -/

/-- The statement after which the step of the other server is done: the end of a section, or the
start of a task without a lock. -/
def ChatLoc.commits (cfg : Scenario n) (t : Fin n) : ChatLoc → ChatShared n → Bool
  | .accept, _ | .motd, _ | .close, _ => true
  | .start task _, _ => task.mode.isNone
  | .body task _ pc _, d => (task.statements (cfg.client t) d.lists)[pc]?.isNone
  | .recv _, _ | .readIncr _ _, _ | .readTest _ _, _ | .readUnlock _ _, _ | .endDecr _ _ _, _
  | .endTest _ _ _, _ | .endUnlock _ _ _, _ | .answer _ _ _, _ | .done, _ => false

/-- What the other server has done for a thread. -/
structure Progress where
  lists : Lists
  sent : List Call
  stage : Stage

/-- The thread, with the lists and its calls, against what the other server has done for it. -/
inductive Keeps (cfg : Scenario n) (t : Fin n) (lists : Lists) (sent : List Call) (p : Progress) :
    ChatLoc → Prop
  | accept : p.sent = sent → p.stage = .incoming → Keeps cfg t lists sent p .accept
  | motd : p.sent = sent → p.stage = .greeting → Keeps cfg t lists sent p .motd
  | recv {k : ℕ} : p.sent = sent → p.stage = .serving (k + 1) → Keeps cfg t lists sent p (.recv k)
  | start {task : Task} {k : ℕ} : task = cfg.task t (task.turn k) → p.sent = sent →
      p.stage = .serving (task.turn k) → Keeps cfg t lists sent p (.start task k)
  | readIncr {task : Task} {k : ℕ} : task = cfg.task t (task.turn k) → p.sent = sent →
      p.stage = .serving (task.turn k) → Keeps cfg t lists sent p (.readIncr task k)
  | readTest {task : Task} {k : ℕ} : task = cfg.task t (task.turn k) → p.sent = sent →
      p.stage = .serving (task.turn k) → Keeps cfg t lists sent p (.readTest task k)
  | readUnlock {task : Task} {k : ℕ} : task = cfg.task t (task.turn k) → p.sent = sent →
      p.stage = .serving (task.turn k) → Keeps cfg t lists sent p (.readUnlock task k)
  /-- The statements up to `pc` are executed on the lists at the start of the section. -/
  | body {task : Task} {k pc : ℕ} {v : Locals} {out : List Call} :
      task = cfg.task t (task.turn k) → p.stage = .serving (task.turn k) →
      execute ((task.statements (cfg.client t) p.lists).take pc) p.lists .start =
        some (lists, v, out) →
      sent = p.sent ++ out → Keeps cfg t lists sent p (.body task k pc v)
  | endDecr {task : Task} {k : ℕ} {v : Locals} :
      p.sent = sent ++ task.answer (cfg.client t) v → p.stage = task.stage (task.turn k) →
      Keeps cfg t lists sent p (.endDecr task k v)
  | endTest {task : Task} {k : ℕ} {v : Locals} :
      p.sent = sent ++ task.answer (cfg.client t) v → p.stage = task.stage (task.turn k) →
      Keeps cfg t lists sent p (.endTest task k v)
  | endUnlock {task : Task} {k : ℕ} {v : Locals} :
      p.sent = sent ++ task.answer (cfg.client t) v → p.stage = task.stage (task.turn k) →
      Keeps cfg t lists sent p (.endUnlock task k v)
  | answer {task : Task} {k : ℕ} {v : Locals} :
      p.sent = sent ++ task.answer (cfg.client t) v → p.stage = task.stage (task.turn k) →
      Keeps cfg t lists sent p (.answer task k v)
  | close : p.sent = sent → p.stage = .leaving → Keeps cfg t lists sent p .close
  | done : p.sent = sent → p.stage = .gone → Keeps cfg t lists sent p .done

def AtomicState.progress (a : AtomicState n) (t : Fin n) : Progress :=
  ⟨a.lists, a.sent t, a.stage t⟩

/-- Both servers at the same moment. -/
structure SameTasks (cfg : Scenario n) (s : ChatState n) (a : AtomicState n) : Prop where
  opened : a.opened = s.data.opened
  lists : (∀ t, ¬ (s.loc t).Writes) → a.lists = s.data.lists
  keeps : ∀ t, Keeps cfg t s.data.lists (s.data.sent t) (a.progress t) (s.loc t)

/-- Outside the sections the lists do not matter. -/
theorem Keeps.of_outside {lists lists' lists₁ : Lists} {sent : List Call} {p : Progress}
    {l : ChatLoc} (h : Keeps cfg t lists sent p l) (hl : ∀ task k pc v, l ≠ .body task k pc v) :
    Keeps cfg t lists' sent ⟨lists₁, p.sent, p.stage⟩ l := by
  cases h with
  | accept hsent hstage => exact .accept hsent hstage
  | motd hsent hstage => exact .motd hsent hstage
  | recv hsent hstage => exact .recv hsent hstage
  | start htask hsent hstage => exact .start htask hsent hstage
  | readIncr htask hsent hstage => exact .readIncr htask hsent hstage
  | readTest htask hsent hstage => exact .readTest htask hsent hstage
  | readUnlock htask hsent hstage => exact .readUnlock htask hsent hstage
  | body htask hstage hexecute hsent => exact absurd rfl (hl _ _ _ _)
  | endDecr hsent hstage => exact .endDecr hsent hstage
  | endTest hsent hstage => exact .endTest hsent hstage
  | endUnlock hsent hstage => exact .endUnlock hsent hstage
  | answer hsent hstage => exact .answer hsent hstage
  | close hsent hstage => exact .close hsent hstage
  | done hsent hstage => exact .done hsent hstage

/-! ### What the sections guarantee -/

/-- The lists are those that the last task left. -/
def ChatLoc.Sees : ChatLoc → Prop
  | .readUnlock _ _ => True
  | .start task _ => task.mode = some .write
  | .body task _ _ _ => task.mode = some .read
  | _ => False

variable {s s' : ChatState n} {a : AtomicState n}

theorem InSections.mode {l' : RwLoc} {task : Task} {k pc : ℕ} {v : Locals}
    (h : InSections cfg t (.body task k pc v) l') :
    task.mode = some .read ∨ task.mode = some .write := by
  cases h with
  | reading htask hgoes hmode => exact Or.inl hmode
  | writing htask hgoes hmode => exact Or.inr hmode

theorem mode_of_body (h : (chatThreads cfg).machine.Reachable s) {task : Task} {k pc : ℕ}
    {v : Locals} (hbody : s.loc t = .body task k pc v) :
    task.mode = some .read ∨ task.mode = some .write := by
  obtain ⟨r, hr, hproj⟩ := exists_sections h
  have hsections := hproj.loc t
  rw [hbody] at hsections
  exact hsections.mode

/-- No other thread is inside a section while one changes the lists. -/
theorem outside_of_writes (h : (chatThreads cfg).machine.Reachable s) (ht : (s.loc t).Writes)
    {u : Fin n} (hu : u ≠ t) (task : Task) (k pc : ℕ) (v : Locals) :
    s.loc u ≠ .body task k pc v := by
  intro hbody
  obtain ⟨hwrites, hreads⟩ := alone_of_writes h ht hu
  rw [hbody] at hwrites hreads
  exact (mode_of_body h hbody).elim hreads hwrites

/-- Nobody changes the lists that a thread sees. -/
theorem not_writes_of_sees (h : (chatThreads cfg).machine.Reachable s) {act : ChatAction n}
    (hact : act ∈ chatCode cfg t (s.loc t) s.data) (hacts : Acts s t act s')
    (ht : (s.loc t).Sees) (u : Fin n) : ¬ (s.loc u).Writes := by
  intro hu
  obtain ⟨r, hr, hproj⟩ := exists_sections h
  have hwriting := (hproj.loc u).isWriting hu
  have hfree : r.owner .rwLock ≠ none := (rwInv_of_reachable hr).held.mpr ⟨u, Or.inl hwriting⟩
  have halone := (rwInv_of_reachable hr).alone u hwriting t
  rw [hproj.owner] at hfree
  have hloc := hproj.loc t
  by_cases hut : t = u
  · subst hut
    generalize s.loc t = l at ht hu
    cases l with
    | body task k pc v => exact ChatLoc.not_reads_of_writes hu ht
    | _ => exact hu
  · have hshares := (halone hut).2
    generalize r.loc t = l' at hloc hshares
    generalize s.loc t = l at ht hloc hact
    cases hloc with
    | readUnlock htask hgoes hmode => exact hshares trivial
    | reading htask hgoes hmode => exact hshares trivial
    | start htask hgoes =>
      have hwrite : _ = some Section.write := ht
      cases chatStatement_of_mem hact with
      | startWrite hmode => exact hfree (hacts.free _ _ rfl)
      | startRead hmode =>
        rw [hmode] at hwrite
        cases hwrite
      | noLock hmode =>
        rw [hmode] at hwrite
        cases hwrite
    | writing htask hgoes hmode =>
      have hread : _ = some Section.read := ht
      rw [hmode] at hread
      cases hread
    | _ => exact ht

/-! ### One step -/

/-- A thread calls `safe_send` for itself only. -/
theorem sent_of_ne {l : ChatLoc} {d : ChatShared n} {act : ChatAction n}
    (hact : act ∈ chatCode cfg t l d) {u : Fin n} (hu : u ≠ t) :
    (act.effect d).sent u = d.sent u := by
  cases chatStatement_of_mem hact with
  | motd => exact Function.update_of_ne hu _ _
  | execute hstatement hnow => exact Function.update_of_ne hu _ _
  | answer => exact Function.update_of_ne hu _ _
  | _ => rfl

/-- Only a thread in a section of a writer changes the lists. -/
theorem lists_of_not_writes {l : ChatLoc} {d : ChatShared n} {act : ChatAction n}
    (hact : act ∈ chatCode cfg t l d) (hl : ¬ l.Writes) : (act.effect d).lists = d.lists := by
  cases chatStatement_of_mem hact with
  | execute hstatement hnow => exact statement_keeps hl (List.mem_of_getElem? hstatement) hnow
  | _ => rfl

theorem opened_of_silent {l : ChatLoc} {d : ChatShared n} {act : ChatAction n}
    (hact : act ∈ chatCode cfg t l d) (hsilent : l.commits cfg t d = false) :
    (act.effect d).opened = d.opened := by
  cases chatStatement_of_mem hact with
  | accept hclient hfree => cases hsilent
  | close => cases hsilent
  | _ => rfl

/-- The other threads stay in step. -/
theorem SameTasks.step (h : SameTasks cfg s a) (a' : AtomicState n)
    (hreach : (chatThreads cfg).machine.Reachable s) {act : ChatAction n}
    (hact : act ∈ chatCode cfg t (s.loc t) s.data) (hacts : Acts s t act s')
    (hopened : a'.opened = (act.effect s.data).opened)
    (hlists : (∀ u, ¬ (s'.loc u).Writes) → a'.lists = (act.effect s.data).lists)
    (hothers : ∀ u, u ≠ t → a'.sent u = a.sent u ∧ a'.stage u = a.stage u)
    (hquiet : (s.loc t).Writes ∨ a'.lists = a.lists)
    (hown : Keeps cfg t (act.effect s.data).lists ((act.effect s.data).sent t) (a'.progress t)
      act.next) : SameTasks cfg s' a' := by
  refine ⟨hopened.trans (by rw [hacts.data]), fun hnone => (hlists hnone).trans (by rw [hacts.data]),
    fun u => ?_⟩
  rw [hacts.data, hacts.loc]
  by_cases hu : u = t
  · subst hu
    rw [Function.update_self]
    exact hown
  · rw [Function.update_of_ne hu]
    have hsent : (act.effect s.data).sent u = s.data.sent u := sent_of_ne hact hu
    rw [hsent, AtomicState.progress, (hothers u hu).1, (hothers u hu).2]
    by_cases hwrites : (s.loc t).Writes
    · exact (h.keeps u).of_outside (outside_of_writes hreach hwrites hu)
    · rw [lists_of_not_writes hact hwrites, hquiet.resolve_left hwrites]
      exact h.keeps u

/-- A silent statement that leaves nobody writing has changed nothing. -/
theorem lists_of_silent {l : ChatLoc} {d : ChatShared n} {act : ChatAction n}
    (hact : act ∈ chatCode cfg t l d) (hsilent : l.commits cfg t d = false)
    (hnext : ¬ act.next.Writes) : ¬ l.Writes ∧ (act.effect d).lists = d.lists := by
  have hl : ¬ l.Writes := by
    cases chatStatement_of_mem hact with
    | execute hstatement hnow => exact hnext
    | endRead hend hmode => rw [ChatLoc.commits, hend] at hsilent; cases hsilent
    | endWrite hend hmode => rw [ChatLoc.commits, hend] at hsilent; cases hsilent
    | _ => exact id
  exact ⟨hl, lists_of_not_writes hact hl⟩

theorem execute_take_zero {lists now : Lists} (statements : List Statement)
    (hsame : lists = now) :
    execute (statements.take 0) lists .start = some (now, .start, []) := by
  rw [List.take_zero, hsame]
  rfl

/-- The next statement of a section. -/
theorem execute_take_succ {client : Socket} {task : Task} {pc : ℕ} {lists now : Lists}
    {v v' : Locals} {out calls : List Call} {statement : Statement} {later : Lists}
    (hsame : task.statements client now = task.statements client lists)
    (hexecute : execute ((task.statements client lists).take pc) lists .start =
      some (now, v, out))
    (hstatement : (task.statements client now)[pc]? = some statement)
    (hnow : statement now v = some (later, v', calls)) :
    execute ((task.statements client lists).take (pc + 1)) lists .start =
      some (later, v', out ++ calls) := by
  rw [hsame] at hstatement
  rw [List.take_add_one, hstatement, Option.toList_some, execute_append, hexecute,
    Option.bind_some, execute_singleton]
  dsimp only
  rw [hnow, Option.map_some]

/-- A thread stays in step by its silent statements. -/
theorem Keeps.silent {l : ChatLoc} {d : ChatShared n} {act : ChatAction n} {p : Progress}
    (h : Keeps cfg t d.lists (d.sent t) p l) (hact : act ∈ chatCode cfg t l d)
    (hsilent : l.commits cfg t d = false) (hsees : l.Sees → p.lists = d.lists)
    (hsection : ∀ task k pc v, l = .body task k pc v →
      task.mode = some .read ∨ task.mode = some .write) :
    Keeps cfg t (act.effect d).lists ((act.effect d).sent t) p act.next := by
  cases chatStatement_of_mem hact with
  | accept hclient hfree => cases hsilent
  | motd => cases hsilent
  | close => cases hsilent
  | noLock hmode => rw [ChatLoc.commits, hmode] at hsilent; cases hsilent
  | endRead hend hmode => rw [ChatLoc.commits, hend] at hsilent; cases hsilent
  | endWrite hend hmode => rw [ChatLoc.commits, hend] at hsilent; cases hsilent
  | @recv k =>
    cases h with
    | recv hsent hstage =>
      have hturn : (taskOf (cfg.inbox t k)).turn k = k + 1 := turn_taskOf _ _
      exact .start (by rw [hturn]; rfl) hsent (hturn.symm ▸ hstage)
  | startRead hmode =>
    cases h with
    | start htask hsent hstage => exact .readIncr htask hsent hstage
  | @startWrite task k hmode =>
    cases h with
    | start htask hsent hstage =>
      exact .body htask hstage (execute_take_zero _ (hsees hmode))
        (by rw [hsent, List.append_nil]; rfl)
  | readIncr =>
    cases h with
    | readIncr htask hsent hstage => exact .readTest htask hsent hstage
  | readFirst hfirst =>
    cases h with
    | readTest htask hsent hstage => exact .readUnlock htask hsent hstage
  | readOther hother =>
    cases h with
    | readTest htask hsent hstage => exact .readUnlock htask hsent hstage
  | readUnlock =>
    cases h with
    | readUnlock htask hsent hstage =>
      exact .body htask hstage (execute_take_zero _ (hsees trivial))
        (by rw [hsent, List.append_nil]; rfl)
  | @execute task k pc v v' statement lists calls hstatement hnow =>
    cases h with
    | body htask hstage hexecute hsent =>
      have hsame : task.statements (cfg.client t) d.lists =
          task.statements (cfg.client t) p.lists := by
        rcases hsection task k pc v rfl with hread | hwrite
        · rw [hsees hread]
        · exact statements_eq hwrite _ _
      refine .body htask hstage (execute_take_succ hsame hexecute hstatement hnow) ?_
      show Function.update d.sent t (d.sent t ++ calls) t = _
      rw [Function.update_self, hsent, List.append_assoc]
  | endDecr =>
    cases h with
    | endDecr hsent hstage => exact .endTest hsent hstage
  | endLast hlast =>
    cases h with
    | endTest hsent hstage => exact .endUnlock hsent hstage
  | endOther hother =>
    cases h with
    | endTest hsent hstage => exact .endUnlock hsent hstage
  | endUnlock =>
    cases h with
    | endUnlock hsent hstage => exact .answer hsent hstage
  | @answer task k v =>
    cases h with
    | answer hsent hstage =>
      have hnow : p.sent = Function.update d.sent t (d.sent t ++ task.answer (cfg.client t) v) t := by
        rw [Function.update_self, hsent]
      show Keeps cfg t d.lists _ p (task.after k)
      rw [Task.stage] at hstage
      by_cases hends : task.Ends
      · rw [if_pos hends] at hstage
        rw [after_of_ends hends]
        exact .close hnow hstage
      · rw [if_neg hends] at hstage
        rw [after_of_not_ends hends]
        exact .recv hnow hstage

/-- Behind its last statement a section has done its task. -/
theorem perform_of_end {client : Socket} {task : Task} {pc : ℕ} {lists now : Lists} {v : Locals}
    {out : List Call} (hsame : task.statements client now = task.statements client lists)
    (hexecute : execute ((task.statements client lists).take pc) lists .start =
      some (now, v, out))
    (hend : (task.statements client now)[pc]? = none) :
    perform client lists task = some (now, out ++ task.answer client v) := by
  rw [hsame, List.getElem?_eq_none_iff] at hend
  rw [List.take_of_length_le hend] at hexecute
  rw [← execute_statements, hexecute, Option.map_some]

theorem statements_of_noLock {task : Task} (hmode : task.mode = none) (client : Socket)
    (lists : Lists) : task.statements client lists = [] := by
  cases task with
  | welcome => cases hmode
  | hangup => cases hmode
  | request q => cases q <;> first | rfl | cases hmode

theorem not_writes_before {act : ChatAction n} (hacts : Acts s t act s')
    (ht : ¬ (s.loc t).Writes) (hnone : ∀ u, ¬ (s'.loc u).Writes) (u : Fin n) :
    ¬ (s.loc u).Writes := by
  by_cases hu : u = t
  · exact hu ▸ ht
  · have hlater := hnone u
    rw [hacts.loc, Function.update_of_ne hu] at hlater
    exact hlater

/-- The step of the other server for a task, at the end of its section. -/
theorem next_serving {task : Task} {j : ℕ} {now : Lists} {calls : List Call}
    (hstage : a.stage t = .serving j) (htask : task = cfg.task t j)
    (hperform : perform (cfg.client t) a.lists task = some (now, calls)) :
    a.next cfg t = some ({ a with lists := now }.move t calls (task.stage j)) := by
  rw [AtomicState.next, hstage]
  dsimp only
  rw [← htask, hperform, Option.map_some]

/-- The other server follows where a thread commits. -/
theorem SameTasks.commit (h : SameTasks cfg s a) (hreach : (chatThreads cfg).machine.Reachable s)
    {act : ChatAction n} (hact : act ∈ chatCode cfg t (s.loc t) s.data) (hacts : Acts s t act s')
    (hcommits : (s.loc t).commits cfg t s.data = true) :
    ∃ a', a.next cfg t = some a' ∧ SameTasks cfg s' a' := by
  have hkeeps := h.keeps t
  have hsees := not_writes_of_sees hreach hact hacts
  have hsection := fun task k pc v (hbody : s.loc t = .body task k pc v) => mode_of_body hreach hbody
  have hbefore := not_writes_before hacts
  have hstep := fun a' => h.step a' hreach hact hacts
  have hmove : ∀ (lists : Lists) (o : Finset Socket) (calls : List Call) (stage : Stage) (u : Fin n),
      u ≠ t → ({ a with lists := lists, opened := o }.move t calls stage).sent u = a.sent u ∧
        ({ a with lists := lists, opened := o }.move t calls stage).stage u = a.stage u :=
    fun _ _ _ _ u hu => ⟨Function.update_of_ne hu _ _, Function.update_of_ne hu _ _⟩
  have hprogress : ∀ (lists : Lists) (o : Finset Socket) (calls : List Call) (stage : Stage),
      ({ a with lists := lists, opened := o }.move t calls stage).progress t =
        ⟨lists, a.sent t ++ calls, stage⟩ := by
    intro lists o calls stage
    show Progress.mk lists (Function.update a.sent t _ t) (Function.update a.stage t _ t) = _
    rw [Function.update_self, Function.update_self]
  generalize s.loc t = l at hact hcommits hkeeps hsees hsection hbefore hstep
  cases chatStatement_of_mem hact with
  | accept hclient hfree =>
    cases hkeeps with
    | accept hsent hstage =>
      have hsent : a.sent t = s.data.sent t := hsent
      have hstage : a.stage t = .incoming := hstage
      refine ⟨{ a with opened := insert (cfg.client t) a.opened }.move t [] .greeting, ?_,
        hstep _ (congrArg (insert (cfg.client t)) h.opened) (fun hnone => h.lists (hbefore id hnone))
          (hmove _ _ _ _) (Or.inr rfl) ?_⟩
      · rw [AtomicState.next, hstage]
        exact if_pos ⟨hclient, h.opened ▸ hfree⟩
      · rw [hprogress]
        exact .motd (by rw [List.append_nil, hsent]; rfl) rfl
  | motd =>
    cases hkeeps with
    | motd hsent hstage =>
      have hsent : a.sent t = s.data.sent t := hsent
      have hstage : a.stage t = .greeting := hstage
      refine ⟨a.move t [(cfg.client t, serverMOTD)] (.serving 0), ?_,
        hstep _ h.opened (fun hnone => h.lists (hbefore id hnone))
          (hmove _ _ _ _) (Or.inr rfl) ?_⟩
      · rw [AtomicState.next, hstage]
      · rw [hprogress a.lists a.opened]
        refine .start rfl ?_ rfl
        show a.sent t ++ _ = Function.update s.data.sent t (s.data.sent t ++ _) t
        rw [Function.update_self, hsent]
  | @noLock task k hmode =>
    cases hkeeps with
    | start htask hsent hstage =>
      have hsent : a.sent t = s.data.sent t := hsent
      have hstage : a.stage t = .serving (task.turn k) := hstage
      have hperform : perform (cfg.client t) a.lists task =
          some (a.lists, task.answer (cfg.client t) .start) := by
        rw [← execute_statements, statements_of_noLock hmode]
        rfl
      refine ⟨_, next_serving hstage htask hperform, hstep _ h.opened
        (fun hnone => h.lists (hbefore id hnone)) (hmove _ _ _ _) (Or.inr rfl) ?_⟩
      rw [hprogress a.lists a.opened]
      exact .answer (congrArg (· ++ _) hsent) rfl
  | @endRead task k pc v hend hmode =>
    cases hkeeps with
    | @body _ _ _ _ out htask hstage hexecute hsent =>
      have hsent : s.data.sent t = a.sent t ++ out := hsent
      have hstage : a.stage t = .serving (task.turn k) := hstage
      have hlists : a.lists = s.data.lists := h.lists (hsees hmode)
      have hperform := perform_of_end (by rw [← hlists]; rfl) hexecute hend
      refine ⟨_, next_serving hstage htask hperform, hstep _ h.opened (fun _ => rfl)
        (hmove _ _ _ _) (Or.inr hlists.symm) ?_⟩
      rw [hprogress s.data.lists a.opened]
      refine .endDecr ?_ rfl
      show a.sent t ++ (out ++ _) = s.data.sent t ++ _
      rw [hsent, List.append_assoc]
  | @endWrite task k pc v hend hmode =>
    cases hkeeps with
    | @body _ _ _ _ out htask hstage hexecute hsent =>
      have hsent : s.data.sent t = a.sent t ++ out := hsent
      have hstage : a.stage t = .serving (task.turn k) := hstage
      have hwrite : task.mode = some .write := (hsection task k pc v rfl).resolve_left hmode
      have hperform := perform_of_end (statements_eq hwrite _ _) hexecute hend
      refine ⟨_, next_serving hstage htask hperform, hstep _ h.opened (fun _ => rfl)
        (hmove _ _ _ _) (Or.inl hwrite) ?_⟩
      rw [hprogress s.data.lists a.opened]
      refine .answer ?_ rfl
      show a.sent t ++ (out ++ _) = s.data.sent t ++ _
      rw [hsent, List.append_assoc]
  | close =>
    cases hkeeps with
    | close hsent hstage =>
      have hsent : a.sent t = s.data.sent t := hsent
      have hstage : a.stage t = .leaving := hstage
      refine ⟨{ a with opened := a.opened.erase (cfg.client t) }.move t [] .gone, ?_,
        hstep _ (congrArg (Finset.erase · (cfg.client t)) h.opened)
          (fun hnone => h.lists (hbefore id hnone)) (hmove _ _ _ _) (Or.inr rfl) ?_⟩
      · rw [AtomicState.next, hstage]
      · rw [hprogress]
        exact .done (by rw [List.append_nil, hsent]; rfl) rfl
  | recv => cases hcommits
  | startRead hmode => rw [ChatLoc.commits, hmode] at hcommits; cases hcommits
  | startWrite hmode => rw [ChatLoc.commits, hmode] at hcommits; cases hcommits
  | execute hstatement hnow => rw [ChatLoc.commits, hstatement] at hcommits; cases hcommits
  | readIncr => cases hcommits
  | readFirst hfirst => cases hcommits
  | readOther hother => cases hcommits
  | readUnlock => cases hcommits
  | endDecr => cases hcommits
  | endLast hlast => cases hcommits
  | endOther hother => cases hcommits
  | endUnlock => cases hcommits
  | answer => cases hcommits

/-! ### Runs -/

/-- The step of the other server that a statement stands for. -/
def commitOf (cfg : Scenario n) (s : ChatState n) (t : Fin n) : Option (Fin n) :=
  if (s.loc t).commits cfg t s.data then some t else none

theorem commitOf_eq_none (h : commitOf cfg s t = none) : (s.loc t).commits cfg t s.data = false := by
  rw [commitOf] at h
  split at h
  · cases h
  · rename_i hnot
    exact Bool.eq_false_iff.mpr hnot

theorem commitOf_eq_some {u : Fin n} (h : commitOf cfg s t = some u) :
    (s.loc t).commits cfg t s.data = true ∧ u = t := by
  rw [commitOf] at h
  split at h
  · rename_i hcommits
    exact ⟨hcommits, (Option.some.inj h).symm⟩
  · cases h

theorem atomic_simulation (cfg : Scenario n) :
    Machine.Simulation (chatThreads cfg).machine (atomicServer cfg) (commitOf cfg)
      (SameTasks cfg) where
  init := ⟨rfl, fun _ => rfl, fun _ => .accept rfl rfl⟩
  silent s t s' a hreach h hstep hemit := by
    obtain ⟨act, hact, hacts⟩ := Step.acts_of_isEmpty hreach hstep
    have hsilent := commitOf_eq_none hemit
    have hown := (h.keeps t).silent hact hsilent
      (fun hsees => h.lists (not_writes_of_sees hreach hact hacts hsees))
      fun _ _ _ _ => mode_of_body hreach
    refine h.step a hreach hact hacts ?_ (fun hnone => ?_) (fun _ _ => ⟨rfl, rfl⟩) (Or.inr rfl) hown
    · exact h.opened.trans (opened_of_silent hact hsilent).symm
    · have hnext : ¬ act.next.Writes := by
        have hself := hnone t
        rw [hacts.loc, Function.update_self] at hself
        exact hself
      obtain ⟨hwrites, hlists⟩ := lists_of_silent hact hsilent hnext
      exact (h.lists (not_writes_before hacts hwrites hnone)).trans hlists.symm
  matched s t s' a u hreach h hstep hemit := by
    obtain ⟨act, hact, hacts⟩ := Step.acts_of_isEmpty hreach hstep
    obtain ⟨hcommits, rfl⟩ := commitOf_eq_some hemit
    exact h.commit hreach hact hacts hcommits

/-- No call of the thread is still to come for what the other server has done. -/
def ChatLoc.Settled : ChatLoc → Prop
  | .body _ _ _ _ | .endDecr _ _ _ | .endTest _ _ _ | .endUnlock _ _ _ | .answer _ _ _ => False
  | _ => True

theorem Keeps.sent_eq {lists : Lists} {sent : List Call} {p : Progress} {l : ChatLoc}
    (h : Keeps cfg t lists sent p l) (hl : l.Settled) : sent = p.sent := by
  cases h with
  | body htask hstage hexecute hsent => exact hl.elim
  | endDecr hsent hstage => exact hl.elim
  | endTest hsent hstage => exact hl.elim
  | endUnlock hsent hstage => exact hl.elim
  | answer hsent hstage => exact hl.elim
  | _ => exact Eq.symm (by assumption)

end OsLabs.Chat
