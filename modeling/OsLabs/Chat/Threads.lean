import OsLabs.Chat.Statements

/-!
# Chat server: the threads

`client_receive` as a program over the two locks, one statement a step, with `start_read` and its
companions in place.  `main` accepts a connection and starts the thread; what a client sends
arrives in any order of steps, with its tokens ready made: `strtok` cuts the messages in the threads
of `MessageThreads`, which are these as long as no two of them cut at the same time.  A node that a
local variable points to is a copy of it, and the pointer of a loop over the users is a position in
the list: while a section runs, the nodes stay where they are, which is what the locks are for.
-/

namespace OsLabs.Chat

open OsLabs.Lib OsLabs.Lib.Monitor

variable {n : ℕ}

/-- The descriptor of each connection, and what its thread finds behind each call of `recv`; no
data is `none`. -/
structure Scenario (n : ℕ) where
  client : Fin n → Socket
  inbox : Fin n → ℕ → Option Received

/-- The globals of the server, the descriptors that are open and the calls of `safe_send` of each
thread. -/
structure ChatShared (n : ℕ) where
  numReaders : ℤ
  lists : Lists
  opened : Finset Socket
  sent : Fin n → List Call

def ChatShared.send (d : ChatShared n) (t : Fin n) (calls : List Call) : ChatShared n :=
  { d with sent := Function.update d.sent t (d.sent t ++ calls) }

/-- The next statement of a thread; `k` counts the calls of `recv`. -/
inductive ChatLoc
  /-- `accept_client` in `main`. -/
  | accept
  /-- `safe_send(client, server_MOTD)` -/
  | motd
  | recv (k : ℕ)
  /-- The first lock of `start_read` or `start_write`, or the answer of a task without a lock. -/
  | start (task : Task) (k : ℕ)
  | readIncr (task : Task) (k : ℕ)
  | readTest (task : Task) (k : ℕ)
  | readUnlock (task : Task) (k : ℕ)
  /-- Inside the critical section, up to the lock of `end_read` or the unlock of `end_write`. -/
  | body (task : Task) (k pc : ℕ) (v : Locals)
  | endDecr (task : Task) (k : ℕ) (v : Locals)
  | endTest (task : Task) (k : ℕ) (v : Locals)
  | endUnlock (task : Task) (k : ℕ) (v : Locals)
  | answer (task : Task) (k : ℕ) (v : Locals)
  | close
  | done
  deriving DecidableEq

abbrev ChatAction (n : ℕ) := Action RwMutex Empty (ChatShared n) ChatLoc

def serverMOTD : CString := "Thanks for connecting to the BisonChat Server.\n\nchat>".toList

/-- Where the thread goes on behind a task. -/
def Task.after (k : ℕ) : Task → ChatLoc
  | .welcome => .recv 0
  | .hangup | .request .exit => .close
  | .request _ => .recv (k + 1)

/-- The branch for what `recv` returned. -/
def taskOf : Option Received → Task
  | none => .hangup
  | some m => .request (requestOf m)

def chatCode (cfg : Scenario n) (t : Fin n) : ChatLoc → ChatShared n → List (ChatAction n)
  | .accept, d =>
    if cfg.client t ≠ -1 ∧ cfg.client t ∉ d.opened then
      [.exec { d with opened := insert (cfg.client t) d.opened } .motd]
    else []
  | .motd, d => [.exec (d.send t [(cfg.client t, serverMOTD)]) (.start .welcome 0)]
  | .recv k, d => [.exec d (.start (taskOf (cfg.inbox t k)) k)]
  | .start task k, d =>
    match task.mode with
    | none => [.exec d (.answer task k .start)]
    | some .read => [.lock .mutex (.readIncr task k)]
    | some .write => [.lock .rwLock (.body task k 0 .start)]
  | .readIncr task k, d =>
    [.exec { d with numReaders := d.numReaders + 1 } (.readTest task k)]
  | .readTest task k, d =>
    if d.numReaders = 1 then [.lock .rwLock (.readUnlock task k)]
    else [.exec d (.readUnlock task k)]
  | .readUnlock task k, _ => [.unlock .mutex (.body task k 0 .start)]
  | .body task k pc v, d =>
    match (task.statements (cfg.client t) d.lists)[pc]? with
    | some statement =>
      match statement d.lists v with
      | some (lists, v, calls) =>
        [.exec ({ d with lists := lists }.send t calls) (.body task k (pc + 1) v)]
      | none => []
    | none =>
      if task.mode = some .read then [.lock .mutex (.endDecr task k v)]
      else [.unlock .rwLock (.answer task k v)]
  | .endDecr task k v, d =>
    [.exec { d with numReaders := d.numReaders - 1 } (.endTest task k v)]
  | .endTest task k v, d =>
    if d.numReaders = 0 then [.unlock .rwLock (.endUnlock task k v)]
    else [.exec d (.endUnlock task k v)]
  | .endUnlock task k v, _ => [.unlock .mutex (.answer task k v)]
  | .answer task k v, d => [.exec (d.send t (task.answer (cfg.client t) v)) (task.after k)]
  | .close, d => [.exec { d with opened := d.opened.erase (cfg.client t) } .done]
  | .done, _ => []

/-- The server after `init_default_room`, with the connections to come. -/
def chatThreads (cfg : Scenario n) :
    Program (Fin n) RwMutex Empty (ChatShared n) fun _ => ChatLoc where
  start _ := .accept
  data := ⟨0, ⟨[], createRoom [] defaultRoom⟩, ∅, fun _ => []⟩
  code := chatCode cfg
  spurious := false

abbrev ChatState (n : ℕ) := State (Fin n) RwMutex Empty (ChatShared n) fun _ => ChatLoc

/-! ### What each statement does -/

/-- The statements of a thread, by location. -/
inductive ChatStatement (cfg : Scenario n) (t : Fin n) (d : ChatShared n) :
    ChatLoc → ChatAction n → Prop
  | accept : cfg.client t ≠ -1 → cfg.client t ∉ d.opened →
      ChatStatement cfg t d .accept
        (.exec { d with opened := insert (cfg.client t) d.opened } .motd)
  | motd : ChatStatement cfg t d .motd
      (.exec (d.send t [(cfg.client t, serverMOTD)]) (.start .welcome 0))
  | recv {k : ℕ} : ChatStatement cfg t d (.recv k)
      (.exec d (.start (taskOf (cfg.inbox t k)) k))
  | noLock {task : Task} {k : ℕ} : task.mode = none →
      ChatStatement cfg t d (.start task k) (.exec d (.answer task k .start))
  | startRead {task : Task} {k : ℕ} : task.mode = some .read →
      ChatStatement cfg t d (.start task k) (.lock .mutex (.readIncr task k))
  | startWrite {task : Task} {k : ℕ} : task.mode = some .write →
      ChatStatement cfg t d (.start task k) (.lock .rwLock (.body task k 0 .start))
  | readIncr {task : Task} {k : ℕ} : ChatStatement cfg t d (.readIncr task k)
      (.exec { d with numReaders := d.numReaders + 1 } (.readTest task k))
  | readFirst {task : Task} {k : ℕ} : d.numReaders = 1 →
      ChatStatement cfg t d (.readTest task k) (.lock .rwLock (.readUnlock task k))
  | readOther {task : Task} {k : ℕ} : d.numReaders ≠ 1 →
      ChatStatement cfg t d (.readTest task k) (.exec d (.readUnlock task k))
  | readUnlock {task : Task} {k : ℕ} :
      ChatStatement cfg t d (.readUnlock task k) (.unlock .mutex (.body task k 0 .start))
  | execute {task : Task} {k pc : ℕ} {v v' : Locals} {statement : Statement} {lists : Lists}
      {calls : List Call} :
      (task.statements (cfg.client t) d.lists)[pc]? = some statement →
      statement d.lists v = some (lists, v', calls) →
      ChatStatement cfg t d (.body task k pc v)
        (.exec ({ d with lists := lists }.send t calls) (.body task k (pc + 1) v'))
  | endRead {task : Task} {k pc : ℕ} {v : Locals} :
      (task.statements (cfg.client t) d.lists)[pc]? = none → task.mode = some .read →
      ChatStatement cfg t d (.body task k pc v) (.lock .mutex (.endDecr task k v))
  | endWrite {task : Task} {k pc : ℕ} {v : Locals} :
      (task.statements (cfg.client t) d.lists)[pc]? = none → task.mode ≠ some .read →
      ChatStatement cfg t d (.body task k pc v) (.unlock .rwLock (.answer task k v))
  | endDecr {task : Task} {k : ℕ} {v : Locals} : ChatStatement cfg t d (.endDecr task k v)
      (.exec { d with numReaders := d.numReaders - 1 } (.endTest task k v))
  | endLast {task : Task} {k : ℕ} {v : Locals} : d.numReaders = 0 →
      ChatStatement cfg t d (.endTest task k v) (.unlock .rwLock (.endUnlock task k v))
  | endOther {task : Task} {k : ℕ} {v : Locals} : d.numReaders ≠ 0 →
      ChatStatement cfg t d (.endTest task k v) (.exec d (.endUnlock task k v))
  | endUnlock {task : Task} {k : ℕ} {v : Locals} :
      ChatStatement cfg t d (.endUnlock task k v) (.unlock .mutex (.answer task k v))
  | answer {task : Task} {k : ℕ} {v : Locals} : ChatStatement cfg t d (.answer task k v)
      (.exec (d.send t (task.answer (cfg.client t) v)) (task.after k))
  | close : ChatStatement cfg t d .close
      (.exec { d with opened := d.opened.erase (cfg.client t) } .done)

theorem chatStatement_of_mem {cfg : Scenario n} {t : Fin n} {l : ChatLoc} {d : ChatShared n}
    {a : ChatAction n} (ha : a ∈ chatCode cfg t l d) : ChatStatement cfg t d l a := by
  cases l with
  | accept =>
    rw [chatCode] at ha
    split at ha
    · rename_i hfree
      obtain rfl := List.mem_singleton.mp ha
      exact .accept hfree.1 hfree.2
    · cases ha
  | start task k =>
    rw [chatCode] at ha
    split at ha
    · rename_i hmode
      obtain rfl := List.mem_singleton.mp ha
      exact .noLock hmode
    · rename_i hmode
      obtain rfl := List.mem_singleton.mp ha
      exact .startRead hmode
    · rename_i hmode
      obtain rfl := List.mem_singleton.mp ha
      exact .startWrite hmode
  | readTest task k =>
    rw [chatCode] at ha
    split at ha
    · rename_i hfirst
      obtain rfl := List.mem_singleton.mp ha
      exact .readFirst hfirst
    · rename_i hother
      obtain rfl := List.mem_singleton.mp ha
      exact .readOther hother
  | body task k pc v =>
    rw [chatCode] at ha
    split at ha
    · rename_i statement hstatement
      split at ha
      · rename_i lists v' calls hnow
        obtain rfl := List.mem_singleton.mp ha
        exact .execute hstatement hnow
      · cases ha
    · rename_i hend
      split at ha
      · rename_i hmode
        obtain rfl := List.mem_singleton.mp ha
        exact .endRead hend hmode
      · rename_i hmode
        obtain rfl := List.mem_singleton.mp ha
        exact .endWrite hend hmode
  | endTest task k v =>
    rw [chatCode] at ha
    split at ha
    · rename_i hlast
      obtain rfl := List.mem_singleton.mp ha
      exact .endLast hlast
    · rename_i hother
      obtain rfl := List.mem_singleton.mp ha
      exact .endOther hother
  | done => cases ha
  | _ =>
    obtain rfl := List.mem_singleton.mp ha
    constructor

end OsLabs.Chat
