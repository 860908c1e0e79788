import OsLabs.Chat.Broadcast
import OsLabs.Chat.Listing
import OsLabs.Chat.ReadersWriters

/-!
# Chat server: the statements of a session

What `client_receive` does between a lock and the unlock that belongs to it, one statement after
another on the lists and its local variables, and what it answers.  Executed without interruption
the statements are the functions of the lists that the sessions are made of.
-/

namespace OsLabs.Chat

open OsLabs.Lib

/-- A call `safe_send(socket, buf)`. -/
abbrev Call := Socket × CString

/-- A message that `recv` delivered: its tokens and its text. -/
structure Received where
  arguments : List CString
  sbuffer : CString
  deriving DecidableEq, Repr

/-! ### Requests -/

/-- The branches of `client_receive` for a message. -/
inductive Request
  | create (roomname : CString)
  | join (roomname : CString)
  | leave (roomname : CString)
  | connect (username : CString)
  | disconnect (username : CString)
  | rooms
  | users
  | login (username : CString)
  | help
  | exit
  /-- Not a command. -/
  | say (sbuffer : CString)
  /-- `if (!arguments[0])` -/
  | empty
  deriving DecidableEq, Repr

/-- The tests on the tokens, in their order. -/
def requestOf (m : Received) : Request :=
  if m.arguments[0]? = none then .empty
  else if let some room := argumentOf "create" m.arguments then .create room
  else if let some room := argumentOf "join" m.arguments then .join room
  else if let some room := argumentOf "leave" m.arguments then .leave room
  else if let some user := argumentOf "connect" m.arguments then .connect user
  else if let some user := argumentOf "disconnect" m.arguments then .disconnect user
  else if m.arguments[0]? = some "rooms".toList then .rooms
  else if m.arguments[0]? = some "users".toList then .users
  else if let some name := argumentOf "login" m.arguments then .login name
  else if m.arguments[0]? = some "help".toList then .help
  else if m.arguments[0]? = some "exit".toList ∨ m.arguments[0]? = some "logout".toList then .exit
  else .say m.sbuffer

/-- What a request is for the lists. -/
def Request.command : Request → Command
  | create room => .create room
  | join room => .join room
  | leave room => .leave room
  | connect name => .connect name
  | disconnect name => .disconnect name
  | login name => .login name
  | exit => .exit
  | rooms | users | help | say _ | empty => .other

theorem parseCommand_eq (m : Received) : parseCommand m.arguments = (requestOf m).command := by
  rw [requestOf]
  by_cases hempty : m.arguments[0]? = none
  · have hnil : m.arguments = [] := by simpa using hempty
    rw [if_pos hempty, hnil]
    rfl
  · rw [if_neg hempty, parseCommand]
    rcases argumentOf "create" m.arguments with _ | room
    on_goal 2 => rfl
    rcases argumentOf "join" m.arguments with _ | room
    on_goal 2 => rfl
    rcases argumentOf "leave" m.arguments with _ | room
    on_goal 2 => rfl
    rcases argumentOf "connect" m.arguments with _ | user
    on_goal 2 => rfl
    rcases argumentOf "disconnect" m.arguments with _ | user
    on_goal 2 => rfl
    dsimp only
    by_cases hrooms : m.arguments[0]? = some "rooms".toList
    · rw [if_pos hrooms, if_pos hrooms]
      rfl
    rw [if_neg hrooms, if_neg hrooms]
    by_cases husers : m.arguments[0]? = some "users".toList
    · rw [if_pos husers, if_pos husers]
      rfl
    rw [if_neg husers, if_neg husers]
    rcases argumentOf "login" m.arguments with _ | name
    on_goal 2 => rfl
    dsimp only
    by_cases hhelp : m.arguments[0]? = some "help".toList
    · rw [if_pos hhelp, if_pos hhelp]
      rfl
    rw [if_neg hhelp, if_neg hhelp]
    split <;> rfl

/-- What a thread does for its client. -/
inductive Task
  /-- Before the loop. -/
  | welcome
  /-- `recv` returned no data. -/
  | hangup
  | request (q : Request)
  deriving DecidableEq, Repr

/-- The lock that the task takes, if it takes one. -/
def Task.mode : Task → Option Section
  | .welcome | .hangup => some .write
  | .request q =>
    match q with
    | .rooms | .users | .say _ => some .read
    | .help | .empty => none
    | .create _ | .join _ | .leave _ | .connect _ | .disconnect _ | .login _ | .exit => some .write

/-! ### Statements -/

/-- The local variables: the node `u`, `from` or `sender`, the node `to`, the status `r` and the
buffer `out`. -/
structure Locals where
  node : Option UserNode
  toNode : Option UserNode
  r : ℤ
  out : CString
  deriving DecidableEq, Repr

def Locals.start : Locals := ⟨none, none, 0, []⟩

/-- A statement gives the lists, the local variables and its calls of `safe_send`.  `none` is the
dereference of a `NULL` node. -/
abbrev Statement := Lists → Locals → Option (Lists × Locals × List Call)

/-- The removals at the end of a session, `if (u)`. -/
def endSession (client : Socket) : List Statement :=
  [fun lists v => match v.node with
      | some u => some ({ lists with rooms := removeUserFromAllRooms lists.rooms u }, v, [])
      | none => some (lists, v, []),
    fun lists v => match v.node with
      | some u => some ({ lists with users := removeAllDmsForUser lists.users u }, v, [])
      | none => some (lists, v, []),
    fun lists v => match v.node with
      | some _ => some ({ lists with users := removeUserBySocket lists.users client }, v, [])
      | none => some (lists, v, [])]

/-- The two lookups of `connect` and `disconnect`, and the change of the `dm` lists `if (to)`. -/
def dmStatements (change : List UserNode → Socket → Socket → List UserNode × ℤ) (client : Socket)
    (name : CString) : List Statement :=
  [fun lists v => some (lists, { v with toNode := findU lists.users name }, []),
    fun lists v => some (lists, { v with node := findSocketNode lists.users client }, []),
    fun lists v => match v.toNode, v.node with
      | none, _ => some (lists, v, [])
      | some _, none => none
      | some toNode, some fromNode =>
        some ({ lists with users := (change lists.users fromNode.socket toNode.socket).1 }, v, [])]

/-- The statements of a request inside its critical section; the loop of a broadcast has one for
each node that it visits. -/
def Request.statements (client : Socket) (lists : Lists) : Request → List Statement
  | .create room =>
    [fun lists v => some ({ lists with rooms := createRoom lists.rooms room }, v, [])]
  | .join room =>
    [fun lists v =>
      some ({ lists with rooms := (addUserToRoom lists.rooms client room).1 }, v, [])]
  | .leave room =>
    [fun lists v =>
      let left := removeUserFromRoom lists.rooms client room
      some ({ lists with rooms := left.1 }, { v with r := left.2 }, [])]
  | .connect name => dmStatements addDmConnectionSocket client name
  | .disconnect name => dmStatements removeDmConnectionSocket client name
  | .rooms =>
    [fun lists v => some (lists, { v with out := listRoomsToBuffer lists.rooms 4096 }, [])]
  | .users =>
    [fun lists v => some (lists, { v with out := listUsersToBuffer lists.users 4096 }, [])]
  | .login name =>
    [fun lists v => some (lists, { v with node := findSocketNode lists.users client }, []),
      fun lists v => match v.node with
        | some _ => some ({ lists with users := updateSocketNode lists.users client fun u =>
            { u with username := strncpy 30 name } }, v, [])
        | none => some (lists, v, [])]
  | .exit =>
    (fun lists v => some (lists, { v with node := findSocketNode lists.users client }, [])) ::
      endSession client
  | .say sbuffer =>
    (fun lists v =>
      let sender := findSocketNode lists.users client
      some (lists, { v with node := sender, out := broadcastText sender client sbuffer }, [])) ::
      lists.users.map fun iter lists v =>
        some (lists, v, broadcastStep lists client v.node v.out [] iter)
  | .help | .empty => []

def Task.statements (client : Socket) (lists : Lists) : Task → List Statement
  | .welcome =>
    [fun lists v => some ({ lists with
        users := insertFirstU lists.users client (guestName client) }, v, []),
      fun lists v => some ({ lists with rooms := createRoom lists.rooms defaultRoom }, v, []),
      fun lists v =>
        some ({ lists with rooms := (addUserToRoom lists.rooms client defaultRoom).1 }, v, [])]
  | .hangup =>
    (fun lists v =>
      some (lists, { v with node := findU lists.users (guestName client) }, [])) ::
      endSession client
  | .request q => q.statements client lists

/-- `snprintf(buffer, sizeof(buffer), ..)` with a name in quotes. -/
def quoted (before name after : CString) : CString := strncpy MAXBUFF (before ++ name ++ after)

def helpText : CString := strncpy MAXBUFF
  ("login <username> - \"login with username\" \ncreate <room> - \"create a room\" \njoin <room> - \"join a room\" \nleave <room> - \"leave a room\" \nusers - \"list all users\" \nrooms -  \"list all rooms\" \nconnect <user> - \"connect to user\" \nexit - \"exit chat\"\nchat>").toList

/-- The answer of a request, after its critical section. -/
def Request.reply (v : Locals) : Request → Option CString
  | .create room => some (quoted "Room '".toList room "' created\nchat>".toList)
  | .join room => some (quoted "Joined room '".toList room "'\nchat>".toList)
  | .leave room =>
    if v.r = 0 then some (quoted "Left room '".toList room "'\nchat>".toList)
    else some (quoted "Not a member of room '".toList room "'\nchat>".toList)
  | .connect name =>
    match v.toNode with
    | none => some (quoted "User '".toList name "' not found\nchat>".toList)
    | some _ => some (quoted "Connected to user '".toList name "'\nchat>".toList)
  | .disconnect name =>
    match v.toNode with
    | none => some (quoted "User '".toList name "' not found\nchat>".toList)
    | some _ => some (quoted "Disconnected from user '".toList name "'\nchat>".toList)
  | .rooms | .users => some (strncat v.out "chat>".toList (spaceLeft 4096 v.out 1))
  | .login name => some (quoted "Logged in as '".toList name "'\nchat>".toList)
  | .help => some helpText
  | .exit | .say _ => none
  | .empty => some "\nchat>".toList

/-- The calls of `safe_send` after the critical section. -/
def Task.answer (client : Socket) (v : Locals) : Task → List Call
  | .welcome | .hangup => []
  | .request q => ((q.reply v).map fun text => (client, text)).toList

/-! ### Without interruption -/

/-- The statements one after another, with all their calls. -/
def execute : List Statement → Lists → Locals → Option (Lists × Locals × List Call)
  | [], lists, v => some (lists, v, [])
  | statement :: rest, lists, v =>
    (statement lists v).bind fun now =>
      (execute rest now.1 now.2.1).map fun last => (last.1, last.2.1, now.2.2 ++ last.2.2)

theorem execute_append (before after : List Statement) (lists : Lists) (v : Locals) :
    execute (before ++ after) lists v =
      (execute before lists v).bind fun now =>
        (execute after now.1 now.2.1).map fun last => (last.1, last.2.1, now.2.2 ++ last.2.2) := by
  induction before generalizing lists v with
  | nil =>
    rw [List.nil_append, execute]
    simp only [Option.bind_some, List.nil_append]
    cases execute after lists v <;> rfl
  | cons first before ih =>
    rw [List.cons_append, execute, execute, Option.bind_assoc]
    refine Option.bind_congr fun now _ => ?_
    rw [ih]
    cases execute before now.1 now.2.1 with
    | none => rfl
    | some middle =>
      simp only [Option.bind_some, Option.map_some, Option.map_map]
      refine congrArg (fun f => Option.map f _) (funext fun last => ?_)
      simp only [Function.comp_apply, List.append_assoc]

theorem execute_singleton (statement : Statement) (lists : Lists) (v : Locals) :
    execute [statement] lists v = statement lists v := by
  rw [execute]
  simp only [execute, Option.map_some, List.append_nil]
  exact Option.bind_fun_some (statement lists v)

/-- What a request answers when the lists are as given. -/
def Request.calls (client : Socket) (lists : Lists) : Request → List Call
  | .leave room =>
    let r := (removeUserFromRoom lists.rooms client room).2
    Task.answer client { Locals.start with r := r } (.request (.leave room))
  | .connect name =>
    Task.answer client { Locals.start with toNode := findU lists.users name }
      (.request (.connect name))
  | .disconnect name =>
    Task.answer client { Locals.start with toNode := findU lists.users name }
      (.request (.disconnect name))
  | .rooms =>
    Task.answer client { Locals.start with out := listRoomsToBuffer lists.rooms 4096 }
      (.request .rooms)
  | .users =>
    Task.answer client { Locals.start with out := listUsersToBuffer lists.users 4096 }
      (.request .users)
  | .say sbuffer => broadcast lists client sbuffer
  | q => Task.answer client Locals.start (.request q)

/-- A task on the lists at one moment: the new lists and the calls of `safe_send`. -/
def perform (client : Socket) (lists : Lists) : Task → Option (Lists × List Call)
  | .welcome => some (welcome client lists, [])
  | .hangup => some (disconnected client lists, [])
  | .request q => (serve client q.command lists).map fun lists' => (lists', q.calls client lists)

/-- What both ends of a session do with the node that they found. -/
theorem execute_endSession (client : Socket) (lists : Lists) (v : Locals) :
    execute (endSession client) lists v =
      some (match v.node with
        | some u => cleanup client u lists
        | none => lists, v, []) := by
  unfold endSession
  cases hnode : v.node with
  | none => simp only [execute, hnode, Option.bind_some, Option.map_some, List.append_nil]
  | some u =>
    simp only [execute, hnode, Option.bind_some, Option.map_some, List.append_nil]
    rfl

/-- The loop of a broadcast over the nodes that are left. -/
theorem execute_broadcast (client : Socket) (lists : Lists) (v : Locals) (users : List UserNode) :
    execute (users.map fun iter lists v =>
        some (lists, v, broadcastStep lists client v.node v.out [] iter)) lists v =
      some (lists, v, users.foldl (broadcastStep lists client v.node v.out) []) := by
  induction users with
  | nil => rfl
  | cons iter users ih =>
    rw [List.map_cons, execute, Option.bind_some, ih, List.foldl_cons, foldl_broadcastStep,
      foldl_broadcastStep, List.nil_append]
    rfl

theorem execute_dmStatements
    (change : List UserNode → Socket → Socket → List UserNode × ℤ) (client : Socket)
    (name : CString) (lists : Lists) :
    execute (dmStatements change client name) lists .start =
      match findU lists.users name, findSocketNode lists.users client with
      | none, node => some (lists, { Locals.start with node := node }, [])
      | some _, none => none
      | some toNode, some fromNode =>
        some ({ lists with users := (change lists.users fromNode.socket toNode.socket).1 },
          { Locals.start with toNode := some toNode, node := some fromNode }, []) := by
  unfold dmStatements
  simp only [execute, Option.bind_some, Option.map_map]
  cases findU lists.users name <;> cases findSocketNode lists.users client <;> rfl

/-- **Tasks.**  The statements of a task, executed without interruption, and its answer are the
task on the lists at one moment. -/
theorem execute_statements (client : Socket) (lists : Lists) (task : Task) :
    (execute (task.statements client lists) lists .start).map
        (fun last => (last.1, last.2.2 ++ task.answer client last.2.1)) =
      perform client lists task := by
  cases task with
  | welcome => rfl
  | hangup =>
    show (execute (_ :: endSession client) lists .start).map _ = some (disconnected client lists, [])
    rw [execute, Option.bind_some, execute_endSession, disconnected]
    cases findU lists.users (guestName client) <;> rfl
  | request q =>
    cases q with
    | connect name =>
      show (execute (dmStatements _ client name) lists .start).map _ = _
      rw [execute_dmStatements, perform]
      show _ = (serve client (.connect name) lists).map fun lists' =>
        (lists', Request.calls client lists (.connect name))
      rw [serve, Request.calls]
      cases findU lists.users name <;> cases findSocketNode lists.users client <;> rfl
    | disconnect name =>
      show (execute (dmStatements _ client name) lists .start).map _ = _
      rw [execute_dmStatements, perform]
      show _ = (serve client (.disconnect name) lists).map fun lists' =>
        (lists', Request.calls client lists (.disconnect name))
      rw [serve, Request.calls]
      cases findU lists.users name <;> cases findSocketNode lists.users client <;> rfl
    | exit =>
      show (execute (_ :: endSession client) lists .start).map _ = some (exited client lists, [])
      rw [execute, Option.bind_some, execute_endSession, exited]
      cases findSocketNode lists.users client <;> rfl
    | login name =>
      show (execute [_, _] lists .start).map _ = some (_, _)
      simp only [execute, Option.bind_some]
      cases hnode : findSocketNode lists.users client with
      | none =>
        rw [updateSocketNode, updateFirst_of_find?_eq_none hnode]
        rfl
      | some u => rfl
    | say sbuffer =>
      show (execute (_ :: _) lists .start).map _ = some (lists, broadcast lists client sbuffer)
      rw [execute, Option.bind_some, execute_broadcast]
      show some (lists, [] ++ List.foldl _ [] _ ++ []) = _
      rw [List.nil_append, List.append_nil]
      rfl
    | _ => rfl

/-! ### Reading and writing -/

/-- The statements of a task that does not take the lock for writing leave the lists alone. -/
theorem statement_keeps {client : Socket} {lists lists₀ : Lists} {task : Task}
    (hmode : task.mode ≠ some .write) {statement : Statement}
    (hmem : statement ∈ task.statements client lists₀) {v : Locals}
    {last : Lists × Locals × List Call} (h : statement lists v = some last) : last.1 = lists := by
  cases task with
  | welcome => exact absurd rfl hmode
  | hangup => exact absurd rfl hmode
  | request q =>
    cases q with
    | rooms | users =>
      obtain rfl := List.mem_singleton.mp hmem
      obtain rfl := Option.some.inj h
      rfl
    | say sbuffer =>
      rcases List.mem_cons.mp hmem with rfl | hloop
      · obtain rfl := Option.some.inj h
        rfl
      · obtain ⟨iter, -, rfl⟩ := List.mem_map.mp hloop
        obtain rfl := Option.some.inj h
        rfl
    | help | empty => cases hmem
    | _ => exact absurd rfl hmode

/-- The statements of a task that takes the lock for writing do not depend on the lists. -/
theorem statements_eq {client : Socket} {task : Task} (hmode : task.mode = some .write)
    (lists lists' : Lists) : task.statements client lists = task.statements client lists' := by
  cases task with
  | welcome => rfl
  | hangup => rfl
  | request q =>
    cases q with
    | say sbuffer => cases hmode
    | _ => rfl

end OsLabs.Chat
