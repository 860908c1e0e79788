import OsLabs.Chat.List
import OsLabs.Lib.Decimal
import OsLabs.Lib.Transition

/-!
# Chat server: sessions

`client_receive` as a machine over all sessions.  Each critical section is one step; commands
arrive as the tokens of a message.  A descriptor is accepted when it is not open, its thread
then inserts the guest user, serves commands, and ends on `exit` or when `recv` returns no
data; `close` makes the descriptor free for another client.
-/

namespace OsLabs.Chat

open OsLabs.Lib

/-- The lists that the sessions share, `head` and `room_head`. -/
structure Lists where
  users : List UserNode
  rooms : List RoomNode
  deriving DecidableEq, Repr

/-- `snprintf(username, sizeof(username), "guest%d", client)`. -/
def guestName (client : Socket) : CString := "guest".toList ++ decimal client.toInt

def defaultRoom : CString := "Lobby".toList

/-- The critical section at the start of a session. -/
def welcome (client : Socket) (lists : Lists) : Lists where
  users := insertFirstU lists.users client (guestName client)
  rooms := (addUserToRoom (createRoom lists.rooms defaultRoom) client defaultRoom).1

/-- The removals that both ends of a session make for the user node that they found. -/
def cleanup (client : Socket) (u : UserNode) (lists : Lists) : Lists where
  users := removeUserBySocket (removeAllDmsForUser lists.users u) client
  rooms := removeUserFromAllRooms lists.rooms u

/-- The critical section after `recv` returned no data. -/
def disconnected (client : Socket) (lists : Lists) : Lists :=
  match findU lists.users (guestName client) with
  | some u => cleanup client u lists
  | none => lists

/-- The critical section of the `exit` command. -/
def exited (client : Socket) (lists : Lists) : Lists :=
  match findSocketNode lists.users client with
  | some u => cleanup client u lists
  | none => lists

/-! ### Commands -/

inductive Command
  | create (roomname : CString)
  | join (roomname : CString)
  | leave (roomname : CString)
  | connect (username : CString)
  | disconnect (username : CString)
  | login (username : CString)
  | exit
  /-- An empty message, a listing or a message to the other clients. -/
  | other
  deriving DecidableEq, Repr

/-- `arguments[1]`, if `arguments[0]` is the given command. -/
def argumentOf (command : String) (arguments : List CString) : Option CString :=
  if arguments[0]? = some command.toList then arguments[1]? else none

/-- The tests of `client_receive` on the tokens of a message, in their order. -/
def parseCommand (arguments : List CString) : Command :=
  if let some room := argumentOf "create" arguments then .create room
  else if let some room := argumentOf "join" arguments then .join room
  else if let some room := argumentOf "leave" arguments then .leave room
  else if let some user := argumentOf "connect" arguments then .connect user
  else if let some user := argumentOf "disconnect" arguments then .disconnect user
  else if arguments[0]? = some "rooms".toList then .other
  else if arguments[0]? = some "users".toList then .other
  else if let some name := argumentOf "login" arguments then .login name
  else if arguments[0]? = some "help".toList then .other
  else if arguments[0]? = some "exit".toList ∨ arguments[0]? = some "logout".toList then .exit
  else .other

/-- The critical section of a command.  `none` is the dereference of a `NULL` node. -/
def serve (client : Socket) (command : Command) (lists : Lists) : Option Lists :=
  match command with
  | .create room => some { lists with rooms := createRoom lists.rooms room }
  | .join room => some { lists with rooms := (addUserToRoom lists.rooms client room).1 }
  | .leave room => some { lists with rooms := (removeUserFromRoom lists.rooms client room).1 }
  | .connect name =>
    match findU lists.users name, findSocketNode lists.users client with
    | none, _ => some lists
    | some _, none => none
    | some toNode, some fromNode =>
      some { lists with users := (addDmConnectionSocket lists.users fromNode.socket toNode.socket).1 }
  | .disconnect name =>
    match findU lists.users name, findSocketNode lists.users client with
    | none, _ => some lists
    | some _, none => none
    | some toNode, some fromNode =>
      some { lists with
        users := (removeDmConnectionSocket lists.users fromNode.socket toNode.socket).1 }
  | .login name =>
    some { lists with users := updateSocketNode lists.users client fun u =>
      { u with username := strncpy 30 name } }
  | .exit => some (exited client lists)
  | .other => some lists

section
variable {lists lists' : Lists} {client : Socket} {name : CString}

/-- `connect` does nothing, or adds an entry to the two nodes that it finds. -/
theorem serve_connect_cases (h : serve client (.connect name) lists = some lists') :
    findU lists.users name = none ∧ lists' = lists ∨
      ∃ toNode fromNode, findU lists.users name = some toNode ∧
        findSocketNode lists.users client = some fromNode ∧ lists' = { lists with
          users := (addDmConnectionSocket lists.users fromNode.socket toNode.socket).1 } := by
  rw [serve] at h
  split at h
  · rename_i hnone
    exact Or.inl ⟨hnone, (Option.some.inj h).symm⟩
  · cases h
  · rename_i toNode fromNode hto hfrom
    exact Or.inr ⟨toNode, fromNode, hto, hfrom, (Option.some.inj h).symm⟩

/-- `disconnect` does nothing, or removes an entry from the two nodes that it finds. -/
theorem serve_disconnect_cases (h : serve client (.disconnect name) lists = some lists') :
    findU lists.users name = none ∧ lists' = lists ∨
      ∃ toNode fromNode, findU lists.users name = some toNode ∧
        findSocketNode lists.users client = some fromNode ∧ lists' = { lists with
          users := (removeDmConnectionSocket lists.users fromNode.socket toNode.socket).1 } := by
  rw [serve] at h
  split at h
  · rename_i hnone
    exact Or.inl ⟨hnone, (Option.some.inj h).symm⟩
  · cases h
  · rename_i toNode fromNode hto hfrom
    exact Or.inr ⟨toNode, fromNode, hto, hfrom, (Option.some.inj h).symm⟩

end

/-! ### Sessions -/

/-- Where the thread of a descriptor is. -/
inductive Phase
  /-- The descriptor is not open. -/
  | closed
  | accepted
  /-- In the receive loop. -/
  | live
  /-- After the loop, before `close`. -/
  | ended
  deriving DecidableEq, Repr

structure Server where
  lists : Lists
  phase : Socket → Phase

inductive Event
  | accept (client : Socket)
  | welcome (client : Socket)
  | message (client : Socket) (arguments : List CString)
  /-- `recv` returns no data. -/
  | hangup (client : Socket)
  | close (client : Socket)
  deriving DecidableEq

/-- The server after a step of `client` to a phase, with new lists. -/
def Server.set (s : Server) (client : Socket) (phase : Phase) (lists : Lists) : Server where
  lists := lists
  phase := Function.update s.phase client phase

def Server.next (s : Server) : Event → Option Server
  | .accept client =>
    if client ≠ -1 ∧ s.phase client = .closed then some (s.set client .accepted s.lists)
    else none
  | .welcome client =>
    if s.phase client = .accepted then some (s.set client .live (welcome client s.lists))
    else none
  | .message client arguments =>
    if s.phase client = .live then
      (serve client (parseCommand arguments) s.lists).map
        (s.set client (if parseCommand arguments = .exit then .ended else .live))
    else none
  | .hangup client =>
    if s.phase client = .live then some (s.set client .ended (disconnected client s.lists))
    else none
  | .close client =>
    if s.phase client = .ended then some (s.set client .closed s.lists) else none

def Server.Live (s : Server) (client : Socket) : Prop := s.phase client = .live

/-- The server after `init_default_room`. -/
def initialServer : Server where
  lists := ⟨[], createRoom [] defaultRoom⟩
  phase := fun _ => .closed

def chatServer : Machine Server Event := Machine.ofNext initialServer Server.next

/-! ### What each step does -/

/-- The steps of the server, with the commands other than `exit` in one case. -/
inductive ServerStep (s : Server) : Event → Server → Prop
  | accept {c : Socket} : s.phase c = .closed →
      ServerStep s (.accept c) (s.set c .accepted s.lists)
  | welcome {c : Socket} : s.phase c = .accepted →
      ServerStep s (.welcome c) (s.set c .live (welcome c s.lists))
  | serve {c : Socket} {arguments : List CString} {lists : Lists} : s.Live c →
      parseCommand arguments ≠ .exit →
      serve c (parseCommand arguments) s.lists = some lists →
      ServerStep s (.message c arguments) (s.set c .live lists)
  | exit {c : Socket} {arguments : List CString} : s.Live c → parseCommand arguments = .exit →
      ServerStep s (.message c arguments) (s.set c .ended (exited c s.lists))
  | hangup {c : Socket} : s.Live c →
      ServerStep s (.hangup c) (s.set c .ended (disconnected c s.lists))
  | close {c : Socket} : s.phase c = .ended →
      ServerStep s (.close c) (s.set c .closed s.lists)

theorem serverStep_of_step {s s' : Server} {e : Event} (h : chatServer.step s e s') :
    ServerStep s e s' := by
  change s.next e = some s' at h
  cases e with
  | accept c =>
    rw [Server.next] at h
    split at h
    · rename_i hphase
      obtain rfl := Option.some.inj h
      exact .accept hphase.2
    · cases h
  | welcome c =>
    rw [Server.next] at h
    split at h
    · rename_i hphase
      obtain rfl := Option.some.inj h
      exact .welcome hphase
    · cases h
  | message c arguments =>
    rw [Server.next] at h
    split at h
    · rename_i hlive
      obtain ⟨lists, hserve, rfl⟩ := Option.map_eq_some_iff.mp h
      by_cases hexit : parseCommand arguments = .exit
      · rw [hexit] at hserve
        obtain rfl := Option.some.inj hserve
        rw [if_pos hexit]
        exact .exit hlive hexit
      · rw [if_neg hexit]
        exact .serve hlive hexit hserve
    · cases h
  | hangup c =>
    rw [Server.next] at h
    split at h
    · rename_i hlive
      obtain rfl := Option.some.inj h
      exact .hangup hlive
    · cases h
  | close c =>
    rw [Server.next] at h
    split at h
    · rename_i hphase
      obtain rfl := Option.some.inj h
      exact .close hphase
    · cases h

theorem live_set_self {s : Server} {c : Socket} {phase : Phase} {lists : Lists} :
    (s.set c phase lists).Live c ↔ phase = .live := by
  show Function.update s.phase c phase c = .live ↔ _
  rw [Function.update_self]

theorem live_set_of_ne {s : Server} {c c' : Socket} {phase : Phase} {lists : Lists}
    (h : c' ≠ c) : (s.set c phase lists).Live c' ↔ s.Live c' := by
  show Function.update s.phase c phase c' = .live ↔ _
  rw [Function.update_of_ne h]
  rfl

/-- A step that does not make `c` live leaves the other live sessions. -/
theorem live_of_live_set {s : Server} {c c' : Socket} {phase : Phase} {lists : Lists}
    (h : (s.set c phase lists).Live c') (hphase : phase ≠ .live) : c' ≠ c ∧ s.Live c' := by
  have hne : c' ≠ c := by
    intro heq
    subst heq
    exact hphase (live_set_self.mp h)
  exact ⟨hne, (live_set_of_ne hne).mp h⟩

/-! ### Guest names -/

theorem guestName_injective {c c' : Socket} (h : guestName c = guestName c') : c = c' :=
  BitVec.eq_of_toInt_eq (decimal_injective (List.append_cancel_left h))

/-- A guest name fits into the `username` field. -/
theorem strncpy_guestName (c : Socket) : strncpy 30 (guestName c) = guestName c := by
  apply List.take_of_length_le
  have hdigits : (decimal c.toInt).length ≤ 11 :=
    length_decimal_le (BitVec.le_toInt c) BitVec.toInt_lt
  rw [guestName, List.length_append]
  have hguest : "guest".toList.length = 5 := rfl
  omega

end OsLabs.Chat
