import OsLabs.Lib.FirstMatch

/-!
# Chat server: users, rooms and direct messages

The lists of `list.h` and the functions of `list.c` on them.  A C string is the list of its
bytes, each as a `Char`; a socket is any `int`; `malloc` succeeds.  The functions that return a
status return it next to the new list.
-/

namespace OsLabs.Chat

open OsLabs.Lib

abbrev CString := List Char

abbrev Socket := BitVec 32

/-- `struct node`, with the sockets of its `dm` list. -/
structure UserNode where
  username : CString
  socket : Socket
  dm : List Socket
  deriving DecidableEq, Repr

/-- `struct room_node`, with the sockets of its members. -/
structure RoomNode where
  roomname : CString
  members : List Socket
  deriving DecidableEq, Repr

/-- `strncpy` into a field of `size` bytes, with the last byte set to `'\0'`. -/
def strncpy (size : ℕ) (s : CString) : CString := s.take (size - 1)

/-! ### Users -/

def findU (users : List UserNode) (username : CString) : Option UserNode :=
  users.find? fun u => u.username = username

def findSocketNode (users : List UserNode) (socket : Socket) : Option UserNode :=
  users.find? fun u => u.socket = socket

def insertFirstU (users : List UserNode) (socket : Socket) (username : CString) :
    List UserNode :=
  match findU users username with
  | none => ⟨strncpy 30 username, socket, []⟩ :: users
  | some _ => users

def removeUserBySocket (users : List UserNode) (socket : Socket) : List UserNode :=
  users.eraseP fun u => u.socket = socket

/-- The update of the node that `findSocketNode` returns. -/
def updateSocketNode (users : List UserNode) (socket : Socket) (f : UserNode → UserNode) :
    List UserNode :=
  updateFirst (fun u => u.socket = socket) f users

/-! ### Rooms -/

def findRoom (rooms : List RoomNode) (roomname : CString) : Option RoomNode :=
  rooms.find? fun r => r.roomname = roomname

def createRoom (rooms : List RoomNode) (roomname : CString) : List RoomNode :=
  match findRoom rooms roomname with
  | some _ => rooms
  | none => ⟨strncpy 50 roomname, []⟩ :: rooms

/-- The update of the room that `find_room` returns. -/
def updateRoom (rooms : List RoomNode) (roomname : CString) (f : RoomNode → RoomNode) :
    List RoomNode :=
  updateFirst (fun r => r.roomname = roomname) f rooms

def addUserToRoom (rooms : List RoomNode) (socket : Socket) (roomname : CString) :
    List RoomNode × ℤ :=
  let rooms := createRoom rooms roomname
  match findRoom rooms roomname with
  | none => (rooms, -1)
  | some r =>
    if socket ∈ r.members then (rooms, 0)
    else (updateRoom rooms roomname fun r => { r with members := socket :: r.members }, 0)

def removeUserFromRoom (rooms : List RoomNode) (socket : Socket) (roomname : CString) :
    List RoomNode × ℤ :=
  match findRoom rooms roomname with
  | none => (rooms, -1)
  | some r =>
    if socket ∈ r.members then
      (updateRoom rooms roomname fun r => { r with members := r.members.erase socket }, 0)
    else (rooms, -1)

/-! ### Direct messages -/

def addDmConnectionSocket (users : List UserNode) (fromSock toSock : Socket) :
    List UserNode × ℤ :=
  match findSocketNode users fromSock, findSocketNode users toSock with
  | some fromNode, some _ =>
    if toSock ∈ fromNode.dm then (users, 0)
    else
      let users := updateSocketNode users fromSock fun u => { u with dm := toSock :: u.dm }
      (updateSocketNode users toSock fun u => { u with dm := fromSock :: u.dm }, 0)
  | _, _ => (users, -1)

def removeDmConnectionSocket (users : List UserNode) (fromSock toSock : Socket) :
    List UserNode × ℤ :=
  match findSocketNode users fromSock, findSocketNode users toSock with
  | some _, some _ =>
    let users := updateSocketNode users fromSock fun u => { u with dm := u.dm.erase toSock }
    (updateSocketNode users toSock fun u => { u with dm := u.dm.erase fromSock }, 0)
  | _, _ => (users, -1)

def isDmConnectedSocket (users : List UserNode) (fromSock toSock : Socket) : Bool :=
  match findSocketNode users fromSock with
  | none => false
  | some fromNode => toSock ∈ fromNode.dm

/-! ### Utilities -/

/-- The loop over the rooms, which looks each one up again by its name. -/
def removeUserFromAllRooms (rooms : List RoomNode) (user : UserNode) : List RoomNode :=
  (rooms.map RoomNode.roomname).foldl
    (fun rooms roomname => (removeUserFromRoom rooms user.socket roomname).1) rooms

/-- Every user's `dm` list loses its first entry for the user. -/
def removeAllDmsForUser (users : List UserNode) (user : UserNode) : List UserNode :=
  users.map fun u => { u with dm := u.dm.erase user.socket }

end OsLabs.Chat
