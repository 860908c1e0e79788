import OsLabs.Chat.RoomMap
import OsLabs.Chat.Server

/-!
# Chat server: joining a room by its name

`add_user_to_room` creates the room if the name is not found and then looks the name up again.
`create_room` stores 49 bytes of it and `find_room` compares all of it, so a longer name is not
found even then: the client is told that it joined, and each attempt leaves one more empty room.
-/

namespace OsLabs.Chat

open OsLabs.Lib

/-- The room lists that the functions of `list.c` lead to, in any order and with any names. -/
inductive ReachableRooms : List RoomNode → Prop
  | nil : ReachableRooms []
  | createRoom {rooms : List RoomNode} (h : ReachableRooms rooms) (roomname : CString) :
      ReachableRooms (createRoom rooms roomname)
  | addUserToRoom {rooms : List RoomNode} (h : ReachableRooms rooms) (socket : Socket)
      (roomname : CString) : ReachableRooms (addUserToRoom rooms socket roomname).1
  | removeUserFromRoom {rooms : List RoomNode} (h : ReachableRooms rooms) (socket : Socket)
      (roomname : CString) : ReachableRooms (removeUserFromRoom rooms socket roomname).1
  | removeUserFromAllRooms {rooms : List RoomNode} (h : ReachableRooms rooms) (user : UserNode) :
      ReachableRooms (removeUserFromAllRooms rooms user)

/-- What a client may expect of `join`: it is a member of the room that has the name now, and the
name does not need another room. -/
structure JoinWorks (rooms : List RoomNode) (socket : Socket) (roomname : CString) : Prop where
  joined : ∃ r, findRoom (addUserToRoom rooms socket roomname).1 roomname = some r ∧
    socket ∈ r.members
  createAgain : (createRoom (addUserToRoom rooms socket roomname).1 roomname).length =
    (addUserToRoom rooms socket roomname).1.length
  joinAgain : ∀ socket',
    (addUserToRoom (addUserToRoom rooms socket roomname).1 socket' roomname).1.length =
      (addUserToRoom rooms socket roomname).1.length

/-! ### The names of the rooms -/

variable {rooms : List RoomNode} {socket : Socket} {roomname : CString}

theorem names_updateRoom {f : RoomNode → RoomNode} (hf : ∀ r, (f r).roomname = r.roomname)
    (rooms : List RoomNode) (roomname : CString) :
    (updateRoom rooms roomname f).map RoomNode.roomname = rooms.map RoomNode.roomname :=
  map_updateFirst RoomNode.roomname (fun r _ => hf r) rooms

theorem names_addUserToRoom (rooms : List RoomNode) (socket : Socket) (roomname : CString) :
    (addUserToRoom rooms socket roomname).1.map RoomNode.roomname =
      (createRoom rooms roomname).map RoomNode.roomname := by
  rw [addUserToRoom]
  split
  · rfl
  · split
    · rfl
    · exact names_updateRoom (by simp) _ _

theorem names_removeUserFromRoom (rooms : List RoomNode) (socket : Socket) (roomname : CString) :
    (removeUserFromRoom rooms socket roomname).1.map RoomNode.roomname =
      rooms.map RoomNode.roomname := by
  rw [removeUserFromRoom]
  split
  · rfl
  · split
    · exact names_updateRoom (by simp) _ _
    · rfl

theorem names_foldl_remove (socket : Socket) (names : List CString) (rooms : List RoomNode) :
    (names.foldl (fun rooms name => (removeUserFromRoom rooms socket name).1) rooms).map
      RoomNode.roomname = rooms.map RoomNode.roomname := by
  induction names generalizing rooms with
  | nil => rfl
  | cons name names ih =>
    rw [List.foldl_cons, ih]
    exact names_removeUserFromRoom rooms socket name

theorem length_le_of_mem_createRoom {name : CString}
    (h : ∀ name ∈ rooms.map RoomNode.roomname, name.length ≤ 49)
    (hname : name ∈ (createRoom rooms roomname).map RoomNode.roomname) : name.length ≤ 49 := by
  rw [createRoom] at hname
  split at hname
  · exact h name hname
  · rw [List.map_cons] at hname
    rcases List.mem_cons.mp hname with rfl | hold
    · exact List.length_take_le 49 roomname
    · exact h name hold

/-- A stored name has at most 49 bytes. -/
theorem ReachableRooms.length_le (h : ReachableRooms rooms) :
    ∀ name ∈ rooms.map RoomNode.roomname, name.length ≤ 49 := by
  induction h with
  | nil => exact nofun
  | createRoom _ roomname ih => exact fun name => length_le_of_mem_createRoom ih
  | addUserToRoom _ socket roomname ih =>
    rw [names_addUserToRoom]
    exact fun name => length_le_of_mem_createRoom ih
  | removeUserFromRoom _ socket roomname ih =>
    rw [names_removeUserFromRoom]
    exact ih
  | removeUserFromAllRooms _ user ih =>
    rw [Chat.removeUserFromAllRooms, names_foldl_remove]
    exact ih

/-! ### The room list of the server -/

theorem ReachableRooms.cleanup {lists : Lists} (h : ReachableRooms lists.rooms) (client : Socket)
    (u : UserNode) : ReachableRooms (cleanup client u lists).rooms :=
  h.removeUserFromAllRooms u

theorem ReachableRooms.serve {lists lists' : Lists} {client : Socket} {command : Command}
    (h : ReachableRooms lists.rooms) (hserve : serve client command lists = some lists') :
    ReachableRooms lists'.rooms := by
  cases command with
  | create name =>
    obtain rfl := Option.some.inj hserve
    exact h.createRoom name
  | join name =>
    obtain rfl := Option.some.inj hserve
    exact h.addUserToRoom client name
  | leave name =>
    obtain rfl := Option.some.inj hserve
    exact h.removeUserFromRoom client name
  | connect name =>
    rcases serve_connect_cases hserve with ⟨-, rfl⟩ | ⟨_, _, -, -, rfl⟩
    · exact h
    · exact h
  | disconnect name =>
    rcases serve_disconnect_cases hserve with ⟨-, rfl⟩ | ⟨_, _, -, -, rfl⟩
    · exact h
    · exact h
  | login name =>
    obtain rfl := Option.some.inj hserve
    exact h
  | exit =>
    obtain rfl := Option.some.inj hserve
    rw [exited]
    split
    · exact h.cleanup _ _
    · exact h
  | other =>
    obtain rfl := Option.some.inj hserve
    exact h

/-- Every room list that the server can have is one of those. -/
theorem reachableRooms_of_reachable {s : Server} (h : chatServer.Reachable s) :
    ReachableRooms s.lists.rooms := by
  refine h.invariant (I := fun s => ReachableRooms s.lists.rooms)
    (ReachableRooms.nil.createRoom defaultRoom) fun s e s' _ hrooms hstep => ?_
  cases serverStep_of_step hstep with
  | accept => exact hrooms
  | welcome => exact (hrooms.createRoom defaultRoom).addUserToRoom _ defaultRoom
  | serve _ _ hserve => exact hrooms.serve hserve
  | @exit client _ _ _ =>
    have hserve : serve client .exit s.lists = some (exited client s.lists) := rfl
    exact hrooms.serve hserve
  | @hangup client _ =>
    show ReachableRooms (disconnected client s.lists).rooms
    rw [disconnected]
    split
    · exact hrooms.cleanup _ _
    · exact hrooms
  | close => exact hrooms

/-! ### The law -/

theorem findRoom_of_long (h : ReachableRooms rooms) (hlong : 49 < roomname.length) :
    findRoom rooms roomname = none := by
  rw [findRoom_eq_none_iff]
  rintro r hr rfl
  exact absurd (h.length_le _ (List.mem_map_of_mem hr)) (not_le.mpr hlong)

/-- A name that is too long gets a room of its own with each `join`, and the client is in none. -/
theorem addUserToRoom_of_long (h : ReachableRooms rooms) (hlong : 49 < roomname.length) :
    addUserToRoom rooms socket roomname = (⟨strncpy 50 roomname, []⟩ :: rooms, -1) := by
  have hcreate : createRoom rooms roomname = ⟨strncpy 50 roomname, []⟩ :: rooms := by
    rw [createRoom, findRoom_of_long h hlong]
  rw [addUserToRoom, findRoom_of_long (h.createRoom roomname) hlong, hcreate]

theorem createRoom_of_found {r : RoomNode} (h : findRoom rooms roomname = some r) :
    createRoom rooms roomname = rooms := by
  rw [createRoom, h]

theorem length_addUserToRoom_of_found {r : RoomNode} (h : findRoom rooms roomname = some r)
    (socket : Socket) : (addUserToRoom rooms socket roomname).1.length = rooms.length := by
  have hnames := congrArg List.length (names_addUserToRoom rooms socket roomname)
  rw [List.length_map, List.length_map, createRoom_of_found h] at hnames
  exact hnames

theorem joined_of_short (rooms : List RoomNode) (socket : Socket) (hshort : roomname.length ≤ 49) :
    ∃ r, findRoom (addUserToRoom rooms socket roomname).1 roomname = some r ∧
      socket ∈ r.members := by
  rw [addUserToRoom]
  split
  · rename_i hnone
    exact absurd hnone (findRoom_createRoom rooms ⟨roomname, hshort⟩)
  · rename_i r hr
    split
    · rename_i hmem
      exact ⟨r, hr, hmem⟩
    · refine ⟨{ r with members := socket :: r.members }, ?_, List.mem_cons_self⟩
      dsimp only
      rw [findRoom_updateRoom (by simp), if_pos rfl, hr]
      rfl

/-- **Joining by name.**  On a reachable room list `join` does what a client may expect of it if and
only if the name has at most 49 bytes. -/
theorem joinWorks_iff (h : ReachableRooms rooms) (socket : Socket) (roomname : CString) :
    JoinWorks rooms socket roomname ↔ roomname.length ≤ 49 := by
  constructor
  · intro hworks
    by_contra hlong
    obtain ⟨r, hr, -⟩ := hworks.joined
    rw [findRoom_of_long (h.addUserToRoom socket roomname) (not_le.mp hlong)] at hr
    cases hr
  · intro hshort
    obtain ⟨r, hr, hmem⟩ := joined_of_short rooms socket hshort
    refine ⟨⟨r, hr, hmem⟩, ?_, length_addUserToRoom_of_found hr⟩
    rw [createRoom_of_found hr]

theorem joinWorks_sample :
    JoinWorks (createRoom [] defaultRoom) 5 ['a', 'b'] ↔ ['a', 'b'].length ≤ 49 :=
  joinWorks_iff (ReachableRooms.nil.createRoom defaultRoom) 5 ['a', 'b']

/-- Joined twice with a name of 50 bytes, the server has two new rooms and the client is in none. -/
theorem longName_not_joinWorks :
    ReachableRooms [] ∧ ¬ JoinWorks [] 5 (List.replicate 50 'a') ∧
      (addUserToRoom (addUserToRoom [] 5 (List.replicate 50 'a')).1 5 (List.replicate 50 'a')).1 =
        [⟨List.replicate 49 'a', []⟩, ⟨List.replicate 49 'a', []⟩] := by
  have hlong : 49 < (List.replicate 50 'a').length := by decide
  refine ⟨.nil, fun hworks => ?_, ?_⟩
  · obtain ⟨r, hr, -⟩ := hworks.joined
    rw [findRoom_of_long (ReachableRooms.nil.addUserToRoom 5 _) hlong] at hr
    cases hr
  · rw [addUserToRoom_of_long .nil hlong, addUserToRoom_of_long ?_ hlong]
    · rfl
    · exact ReachableRooms.nil.createRoom (List.replicate 50 'a')

end OsLabs.Chat
