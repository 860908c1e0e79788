import OsLabs.Chat.Rooms
import OsLabs.Lib.Refinement

/-!
# Chat server: rooms as a map

A map from room names to sets of sockets, and the room list as its implementation.  With names
that fit into the field the names of the list stay distinct, its member lists stay without
repetitions, and each operation does to the map what its name says.
-/

namespace OsLabs.Chat

open OsLabs.Lib

/-- A room name that `create_room` stores as it is. -/
abbrev RoomName := { name : CString // name.length ≤ 49 }

inductive RoomOperation
  | createRoom (roomname : RoomName)
  | addUserToRoom (socket : Socket) (roomname : RoomName)
  | removeUserFromRoom (socket : Socket) (roomname : RoomName)
  | removeUserFromAllRooms (user : UserNode)

/-! ### The map -/

/-- A name without a room has no value, a room without members the empty set. -/
abbrev RoomMap := RoomName → Option (Finset Socket)

namespace RoomMap

def create (map : RoomMap) (name : RoomName) : RoomMap :=
  if map name = none then Function.update map name (some ∅) else map

def add (map : RoomMap) (socket : Socket) (name : RoomName) : RoomMap :=
  Function.update map name (some (insert socket ((map name).getD ∅)))

def remove (map : RoomMap) (socket : Socket) (name : RoomName) : RoomMap :=
  Function.update map name ((map name).map fun members => members.erase socket)

def removeFromAll (map : RoomMap) (socket : Socket) : RoomMap :=
  fun name => (map name).map fun members => members.erase socket

end RoomMap

/-- The operations on the map, with the status that the functions with a status return. -/
def roomMap : AbstractType RoomMap RoomOperation (Option ℤ) where
  init := fun _ => none
  step map
    | .createRoom name => (map.create name, none)
    | .addUserToRoom socket name => (map.add socket name, some 0)
    | .removeUserFromRoom socket name =>
      if socket ∈ (map name).getD ∅ then (map.remove socket name, some 0) else (map, some (-1))
    | .removeUserFromAllRooms user => (map.removeFromAll user.socket, none)

/-! ### The list -/

def roomList : Component (List RoomNode) RoomOperation (Option ℤ) where
  init := []
  step rooms
    | .createRoom name => some (createRoom rooms name, none)
    | .addUserToRoom socket name =>
      let (rooms, status) := addUserToRoom rooms socket name
      some (rooms, some status)
    | .removeUserFromRoom socket name =>
      let (rooms, status) := removeUserFromRoom rooms socket name
      some (rooms, some status)
    | .removeUserFromAllRooms user => some (removeUserFromAllRooms rooms user, none)

/-- The room list has one room for each name of the map, with the members of the set. -/
structure Represents (rooms : List RoomNode) (map : RoomMap) : Prop where
  names : (rooms.map RoomNode.roomname).Nodup
  short : ∀ r ∈ rooms, r.roomname.length ≤ 49
  members : ∀ r ∈ rooms, r.members.Nodup
  lookup : ∀ name : RoomName, map name = (findRoom rooms name).map fun r => r.members.toFinset

variable {rooms : List RoomNode} {map : RoomMap}

theorem represents_nil : Represents [] fun _ => none where
  names := List.nodup_nil
  short _ := nofun
  members _ := nofun
  lookup _ := rfl

theorem findRoom_updateRoom {f : RoomNode → RoomNode} (hf : ∀ r, (f r).roomname = r.roomname)
    (rooms : List RoomNode) (name name' : CString) :
    findRoom (updateRoom rooms name f) name' =
      if name' = name then (findRoom rooms name).map f else findRoom rooms name' := by
  split
  · rename_i heq
    subst heq
    cases hfind : findRoom rooms name' with
    | none =>
      rw [updateRoom, updateFirst_of_find?_eq_none hfind]
      exact hfind
    | some r =>
      have hname := (findRoom_name hfind).2
      exact find?_updateFirst hfind (by simpa [hf] using hname)
  · rename_i hne
    refine find?_updateFirst_of_not (fun r hr => ?_) rooms
    have hname : r.roomname = name := by simpa using hr
    simp [hf, hname, Ne.symm hne]

/-- A change of the members of one room changes one value of the map. -/
theorem Represents.update (h : Represents rooms map) (name : RoomName)
    (g : List Socket → List Socket)
    (hnodup : ∀ r, findRoom rooms name = some r → (g r.members).Nodup) :
    Represents (updateRoom rooms name fun r => { r with members := g r.members })
      (Function.update map name ((findRoom rooms name).map fun r => (g r.members).toFinset)) where
  names := by
    have hsame : (updateRoom rooms name fun r => { r with members := g r.members }).map
        RoomNode.roomname = rooms.map RoomNode.roomname :=
      map_updateFirst RoomNode.roomname (by simp) rooms
    rw [hsame]
    exact h.names
  short r hr := by
    rcases mem_updateFirst hr with hold | ⟨r₁, hr₁, rfl⟩
    · exact h.short r hold
    · exact h.short r₁ (List.mem_of_find?_eq_some hr₁)
  members r hr := by
    rcases mem_updateFirst hr with hold | ⟨r₁, hr₁, rfl⟩
    · exact h.members r hold
    · exact hnodup r₁ hr₁
  lookup name' := by
    rw [findRoom_updateRoom (by simp)]
    by_cases heq : name' = name
    · subst heq
      rw [Function.update_self, if_pos rfl, Option.map_map]
      rfl
    · rw [Function.update_of_ne heq, if_neg (fun hval => heq (Subtype.ext hval)), h.lookup]

/-! ### The operations -/

theorem Represents.create (h : Represents rooms map) (name : RoomName) :
    Represents (createRoom rooms name) (map.create name) := by
  have hlookup := h.lookup name
  rw [createRoom, RoomMap.create]
  split
  · rename_i r hr
    rw [hr] at hlookup
    have hsome : map name ≠ none := by
      rw [hlookup]
      exact Option.some_ne_none _
    rw [if_neg hsome]
    exact h
  · rename_i hnone
    rw [hnone] at hlookup
    have hstored : strncpy 50 name = name := List.take_of_length_le name.2
    rw [Option.map_none] at hlookup
    rw [if_pos hlookup, hstored]
    refine ⟨?_, ?_, ?_, fun name' => ?_⟩
    · refine List.nodup_cons.mpr ⟨fun hmem => ?_, h.names⟩
      obtain ⟨r, hr, hname⟩ := List.mem_map.mp hmem
      exact findRoom_eq_none_iff.mp hnone r hr hname
    · intro r hr
      rcases List.mem_cons.mp hr with rfl | hr
      · exact name.2
      · exact h.short r hr
    · intro r hr
      rcases List.mem_cons.mp hr with rfl | hr
      · exact List.nodup_nil
      · exact h.members r hr
    · rw [findRoom]
      by_cases heq : name' = name
      · subst heq
        rw [Function.update_self, List.find?_cons_of_pos (by simp)]
        rfl
      · have hne : ¬ (name : CString) = name' := fun hval => heq (Subtype.ext hval.symm)
        rw [Function.update_of_ne heq, List.find?_cons_of_neg (by simpa using hne), h.lookup]
        rfl

theorem findRoom_createRoom (rooms : List RoomNode) (name : RoomName) :
    findRoom (createRoom rooms name) name ≠ none := by
  rw [createRoom]
  split
  · rename_i r hr
    rw [hr]
    exact Option.some_ne_none r
  · have hstored : strncpy 50 name = name := List.take_of_length_le name.2
    rw [hstored, findRoom, List.find?_cons_of_pos (by simp)]
    exact Option.some_ne_none _

theorem RoomMap.add_create (map : RoomMap) (socket : Socket) (name : RoomName) :
    (map.create name).add socket name = map.add socket name := by
  rw [RoomMap.create]
  split
  · rename_i hnone
    rw [RoomMap.add, RoomMap.add, Function.update_self, Function.update_idem, hnone]
    rfl
  · rfl

theorem Represents.add (h : Represents rooms map) (socket : Socket) (name : RoomName) :
    Represents (addUserToRoom rooms socket name).1 (map.add socket name) ∧
      (addUserToRoom rooms socket name).2 = 0 := by
  have hcreate := h.create name
  rw [← RoomMap.add_create]
  rw [addUserToRoom]
  split
  · rename_i hnone
    exact absurd hnone (findRoom_createRoom rooms name)
  · rename_i r hr
    have hlookup := hcreate.lookup name
    rw [hr, Option.map_some] at hlookup
    rw [RoomMap.add, hlookup, Option.getD_some]
    split
    · rename_i hmem
      refine ⟨?_, rfl⟩
      rw [Finset.insert_eq_self.mpr (List.mem_toFinset.mpr hmem), ← hlookup,
        Function.update_eq_self]
      exact hcreate
    · rename_i hnew
      refine ⟨?_, rfl⟩
      have hupdate := hcreate.update name (List.cons socket) ?_
      · rw [hr, Option.map_some, List.toFinset_cons] at hupdate
        exact hupdate
      · intro r' hr'
        rw [hr] at hr'
        obtain rfl := Option.some.inj hr'
        exact List.nodup_cons.mpr ⟨hnew, hcreate.members r (findRoom_name hr).1⟩

theorem toFinset_erase {members : List Socket} (h : members.Nodup) (socket : Socket) :
    (members.erase socket).toFinset = members.toFinset.erase socket := by
  ext d
  rw [List.mem_toFinset, Finset.mem_erase, List.mem_toFinset, h.mem_erase_iff]

/-- The status says whether the socket was a member, and without a member nothing changes. -/
theorem Represents.remove (h : Represents rooms map) (socket : Socket) (name : RoomName) :
    Represents (removeUserFromRoom rooms socket name).1 (map.remove socket name) ∧
      if socket ∈ (map name).getD ∅ then (removeUserFromRoom rooms socket name).2 = 0
      else removeUserFromRoom rooms socket name = (rooms, -1) ∧ map.remove socket name = map := by
  have hlookup := h.lookup name
  rw [removeUserFromRoom, RoomMap.remove]
  split
  · rename_i hnone
    rw [hnone, Option.map_none] at hlookup
    rw [hlookup, Option.map_none, ← hlookup, Function.update_eq_self, hlookup]
    exact ⟨h, by simp⟩
  · rename_i r hr
    rw [hr, Option.map_some] at hlookup
    rw [hlookup, Option.map_some, Option.getD_some]
    split
    · rename_i hmem
      rw [if_pos (List.mem_toFinset.mpr hmem)]
      refine ⟨?_, rfl⟩
      have hupdate := h.update name (fun members => members.erase socket) ?_
      · rw [hr, Option.map_some, toFinset_erase (h.members r (findRoom_name hr).1)] at hupdate
        exact hupdate
      · intro r' hr'
        exact (h.members r' (findRoom_name hr').1).erase socket
    · rename_i hnot
      have hnot' := mt List.mem_toFinset.mp hnot
      rw [if_neg hnot', Finset.erase_eq_of_notMem hnot', ← hlookup, Function.update_eq_self]
      exact ⟨h, rfl, rfl⟩

/-- The loop over the names takes the socket out of the sets of these names. -/
theorem Represents.foldl_remove (h : Represents rooms map) (socket : Socket)
    (names : List CString) (hshort : ∀ name ∈ names, name.length ≤ 49) :
    Represents (names.foldl (fun rooms name => (removeUserFromRoom rooms socket name).1) rooms)
      fun name => if (name : CString) ∈ names
        then (map name).map fun members => members.erase socket else map name := by
  induction names generalizing rooms map with
  | nil =>
    simp only [List.not_mem_nil, if_false]
    exact h
  | cons name names ih =>
    obtain ⟨hname, hrest⟩ := List.forall_mem_cons.mp hshort
    have hfirst := (h.remove socket ⟨name, hname⟩).1
    have hloop := ih hfirst hrest
    rw [List.foldl_cons]
    have hmaps : (fun name' : RoomName => if (name' : CString) ∈ name :: names
        then (map name').map fun members => members.erase socket else map name') =
        fun name' : RoomName => if (name' : CString) ∈ names
          then (map.remove socket ⟨name, hname⟩ name').map fun members => members.erase socket
          else map.remove socket ⟨name, hname⟩ name' := by
      funext name'
      by_cases heq : name' = ⟨name, hname⟩
      · -- a second removal from the set finds nothing
        subst heq
        rw [if_pos List.mem_cons_self, RoomMap.remove, Function.update_self, Option.map_map]
        have hidem : (fun members : Finset Socket => members.erase socket) ∘
            (fun members : Finset Socket => members.erase socket) =
              fun members => members.erase socket :=
          funext fun members => Finset.erase_idem
        rw [hidem, ite_self]
      · have hne : (name' : CString) ≠ name := fun hval => heq (Subtype.ext hval)
        rw [RoomMap.remove, Function.update_of_ne heq]
        simp only [List.mem_cons, hne, false_or]
    rw [hmaps]
    exact hloop

theorem Represents.removeFromAll (h : Represents rooms map) (user : UserNode) :
    Represents (removeUserFromAllRooms rooms user) (map.removeFromAll user.socket) := by
  have hloop := h.foldl_remove user.socket (rooms.map RoomNode.roomname) ?_
  · have hmaps : (fun name : RoomName => if (name : CString) ∈ rooms.map RoomNode.roomname
        then (map name).map fun members => members.erase user.socket else map name) =
        map.removeFromAll user.socket := by
      funext name
      split
      · rfl
      · rename_i hnot
        have hnone : findRoom rooms name = none := by
          apply findRoom_eq_none_iff.mpr
          intro r hr heq
          exact hnot (heq ▸ List.mem_map_of_mem hr)
        rw [RoomMap.removeFromAll, h.lookup, hnone]
        rfl
    rw [hmaps] at hloop
    exact hloop
  · intro name hname
    obtain ⟨r, hr, rfl⟩ := List.mem_map.mp hname
    exact h.short r hr

/-- Each operation on the list does to the map what its name says. -/
theorem roomList_simulates : Simulates roomList roomMap fun _ => Represents where
  step n rooms map operation h := by
    cases operation with
    | createRoom name => exact ⟨_, rfl, h.create name⟩
    | addUserToRoom socket name =>
      obtain ⟨hadd, hstatus⟩ := h.add socket name
      refine ⟨(addUserToRoom rooms socket name).1, ?_, hadd⟩
      show some ((addUserToRoom rooms socket name).1,
        some (addUserToRoom rooms socket name).2) = _
      rw [hstatus]
      rfl
    | removeUserFromRoom socket name =>
      obtain ⟨hremove, hstatus⟩ := h.remove socket name
      refine ⟨(removeUserFromRoom rooms socket name).1, ?_⟩
      show some ((removeUserFromRoom rooms socket name).1,
        some (removeUserFromRoom rooms socket name).2) = _ ∧ _
      dsimp only [roomMap]
      by_cases hmem : socket ∈ (map name).getD ∅
      · rw [if_pos hmem] at hstatus
        rw [if_pos hmem, hstatus]
        exact ⟨rfl, hremove⟩
      · rw [if_neg hmem] at hstatus
        rw [hstatus.1, hstatus.2] at hremove
        rw [if_neg hmem, hstatus.1]
        exact ⟨rfl, hremove⟩
    | removeUserFromAllRooms user => exact ⟨_, rfl, h.removeFromAll user⟩

/-- **Rooms are a map from names to sets.**  After any sequence of operations the room list
represents the map that the operations lead to, and they have returned its answers; a removal
that returns -1 has changed nothing. -/
theorem roomList_refines (operations : List RoomOperation) :
    ∃ rooms, roomList.run operations = some (rooms, (roomMap.run operations).2) ∧
      Represents rooms (roomMap.run operations).1 ∧
      ∀ socket name, (removeUserFromRoom rooms socket name).2 = -1 →
        (removeUserFromRoom rooms socket name).1 = rooms := by
  obtain ⟨rooms, hrun, hrep⟩ := roomList_simulates.runFrom operations (n := 0) represents_nil
  refine ⟨rooms, hrun, hrep, fun socket name hstatus => ?_⟩
  rw [removeUserFromRoom] at hstatus ⊢
  split
  · rfl
  · rename_i r hr
    rw [hr] at hstatus
    dsimp only at hstatus
    split
    · rename_i hmem
      rw [if_pos hmem] at hstatus
      cases hstatus
    · rfl

end OsLabs.Chat
