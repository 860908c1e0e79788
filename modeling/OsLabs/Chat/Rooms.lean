import OsLabs.Chat.List

/-!
# Chat server: rooms

The operations look a room up by its name and find the first one of that name.  Stored names
are cut to 49 bytes, so a longer name is not found under itself, and creating it puts a second
room of the cut name before the first.  `RoomsOk` says that the rooms hidden in this way have
no members.
-/

namespace OsLabs.Chat

open OsLabs.Lib

variable {rooms : List RoomNode} {socket : Socket} {roomname : CString}

structure RoomsOk (rooms : List RoomNode) : Prop where
  hidden : rooms.Pairwise fun r r' => r.roomname = r'.roomname → r'.members = []
  nodup : ∀ r ∈ rooms, r.members.Nodup

theorem roomsOk_nil : RoomsOk [] where
  hidden := List.Pairwise.nil
  nodup := nofun

/-- A room of a name is the one that is found, or it is hidden and has no members. -/
theorem RoomsOk.eq_or_empty (h : RoomsOk rooms) {r r' : RoomNode}
    (hfind : findRoom rooms roomname = some r) (hr' : r' ∈ rooms)
    (hname : r'.roomname = roomname) : r' = r ∨ r'.members = [] := by
  obtain ⟨hidden, -⟩ := h
  induction rooms with
  | nil => cases hr'
  | cons r₀ rooms ih =>
    obtain ⟨hfirst, hrest⟩ := List.pairwise_cons.mp hidden
    rw [findRoom] at hfind
    by_cases h₀ : r₀.roomname = roomname
    · rw [List.find?_cons_of_pos (by simpa using h₀)] at hfind
      obtain rfl := Option.some.inj hfind
      rcases List.mem_cons.mp hr' with rfl | hr'
      · exact Or.inl rfl
      · exact Or.inr (hfirst r' hr' (h₀.trans hname.symm))
    · rw [List.find?_cons_of_neg (by simpa using h₀)] at hfind
      rcases List.mem_cons.mp hr' with rfl | hr'
      · exact absurd hname h₀
      · exact ih hfind hr' hrest

theorem findRoom_eq_none_iff :
    findRoom rooms roomname = none ↔ ∀ r ∈ rooms, r.roomname ≠ roomname := by
  rw [findRoom, List.find?_eq_none]
  simp only [decide_eq_true_eq, ne_eq]

theorem findRoom_name {r : RoomNode} (h : findRoom rooms roomname = some r) :
    r ∈ rooms ∧ r.roomname = roomname :=
  ⟨List.mem_of_find?_eq_some h, by simpa using List.find?_some h⟩

/-- A new room hides no members. -/
theorem RoomsOk.cons (h : RoomsOk rooms)
    (hempty : ∀ r, findRoom rooms roomname = some r → r.members = []) :
    RoomsOk (⟨roomname, []⟩ :: rooms) where
  hidden := by
    refine List.pairwise_cons.mpr ⟨fun r hr hname => ?_, h.hidden⟩
    cases hfind : findRoom rooms roomname with
    | none => exact absurd hname.symm (findRoom_eq_none_iff.mp hfind r hr)
    | some r₀ =>
      rcases h.eq_or_empty hfind hr hname.symm with rfl | hnil
      · exact hempty r hfind
      · exact hnil
  nodup r hr := by
    rcases List.mem_cons.mp hr with rfl | hr
    · exact List.nodup_nil
    · exact h.nodup r hr

/-- A change of the members of the room that is found. -/
theorem RoomsOk.update (h : RoomsOk rooms) {f : RoomNode → RoomNode}
    (hname : ∀ r, (f r).roomname = r.roomname)
    (hnodup : ∀ r, findRoom rooms roomname = some r → (f r).members.Nodup) :
    RoomsOk (updateRoom rooms roomname f) where
  hidden := by
    obtain ⟨hidden, -⟩ := h
    clear hnodup
    induction rooms with
    | nil => exact List.Pairwise.nil
    | cons r₀ rooms ih =>
      obtain ⟨hfirst, hrest⟩ := List.pairwise_cons.mp hidden
      rw [updateRoom]
      by_cases h₀ : r₀.roomname = roomname
      · rw [updateFirst_cons_of_pos (by simpa using h₀)]
        refine List.pairwise_cons.mpr ⟨fun r hr heq => hfirst r hr ?_, hrest⟩
        rw [← heq, hname]
      · rw [updateFirst_cons_of_neg (by simpa using h₀)]
        refine List.pairwise_cons.mpr ⟨fun r hr heq => ?_, ih hrest⟩
        rcases mem_updateFirst hr with hold | ⟨r₁, hr₁, rfl⟩
        · exact hfirst r hold heq
        · rw [hname, (findRoom_name hr₁).2] at heq
          exact absurd heq h₀
  nodup r hr := by
    rcases mem_updateFirst hr with hold | ⟨r₁, hr₁, rfl⟩
    · exact h.nodup r hold
    · exact hnodup r₁ hr₁

/-! ### Creating and joining -/

/-- The token is stored as it is, or no room with members has its first 49 bytes as name. -/
def HidesNoMembers (rooms : List RoomNode) (token : CString) : Prop :=
  token.length ≤ 49 ∨ ∀ r, findRoom rooms (strncpy 50 token) = some r → r.members = []

theorem RoomsOk.create (h : RoomsOk rooms) (hok : HidesNoMembers rooms roomname) :
    RoomsOk (createRoom rooms roomname) := by
  rw [createRoom]
  split
  · exact h
  · rename_i hnone
    refine h.cons fun r hr => ?_
    rcases hok with hshort | hempty
    · have hsame : strncpy 50 roomname = roomname := List.take_of_length_le hshort
      rw [hsame, hnone] at hr
      cases hr
    · exact hempty r hr

theorem RoomsOk.add (h : RoomsOk rooms) (hok : HidesNoMembers rooms roomname) (socket : Socket) :
    RoomsOk (addUserToRoom rooms socket roomname).1 := by
  have hcreate := h.create hok
  rw [addUserToRoom]
  split
  · exact hcreate
  · rename_i r hr
    split
    · exact hcreate
    · rename_i hnew
      refine hcreate.update (fun _ => rfl) fun r' hr' => ?_
      rw [hr] at hr'
      obtain rfl := Option.some.inj hr'
      exact List.nodup_cons.mpr ⟨hnew, hcreate.nodup r (findRoom_name hr).1⟩

theorem RoomsOk.remove (h : RoomsOk rooms) (socket : Socket) (roomname : CString) :
    RoomsOk (removeUserFromRoom rooms socket roomname).1 := by
  rw [removeUserFromRoom]
  split
  · exact h
  · split
    · refine h.update (fun _ => rfl) fun r hr => ?_
      exact (h.nodup r (findRoom_name hr).1).erase socket
    · exact h

/-! ### Members -/

def IsMember (d : Socket) (rooms : List RoomNode) : Prop := ∃ r ∈ rooms, d ∈ r.members

/-- Each room left by a removal was there with these members and perhaps one more. -/
theorem exists_of_mem_removeUserFromRoom {r : RoomNode}
    (hr : r ∈ (removeUserFromRoom rooms socket roomname).1) :
    ∃ r₀ ∈ rooms, r₀.roomname = r.roomname ∧ r.members ⊆ r₀.members := by
  rw [removeUserFromRoom] at hr
  split at hr
  · exact ⟨r, hr, rfl, fun _ => id⟩
  · split at hr
    · rcases mem_updateFirst hr with hold | ⟨r₁, hr₁, rfl⟩
      · exact ⟨r, hold, rfl, fun _ => id⟩
      · exact ⟨r₁, List.mem_of_find?_eq_some hr₁, rfl, List.erase_subset⟩
    · exact ⟨r, hr, rfl, fun _ => id⟩

/-- After a removal no room of the name has the member. -/
theorem RoomsOk.notMem_remove (h : RoomsOk rooms) {r : RoomNode}
    (hr : r ∈ (removeUserFromRoom rooms socket roomname).1) (hname : r.roomname = roomname) :
    socket ∉ r.members := by
  have hok := h.remove socket roomname
  have hfound : ∀ r₁, findRoom (removeUserFromRoom rooms socket roomname).1 roomname = some r₁ →
      socket ∉ r₁.members → socket ∉ r.members := by
    intro r₁ hr₁ hnot
    rcases hok.eq_or_empty hr₁ hr hname with rfl | hnil
    · exact hnot
    · rw [hnil]
      exact nofun
  cases hfind : findRoom rooms roomname with
  | none =>
    rw [removeUserFromRoom, hfind] at hr
    exact absurd hname (findRoom_eq_none_iff.mp hfind r hr)
  | some r₀ =>
    by_cases hmem : socket ∈ r₀.members
    · refine hfound { r₀ with members := r₀.members.erase socket } ?_ ?_
      · rw [removeUserFromRoom, hfind]
        dsimp only
        rw [if_pos hmem]
        exact find?_updateFirst hfind (by simpa using (findRoom_name hfind).2)
      · intro hd
        have hnodup := h.nodup r₀ (findRoom_name hfind).1
        exact ((List.Nodup.mem_erase_iff hnodup).mp hd).1 rfl
    · refine hfound r₀ ?_ hmem
      rw [removeUserFromRoom, hfind]
      dsimp only
      rw [if_neg hmem]
      exact hfind

/-! ### Leaving all rooms -/

theorem RoomsOk.foldl_remove (h : RoomsOk rooms) (socket : Socket) (names : List CString) :
    RoomsOk (names.foldl (fun rooms name => (removeUserFromRoom rooms socket name).1) rooms) := by
  induction names generalizing rooms with
  | nil => exact h
  | cons name names ih => exact ih (h.remove socket name)

theorem exists_of_mem_foldl {names : List CString} {r : RoomNode}
    (hr : r ∈ names.foldl (fun rooms name => (removeUserFromRoom rooms socket name).1) rooms) :
    ∃ r₀ ∈ rooms, r₀.roomname = r.roomname ∧ r.members ⊆ r₀.members := by
  induction names generalizing rooms with
  | nil => exact ⟨r, hr, rfl, fun _ => id⟩
  | cons name names ih =>
    obtain ⟨r₁, hr₁, hname₁, hsub₁⟩ := ih hr
    obtain ⟨r₀, hr₀, hname₀, hsub₀⟩ := exists_of_mem_removeUserFromRoom hr₁
    exact ⟨r₀, hr₀, hname₀.trans hname₁, fun d hd => hsub₀ (hsub₁ hd)⟩

/-- The loop takes the socket out of the rooms of all names that it looks up. -/
theorem RoomsOk.notMem_foldl (h : RoomsOk rooms) {names : List CString} {r : RoomNode}
    (hr : r ∈ names.foldl (fun rooms name => (removeUserFromRoom rooms socket name).1) rooms)
    (hname : r.roomname ∈ names) : socket ∉ r.members := by
  induction names generalizing rooms with
  | nil => cases hname
  | cons name names ih =>
    rcases List.mem_cons.mp hname with hfirst | hrest
    · -- later rounds add no member to the rooms of this name
      obtain ⟨r₁, hr₁, hname₁, hsub⟩ :
          ∃ r₁ ∈ (removeUserFromRoom rooms socket name).1,
            r₁.roomname = r.roomname ∧ r.members ⊆ r₁.members := exists_of_mem_foldl hr
      exact fun hd => h.notMem_remove hr₁ (hname₁.trans hfirst) (hsub hd)
    · exact ih (h.remove socket name) hr hrest

theorem RoomsOk.removeAll (h : RoomsOk rooms) (u : UserNode) :
    RoomsOk (removeUserFromAllRooms rooms u) :=
  h.foldl_remove u.socket _

theorem RoomsOk.not_isMember_removeAll (h : RoomsOk rooms) (u : UserNode) :
    ¬ IsMember u.socket (removeUserFromAllRooms rooms u) := by
  rintro ⟨r, hr, hd⟩
  obtain ⟨r₀, hr₀, hname, -⟩ := exists_of_mem_foldl hr
  exact h.notMem_foldl hr (hname ▸ List.mem_map_of_mem hr₀) hd

end OsLabs.Chat
