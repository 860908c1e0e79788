import OsLabs.Chat.Server

/-!
# Chat server: the other clients at the end of a session

What the lists say about the clients other than `c` is what is left of them without the nodes
and the entries of `c`.  `exit` never changes it.  A lost connection changes it when the name
it looks up has become another client's, and that client has entries left to lose.
-/

namespace OsLabs.Chat

open OsLabs.Lib

variable {users : List UserNode} {rooms : List RoomNode} {lists : Lists} {c : Socket}

/-! ### What remains without a client -/

def othersUsers (c : Socket) (users : List UserNode) : List UserNode :=
  (users.filter fun u => u.socket ≠ c).map fun u => { u with dm := u.dm.filter (· ≠ c) }

def othersRooms (c : Socket) (rooms : List RoomNode) : List RoomNode :=
  rooms.map fun r => { r with members := r.members.filter (· ≠ c) }

/-- The lists without the nodes and the entries of `c`. -/
def Lists.others (c : Socket) (lists : Lists) : Lists :=
  ⟨othersUsers c lists.users, othersRooms c lists.rooms⟩

theorem filter_erase_self (l : List Socket) (c : Socket) :
    (l.erase c).filter (· ≠ c) = l.filter (· ≠ c) := by
  rw [← List.erase_filter, List.erase_of_not_mem]
  simp

theorem filter_erase_eq_iff {l : List Socket} {a : Socket} (hne : a ≠ c) :
    (l.erase a).filter (· ≠ c) = l.filter (· ≠ c) ↔ a ∉ l := by
  rw [← List.erase_filter, List.erase_eq_self_iff, List.mem_filter]
  simp [hne]

theorem filter_removeUserBySocket (users : List UserNode) (c : Socket) :
    (removeUserBySocket users c).filter (fun u => u.socket ≠ c) =
      users.filter fun u => u.socket ≠ c := by
  induction users with
  | nil => rfl
  | cons u users ih =>
    rw [removeUserBySocket]
    by_cases hu : u.socket = c
    · rw [List.eraseP_cons_of_pos (by simpa using hu), List.filter_cons_of_neg (by simpa using hu)]
    · rw [List.eraseP_cons_of_neg (by simpa using hu), List.filter_cons_of_pos (by simpa using hu),
        List.filter_cons_of_pos (by simpa using hu)]
      exact congrArg (u :: ·) ih

/-! ### The nodes of the others -/

theorem othersUsers_cleanup (u : UserNode) : othersUsers c (cleanup c u lists).users =
    (lists.users.filter fun v => v.socket ≠ c).map fun v =>
      { v with dm := (v.dm.erase u.socket).filter (· ≠ c) } := by
  show ((removeUserBySocket (removeAllDmsForUser lists.users u) c).filter _).map _ = _
  rw [filter_removeUserBySocket, removeAllDmsForUser, List.filter_map, List.map_map]
  rfl

theorem othersUsers_cleanup_self {u : UserNode} (hu : u.socket = c) :
    othersUsers c (cleanup c u lists).users = othersUsers c lists.users := by
  rw [othersUsers_cleanup, othersUsers]
  refine List.map_congr_left fun v _ => ?_
  rw [hu, filter_erase_self]

/-- The clean-up for the node of another socket keeps the nodes of the others exactly if none
of them has that socket in its `dm` list. -/
theorem othersUsers_cleanup_iff {u : UserNode} (hu : u.socket ≠ c) :
    othersUsers c (cleanup c u lists).users = othersUsers c lists.users ↔
      ∀ v ∈ lists.users, v.socket ≠ c → u.socket ∉ v.dm := by
  rw [othersUsers_cleanup, othersUsers, List.map_inj_left]
  simp only [List.mem_filter, ne_eq, decide_eq_true_eq, and_imp, UserNode.mk.injEq, true_and]
  refine forall₃_congr fun v _ _ => ?_
  exact filter_erase_eq_iff hu

/-! ### The rooms of the others -/

theorem othersRooms_updateRoom {rooms : List RoomNode} {roomname : CString}
    {f : RoomNode → RoomNode} (hname : ∀ r, (f r).roomname = r.roomname)
    (hmembers : ∀ r, (f r).members.filter (· ≠ c) = r.members.filter (· ≠ c)) :
    othersRooms c (updateRoom rooms roomname f) = othersRooms c rooms := by
  apply map_updateFirst
  intro r _
  rw [hname, hmembers]

theorem othersRooms_removeUserFromRoom (rooms : List RoomNode) (c : Socket) (roomname : CString) :
    othersRooms c (removeUserFromRoom rooms c roomname).1 = othersRooms c rooms := by
  rw [removeUserFromRoom]
  split
  · rfl
  · split
    · exact othersRooms_updateRoom (fun _ => rfl) fun r => filter_erase_self r.members c
    · rfl

theorem othersRooms_removeUserFromAllRooms {u : UserNode} (hu : u.socket = c) :
    othersRooms c (removeUserFromAllRooms rooms u) = othersRooms c rooms := by
  rw [removeUserFromAllRooms, hu]
  generalize rooms.map RoomNode.roomname = names
  induction names generalizing rooms with
  | nil => rfl
  | cons name names ih =>
    rw [List.foldl_cons, ih, othersRooms_removeUserFromRoom]

/-- The number of entries of `a` in the rooms. -/
def entries (a : Socket) (rooms : List RoomNode) : ℕ :=
  (rooms.map fun r => r.members.count a).sum

theorem entries_congr {a : Socket} (hne : a ≠ c) {rooms' : List RoomNode}
    (h : othersRooms c rooms' = othersRooms c rooms) : entries a rooms' = entries a rooms := by
  have hcount : ∀ rooms : List RoomNode, entries a rooms = entries a (othersRooms c rooms) := by
    intro rooms
    rw [entries, entries, othersRooms, List.map_map]
    refine congrArg List.sum (List.map_congr_left fun r _ => ?_)
    show r.members.count a = (r.members.filter (· ≠ c)).count a
    rw [List.count_filter (by simpa using hne)]
  rw [hcount rooms', h, ← hcount]

/-- Some room that `find_room` returns has `a` as a member. -/
def InFoundRoom (a : Socket) (rooms : List RoomNode) (names : List CString) : Prop :=
  ∃ name ∈ names, ∃ r, findRoom rooms name = some r ∧ a ∈ r.members

theorem removeUserFromRoom_of_notMem {a : Socket} {roomname : CString}
    (h : ∀ r, findRoom rooms roomname = some r → a ∉ r.members) :
    (removeUserFromRoom rooms a roomname).1 = rooms := by
  rw [removeUserFromRoom]
  split
  · rfl
  · rename_i r hr
    rw [if_neg (h r hr)]

theorem entries_removeUserFromRoom {a : Socket} {roomname : CString} {r : RoomNode}
    (hr : findRoom rooms roomname = some r) (ha : a ∈ r.members) :
    entries a (removeUserFromRoom rooms a roomname).1 < entries a rooms := by
  have hsum := sum_map_updateFirst (f := fun r : RoomNode => { r with members := r.members.erase a })
    (fun r : RoomNode => r.members.count a) hr
  have hpos := List.count_pos_iff.mpr ha
  rw [removeUserFromRoom, hr]
  show entries a (if a ∈ r.members then (_, 0) else (rooms, -1)).1 < _
  rw [if_pos ha]
  change entries a _ + r.members.count a = entries a rooms + (r.members.erase a).count a at hsum
  rw [List.count_erase_self] at hsum
  show entries a (updateRoom rooms roomname _) < _
  rw [updateRoom]
  omega

theorem entries_removeUserFromRoom_le (rooms : List RoomNode) (a : Socket) (roomname : CString) :
    entries a (removeUserFromRoom rooms a roomname).1 ≤ entries a rooms := by
  by_cases h : ∃ r, findRoom rooms roomname = some r ∧ a ∈ r.members
  · obtain ⟨r, hr, ha⟩ := h
    exact (entries_removeUserFromRoom hr ha).le
  · rw [removeUserFromRoom_of_notMem fun r hr ha => h ⟨r, hr, ha⟩]

theorem entries_foldl_le (a : Socket) (names : List CString) (rooms : List RoomNode) :
    entries a (names.foldl (fun rooms name => (removeUserFromRoom rooms a name).1) rooms) ≤
      entries a rooms := by
  induction names generalizing rooms with
  | nil => exact le_rfl
  | cons name names ih =>
    rw [List.foldl_cons]
    exact (ih _).trans (entries_removeUserFromRoom_le rooms a name)

/-- The loop removes an entry exactly if some room that it finds has one. -/
theorem foldl_removeUserFromRoom (a : Socket) (names : List CString) (rooms : List RoomNode) :
    (¬ InFoundRoom a rooms names →
      names.foldl (fun rooms name => (removeUserFromRoom rooms a name).1) rooms = rooms) ∧
    (InFoundRoom a rooms names →
      entries a (names.foldl (fun rooms name => (removeUserFromRoom rooms a name).1) rooms) <
        entries a rooms) := by
  induction names with
  | nil => exact ⟨fun _ => rfl, fun ⟨name, hname, _⟩ => nomatch hname⟩
  | cons name names ih =>
    rw [List.foldl_cons]
    by_cases hfirst : ∃ r, findRoom rooms name = some r ∧ a ∈ r.members
    · refine ⟨fun hnot => absurd ⟨name, List.mem_cons_self, hfirst⟩ hnot, fun _ => ?_⟩
      obtain ⟨r, hr, ha⟩ := hfirst
      exact (entries_foldl_le a names _).trans_lt (entries_removeUserFromRoom hr ha)
    · rw [removeUserFromRoom_of_notMem fun r hr ha => hfirst ⟨r, hr, ha⟩]
      refine ⟨fun hnot => ih.1 fun ⟨n, hn, hr⟩ => hnot ⟨n, List.mem_cons_of_mem name hn, hr⟩, ?_⟩
      rintro ⟨n, hn, hr⟩
      rcases List.mem_cons.mp hn with rfl | hn
      · exact absurd hr hfirst
      · exact ih.2 ⟨n, hn, hr⟩

/-- The removal of another socket keeps the rooms of the others exactly if that socket is in no
room that the loop finds. -/
theorem othersRooms_removeUserFromAllRooms_iff {u : UserNode} (hu : u.socket ≠ c) :
    othersRooms c (removeUserFromAllRooms rooms u) = othersRooms c rooms ↔
      ¬ InFoundRoom u.socket rooms (rooms.map RoomNode.roomname) := by
  have hloop := foldl_removeUserFromRoom u.socket (rooms.map RoomNode.roomname) rooms
  rw [removeUserFromAllRooms]
  constructor
  · intro heq hin
    exact absurd (entries_congr hu heq) (hloop.2 hin).ne
  · intro hnot
    rw [hloop.1 hnot]

/-! ### The two ends of a session -/

/-- `exit` removes nothing of the others. -/
theorem others_exited (c : Socket) (lists : Lists) :
    (exited c lists).others c = lists.others c := by
  rw [exited]
  split
  · rename_i u hu
    have hsocket : u.socket = c := by simpa using List.find?_some hu
    rw [Lists.others, othersUsers_cleanup_self hsocket]
    exact congrArg (Lists.mk _) (othersRooms_removeUserFromAllRooms hsocket)
  · rfl

/-- The user that a lost connection of `c` finds, if any, has the socket of `c`, or its socket
is in no `dm` list of another client and in no room that the clean-up finds. -/
def FindsOwnOrUnlisted (c : Socket) (lists : Lists) : Prop :=
  ∀ u, findU lists.users (guestName c) = some u → u.socket = c ∨
    ((∀ v ∈ lists.users, v.socket ≠ c → u.socket ∉ v.dm) ∧
      ¬ InFoundRoom u.socket lists.rooms (lists.rooms.map RoomNode.roomname))

theorem others_disconnected_iff :
    (disconnected c lists).others c = lists.others c ↔ FindsOwnOrUnlisted c lists := by
  rw [disconnected, FindsOwnOrUnlisted]
  split
  · rename_i u hu
    simp only [hu, Option.some.injEq, forall_eq']
    by_cases hsocket : u.socket = c
    · refine iff_of_true ?_ (Or.inl hsocket)
      rw [Lists.others, othersUsers_cleanup_self hsocket]
      exact congrArg (Lists.mk _) (othersRooms_removeUserFromAllRooms hsocket)
    · rw [Lists.others, Lists.others, Lists.mk.injEq, othersUsers_cleanup_iff hsocket]
      refine (and_congr_right fun _ => ?_).trans (or_iff_right hsocket).symm
      exact othersRooms_removeUserFromAllRooms_iff hsocket
  · rename_i hnone
    refine iff_of_true rfl fun u hu => ?_
    rw [hnone] at hu
    cases hu

/-- The event ends the session of `c`. -/
def Ends (c : Socket) : Event → Prop
  | .hangup c' => c' = c
  | .message c' arguments => c' = c ∧ parseCommand arguments = .exit
  | _ => False

/-- **The other clients.**  The ends of sessions in a run change nothing of the other clients
if and only if every lost connection finds its own user, no user, or one without entries. -/
theorem endings_keep_others_iff {tr : List (Server × Event)} {s : Server}
    (h : chatServer.Run tr s) :
    (∀ x ∈ tr, ∀ c s', Ends c x.2 → chatServer.step x.1 x.2 s' →
      s'.lists.others c = x.1.lists.others c) ↔
    ∀ x ∈ tr, ∀ c, x.2 = .hangup c → FindsOwnOrUnlisted c x.1.lists := by
  refine forall₂_congr fun x hx => ?_
  obtain ⟨s₁, hstep₁⟩ := h.step_of_mem hx
  obtain ⟨s₀, e⟩ := x
  constructor
  · intro hkeep c he
    obtain rfl : e = .hangup c := he
    cases serverStep_of_step hstep₁ with
    | hangup hlive =>
      exact others_disconnected_iff.mp (hkeep c _ rfl hstep₁)
  · intro hok c s' hends hstep
    cases serverStep_of_step hstep with
    | accept hphase => exact hends.elim
    | welcome hphase => exact hends.elim
    | close hphase => exact hends.elim
    | serve hlive hexit hserve => exact absurd hends.2 hexit
    | exit hlive hexit =>
      obtain rfl := hends.1
      exact others_exited _ _
    | hangup hlive =>
      obtain rfl : _ = c := hends
      exact others_disconnected_iff.mpr (hok _ rfl)

theorem endings_keep_others_iff_guests :
    ∃ tr s, chatServer.Run tr s ∧
      tr.map Prod.snd = [.accept 5, .welcome 5, .accept 6, .welcome 6, .hangup 5] ∧
      ((∀ x ∈ tr, ∀ c s', Ends c x.2 → chatServer.step x.1 x.2 s' →
        s'.lists.others c = x.1.lists.others c) ↔
      ∀ x ∈ tr, ∀ c, x.2 = .hangup c → FindsOwnOrUnlisted c x.1.lists) := by
  obtain ⟨tr, s, hrun, hlabels⟩ := Machine.exists_run initialServer Server.next
    [.accept 5, .welcome 5, .accept 6, .welcome 6, .hangup 5] (by decide)
  exact ⟨tr, s, hrun, hlabels, endings_keep_others_iff hrun⟩

/-- Client 5 gives up its guest name and client 6 takes it. -/
def guestNameReused : List Event :=
  [.accept 5, .welcome 5, .message 5 ["login".toList, "bob".toList],
    .accept 6, .welcome 6, .message 6 ["login".toList, "guest5".toList]]

/-- The connection of client 5 is lost, and client 6 loses its room. -/
theorem guestNameReused_touches_other :
    ¬ ∀ s, chatServer.Reachable s → ∀ c s' e, Ends c e → chatServer.step s e s' →
      s'.lists.others c = s.lists.others c := by
  intro h
  have hrun : (guestNameReused.foldlM Server.next initialServer).map (fun s =>
      (s.phase 5, decide ((disconnected 5 s.lists).others 5 = s.lists.others 5))) =
        some (.live, false) := by decide
  obtain ⟨s, hs, heq⟩ := Option.map_eq_some_iff.mp hrun
  have hlive : s.phase 5 = .live := congrArg Prod.fst heq
  have hdiffer : decide ((disconnected 5 s.lists).others 5 = s.lists.others 5) = false :=
    congrArg Prod.snd heq
  have hstep : chatServer.step s (.hangup 5) (s.set 5 .ended (disconnected 5 s.lists)) := by
    show s.next (.hangup 5) = _
    rw [Server.next, if_pos hlive]
  exact of_decide_eq_false hdiffer
    (h s (Machine.reachable_of_foldlM hs) 5 _ (.hangup 5) rfl hstep)

end OsLabs.Chat
