import OsLabs.Chat.Sessions
import OsLabs.Chat.Tokens

/-!
# Chat server: messages to the others

A message that is no command goes to the users that the sender has a direct connection with and
to those who share a room with it.  The loop goes over the user list once, so with one node for
each socket nobody gets the message twice, for however many reasons.
-/

namespace OsLabs.Chat

open OsLabs.Lib

/-! ### Sharing a room -/

/-- The loop over the members of a room, for the flags `hasa` and `hasb`. -/
def findMembers (a b : Socket) (members : List Socket) : Bool × Bool :=
  members.foldl (fun (hasa, hasb) m => (hasa || m = a, hasb || m = b)) (false, false)

/-- The loop over the rooms. -/
def shareRoomLoop (a b : Socket) : List RoomNode → Bool
  | [] => false
  | r :: rooms =>
    let (hasa, hasb) := findMembers a b r.members
    if hasa && hasb then true else shareRoomLoop a b rooms

/-- `share_room_users`, with `none` for a `NULL` pointer. -/
def shareRoomUsers (rooms : List RoomNode) (a b : Option UserNode) : Bool :=
  match a, b with
  | some a, some b => shareRoomLoop a.socket b.socket rooms
  | _, _ => false

/-! ### The broadcast -/

/-- `sendbuf` -/
def broadcastText (sender : Option UserNode) (client : Socket) (sbuffer : CString) : CString :=
  let trimmed := strncpy MAXBUFF (trimwhitespace sbuffer)
  let name := match sender with
    | some sender => sender.username
    | none => guestName client
  strncpy (MAXBUFF + 128) ("\n::".toList ++ name ++ "> ".toList ++ trimmed ++ "\nchat>".toList)

/-- The body of the loop over the users; `sent` are the calls of `safe_send` so far. -/
def broadcastStep (lists : Lists) (client : Socket) (sender : Option UserNode) (sendbuf : CString)
    (sent : List (Socket × CString)) (iter : UserNode) : List (Socket × CString) :=
  if iter.socket ≠ client then
    let sendit :=
      if isDmConnectedSocket lists.users client iter.socket then true
      else if shareRoomUsers lists.rooms sender (some iter) then true
      else false
    if sendit then sent ++ [(iter.socket, sendbuf)] else sent
  else sent

/-- The calls of `safe_send` for a message that is no command, in their order. -/
def broadcast (lists : Lists) (client : Socket) (sbuffer : CString) : List (Socket × CString) :=
  let sender := findSocketNode lists.users client
  let sendbuf := broadcastText sender client sbuffer
  lists.users.foldl (broadcastStep lists client sender sendbuf) []

/-- The users that a message is for. -/
structure InAudience (lists : Lists) (client d : Socket) : Prop where
  listed : d ∈ sockets lists.users
  other : d ≠ client
  linked : (∃ u ∈ lists.users, u.socket = client ∧ d ∈ u.dm) ∨
    ∃ r ∈ lists.rooms, client ∈ r.members ∧ d ∈ r.members

/-! ### Who is served -/

theorem foldl_findMembers (a b : Socket) (members : List Socket) (flags : Bool × Bool) :
    members.foldl (fun (hasa, hasb) m => (hasa || m = a, hasb || m = b)) flags =
      (flags.1 || a ∈ members, flags.2 || b ∈ members) := by
  induction members generalizing flags with
  | nil => simp
  | cons m members ih =>
    rw [List.foldl_cons, ih]
    simp only [List.mem_cons, Bool.decide_or, Bool.or_assoc, eq_comm]

theorem findMembers_eq (a b : Socket) (members : List Socket) :
    findMembers a b members = (decide (a ∈ members), decide (b ∈ members)) := by
  rw [findMembers, foldl_findMembers, Bool.false_or, Bool.false_or]

theorem shareRoomLoop_iff (a b : Socket) (rooms : List RoomNode) :
    shareRoomLoop a b rooms = true ↔ ∃ r ∈ rooms, a ∈ r.members ∧ b ∈ r.members := by
  induction rooms with
  | nil => simp [shareRoomLoop]
  | cons r rooms ih =>
    rw [shareRoomLoop, findMembers_eq]
    dsimp only
    split
    · rename_i hboth
      simp only [Bool.and_eq_true, decide_eq_true_eq] at hboth
      simp [hboth]
    · rename_i hnot
      simp only [Bool.and_eq_true, decide_eq_true_eq] at hnot
      rw [ih, List.exists_mem_cons_iff]
      exact (or_iff_right hnot).symm

section

variable {lists : Lists} {client : Socket} (hnodup : (sockets lists.users).Nodup)
  (hmem : client ∈ sockets lists.users)

include hnodup

/-- Two nodes with the same socket are the same. -/
theorem eq_of_socket_eq {u v : UserNode} (hu : u ∈ lists.users) (hv : v ∈ lists.users)
    (h : u.socket = v.socket) : u = v :=
  List.inj_on_of_nodup_map hnodup hu hv h

theorem findSocketNode_of_mem {u : UserNode} (hu : u ∈ lists.users) (hsocket : u.socket = client) :
    findSocketNode lists.users client = some u := by
  cases hfind : findSocketNode lists.users client with
  | none =>
    have hnone := findSocketNode_eq_none_iff.mp hfind
    exact absurd (hsocket ▸ List.mem_map_of_mem hu) hnone
  | some v =>
    have hv := List.mem_of_find?_eq_some hfind
    have hsame : v.socket = client := by simpa using List.find?_some hfind
    rw [eq_of_socket_eq hnodup hv hu (hsame.trans hsocket.symm)]

include hmem

/-- The two reasons for which the body of the loop sends. -/
theorem linked_iff (iter : UserNode) :
    (isDmConnectedSocket lists.users client iter.socket = true ∨
        shareRoomUsers lists.rooms (findSocketNode lists.users client) (some iter) = true) ↔
      (∃ u ∈ lists.users, u.socket = client ∧ iter.socket ∈ u.dm) ∨
        ∃ r ∈ lists.rooms, client ∈ r.members ∧ iter.socket ∈ r.members := by
  obtain ⟨u, hu, hsocket⟩ := List.mem_map.mp hmem
  have hfind := findSocketNode_of_mem hnodup hu hsocket
  have hdm : (∃ v ∈ lists.users, v.socket = client ∧ iter.socket ∈ v.dm) ↔
      iter.socket ∈ u.dm := by
    constructor
    · rintro ⟨v, hv, hsame, hd⟩
      rwa [eq_of_socket_eq hnodup hv hu (hsame.trans hsocket.symm)] at hd
    · exact fun hd => ⟨u, hu, hsocket, hd⟩
  rw [hdm, isDmConnectedSocket, hfind]
  dsimp only [shareRoomUsers]
  rw [shareRoomLoop_iff, hsocket, decide_eq_true_eq]

end

/-! ### The calls -/

/-- The condition under which an iteration sends. -/
def sends (lists : Lists) (client : Socket) (sender : Option UserNode) (iter : UserNode) : Bool :=
  iter.socket ≠ client ∧ (isDmConnectedSocket lists.users client iter.socket = true ∨
    shareRoomUsers lists.rooms sender (some iter) = true)

theorem broadcastStep_eq (lists : Lists) (client : Socket) (sender : Option UserNode)
    (sendbuf : CString) (sent : List (Socket × CString)) (iter : UserNode) :
    broadcastStep lists client sender sendbuf sent iter =
      if sends lists client sender iter then sent ++ [(iter.socket, sendbuf)] else sent := by
  unfold broadcastStep sends
  by_cases hother : iter.socket = client
  · simp [hother]
  · cases isDmConnectedSocket lists.users client iter.socket <;>
      cases shareRoomUsers lists.rooms sender (some iter) <;> simp [hother]

theorem foldl_broadcastStep (lists : Lists) (client : Socket) (sender : Option UserNode)
    (sendbuf : CString) (users : List UserNode) (sent : List (Socket × CString)) :
    users.foldl (broadcastStep lists client sender sendbuf) sent =
      sent ++ (users.filter (sends lists client sender)).map fun u => (u.socket, sendbuf) := by
  induction users generalizing sent with
  | nil => simp
  | cons u users ih =>
    rw [List.foldl_cons, ih, broadcastStep_eq, List.filter_cons]
    split
    · rw [List.map_cons, List.append_assoc]
      rfl
    · rfl

/-- The sockets of the calls are those of the nodes for which an iteration sends. -/
theorem map_fst_broadcast (lists : Lists) (client : Socket) (sbuffer : CString) :
    (broadcast lists client sbuffer).map Prod.fst =
      sockets (lists.users.filter
        (sends lists client (findSocketNode lists.users client))) := by
  rw [broadcast, foldl_broadcastStep, List.nil_append, List.map_map]
  rfl

/-- **A broadcast reaches its audience once.**  With one node for each socket and one for the
sender, `safe_send` is called exactly once for every other listed user that is in the sender's
`dm` list or in a room with it, and for nobody else. -/
theorem broadcast_reaches_audience (lists : Lists) (client : Socket) (sbuffer : CString)
    (hnodup : (sockets lists.users).Nodup) (hmem : client ∈ sockets lists.users) (d : Socket) :
    (InAudience lists client d → ((broadcast lists client sbuffer).map Prod.fst).count d = 1) ∧
      (¬ InAudience lists client d →
        ((broadcast lists client sbuffer).map Prod.fst).count d = 0) := by
  rw [map_fst_broadcast]
  have haudience : d ∈ sockets (lists.users.filter
      (sends lists client (findSocketNode lists.users client))) ↔ InAudience lists client d := by
    rw [sockets, List.mem_map]
    constructor
    · rintro ⟨u, hu, rfl⟩
      obtain ⟨hlisted, hsends⟩ := List.mem_filter.mp hu
      obtain ⟨hother, hreason⟩ := of_decide_eq_true hsends
      exact ⟨List.mem_map_of_mem hlisted, hother, (linked_iff hnodup hmem u).mp hreason⟩
    · rintro ⟨hlisted, hother, hlinked⟩
      obtain ⟨u, hu, rfl⟩ := List.mem_map.mp hlisted
      have hreason := (linked_iff hnodup hmem u).mpr hlinked
      exact ⟨u, List.mem_filter.mpr ⟨hu, decide_eq_true ⟨hother, hreason⟩⟩, rfl⟩
  have hsublist : (sockets (lists.users.filter
      (sends lists client (findSocketNode lists.users client)))).Nodup :=
    (List.filter_sublist.map UserNode.socket).nodup hnodup
  constructor
  · exact fun h => List.count_eq_one_of_mem hsublist (haudience.mpr h)
  · exact fun h => List.count_eq_zero.mpr fun hd => h (haudience.mp hd)

/-- Client 5 has a direct connection with client 7 and shares two rooms with it. -/
theorem broadcast_reaches_audience_sample :
    let lists : Lists :=
      ⟨[⟨['a'], 5, [7]⟩, ⟨['b'], 6, []⟩, ⟨['c'], 7, [5]⟩],
        [⟨['r'], [5, 7, 7]⟩, ⟨['s'], [7, 9, 5]⟩]⟩
    (InAudience lists 5 7 → ((broadcast lists 5 ['h', 'i']).map Prod.fst).count 7 = 1) ∧
      (¬ InAudience lists 5 7 → ((broadcast lists 5 ['h', 'i']).map Prod.fst).count 7 = 0) :=
  broadcast_reaches_audience _ 5 ['h', 'i'] (by decide) (by decide) 7

end OsLabs.Chat
