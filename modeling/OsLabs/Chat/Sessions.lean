import OsLabs.Chat.Server

/-!
# Chat server: the user node of a session

A session looks its node up by its descriptor.  `insertFirstU` inserts no node when the
generated guest name is taken, which any client may arrange by `login`, so a live session can
be without a node; and a node that a disconnection left behind can give it two.
-/

namespace OsLabs.Chat

open OsLabs.Lib

variable {users : List UserNode} {lists : Lists} {c c' : Socket}

/-! ### The keys of the user list -/

/-- The names and sockets of the user list. -/
def keys (users : List UserNode) : List (CString × Socket) :=
  users.map fun u => (u.username, u.socket)

def sockets (users : List UserNode) : List Socket := users.map UserNode.socket

theorem map_snd_keys (users : List UserNode) : (keys users).map Prod.snd = sockets users := by
  rw [keys, List.map_map]
  rfl

def usernames (users : List UserNode) : List CString := users.map UserNode.username

theorem map_fst_keys (users : List UserNode) : (keys users).map Prod.fst = usernames users := by
  rw [keys, List.map_map]
  rfl

theorem findU_eq_none_iff {name : CString} : findU users name = none ↔ name ∉ usernames users := by
  rw [findU, List.find?_eq_none, usernames, List.mem_map]
  simp only [decide_eq_true_eq, not_exists, not_and]

theorem sockets_congr {users' : List UserNode} (h : keys users' = keys users) :
    sockets users' = sockets users := by
  rw [← map_snd_keys, h, map_snd_keys]

theorem keys_removeAllDmsForUser (users : List UserNode) (u : UserNode) :
    keys (removeAllDmsForUser users u) = keys users := by
  rw [keys, removeAllDmsForUser, List.map_map]
  rfl

theorem keys_updateDm (f : UserNode → List Socket) (users : List UserNode) (c : Socket) :
    keys (updateSocketNode users c fun u => { u with dm := f u }) = keys users := by
  apply map_updateFirst
  intro u _
  rfl

theorem keys_addDmConnectionSocket (users : List UserNode) (a b : Socket) :
    keys (addDmConnectionSocket users a b).1 = keys users := by
  rw [addDmConnectionSocket]
  split
  · split
    · rfl
    · rw [keys_updateDm, keys_updateDm]
  · rfl

theorem keys_removeDmConnectionSocket (users : List UserNode) (a b : Socket) :
    keys (removeDmConnectionSocket users a b).1 = keys users := by
  rw [removeDmConnectionSocket]
  split
  · rw [keys_updateDm, keys_updateDm]
  · rfl

/-- No command but `login` changes a name, and none but `exit` inserts or removes a node. -/
theorem keys_serve {command : Command} {lists' : Lists} (hexit : command ≠ .exit)
    (hlogin : ∀ name, command ≠ .login name) (h : serve c command lists = some lists') :
    keys lists'.users = keys lists.users := by
  cases command with
  | exit => exact absurd rfl hexit
  | login name => exact absurd rfl (hlogin name)
  | connect name =>
    rcases serve_connect_cases h with ⟨-, rfl⟩ | ⟨toNode, fromNode, -, -, rfl⟩
    · rfl
    · exact keys_addDmConnectionSocket _ _ _
  | disconnect name =>
    rcases serve_disconnect_cases h with ⟨-, rfl⟩ | ⟨toNode, fromNode, -, -, rfl⟩
    · rfl
    · exact keys_removeDmConnectionSocket _ _ _
  | _ =>
    obtain rfl := Option.some.inj h
    rfl

/-! ### The sockets of the user list -/

theorem sockets_removeUserBySocket (users : List UserNode) (c : Socket) :
    sockets (removeUserBySocket users c) = (sockets users).erase c := by
  rw [sockets, sockets, List.erase_eq_eraseP', List.eraseP_map]
  rfl

theorem sockets_updateSocketNode {f : UserNode → UserNode} (hf : ∀ u, (f u).socket = u.socket)
    (users : List UserNode) (c : Socket) :
    sockets (updateSocketNode users c f) = sockets users :=
  map_updateFirst UserNode.socket (fun u _ => hf u) users

theorem findSocketNode_eq_none_iff : findSocketNode users c = none ↔ c ∉ sockets users := by
  rw [findSocketNode, List.find?_eq_none, sockets, List.mem_map]
  simp only [decide_eq_true_eq, not_exists, not_and]

theorem sockets_serve {command : Command} {lists' : Lists} (hexit : command ≠ .exit)
    (h : serve c command lists = some lists') :
    sockets lists'.users = sockets lists.users := by
  by_cases hlogin : ∃ name, command = .login name
  · obtain ⟨name, rfl⟩ := hlogin
    obtain rfl := Option.some.inj h
    exact sockets_updateSocketNode (by simp) _ _
  · exact sockets_congr (keys_serve hexit (fun name heq => hlogin ⟨name, heq⟩) h)

theorem sockets_cleanup (c : Socket) (u : UserNode) (lists : Lists) :
    sockets (cleanup c u lists).users = (sockets lists.users).erase c := by
  show sockets (removeUserBySocket (removeAllDmsForUser lists.users u) c) = _
  rw [sockets_removeUserBySocket, sockets_congr (keys_removeAllDmsForUser lists.users u)]

theorem sockets_exited (c : Socket) (lists : Lists) :
    sockets (exited c lists).users = (sockets lists.users).erase c := by
  rw [exited]
  split
  · exact sockets_cleanup c _ lists
  · rename_i hnone
    exact (List.erase_of_not_mem (findSocketNode_eq_none_iff.mp hnone)).symm

/-- A disconnection removes at most a node of its own descriptor. -/
theorem count_sockets_disconnected (hne : c' ≠ c) :
    (sockets (disconnected c lists).users).count c' = (sockets lists.users).count c' := by
  rw [disconnected]
  split
  · rw [sockets_cleanup, List.count_erase_of_ne hne]
  · rfl

theorem keys_cleanup_sublist (c : Socket) (u : UserNode) (lists : Lists) :
    (keys (cleanup c u lists).users).Sublist (keys lists.users) := by
  rw [← keys_removeAllDmsForUser lists.users u]
  exact List.eraseP_sublist.map _

theorem keys_exited_sublist (c : Socket) (lists : Lists) :
    (keys (exited c lists).users).Sublist (keys lists.users) := by
  rw [exited]
  split
  · exact keys_cleanup_sublist c _ lists
  · exact List.Sublist.refl _

theorem keys_disconnected_sublist (c : Socket) (lists : Lists) :
    (keys (disconnected c lists).users).Sublist (keys lists.users) := by
  rw [disconnected]
  split
  · exact keys_cleanup_sublist c _ lists
  · exact List.Sublist.refl _

theorem keys_welcome_of_free (h : findU lists.users (guestName c) = none) :
    keys (welcome c lists).users = (guestName c, c) :: keys lists.users := by
  show keys (insertFirstU lists.users c (guestName c)) = _
  rw [insertFirstU, h]
  show (strncpy 30 (guestName c), c) :: keys lists.users = _
  rw [strncpy_guestName]

theorem sockets_welcome_of_free (h : findU lists.users (guestName c) = none) :
    sockets (welcome c lists).users = c :: sockets lists.users := by
  rw [← map_snd_keys, keys_welcome_of_free h, List.map_cons, map_snd_keys]

theorem users_welcome_of_taken (h : findU lists.users (guestName c) ≠ none) :
    (welcome c lists).users = lists.users := by
  show insertFirstU lists.users c (guestName c) = _
  rw [insertFirstU]
  split
  · rename_i hnone
    exact absurd hnone h
  · rfl

/-! ### One node for each session -/

/-- Every live session has exactly one node with its socket, which `findSocketNode` finds. -/
def NodeForEach (s : Server) : Prop :=
  ∀ c, s.Live c → (sockets s.lists.users).count c = 1 ∧ findSocketNode s.lists.users c ≠ none

/-- At the start of the session of `c` the guest name is free and no node has the descriptor,
or the name is taken and one node has the descriptor. -/
def GuestNodeFits (c : Socket) (lists : Lists) : Prop :=
  (findU lists.users (guestName c) = none ∧ (sockets lists.users).count c = 0) ∨
    (findU lists.users (guestName c) ≠ none ∧ (sockets lists.users).count c = 1)

theorem findSocketNode_ne_none (h : (sockets users).count c = 1) :
    findSocketNode users c ≠ none := by
  rw [Ne, findSocketNode_eq_none_iff, not_not, ← List.count_pos_iff]
  omega

theorem count_sockets_welcome :
    (sockets (welcome c lists).users).count c = 1 ↔ GuestNodeFits c lists := by
  rw [GuestNodeFits]
  by_cases hfree : findU lists.users (guestName c) = none
  · rw [sockets_welcome_of_free hfree, List.count_cons_self]
    simp only [hfree, ne_eq, not_true_eq_false, false_and, or_false, true_and]
    omega
  · rw [users_welcome_of_taken hfree]
    simp only [hfree, false_and, false_or, ne_eq, not_false_eq_true, true_and]

theorem count_sockets_welcome_of_ne (hne : c' ≠ c) :
    (sockets (welcome c lists).users).count c' = (sockets lists.users).count c' := by
  by_cases hfree : findU lists.users (guestName c) = none
  · rw [sockets_welcome_of_free hfree, List.count_cons_of_ne hne.symm]
  · rw [users_welcome_of_taken hfree]

/-- Only the start of a session can leave a session without its node. -/
theorem NodeForEach.step {s s' : Server} {e : Event} (h : NodeForEach s)
    (hok : ∀ c, e = .welcome c → GuestNodeFits c s.lists) (hstep : ServerStep s e s') :
    NodeForEach s' := by
  intro c' hlive
  have hkeep : ∀ {lists : Lists}, s.Live c' →
      (sockets lists.users).count c' = (sockets s.lists.users).count c' →
      (sockets lists.users).count c' = 1 ∧ findSocketNode lists.users c' ≠ none := by
    intro lists hlive hcount
    have hone := hcount.trans (h c' hlive).1
    exact ⟨hone, findSocketNode_ne_none hone⟩
  cases hstep with
  | accept hphase => exact hkeep (live_of_live_set hlive nofun).2 rfl
  | close hphase => exact hkeep (live_of_live_set hlive nofun).2 rfl
  | @welcome c hphase =>
    by_cases hne : c' = c
    · subst hne
      have hone := count_sockets_welcome.mpr (hok c' rfl)
      exact ⟨hone, findSocketNode_ne_none hone⟩
    · exact hkeep ((live_set_of_ne hne).mp hlive) (count_sockets_welcome_of_ne hne)
  | @serve c arguments lists hlive' hexit hserve =>
    refine hkeep ?_ (congrArg (List.count c') (sockets_serve hexit hserve))
    by_cases hne : c' = c
    · subst hne
      exact hlive'
    · exact (live_set_of_ne hne).mp hlive
  | @exit c arguments hlive' hexit =>
    obtain ⟨hne, hlive⟩ := live_of_live_set hlive nofun
    apply hkeep hlive
    show (sockets (exited c s.lists).users).count c' = _
    rw [sockets_exited, List.count_erase_of_ne hne]
  | @hangup c hlive' =>
    obtain ⟨hne, hlive⟩ := live_of_live_set hlive nofun
    exact hkeep hlive (count_sockets_disconnected hne)

/-- **User nodes.**  The live sessions have exactly one node each throughout a run if and only
if at the start of each session its guest name is free and no node has its descriptor, or the
name is taken and one node has the descriptor. -/
theorem nodeForEach_iff {tr : List (Server × Event)} {s : Server} (h : chatServer.Run tr s) :
    (∀ x ∈ Machine.visited tr s, NodeForEach x) ↔
      ∀ x ∈ tr, ∀ c, x.2 = .welcome c → GuestNodeFits c x.1.lists := by
  refine h.forall_visited_iff (I := NodeForEach)
    (C := fun s e => ∀ c, e = .welcome c → GuestNodeFits c s.lists) ?_ (fun _ => id) ?_ ?_
  · intro c hlive
    cases hlive
  · intro s e s' hI hok hstep
    exact hI.step hok (serverStep_of_step hstep)
  · intro s e s' hI hnot hstep hP
    refine hnot fun c he => ?_
    subst he
    cases serverStep_of_step hstep with
    | welcome hphase => exact count_sockets_welcome.mp (hP c (live_set_self.mpr rfl)).1

/-- Client 6 takes a name and leaves, and its descriptor is accepted again. -/
def descriptorReused : List Event :=
  [.accept 5, .accept 6, .welcome 5, .welcome 6, .message 6 ["login".toList, "bob".toList],
    .message 5 ["connect".toList, "bob".toList], .message 6 ["exit".toList], .close 6, .accept 6,
    .welcome 6]

theorem nodeForEach_iff_two_clients :
    ∃ tr s, chatServer.Run tr s ∧ tr.map Prod.snd = descriptorReused ∧
      ((∀ x ∈ Machine.visited tr s, NodeForEach x) ↔
        ∀ x ∈ tr, ∀ c, x.2 = .welcome c → GuestNodeFits c x.1.lists) := by
  obtain ⟨tr, s, hrun, hlabels⟩ := Machine.exists_run initialServer Server.next
    descriptorReused (by decide)
  exact ⟨tr, s, hrun, hlabels, nodeForEach_iff hrun⟩

/-- Client 5 takes the name `guest6` before the session of client 6 starts. -/
def guestNameTaken : List Event :=
  [.accept 5, .welcome 5, .message 5 ["login".toList, "guest6".toList], .accept 6, .welcome 6]

theorem guestNameTaken_no_node : ¬ ∀ s, chatServer.Reachable s → NodeForEach s := by
  intro h
  have hrun : (guestNameTaken.foldlM Server.next initialServer).map
      (fun s => (s.phase 6, (sockets s.lists.users).count 6)) = some (.live, 0) := by decide
  obtain ⟨s, hs, heq⟩ := Option.map_eq_some_iff.mp hrun
  have hlive : s.phase 6 = .live := congrArg Prod.fst heq
  have hcount : (sockets s.lists.users).count 6 = 0 := congrArg Prod.snd heq
  have hone := (h s (Machine.reachable_of_foldlM hs) 6 hlive).1
  omega

end OsLabs.Chat
