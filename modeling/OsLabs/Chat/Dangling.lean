import OsLabs.Chat.DirectMessages
import OsLabs.Chat.Rooms

/-!
# Chat server: what `exit` leaves behind

`exit` removes the node of the session, its socket from the room found under each name, and
the first entry for it in each `dm` list.  No mention of the socket remains as long as no room
with members was hidden behind another of its name, each lost connection removed its own node
or none, and each session started with one node.
-/

namespace OsLabs.Chat

open OsLabs.Lib

variable {lists lists' : Lists} {c : Socket}

/-! ### The lists after a clean-up -/

/-- No node has the socket, no `dm` list and no room has an entry for it. -/
def NoMention (c : Socket) (lists : Lists) : Prop :=
  (∀ u ∈ lists.users, u.socket ≠ c ∧ c ∉ u.dm) ∧ ¬ IsMember c lists.rooms

theorem noMention_cleanup (hdm : DmOk lists.users) (hrooms : RoomsOk lists.rooms) {u : UserNode}
    (hu : u.socket = c) : NoMention c (cleanup c u lists) := by
  refine ⟨fun v hv => ⟨?_, ?_⟩, hu ▸ hrooms.not_isMember_removeAll u⟩
  · have hmem : v.socket ∈ sockets (cleanup c u lists).users := List.mem_map_of_mem hv
    rw [sockets_cleanup] at hmem
    exact ((List.Nodup.mem_erase_iff hdm.nodup).mp hmem).1
  · have hnodup : (sockets (cleanup c u lists).users).Nodup := (hdm.leave hu).nodup
    rw [← dmOf_of_mem hnodup hv]
    exact (hdm.dmOf_leave hu).2

/-! ### What the commands keep -/

theorem DmOk.serve (h : DmOk lists.users) {command : Command} (hexit : command ≠ .exit)
    (hserve : serve c command lists = some lists') : DmOk lists'.users := by
  cases command with
  | exit => exact absurd rfl hexit
  | login name =>
    obtain rfl := Option.some.inj hserve
    apply h.congr
    · exact sockets_updateSocketNode (by simp) _ _
    · intro a
      exact dmOf_updateSocketNode (by simp) (by simp)
  | connect name =>
    rcases serve_connect_cases hserve with ⟨-, rfl⟩ | ⟨toNode, fromNode, -, -, rfl⟩
    · exact h
    · exact h.add _ _
  | disconnect name =>
    rcases serve_disconnect_cases hserve with ⟨-, rfl⟩ | ⟨toNode, fromNode, -, -, rfl⟩
    · exact h
    · exact h.remove _ _
  | _ =>
    obtain rfl := Option.some.inj hserve
    exact h

theorem RoomsOk.serve (h : RoomsOk lists.rooms) {command : Command} (hexit : command ≠ .exit)
    (hok : ∀ room, command = .create room ∨ command = .join room →
      HidesNoMembers lists.rooms room)
    (hserve : serve c command lists = some lists') : RoomsOk lists'.rooms := by
  cases command with
  | exit => exact absurd rfl hexit
  | create room =>
    obtain rfl := Option.some.inj hserve
    exact h.create (hok room (Or.inl rfl))
  | join room =>
    obtain rfl := Option.some.inj hserve
    exact h.add (hok room (Or.inr rfl)) c
  | leave room =>
    obtain rfl := Option.some.inj hserve
    exact h.remove c room
  | connect name =>
    rcases serve_connect_cases hserve with ⟨-, rfl⟩ | ⟨toNode, fromNode, -, -, rfl⟩
    · exact h
    · exact h
  | disconnect name =>
    rcases serve_disconnect_cases hserve with ⟨-, rfl⟩ | ⟨toNode, fromNode, -, -, rfl⟩
    · exact h
    · exact h
  | _ =>
    obtain rfl := Option.some.inj hserve
    exact h

/-! ### Tidy lists -/

structure Tidy (s : Server) : Prop where
  dms : DmOk s.lists.users
  rooms : RoomsOk s.lists.rooms
  live : ∀ c, s.Live c → c ∈ sockets s.lists.users

/-- The condition on the steps of a run: a room that is created or joined hides no members, a
lost connection finds its own user or none, and a session starts with one node. -/
structure KeepsTidy (s : Server) (e : Event) : Prop where
  room : ∀ c arguments room, e = .message c arguments →
    parseCommand arguments = .create room ∨ parseCommand arguments = .join room →
    HidesNoMembers s.lists.rooms room
  hangup : ∀ c, e = .hangup c → ∀ u, findU s.lists.users (guestName c) = some u → u.socket = c
  welcome : ∀ c, e = .welcome c → GuestNodeFits c s.lists

theorem tidy_initial : Tidy initialServer where
  dms := dmOk_nil
  rooms := roomsOk_nil.create (Or.inl (by decide))
  live _ := nofun

/-- A phase that is not live, with the lists as they are. -/
theorem Tidy.idle {s : Server} (h : Tidy s) {phase : Phase} (hphase : phase ≠ .live) :
    Tidy (s.set c phase s.lists) where
  dms := h.dms
  rooms := h.rooms
  live c' hlive := h.live c' (live_of_live_set hlive hphase).2

theorem Tidy.cleanup {s : Server} (h : Tidy s) {u : UserNode} (hu : u.socket = c) :
    Tidy (s.set c .ended (cleanup c u s.lists)) where
  dms := h.dms.leave hu
  rooms := h.rooms.removeAll u
  live c' hlive := by
    obtain ⟨hne, hlive⟩ := live_of_live_set hlive nofun
    show c' ∈ sockets (OsLabs.Chat.cleanup c u s.lists).users
    rw [sockets_cleanup, List.mem_erase_of_ne hne]
    exact h.live c' hlive

theorem Tidy.welcome {s : Server} (h : Tidy s) (hfits : GuestNodeFits c s.lists) :
    Tidy (s.set c .live (welcome c s.lists)) where
  dms := by
    show DmOk (insertFirstU s.lists.users c (guestName c))
    rw [insertFirstU]
    split
    · rename_i hfree
      have hnew : (sockets s.lists.users).count c = 0 := by
        rcases hfits with ⟨-, hzero⟩ | ⟨htaken, -⟩
        · exact hzero
        · exact absurd hfree htaken
      exact h.dms.insert rfl (List.count_eq_zero.mp hnew)
    · exact h.dms
  rooms := by
    have hdefault : ∀ rooms, HidesNoMembers rooms defaultRoom := fun _ => Or.inl (by decide)
    exact (h.rooms.create (hdefault _)).add (hdefault _) c
  live c' hlive := by
    show c' ∈ sockets (OsLabs.Chat.welcome c s.lists).users
    by_cases hne : c' = c
    · subst hne
      have hone := count_sockets_welcome.mpr hfits
      exact List.count_pos_iff.mp (by omega)
    · rw [← List.count_pos_iff, count_sockets_welcome_of_ne hne, List.count_pos_iff]
      exact h.live c' ((live_set_of_ne hne).mp hlive)

theorem Tidy.step {s s' : Server} {e : Event} (h : Tidy s) (hok : KeepsTidy s e)
    (hstep : ServerStep s e s') : Tidy s' := by
  cases hstep with
  | accept hphase => exact h.idle (by decide)
  | close hphase => exact h.idle (by decide)
  | @welcome c hphase => exact h.welcome (hok.welcome c rfl)
  | @serve c arguments lists hlive hexit hserve =>
    refine ⟨h.dms.serve hexit hserve, ?_, fun c' hlive' => ?_⟩
    · exact h.rooms.serve hexit (fun room => hok.room c arguments room rfl) hserve
    · show c' ∈ sockets lists.users
      rw [sockets_serve hexit hserve]
      by_cases hne : c' = c
      · subst hne
        exact h.live c' hlive
      · exact h.live c' ((live_set_of_ne hne).mp hlive')
  | @exit c arguments hlive hexit =>
    rw [exited]
    split
    · rename_i u hu
      exact h.cleanup (by simpa using List.find?_some hu)
    · exact h.idle (by decide)
  | @hangup c hlive =>
    rw [disconnected]
    split
    · rename_i u hu
      exact h.cleanup (hok.hangup c rfl u hu)
    · exact h.idle (by decide)

/-- **No dangling reference.**  After a run whose steps meet the condition, `exit` or `logout`
of a live client leaves no mention of its socket. -/
theorem exit_noMention {tr : List (Server × Event)} {s s' : Server} (h : chatServer.Run tr s)
    (hok : ∀ x ∈ tr, KeepsTidy x.1 x.2) {arguments : List CString}
    (hexit : parseCommand arguments = .exit)
    (hstep : chatServer.step s (.message c arguments) s') : NoMention c s'.lists := by
  have htidy : Tidy s := h.invariant (C := KeepsTidy) tidy_initial
    (fun s e s' hI hok hstep => hI.step hok (serverStep_of_step hstep)) hok
  cases serverStep_of_step hstep with
  | serve hlive hother hserve => exact absurd hexit hother
  | exit hlive _ =>
    show NoMention c (exited c s.lists)
    rw [exited]
    split
    · rename_i u hu
      exact noMention_cleanup htidy.dms htidy.rooms (by simpa using List.find?_some hu)
    · rename_i hnone
      exact absurd (htidy.live c hlive) (findSocketNode_eq_none_iff.mp hnone)

/-- One client opens a room and leaves. -/
theorem exit_noMention_one_client :
    ∃ tr s s', chatServer.Run tr s ∧
      tr.map Prod.snd =
        [.accept 5, .welcome 5, .message 5 ["create".toList, "kitchen".toList]] ∧
      chatServer.step s (.message 5 ["exit".toList]) s' ∧ NoMention 5 s'.lists := by
  let s₁ := initialServer.set 5 .accepted initialServer.lists
  let s₂ := s₁.set 5 .live (welcome 5 s₁.lists)
  let s₃ := s₂.set 5 .live
    { s₂.lists with rooms := createRoom s₂.lists.rooms "kitchen".toList }
  let s₄ := s₃.set 5 .ended (exited 5 s₃.lists)
  have hstart : chatServer.Run [] initialServer := Machine.Run.start
  have h₁ : chatServer.step initialServer (.accept 5) s₁ := rfl
  have h₂ : chatServer.step s₁ (.welcome 5) s₂ := rfl
  have h₃ : chatServer.step s₂ (.message 5 ["create".toList, "kitchen".toList]) s₃ := rfl
  have h₄ : chatServer.step s₃ (.message 5 ["exit".toList]) s₄ := rfl
  have hrun := ((hstart.snoc h₁).snoc h₂).snoc h₃
  refine ⟨_, s₃, s₄, hrun, rfl, h₄, exit_noMention hrun ?_ (by decide) h₄⟩
  intro x hx
  simp only [List.nil_append, List.mem_append, List.mem_singleton] at hx
  rcases hx with (rfl | rfl) | rfl
  · exact ⟨nofun, nofun, nofun⟩
  · refine ⟨nofun, nofun, fun c he => ?_⟩
    obtain rfl : 5 = c := Event.welcome.inj he
    exact Or.inl ⟨rfl, rfl⟩
  · refine ⟨fun c arguments room he hcommand => ?_, nofun, nofun⟩
    obtain ⟨rfl, rfl⟩ := Event.message.inj he
    rcases hcommand with hcreate | hjoin
    · obtain rfl : "kitchen".toList = room := Command.create.inj hcreate
      exact Or.inl (by decide)
    · cases hjoin

/-- Client 5 joins a room with a name of 49 bytes, and creates one whose name goes on. -/
def roomHidden : List Event :=
  let name := "a-room-with-a-name-of-exactly-forty-nine-bytes-xx".toList
  [.accept 5, .welcome 5, .message 5 ["join".toList, name],
    .message 5 ["create".toList, name ++ "-and-more".toList]]

theorem roomHidden_keeps_member :
    ¬ ∀ s, chatServer.Reachable s → ∀ c s' arguments, parseCommand arguments = .exit →
      chatServer.step s (.message c arguments) s' → NoMention c s'.lists := by
  intro h
  have hrun : (roomHidden.foldlM Server.next initialServer).map (fun s =>
      (s.phase 5, (exited 5 s.lists).rooms.map RoomNode.members)) =
        some (.live, [[], [5], []]) := by decide
  obtain ⟨s, hs, heq⟩ := Option.map_eq_some_iff.mp hrun
  have hlive : s.phase 5 = .live := congrArg Prod.fst heq
  have hrooms : (exited 5 s.lists).rooms.map RoomNode.members = [[], [5], []] :=
    congrArg Prod.snd heq
  have hstep : chatServer.step s (.message 5 ["exit".toList])
      (s.set 5 .ended (exited 5 s.lists)) := by
    show s.next (.message 5 ["exit".toList]) = _
    rw [Server.next, if_pos hlive]
    rfl
  have hnone := (h s (Machine.reachable_of_foldlM hs) 5 _ ["exit".toList] (by decide) hstep).2
  have hmem : [5] ∈ (exited 5 s.lists).rooms.map RoomNode.members := by
    rw [hrooms]
    exact List.mem_cons_of_mem _ List.mem_cons_self
  obtain ⟨r, hr, hmembers⟩ := List.mem_map.mp hmem
  exact hnone ⟨r, hr, hmembers ▸ List.mem_cons_self⟩

end OsLabs.Chat
