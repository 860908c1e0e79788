import OsLabs.Chat.Sessions

/-!
# Chat server: the two ends of a session

`exit` finds the node of the session by its descriptor, a lost connection by the guest name
made when the session started.  The two agree as long as every login stores the guest name of
its own client, and no longer.
-/

namespace OsLabs.Chat

open OsLabs.Lib

variable {users : List UserNode} {lists : Lists} {c c' : Socket}

/-! ### Sessions under their guest names -/

/-- The nodes have the guest names of their sockets, which are distinct, and every live session
has a node. -/
structure GuestNames (s : Server) : Prop where
  named : ∀ k ∈ keys s.lists.users, k.1 = guestName k.2
  nodup : (sockets s.lists.users).Nodup
  live : ∀ c, s.Live c → c ∈ sockets s.lists.users

/-- A login by `c` that stores its own guest name. -/
def LoginKeepsName (e : Event) : Prop :=
  ∀ c arguments name, e = .message c arguments → parseCommand arguments = .login name →
    strncpy 30 name = guestName c

theorem findU_eq_findSocketNode (hnamed : ∀ k ∈ keys users, k.1 = guestName k.2) (c : Socket) :
    findU users (guestName c) = findSocketNode users c := by
  refine List.find?_congr fun u hu => ?_
  have hname : u.username = guestName u.socket := hnamed _ (List.mem_map_of_mem hu)
  apply decide_eq_decide.mpr
  rw [hname]
  exact ⟨guestName_injective, fun h => h ▸ rfl⟩

theorem disconnected_eq_exited (hnamed : ∀ k ∈ keys lists.users, k.1 = guestName k.2)
    (c : Socket) : disconnected c lists = exited c lists := by
  rw [disconnected, findU_eq_findSocketNode hnamed]
  rfl

/-- The keys after a login: one node takes the name. -/
theorem keys_login (hnodup : (sockets users).Nodup) (c : Socket) (name : CString) :
    keys (updateSocketNode users c fun u => { u with username := name }) =
      (keys users).map fun k => if k.2 = c then (name, k.2) else k := by
  have hpair : users.Pairwise fun u v => decide (u.socket = c) = true →
      ¬ decide (v.socket = c) = true := by
    refine (List.pairwise_map.mp hnodup).imp fun hne hu hv => hne ?_
    rw [of_decide_eq_true hu, of_decide_eq_true hv]
  rw [updateSocketNode, updateFirst_eq_map hpair, keys, keys, List.map_map, List.map_map]
  refine List.map_congr_left fun u _ => ?_
  by_cases hu : u.socket = c
  · simp [hu]
  · simp [hu]

theorem GuestNames.login {s : Server} (h : GuestNames s) {c : Socket} {name : CString}
    (hname : strncpy 30 name = guestName c) :
    ∀ k ∈ keys (updateSocketNode s.lists.users c fun u =>
      { u with username := strncpy 30 name }), k.1 = guestName k.2 := by
  intro k hk
  rw [keys_login h.nodup] at hk
  obtain ⟨k', hk', rfl⟩ := List.mem_map.mp hk
  by_cases hc : k'.2 = c
  · rw [if_pos hc, hc]
    exact hname
  · rw [if_neg hc]
    exact h.named k' hk'

/-- A session that ends by `exit` leaves the other sessions under their guest names. -/
theorem GuestNames.exit {s : Server} (h : GuestNames s) (c : Socket) :
    GuestNames (s.set c .ended (exited c s.lists)) where
  named k hk := h.named k ((keys_exited_sublist c s.lists).subset hk)
  nodup := by
    show (sockets (exited c s.lists).users).Nodup
    rw [sockets_exited]
    exact h.nodup.erase c
  live c' hlive := by
    obtain ⟨hne, hlive⟩ := live_of_live_set hlive nofun
    show c' ∈ sockets (exited c s.lists).users
    rw [sockets_exited, List.mem_erase_of_ne hne]
    exact h.live c' hlive

/-- A step that leaves the users as they are and makes no new session live. -/
theorem GuestNames.idle {s : Server} (h : GuestNames s) {c : Socket} {phase : Phase}
    (hphase : phase ≠ .live) : GuestNames (s.set c phase s.lists) where
  named := h.named
  nodup := h.nodup
  live c' hlive := h.live c' (live_of_live_set hlive hphase).2

/-- A new node under the guest name of its socket. -/
theorem GuestNames.welcome_of_free {s : Server} (h : GuestNames s) {c : Socket}
    (hfree : findU s.lists.users (guestName c) = none) :
    GuestNames (s.set c .live (welcome c s.lists)) where
  named k hk := by
    change k ∈ keys (welcome c s.lists).users at hk
    rw [keys_welcome_of_free hfree] at hk
    rcases List.mem_cons.mp hk with rfl | hk
    · rfl
    · exact h.named k hk
  nodup := by
    show (sockets (welcome c s.lists).users).Nodup
    rw [sockets_welcome_of_free hfree]
    refine List.nodup_cons.mpr ⟨?_, h.nodup⟩
    rw [← findSocketNode_eq_none_iff, ← findU_eq_findSocketNode h.named]
    exact hfree
  live c' hlive := by
    show c' ∈ sockets (welcome c s.lists).users
    rw [sockets_welcome_of_free hfree]
    by_cases hne : c' = c
    · exact List.mem_cons.mpr (Or.inl hne)
    · exact List.mem_cons_of_mem c (h.live c' ((live_set_of_ne hne).mp hlive))

/-- The session takes over the node that has its guest name, which is a node of its socket. -/
theorem GuestNames.welcome_of_taken {s : Server} (h : GuestNames s) {c : Socket}
    (htaken : findU s.lists.users (guestName c) ≠ none) :
    GuestNames (s.set c .live (welcome c s.lists)) where
  named k hk := by
    change k ∈ keys (welcome c s.lists).users at hk
    rw [users_welcome_of_taken htaken] at hk
    exact h.named k hk
  nodup := by
    show (sockets (welcome c s.lists).users).Nodup
    rw [users_welcome_of_taken htaken]
    exact h.nodup
  live c' hlive := by
    show c' ∈ sockets (welcome c s.lists).users
    rw [users_welcome_of_taken htaken]
    by_cases hne : c' = c
    · subst hne
      rw [findU_eq_findSocketNode h.named, Ne, findSocketNode_eq_none_iff, not_not] at htaken
      exact htaken
    · exact h.live c' ((live_set_of_ne hne).mp hlive)

theorem GuestNames.serve {s : Server} (h : GuestNames s) {c : Socket} {command : Command}
    {lists : Lists} (hlive : s.Live c) (hexit : command ≠ .exit)
    (hok : ∀ name, command = .login name → strncpy 30 name = guestName c)
    (hserve : serve c command s.lists = some lists) : GuestNames (s.set c .live lists) where
  named := by
    show ∀ k ∈ keys lists.users, k.1 = guestName k.2
    by_cases hlogin : ∃ name, command = .login name
    · obtain ⟨name, rfl⟩ := hlogin
      obtain rfl := Option.some.inj hserve
      exact h.login (hok name rfl)
    · rw [keys_serve hexit (fun name heq => hlogin ⟨name, heq⟩) hserve]
      exact h.named
  nodup := by
    show (sockets lists.users).Nodup
    rw [sockets_serve hexit hserve]
    exact h.nodup
  live c' hlive' := by
    show c' ∈ sockets lists.users
    rw [sockets_serve hexit hserve]
    by_cases hne : c' = c
    · subst hne
      exact h.live c' hlive
    · exact h.live c' ((live_set_of_ne hne).mp hlive')

theorem GuestNames.step {s s' : Server} {e : Event} (h : GuestNames s)
    (hok : LoginKeepsName e) (hstep : ServerStep s e s') : GuestNames s' := by
  cases hstep with
  | accept hphase => exact h.idle nofun
  | close hphase => exact h.idle nofun
  | @welcome c hphase =>
    by_cases hfree : findU s.lists.users (guestName c) = none
    · exact h.welcome_of_free hfree
    · exact h.welcome_of_taken hfree
  | @exit c arguments hlive hexit => exact h.exit c
  | @hangup c hlive =>
    rw [disconnected_eq_exited h.named]
    exact h.exit c
  | @serve c arguments lists hlive hexit hserve =>
    exact h.serve hlive hexit (fun name => hok c arguments name rfl) hserve

/-! ### A login under another name -/

/-- Every live session is left alike by the two ends. -/
def EndingsAgree (s : Server) : Prop :=
  ∀ c, s.Live c → disconnected c s.lists = exited c s.lists

/-- After the first login under another name a lost connection would not find the node that
`exit` removes. -/
theorem GuestNames.endings_differ {s : Server} (h : GuestNames s) {c : Socket} (hlive : s.Live c)
    {name : CString} (hname : strncpy 30 name ≠ guestName c) {lists : Lists}
    (hserve : Chat.serve c (.login name) s.lists = some lists) :
    disconnected c lists ≠ exited c lists := by
  obtain rfl := Option.some.inj hserve
  have hnone : findU (updateSocketNode s.lists.users c fun u =>
      { u with username := strncpy 30 name }) (guestName c) = none := by
    rw [findU_eq_none_iff, ← map_fst_keys, keys_login h.nodup, List.map_map, List.mem_map]
    rintro ⟨k, hk, heq⟩
    rw [Function.comp_apply] at heq
    by_cases hc : k.2 = c
    · rw [if_pos hc] at heq
      exact hname heq
    · rw [if_neg hc, h.named k hk] at heq
      exact hc (guestName_injective heq)
  intro heq
  have husers := congrArg (fun lists : Lists => (sockets lists.users).count c) heq
  have hsockets : sockets (updateSocketNode s.lists.users c fun u =>
      { u with username := strncpy 30 name }) = sockets s.lists.users :=
    sockets_updateSocketNode (by simp) _ _
  have hone := List.count_eq_one_of_mem h.nodup (h.live c hlive)
  rw [disconnected, hnone] at husers
  simp only [sockets_exited, hsockets, List.count_erase_self, hone] at husers
  omega

/-- **The two ends of a session.**  They agree in all states of a run if and only if every
login of the run stores the guest name of its own client. -/
theorem endingsAgree_iff {tr : List (Server × Event)} {s : Server} (h : chatServer.Run tr s) :
    (∀ x ∈ Machine.visited tr s, EndingsAgree x) ↔ ∀ x ∈ tr, LoginKeepsName x.2 := by
  refine h.forall_visited_iff (I := GuestNames) (C := fun _ e => LoginKeepsName e) ?_ ?_ ?_ ?_
  · exact ⟨by simp [chatServer, Machine.ofNext, initialServer, keys], List.nodup_nil, nofun⟩
  · intro s hI c _
    exact disconnected_eq_exited hI.named c
  · intro s e s' hI hok hstep
    exact hI.step hok (serverStep_of_step hstep)
  · intro s e s' hI hnot hstep hP
    refine hnot fun c arguments name he hlogin => ?_
    subst he
    by_contra hname
    cases serverStep_of_step hstep with
    | exit hlive hexit =>
      rw [hlogin] at hexit
      cases hexit
    | serve hlive hexit hserve =>
      rw [hlogin] at hserve
      exact hI.endings_differ hlive hname hserve (hP c (live_set_self.mpr rfl))

/-- A client that logs in under its own guest name. -/
theorem endingsAgree_iff_own_name :
    ∃ tr s, chatServer.Run tr s ∧
      tr.map Prod.snd =
        [.accept 5, .welcome 5, .message 5 ["login".toList, "guest5".toList]] ∧
      ((∀ x ∈ Machine.visited tr s, EndingsAgree x) ↔ ∀ x ∈ tr, LoginKeepsName x.2) := by
  obtain ⟨tr, s, hrun, hlabels⟩ := Machine.exists_run initialServer Server.next
    [.accept 5, .welcome 5, .message 5 ["login".toList, "guest5".toList]] (by decide)
  exact ⟨tr, s, hrun, hlabels, endingsAgree_iff hrun⟩

/-- Client 5 logs in as `bob`. -/
def loginAsBob : List Event :=
  [.accept 5, .welcome 5, .message 5 ["login".toList, "bob".toList]]

theorem loginAsBob_endings_differ : ¬ ∀ s, chatServer.Reachable s → EndingsAgree s := by
  intro h
  have hrun : (loginAsBob.foldlM Server.next initialServer).map (fun s =>
      (s.phase 5, decide (disconnected 5 s.lists = exited 5 s.lists))) =
        some (.live, false) := by decide
  obtain ⟨s, hs, heq⟩ := Option.map_eq_some_iff.mp hrun
  have hlive : s.phase 5 = .live := congrArg Prod.fst heq
  have hdiffer : decide (disconnected 5 s.lists = exited 5 s.lists) = false :=
    congrArg Prod.snd heq
  exact of_decide_eq_false hdiffer (h s (Machine.reachable_of_foldlM hs) 5 hlive)

end OsLabs.Chat
