import OsLabs.Chat.Sessions

/-!
# Chat server: usernames

`insertFirstU` refuses a name that is taken, `login` stores the first 29 bytes of any name.
The names stay distinct as long as each `login` takes a name that no other node has.
-/

namespace OsLabs.Chat

open OsLabs.Lib

variable {users : List UserNode} {lists : Lists} {c : Socket}

/-! ### Names that identify -/

/-- The names are distinct, and `findU` finds the one user of each. -/
structure NamesIdentify (users : List UserNode) : Prop where
  nodup : (usernames users).Nodup
  findU_iff : ∀ u ∈ users, ∀ name, findU users name = some u ↔ u.username = name

/-- With distinct names every node is the one that `findU` finds. -/
theorem findU_of_mem (hnodup : (usernames users).Nodup) {u : UserNode} (hu : u ∈ users) :
    findU users u.username = some u := by
  cases hfind : findU users u.username with
  | none => exact absurd (List.mem_map_of_mem hu) (findU_eq_none_iff.mp hfind)
  | some v =>
    have hname : v.username = u.username := by simpa using List.find?_some hfind
    have hv : v ∈ users := List.mem_of_find?_eq_some hfind
    rw [List.inj_on_of_nodup_map hnodup hv hu hname]

theorem namesIdentify_iff : NamesIdentify users ↔ (usernames users).Nodup := by
  refine ⟨NamesIdentify.nodup, fun hnodup => ⟨hnodup, fun u hu name => ⟨fun h => ?_, ?_⟩⟩⟩
  · simpa using List.find?_some h
  · rintro rfl
    exact findU_of_mem hnodup hu

theorem namesIdentify_of_sublist {users' : List UserNode} (h : NamesIdentify users)
    (hsub : (keys users').Sublist (keys users)) : NamesIdentify users' := by
  rw [namesIdentify_iff, ← map_fst_keys]
  have hnodup := h.nodup
  rw [← map_fst_keys] at hnodup
  exact hnodup.sublist (hsub.map Prod.fst)

/-! ### The steps -/

/-- A guest is inserted under a name that no node has. -/
theorem NamesIdentify.welcome (h : NamesIdentify lists.users) (c : Socket) :
    NamesIdentify (welcome c lists).users := by
  by_cases hfree : findU lists.users (guestName c) = none
  · rw [namesIdentify_iff, ← map_fst_keys, keys_welcome_of_free hfree, List.map_cons, map_fst_keys]
    exact List.nodup_cons.mpr ⟨findU_eq_none_iff.mp hfree, h.nodup⟩
  · rw [users_welcome_of_taken hfree]
    exact h

/-- The first 29 bytes of `name` are the name of the node of `c` already, or no node's. -/
def NameFree (c : Socket) (name : CString) (users : List UserNode) : Prop :=
  ∀ u, findSocketNode users c = some u →
    strncpy 30 name ∈ usernames users → strncpy 30 name = u.username

theorem namesIdentify_login (h : NamesIdentify users) (c : Socket) (name : CString) :
    NamesIdentify (updateSocketNode users c fun u => { u with username := strncpy 30 name }) ↔
      NameFree c name users := by
  cases hfind : findSocketNode users c with
  | none =>
    rw [updateSocketNode, updateFirst_of_find?_eq_none hfind, NameFree, hfind]
    exact iff_of_true h nofun
  | some u =>
    rw [namesIdentify_iff, NameFree, hfind]
    refine (nodup_map_updateFirst UserNode.username h.nodup hfind).trans ⟨?_, ?_⟩
    · intro hfree v hv
      obtain rfl := Option.some.inj hv
      exact hfree
    · intro hfree
      exact hfree u rfl

/-- The condition on the steps of a run. -/
def LoginNameFree (s : Server) (e : Event) : Prop :=
  ∀ c arguments name, e = .message c arguments → parseCommand arguments = .login name →
    NameFree c name s.lists.users

/-- A step that is no `login` keeps distinct names. -/
theorem NamesIdentify.step {s s' : Server} {e : Event} (h : NamesIdentify s.lists.users)
    (hlogin : ∀ c arguments name, e = .message c arguments → parseCommand arguments ≠ .login name)
    (hstep : ServerStep s e s') : NamesIdentify s'.lists.users := by
  cases hstep with
  | accept hphase => exact h
  | close hphase => exact h
  | @welcome c hphase => exact h.welcome c
  | @serve c arguments lists hlive hexit hserve =>
    apply namesIdentify_of_sublist h
    rw [← keys_serve hexit (fun name => hlogin c arguments name rfl) hserve]
    exact List.Sublist.refl _
  | @exit c arguments hlive hexit => exact namesIdentify_of_sublist h (keys_exited_sublist c _)
  | @hangup c hlive => exact namesIdentify_of_sublist h (keys_disconnected_sublist c _)

theorem namesIdentify_login_step {s s' : Server} {arguments : List CString} {name : CString}
    (h : NamesIdentify s.lists.users) (hlogin : parseCommand arguments = .login name)
    (hstep : ServerStep s (.message c arguments) s') :
    NamesIdentify s'.lists.users ↔ NameFree c name s.lists.users := by
  cases hstep with
  | serve hlive hexit hserve =>
    rw [hlogin] at hserve
    obtain rfl := Option.some.inj hserve
    exact namesIdentify_login h c name
  | exit hlive hexit =>
    rw [hlogin] at hexit
    cases hexit

/-- **Distinct usernames.**  The names of the listed users stay distinct throughout a run, and
identify them, if and only if each `login` stores a name that no other node has. -/
theorem namesIdentify_visited_iff {tr : List (Server × Event)} {s : Server}
    (h : chatServer.Run tr s) :
    (∀ x ∈ Machine.visited tr s, NamesIdentify x.lists.users) ↔
      ∀ x ∈ tr, LoginNameFree x.1 x.2 := by
  refine h.forall_visited_iff (I := fun s => NamesIdentify s.lists.users) (C := LoginNameFree)
    ?_ (fun _ => id) ?_ ?_
  · exact namesIdentify_iff.mpr List.nodup_nil
  · intro s e s' hI hok hstep
    have hserver := serverStep_of_step hstep
    by_cases hlogin : ∃ c arguments name, e = .message c arguments ∧
        parseCommand arguments = .login name
    · obtain ⟨c, arguments, name, rfl, hparse⟩ := hlogin
      exact (namesIdentify_login_step hI hparse hserver).mpr (hok c arguments name rfl hparse)
    · refine hI.step (fun c arguments name he hparse => ?_) hserver
      exact hlogin ⟨c, arguments, name, he, hparse⟩
  · intro s e s' hI hnot hstep hP
    refine hnot fun c arguments name he hparse => ?_
    subst he
    exact (namesIdentify_login_step hI hparse (serverStep_of_step hstep)).mp hP

/-- Client 6 takes the name that client 5 has given up. -/
def namePassedOn : List Event :=
  [.accept 5, .welcome 5, .message 5 ["login".toList, "bob".toList], .accept 6, .welcome 6,
    .message 5 ["login".toList, "guest5".toList], .message 6 ["login".toList, "bob".toList]]

theorem namesIdentify_visited_iff_two_clients :
    ∃ tr s, chatServer.Run tr s ∧ tr.map Prod.snd = namePassedOn ∧
      ((∀ x ∈ Machine.visited tr s, NamesIdentify x.lists.users) ↔
        ∀ x ∈ tr, LoginNameFree x.1 x.2) := by
  obtain ⟨tr, s, hrun, hlabels⟩ := Machine.exists_run initialServer Server.next
    namePassedOn (by decide)
  exact ⟨tr, s, hrun, hlabels, namesIdentify_visited_iff hrun⟩

/-- Two clients take the same name. -/
def sameLogin : List Event :=
  [.accept 5, .welcome 5, .accept 6, .welcome 6,
    .message 5 ["login".toList, "bob".toList], .message 6 ["login".toList, "bob".toList]]

theorem sameLogin_not_distinct :
    ¬ ∀ s, chatServer.Reachable s → NamesIdentify s.lists.users := by
  intro h
  have hrun : (sameLogin.foldlM Server.next initialServer).map
      (fun s => usernames s.lists.users) = some ["bob".toList, "bob".toList] := by decide
  obtain ⟨s, hs, hnames⟩ := Option.map_eq_some_iff.mp hrun
  have hnodup := (h s (Machine.reachable_of_foldlM hs)).nodup
  rw [hnames] at hnodup
  exact absurd hnodup (by decide)

end OsLabs.Chat
