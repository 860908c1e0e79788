import OsLabs.Chat.DirectMessages

/-!
# Chat server: the `dm` relation over any sequence of operations

The user list alone, from the empty list, under the operations of `list.c` that change users and
`dm` lists: a user is inserted under a socket that no node has, connections are added and
removed between any two sockets, and a listed user logs out.
-/

namespace OsLabs.Chat

open OsLabs.Lib

variable {users : List UserNode}

inductive DmOperation
  | insertFirstU (socket : Socket) (username : CString)
  | addDmConnectionSocket (fromSock toSock : Socket)
  | removeDmConnectionSocket (fromSock toSock : Socket)
  /-- `remove_all_dms_for_user` and then `removeUserBySocket`. -/
  | logout (user : UserNode)

def DmOperation.apply (users : List UserNode) : DmOperation → Option (List UserNode)
  | .insertFirstU socket username =>
    if (sockets users).contains socket then none
    else some (OsLabs.Chat.insertFirstU users socket username)
  | .addDmConnectionSocket fromSock toSock =>
    some (OsLabs.Chat.addDmConnectionSocket users fromSock toSock).1
  | .removeDmConnectionSocket fromSock toSock =>
    some (OsLabs.Chat.removeDmConnectionSocket users fromSock toSock).1
  | .logout user =>
    if user ∈ users then some (removeUserBySocket (removeAllDmsForUser users user) user.socket)
    else none

/-- The user list, which is empty at first. -/
def userList : Machine (List UserNode) DmOperation := Machine.ofNext [] DmOperation.apply

/-! ### Symmetry -/

theorem DmOk.insertFirstU (h : DmOk users) {socket : Socket} (hnew : socket ∉ sockets users)
    (username : CString) : DmOk (insertFirstU users socket username) := by
  rw [OsLabs.Chat.insertFirstU]
  split
  · exact h.insert rfl hnew
  · exact h

theorem DmOk.apply (h : DmOk users) {operation : DmOperation} {users' : List UserNode}
    (hstep : operation.apply users = some users') : DmOk users' := by
  cases operation with
  | insertFirstU socket username =>
    rw [DmOperation.apply] at hstep
    split at hstep
    · cases hstep
    · rename_i hnew
      obtain rfl := Option.some.inj hstep
      rw [List.contains_iff_mem] at hnew
      exact h.insertFirstU hnew username
  | addDmConnectionSocket fromSock toSock =>
    obtain rfl := Option.some.inj hstep
    exact h.add fromSock toSock
  | removeDmConnectionSocket fromSock toSock =>
    obtain rfl := Option.some.inj hstep
    exact h.remove fromSock toSock
  | logout user =>
    rw [DmOperation.apply] at hstep
    split at hstep
    · obtain rfl := Option.some.inj hstep
      exact h.leave rfl
    · cases hstep

theorem dmOk_of_reachable (h : userList.Reachable users) : DmOk users :=
  h.invariant dmOk_nil fun _ _ _ _ hok hstep => hok.apply hstep

/-- The `dm` lists of the nodes as a relation between the listed users. -/
structure DmsMatch (users : List UserNode) : Prop where
  /-- The sockets tell the users apart. -/
  distinct : (sockets users).Nodup
  once : ∀ a ∈ users, ∀ b ∈ users, a ≠ b → a.dm.count b.socket ≤ 1
  symm : ∀ a ∈ users, ∀ b ∈ users, a ≠ b → (b.socket ∈ a.dm ↔ a.socket ∈ b.dm)
  listed : ∀ a ∈ users, ∀ d ∈ a.dm, ∃ b ∈ users, b.socket = d

theorem DmOk.dmsMatch (h : DmOk users) : DmsMatch users := by
  have hne : ∀ a ∈ users, ∀ b ∈ users, a ≠ b → a.socket ≠ b.socket := by
    intro a ha b hb hab heq
    exact hab (List.inj_on_of_nodup_map h.nodup ha hb heq)
  refine ⟨h.nodup, ?_, ?_, ?_⟩
  · intro a ha b hb hab
    rw [← dmOf_of_mem h.nodup ha]
    exact h.once a.socket b.socket (hne a ha b hb hab)
  · intro a ha b hb hab
    rw [← dmOf_of_mem h.nodup ha, ← dmOf_of_mem h.nodup hb, ← List.count_pos_iff,
      h.symm a.socket b.socket (hne a ha b hb hab), List.count_pos_iff]
  · intro a ha d hd
    rw [← dmOf_of_mem h.nodup ha] at hd
    exact List.mem_map.mp (h.listed a.socket d hd)

/-- **Symmetric connections.**  Whatever the operations and their order, of two different users
each is entered in the `dm` list of the other at most once, and in both lists or in none, and
every entry is the socket of a listed user. -/
theorem dmsMatch_of_reachable (h : userList.Reachable users) : DmsMatch users :=
  (dmOk_of_reachable h).dmsMatch

/-- Two users connect, and one of them connects to itself. -/
theorem dmsMatch_of_reachable_two_users :
    DmsMatch [⟨"bob".toList, 6, [5]⟩, ⟨"ann".toList, 5, [5, 5, 6]⟩] := by
  have hrun : [.insertFirstU 5 "ann".toList, .insertFirstU 6 "bob".toList,
      .addDmConnectionSocket 5 6, .addDmConnectionSocket 5 5].foldlM DmOperation.apply [] =
        some [⟨"bob".toList, 6, [5]⟩, ⟨"ann".toList, 5, [5, 5, 6]⟩] := by decide
  exact dmsMatch_of_reachable (Machine.reachable_of_foldlM hrun)

theorem isDmConnectedSocket_iff {a b : Socket} :
    isDmConnectedSocket users a b = true ↔ b ∈ dmOf users a := by
  rw [isDmConnectedSocket, dmOf]
  cases findSocketNode users a with
  | none => simp
  | some u => simp

/-- The broadcast reaches a connected user from either side. -/
theorem isDmConnectedSocket_comm (h : userList.Reachable users) (a b : Socket) :
    isDmConnectedSocket users a b = isDmConnectedSocket users b a := by
  by_cases hab : a = b
  · rw [hab]
  · rw [Bool.eq_iff_iff, isDmConnectedSocket_iff, isDmConnectedSocket_iff, ← List.count_pos_iff,
      (dmOk_of_reachable h).symm a b hab, List.count_pos_iff]

end OsLabs.Chat
