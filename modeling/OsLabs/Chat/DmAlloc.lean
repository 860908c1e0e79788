import OsLabs.Chat.DirectMessages

/-!
# Chat server: a connection when memory runs out

`add_dm_connection_socket` with the results of its two calls of `malloc` as parameters.  The entry
of the first end is linked in before the node for the second end is allocated, and the failure of
that allocation leaves it there.
-/

namespace OsLabs.Chat

open OsLabs.Lib

/-- The loop over a `dm` list. -/
def hasDm (dm : List Socket) (toSock : Socket) : Bool := dm.any fun d => d = toSock

theorem hasDm_iff {dm : List Socket} {toSock : Socket} :
    hasDm dm toSock = true ↔ toSock ∈ dm := by
  simp [hasDm]

/-- `add_dm_connection_socket`; `first` and `second` say whether the calls of `malloc` succeed, as
far as they are made. -/
def addDmConnectionSocketMalloc (first second : Bool) (users : List UserNode)
    (fromSock toSock : Socket) : List UserNode × ℤ :=
  match findSocketNode users fromSock, findSocketNode users toSock with
  | some fromNode, some _ =>
    if hasDm fromNode.dm toSock then (users, 0)
    else if first = false then (users, -1)
    else
      let users := updateSocketNode users fromSock fun u => { u with dm := toSock :: u.dm }
      if second = false then (users, -1)
      else (updateSocketNode users toSock fun u => { u with dm := fromSock :: u.dm }, 0)
  | _, _ => (users, -1)

/-- Of two listed sockets each is in the `dm` list of the other, or neither is. -/
def DmsSymmetric (users : List UserNode) : Prop :=
  ∀ a ∈ sockets users, ∀ b ∈ sockets users, b ∈ dmOf users a → a ∈ dmOf users b

/-- What the status tells the caller: nothing has changed, or both ends are connected. -/
structure AllOrNothing (users : List UserNode) (fromSock toSock : Socket)
    (result : List UserNode × ℤ) : Prop where
  failed : result.2 = -1 → result.1 = users
  connected : result.2 = 0 → DmsSymmetric users →
    toSock ∈ dmOf result.1 fromSock ∧ fromSock ∈ dmOf result.1 toSock

variable {users : List UserNode} {fromSock toSock : Socket} {first second : Bool}

/-- With memory the function is the one without failures. -/
theorem addDmConnectionSocketMalloc_true (users : List UserNode) (fromSock toSock : Socket) :
    addDmConnectionSocketMalloc true true users fromSock toSock =
      addDmConnectionSocket users fromSock toSock := by
  rw [addDmConnectionSocketMalloc, addDmConnectionSocket]
  cases findSocketNode users fromSock with
  | none => rfl
  | some fromNode =>
    cases findSocketNode users toSock with
    | none => rfl
    | some toNode =>
      simp only [hasDm_iff]
      rfl

theorem findSocketNode_eq_some_of_mem (h : fromSock ∈ sockets users) :
    ∃ u, findSocketNode users fromSock = some u ∧ dmOf users fromSock = u.dm := by
  cases hfind : findSocketNode users fromSock with
  | none => exact absurd h (findSocketNode_eq_none_iff.mp hfind)
  | some u => exact ⟨u, rfl, by rw [dmOf, hfind]; rfl⟩

/-- The four ways through the function. -/
theorem addDmConnectionSocketMalloc_cases (first second : Bool) (users : List UserNode)
    (fromSock toSock : Socket) :
    let result := addDmConnectionSocketMalloc first second users fromSock toSock
    (¬ (fromSock ∈ sockets users ∧ toSock ∈ sockets users) ∧ result = (users, -1)) ∨
      fromSock ∈ sockets users ∧ toSock ∈ sockets users ∧
        (toSock ∈ dmOf users fromSock ∧ result = (users, 0) ∨
          toSock ∉ dmOf users fromSock ∧
            (first = false ∧ result = (users, -1) ∨
              first = true ∧ second = false ∧ result =
                (updateSocketNode users fromSock fun u => { u with dm := toSock :: u.dm }, -1) ∨
              first = true ∧ second = true ∧ result =
                (updateSocketNode
                  (updateSocketNode users fromSock fun u => { u with dm := toSock :: u.dm })
                  toSock fun u => { u with dm := fromSock :: u.dm }, 0))) := by
  intro result
  by_cases hfrom : fromSock ∈ sockets users
  · by_cases hto : toSock ∈ sockets users
    · right
      obtain ⟨fromNode, hfindFrom, hdm⟩ := findSocketNode_eq_some_of_mem hfrom
      obtain ⟨toNode, hfindTo, -⟩ := findSocketNode_eq_some_of_mem hto
      have hresult : result = addDmConnectionSocketMalloc first second users fromSock toSock := rfl
      rw [addDmConnectionSocketMalloc, hfindFrom, hfindTo] at hresult
      dsimp only at hresult
      rw [hdm]
      refine ⟨hfrom, hto, ?_⟩
      by_cases hmem : toSock ∈ fromNode.dm
      · rw [if_pos (hasDm_iff.mpr hmem)] at hresult
        exact Or.inl ⟨hmem, hresult⟩
      · rw [if_neg (mt hasDm_iff.mp hmem)] at hresult
        refine Or.inr ⟨hmem, ?_⟩
        cases first with
        | false => exact Or.inl ⟨rfl, hresult⟩
        | true =>
          cases second with
          | false => exact Or.inr (Or.inl ⟨rfl, rfl, hresult⟩)
          | true => exact Or.inr (Or.inr ⟨rfl, rfl, hresult⟩)
    · refine Or.inl ⟨fun hboth => hto hboth.2, ?_⟩
      show addDmConnectionSocketMalloc first second users fromSock toSock = _
      rw [addDmConnectionSocketMalloc, findSocketNode_eq_none_iff.mpr hto]
      cases findSocketNode users fromSock <;> rfl
  · refine Or.inl ⟨fun hboth => hfrom hboth.1, ?_⟩
    show addDmConnectionSocketMalloc first second users fromSock toSock = _
    rw [addDmConnectionSocketMalloc, findSocketNode_eq_none_iff.mpr hfrom]

theorem dmOf_cons_self {peer c : Socket} (hc : c ∈ sockets users) :
    dmOf (updateSocketNode users c fun u => { u with dm := peer :: u.dm }) c =
      peer :: dmOf users c :=
  dmOf_updateDm_self (List.cons peer) hc

/-- An entry for one end alone is a change. -/
theorem updateDm_cons_ne {peer c : Socket} (hc : c ∈ sockets users) :
    (updateSocketNode users c fun u => { u with dm := peer :: u.dm }) ≠ users := by
  intro heq
  have hlength := congrArg (fun users => (dmOf users c).length) heq
  rw [dmOf_cons_self hc, List.length_cons] at hlength
  omega

/-- A second entry elsewhere does not take the first one away. -/
theorem mem_dmOf_cons {peer c a d : Socket} (hd : d ∈ dmOf users a) :
    d ∈ dmOf (updateSocketNode users c fun u => { u with dm := peer :: u.dm }) a := by
  by_cases hac : a = c
  · subst hac
    have ha : a ∈ sockets users := by
      by_contra hnot
      rw [dmOf_of_notMem hnot] at hd
      cases hd
    rw [dmOf_cons_self ha]
    exact List.mem_cons_of_mem peer hd
  · rw [dmOf_updateSocketNode_of_ne (by simp) hac]
    exact hd

/-- Once both entries are made, each end has the other one, also if they are the same. -/
theorem mem_dmOf_both (hfrom : fromSock ∈ sockets users) (hto : toSock ∈ sockets users) :
    let half := updateSocketNode users fromSock fun u => { u with dm := toSock :: u.dm }
    let both := updateSocketNode half toSock fun u => { u with dm := fromSock :: u.dm }
    toSock ∈ dmOf both fromSock ∧ fromSock ∈ dmOf both toSock := by
  intro half both
  constructor
  · apply mem_dmOf_cons
    rw [dmOf_cons_self hfrom]
    exact List.mem_cons_self
  · have hhalf : toSock ∈ sockets half := by
      rw [sockets_updateSocketNode (by simp)]
      exact hto
    rw [dmOf_cons_self hhalf]
    exact List.mem_cons_self

/-- **A connection and its two allocations.**  The status tells the truth if and only if it is not
the second allocation that fails: for listed users without the connection, a success of the first
one is followed by a success of the second one. -/
theorem addDmConnectionSocketMalloc_allOrNothing_iff (first second : Bool)
    (users : List UserNode) (fromSock toSock : Socket) :
    AllOrNothing users fromSock toSock
        (addDmConnectionSocketMalloc first second users fromSock toSock) ↔
      (fromSock ∈ sockets users → toSock ∈ sockets users → toSock ∉ dmOf users fromSock →
        first = true → second = true) := by
  rcases addDmConnectionSocketMalloc_cases first second users fromSock toSock with
    ⟨hunlisted, hresult⟩ | ⟨hfrom, hto, hcases⟩
  · rw [hresult]
    refine iff_of_true ⟨fun _ => rfl, fun hzero => ?_⟩ fun hfrom hto => ?_
    · cases hzero
    · exact absurd ⟨hfrom, hto⟩ hunlisted
  · rcases hcases with ⟨hmem, hresult⟩ | ⟨hnot, hcases⟩
    · rw [hresult]
      refine iff_of_true ⟨fun _ => rfl, fun _ hsymm => ⟨hmem, ?_⟩⟩ fun _ _ hnot => ?_
      · exact hsymm fromSock hfrom toSock hto hmem
      · exact absurd hmem hnot
    · rcases hcases with ⟨hfirst, hresult⟩ | ⟨hfirst, hsecond, hresult⟩ |
        ⟨hfirst, hsecond, hresult⟩
      · rw [hresult]
        refine iff_of_true ⟨fun _ => rfl, fun hzero => ?_⟩ fun _ _ _ htrue => ?_
        · cases hzero
        · rw [hfirst] at htrue
          cases htrue
      · rw [hresult]
        refine iff_of_false (fun hall => ?_) fun htrue => ?_
        · -- the entry of the first end has stayed
          exact updateDm_cons_ne hfrom (hall.failed rfl)
        · have := htrue hfrom hto hnot hfirst
          rw [hsecond] at this
          cases this
      · rw [hresult]
        refine iff_of_true ⟨fun hfailed => ?_, fun _ _ => mem_dmOf_both hfrom hto⟩
          fun _ _ _ _ => hsecond
        cases hfailed

/-- With the second allocation failing, user 5 has user 6 in its list, and not the other way. -/
theorem secondMalloc_not_allOrNothing :
    ¬ AllOrNothing [⟨['a'], 5, []⟩, ⟨['b'], 6, []⟩] 5 6
      (addDmConnectionSocketMalloc true false [⟨['a'], 5, []⟩, ⟨['b'], 6, []⟩] 5 6) := by
  intro hall
  have hkept := hall.failed rfl
  revert hkept
  decide

end OsLabs.Chat
