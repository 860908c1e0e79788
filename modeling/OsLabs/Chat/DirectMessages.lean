import OsLabs.Chat.Sessions

/-!
# Chat server: direct messages

With one node for each socket the `dm` lists are a function of the socket.  `DmOk` says that
it is a symmetric relation between listed sockets: a peer is entered at most once, and then on
both sides.  Only the entry of a socket for itself is outside of this.
-/

namespace OsLabs.Chat

open OsLabs.Lib

variable {users : List UserNode} {a b c : Socket}

/-! ### The list of a socket -/

def dmOf (users : List UserNode) (a : Socket) : List Socket :=
  ((findSocketNode users a).map UserNode.dm).getD []

theorem findSocketNode_cons (u : UserNode) (users : List UserNode) (a : Socket) :
    findSocketNode (u :: users) a = if u.socket = a then some u else findSocketNode users a := by
  rw [findSocketNode]
  by_cases h : u.socket = a
  · rw [List.find?_cons_of_pos (by simpa using h), if_pos h]
  · rw [List.find?_cons_of_neg (by simpa using h), if_neg h]
    rfl

theorem dmOf_cons (u : UserNode) (users : List UserNode) (a : Socket) :
    dmOf (u :: users) a = if u.socket = a then u.dm else dmOf users a := by
  rw [dmOf, findSocketNode_cons]
  split <;> rfl

theorem dmOf_of_notMem (h : a ∉ sockets users) : dmOf users a = [] := by
  rw [dmOf, findSocketNode_eq_none_iff.mpr h]
  rfl

/-- With distinct sockets every node is the one that is found. -/
theorem dmOf_of_mem (hnodup : (sockets users).Nodup) {u : UserNode} (hu : u ∈ users) :
    dmOf users u.socket = u.dm := by
  induction users with
  | nil => cases hu
  | cons v users ih =>
    obtain ⟨hnot, hrest⟩ := List.nodup_cons.mp hnodup
    rw [dmOf_cons]
    rcases List.mem_cons.mp hu with rfl | hu
    · rw [if_pos rfl]
    · have hne : v.socket ≠ u.socket := fun heq => hnot (heq ▸ List.mem_map_of_mem hu)
      rw [if_neg hne, ih hrest hu]

theorem dmOf_updateDm_self (f : List Socket → List Socket) (h : c ∈ sockets users) :
    dmOf (updateSocketNode users c fun u => { u with dm := f u.dm }) c = f (dmOf users c) := by
  induction users with
  | nil => cases h
  | cons u users ih =>
    rw [updateSocketNode, dmOf_cons]
    by_cases hu : u.socket = c
    · rw [updateFirst_cons_of_pos (by simpa using hu), dmOf_cons, if_pos hu, if_pos hu]
    · rw [updateFirst_cons_of_neg (by simpa using hu), dmOf_cons, if_neg hu, if_neg hu]
      refine ih ((List.mem_cons.mp h).resolve_left fun heq => hu heq.symm)

theorem dmOf_updateSocketNode_of_ne {f : UserNode → UserNode}
    (hf : ∀ u, (f u).socket = u.socket) (h : a ≠ c) :
    dmOf (updateSocketNode users c f) a = dmOf users a := by
  induction users with
  | nil => rfl
  | cons u users ih =>
    rw [updateSocketNode, dmOf_cons]
    by_cases hu : u.socket = c
    · have hne : u.socket ≠ a := fun heq => h (heq.symm.trans hu)
      rw [updateFirst_cons_of_pos (by simpa using hu), dmOf_cons, hf, if_neg hne, if_neg hne]
    · rw [updateFirst_cons_of_neg (by simpa using hu), dmOf_cons]
      exact congrArg (if u.socket = a then u.dm else ·) ih

theorem dmOf_updateSocketNode {f : UserNode → UserNode} (hf : ∀ u, (f u).socket = u.socket)
    (hdm : ∀ u, (f u).dm = u.dm) : dmOf (updateSocketNode users c f) a = dmOf users a := by
  induction users with
  | nil => rfl
  | cons u users ih =>
    rw [updateSocketNode, dmOf_cons]
    by_cases hu : u.socket = c
    · rw [updateFirst_cons_of_pos (by simpa using hu), dmOf_cons, hf, hdm]
    · rw [updateFirst_cons_of_neg (by simpa using hu), dmOf_cons]
      exact congrArg (if u.socket = a then u.dm else ·) ih

theorem dmOf_removeAllDmsForUser (users : List UserNode) (u : UserNode) (a : Socket) :
    dmOf (removeAllDmsForUser users u) a = (dmOf users a).erase u.socket := by
  induction users with
  | nil => rfl
  | cons v users ih =>
    rw [removeAllDmsForUser, List.map_cons, dmOf_cons, dmOf_cons]
    by_cases hv : v.socket = a
    · rw [if_pos hv, if_pos hv]
    · rw [if_neg hv, if_neg hv]
      exact ih

theorem dmOf_removeUserBySocket (h : a ≠ c) :
    dmOf (removeUserBySocket users c) a = dmOf users a := by
  induction users with
  | nil => rfl
  | cons u users ih =>
    rw [removeUserBySocket, dmOf_cons]
    by_cases hu : u.socket = c
    · have hne : u.socket ≠ a := fun heq => h (heq.symm.trans hu)
      rw [List.eraseP_cons_of_pos (by simpa using hu), if_neg hne]
    · rw [List.eraseP_cons_of_neg (by simpa using hu), dmOf_cons]
      exact congrArg (if u.socket = a then u.dm else ·) ih

/-! ### The relation -/

/-- One node for each socket, `dm` lists of listed sockets, and each connection between two
sockets entered at most once and on both sides. -/
structure DmOk (users : List UserNode) : Prop where
  nodup : (sockets users).Nodup
  listed : ∀ a, ∀ d ∈ dmOf users a, d ∈ sockets users
  symm : ∀ a b, a ≠ b → (dmOf users a).count b = (dmOf users b).count a
  once : ∀ a b, a ≠ b → (dmOf users a).count b ≤ 1

theorem dmOk_nil : DmOk [] where
  nodup := List.nodup_nil
  listed _ _ := nofun
  symm _ _ _ := rfl
  once _ _ _ := Nat.zero_le 1

/-- A new node starts without connections. -/
theorem DmOk.insert (h : DmOk users) {u : UserNode} (hdm : u.dm = [])
    (hnew : u.socket ∉ sockets users) : DmOk (u :: users) := by
  have hsame : ∀ a, dmOf (u :: users) a = dmOf users a := by
    intro a
    rw [dmOf_cons]
    by_cases hu : u.socket = a
    · rw [if_pos hu, hdm, dmOf_of_notMem (hu ▸ hnew)]
    · rw [if_neg hu]
  refine ⟨List.nodup_cons.mpr ⟨hnew, h.nodup⟩, ?_, ?_, ?_⟩
  · intro a d hd
    rw [hsame] at hd
    exact List.mem_cons_of_mem _ (h.listed a d hd)
  · intro a b hab
    rw [hsame, hsame]
    exact h.symm a b hab
  · intro a b hab
    rw [hsame]
    exact h.once a b hab

/-- The lists with the same connections between different sockets. -/
theorem DmOk.congr (h : DmOk users) {users' : List UserNode}
    (hsockets : sockets users' = sockets users)
    (hdm : ∀ a, dmOf users' a = dmOf users a) : DmOk users' where
  nodup := hsockets ▸ h.nodup
  listed a d hd := hsockets ▸ h.listed a d (hdm a ▸ hd)
  symm a b hab := by
    rw [hdm, hdm]
    exact h.symm a b hab
  once a b hab := by
    rw [hdm]
    exact h.once a b hab

/-- The lists after the updates of both ends of a connection. -/
def updateBoth (users : List UserNode) (a b : Socket) (f : Socket → List Socket → List Socket) :
    List UserNode :=
  updateSocketNode (updateSocketNode users a fun u => { u with dm := f b u.dm }) b
    fun u => { u with dm := f a u.dm }

theorem sockets_updateBoth (users : List UserNode) (a b : Socket)
    (f : Socket → List Socket → List Socket) :
    sockets (updateBoth users a b f) = sockets users := by
  rw [updateBoth, sockets_updateSocketNode (by simp), sockets_updateSocketNode (by simp)]

/-- Between different sockets only the entries of `a` and `b` for each other change. -/
theorem count_dmOf_updateBoth {f : Socket → List Socket → List Socket}
    (hf : ∀ x y l, x ≠ y → (f x l).count y = l.count y)
    (ha : a ∈ sockets users) (hb : b ∈ sockets users) {x y : Socket} (hxy : x ≠ y) :
    (dmOf (updateBoth users a b f) x).count y =
      if (x = a ∧ y = b) ∨ (x = b ∧ y = a) then (f y (dmOf users x)).count y
      else (dmOf users x).count y := by
  have hsockets : sockets (updateSocketNode users a fun u => { u with dm := f b u.dm }) =
      sockets users := sockets_updateSocketNode (by simp) _ _
  by_cases hxb : x = b
  · subst hxb
    rw [updateBoth, dmOf_updateDm_self (f a) (hsockets ▸ hb)]
    by_cases hxa : x = a
    · subst hxa
      rw [dmOf_updateDm_self (f x) ha, hf x y _ hxy, hf x y _ hxy, if_neg]
      rintro (⟨-, h⟩ | ⟨-, h⟩) <;> exact hxy h.symm
    · rw [dmOf_updateSocketNode_of_ne (by simp) hxa]
      by_cases hya : y = a
      · subst hya
        rw [if_pos (Or.inr ⟨rfl, rfl⟩)]
      · rw [hf a y _ (Ne.symm hya), if_neg]
        rintro (⟨h, -⟩ | ⟨-, h⟩)
        · exact hxa h
        · exact hya h
  · rw [updateBoth, dmOf_updateSocketNode_of_ne (by simp) hxb]
    by_cases hxa : x = a
    · subst hxa
      rw [dmOf_updateDm_self (f b) ha]
      by_cases hyb : y = b
      · subst hyb
        rw [if_pos (Or.inl ⟨rfl, rfl⟩)]
      · rw [hf b y _ (Ne.symm hyb), if_neg]
        rintro (⟨-, h⟩ | ⟨h, -⟩)
        · exact hyb h
        · exact hxb h
    · rw [dmOf_updateSocketNode_of_ne (by simp) hxa, if_neg]
      rintro (⟨h, -⟩ | ⟨h, -⟩)
      · exact hxa h
      · exact hxb h

theorem mem_dmOf_updateDm {f : List Socket → List Socket} {x d : Socket}
    (hd : d ∈ dmOf (updateSocketNode users c fun u => { u with dm := f u.dm }) x) :
    d ∈ dmOf users x ∨ d ∈ f (dmOf users x) := by
  by_cases hx : x = c
  · subst hx
    by_cases hmem : x ∈ sockets users
    · rw [dmOf_updateDm_self f hmem] at hd
      exact Or.inr hd
    · have hnot : x ∉ sockets (updateSocketNode users x fun u => { u with dm := f u.dm }) := by
        rw [sockets_updateSocketNode (by simp)]
        exact hmem
      rw [dmOf_of_notMem hnot] at hd
      cases hd
  · rw [dmOf_updateSocketNode_of_ne (by simp) hx] at hd
    exact Or.inl hd

/-- An update of both ends that gives them the same number of entries, one at most. -/
theorem DmOk.updateBoth (h : DmOk users) {f : Socket → List Socket → List Socket}
    (hf : ∀ x y l, x ≠ y → (f x l).count y = l.count y)
    (hsub : ∀ x l, ∀ d ∈ f x l, d = x ∨ d ∈ l)
    (ha : a ∈ sockets users) (hb : b ∈ sockets users)
    (hends : a ≠ b → (f b (dmOf users a)).count b = (f a (dmOf users b)).count a ∧
      (f b (dmOf users a)).count b ≤ 1) : DmOk (updateBoth users a b f) where
  nodup := by
    rw [sockets_updateBoth]
    exact h.nodup
  listed x d hd := by
    rw [sockets_updateBoth]
    have hfirst : ∀ d ∈ dmOf (updateSocketNode users a fun u => { u with dm := f b u.dm }) x,
        d ∈ sockets users := by
      intro d hd
      rcases mem_dmOf_updateDm hd with hold | hnew
      · exact h.listed x d hold
      · rcases hsub b _ d hnew with rfl | hold
        · exact hb
        · exact h.listed x d hold
    rcases mem_dmOf_updateDm hd with hold | hnew
    · exact hfirst d hold
    · rcases hsub a _ d hnew with rfl | hold
      · exact ha
      · exact hfirst d hold
  symm x y hxy := by
    rw [count_dmOf_updateBoth hf ha hb hxy, count_dmOf_updateBoth hf ha hb hxy.symm]
    by_cases hfwd : x = a ∧ y = b
    · obtain ⟨rfl, rfl⟩ := hfwd
      rw [if_pos (Or.inl ⟨rfl, rfl⟩), if_pos (Or.inr ⟨rfl, rfl⟩)]
      exact (hends hxy).1
    · by_cases hback : x = b ∧ y = a
      · obtain ⟨rfl, rfl⟩ := hback
        rw [if_pos (Or.inr ⟨rfl, rfl⟩), if_pos (Or.inl ⟨rfl, rfl⟩)]
        exact (hends hxy.symm).1.symm
      · rw [if_neg (not_or.mpr ⟨hfwd, hback⟩), if_neg]
        · exact h.symm x y hxy
        · rintro (⟨hy, hx⟩ | ⟨hy, hx⟩)
          · exact hback ⟨hx, hy⟩
          · exact hfwd ⟨hx, hy⟩
  once x y hxy := by
    rw [count_dmOf_updateBoth hf ha hb hxy]
    split
    · rename_i hends'
      rcases hends' with ⟨rfl, rfl⟩ | ⟨rfl, rfl⟩
      · exact (hends hxy).2
      · have hboth := hends hxy.symm
        omega
    · exact h.once x y hxy

/-! ### The operations -/

theorem findSocketNode_eq_some {u : UserNode} (h : findSocketNode users a = some u) :
    a ∈ sockets users ∧ u.dm = dmOf users a := by
  constructor
  · by_contra hnot
    rw [findSocketNode_eq_none_iff.mpr hnot] at h
    cases h
  · rw [dmOf, h]
    rfl

theorem DmOk.add (h : DmOk users) (a b : Socket) : DmOk (addDmConnectionSocket users a b).1 := by
  rw [addDmConnectionSocket]
  split
  · rename_i u v hu hv
    obtain ⟨ha, hdm⟩ := findSocketNode_eq_some hu
    have hb := (findSocketNode_eq_some hv).1
    split
    · exact h
    · rename_i hnew
      rw [hdm] at hnew
      refine h.updateBoth (f := List.cons) ?_ ?_ ha hb ?_
      · intro x y l hxy
        exact List.count_cons_of_ne hxy
      · intro x l d hd
        exact List.mem_cons.mp hd
      · -- the other side has no entry either
        intro hab
        have hnone := List.count_eq_zero.mpr hnew
        have hsymm := h.symm a b hab
        rw [List.count_cons_self, List.count_cons_self]
        omega
  · exact h

theorem DmOk.remove (h : DmOk users) (a b : Socket) :
    DmOk (removeDmConnectionSocket users a b).1 := by
  rw [removeDmConnectionSocket]
  split
  · rename_i u v hu hv
    have ha := (findSocketNode_eq_some hu).1
    have hb := (findSocketNode_eq_some hv).1
    refine h.updateBoth (f := fun x l => l.erase x) ?_ ?_ ha hb ?_
    · intro x y l hxy
      exact List.count_erase_of_ne hxy.symm
    · intro x l d hd
      exact Or.inr (List.mem_of_mem_erase hd)
    · intro hab
      have hsymm := h.symm a b hab
      have honce := h.once a b hab
      rw [List.count_erase_self, List.count_erase_self]
      omega
  · exact h

/-- The lists of a user that leaves are those of the others without its entries. -/
theorem DmOk.dmOf_leave (h : DmOk users) {u : UserNode} (hu : u.socket = c) {x : Socket} :
    (x ≠ c → dmOf (removeUserBySocket (removeAllDmsForUser users u) c) x =
      (dmOf users x).erase c) ∧
    c ∉ dmOf (removeUserBySocket (removeAllDmsForUser users u) c) x := by
  have hother : x ≠ c → dmOf (removeUserBySocket (removeAllDmsForUser users u) c) x =
      (dmOf users x).erase c := by
    intro hx
    rw [dmOf_removeUserBySocket hx, dmOf_removeAllDmsForUser, hu]
  refine ⟨hother, ?_⟩
  by_cases hx : x = c
  · subst hx
    have hgone : x ∉ sockets (removeUserBySocket (removeAllDmsForUser users u) x) := by
      rw [sockets_removeUserBySocket, sockets_congr (keys_removeAllDmsForUser users u)]
      exact fun hmem => (List.Nodup.mem_erase_iff h.nodup).mp hmem |>.1 rfl
    rw [dmOf_of_notMem hgone]
    exact nofun
  · rw [hother hx, ← List.count_eq_zero, List.count_erase_self]
    have := h.once x c hx
    omega

theorem DmOk.leave (h : DmOk users) {u : UserNode} (hu : u.socket = c) :
    DmOk (removeUserBySocket (removeAllDmsForUser users u) c) := by
  have hsockets : sockets (removeUserBySocket (removeAllDmsForUser users u) c) =
      (sockets users).erase c := by
    rw [sockets_removeUserBySocket, sockets_congr (keys_removeAllDmsForUser users u)]
  have hcount : ∀ x y, x ≠ c → y ≠ c →
      (dmOf (removeUserBySocket (removeAllDmsForUser users u) c) x).count y =
        (dmOf users x).count y := by
    intro x y hx hy
    rw [(h.dmOf_leave hu).1 hx, List.count_erase_of_ne hy]
  have hgone : ∀ x, (dmOf (removeUserBySocket (removeAllDmsForUser users u) c) x).count c = 0 :=
    fun x => List.count_eq_zero.mpr (h.dmOf_leave hu).2
  have hnil : dmOf (removeUserBySocket (removeAllDmsForUser users u) c) c = [] := by
    apply dmOf_of_notMem
    rw [hsockets]
    exact fun hmem => (List.Nodup.mem_erase_iff h.nodup).mp hmem |>.1 rfl
  refine ⟨?_, ?_, ?_, ?_⟩
  · rw [hsockets]
    exact h.nodup.erase c
  · intro x d hd
    have hdc : d ≠ c := fun heq => (h.dmOf_leave hu).2 (heq ▸ hd)
    have hxc : x ≠ c := by
      intro heq
      subst heq
      rw [hnil] at hd
      cases hd
    rw [hsockets, List.mem_erase_of_ne hdc]
    rw [(h.dmOf_leave hu).1 hxc] at hd
    exact h.listed x d (List.mem_of_mem_erase hd)
  · intro x y hxy
    by_cases hx : x = c
    · rw [hx, hnil, hgone]
      rfl
    · by_cases hy : y = c
      · rw [hy, hnil, hgone]
        rfl
      · rw [hcount x y hx hy, hcount y x hy hx]
        exact h.symm x y hxy
  · intro x y hxy
    by_cases hx : x = c
    · rw [hx, hnil]
      exact Nat.zero_le 1
    · by_cases hy : y = c
      · rw [hy, hgone]
        exact Nat.zero_le 1
      · rw [hcount x y hx hy]
        exact h.once x y hxy

end OsLabs.Chat
