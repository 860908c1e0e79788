import OsLabs.Chat.List
import OsLabs.Lib.Decimal

/-!
# Chat server: listings in a buffer

`list_rooms_to_buffer` and `list_users_to_buffer` append two strings for each node, with bounds in
`size_t` arithmetic.  The bound of the first one assumes two free bytes, but the second one may
have left a single one, and then the bound of the next iteration wraps around.
-/

namespace OsLabs.Chat

open OsLabs.Lib

/-! ### Appending within a bound -/

def strlen (s : CString) : BitVec 64 := BitVec.ofNat 64 s.length

/-- At most `n` bytes of `src`, behind `dest`. -/
def strncat (dest src : CString) (n : BitVec 64) : CString := dest ++ src.take n.toNat

/-- `buflen - strlen(buf) - slack` -/
def spaceLeft (buflen : BitVec 64) (buf : CString) (slack : BitVec 64) : BitVec 64 :=
  buflen - strlen buf - slack

/-- The expression has the value that it has without wrap-around. -/
def NoWrap (buflen : BitVec 64) (buf : CString) (slack : BitVec 64) : Prop :=
  ((spaceLeft buflen buf slack).toNat : ℤ) = buflen.toNat - buf.length - slack.toNat

theorem noWrap_iff {buflen slack : BitVec 64} {buf : CString} :
    NoWrap buflen buf slack ↔ buf.length + slack.toNat ≤ buflen.toNat := by
  have hbuflen := buflen.isLt
  have hslack := slack.isLt
  rw [NoWrap, spaceLeft, strlen, BitVec.toNat_sub, BitVec.toNat_sub, BitVec.toNat_ofNat]
  constructor
  · intro h
    omega
  · intro h
    omega

theorem toNat_spaceLeft {buflen slack : BitVec 64} {buf : CString}
    (h : buf.length + slack.toNat ≤ buflen.toNat) :
    (spaceLeft buflen buf slack).toNat = buflen.toNat - buf.length - slack.toNat := by
  have := noWrap_iff.mpr h
  rw [NoWrap] at this
  omega

/-- An append whose bound does not wrap around fills the buffer up to the slack at most. -/
theorem length_strncat {buflen slack : BitVec 64} {buf : CString} (src : CString)
    (h : buf.length + slack.toNat ≤ buflen.toNat) :
    (strncat buf src (spaceLeft buflen buf slack)).length =
      min (buf.length + src.length) (buflen.toNat - slack.toNat) := by
  rw [strncat, List.length_append, List.length_take, toNat_spaceLeft h]
  omega

/-! ### The loops -/

section

variable {α : Type*} (name tail : α → CString) (buflen : BitVec 64)

/-- The first `strncat` of an iteration. -/
def appendName (buf : CString) (cur : α) : CString :=
  strncat buf (name cur) (spaceLeft buflen buf 2)

/-- An iteration of the loop. -/
def appendNode (buf : CString) (cur : α) : CString :=
  let buf := appendName name buflen buf cur
  strncat buf (tail cur) (spaceLeft buflen buf 1)

/-- What is in the buffer after the loop over the nodes. -/
def listToBuffer (nodes : List α) : CString := nodes.foldl (appendNode name tail buflen) []

/-- An iteration evaluates its bounds without wrap-around, and stays in the buffer. -/
structure StepInBuffer (buf : CString) (cur : α) : Prop where
  noWrapName : NoWrap buflen buf 2
  afterName : (appendName name buflen buf cur).length ≤ buflen.toNat - 1
  noWrapTail : NoWrap buflen (appendName name buflen buf cur) 1
  afterTail : (appendNode name tail buflen buf cur).length ≤ buflen.toNat - 1

/-- Every iteration of the loop over the nodes does. -/
def StaysInBuffer (nodes : List α) : Prop :=
  ∀ before cur after, nodes = before ++ cur :: after →
    StepInBuffer name tail buflen (listToBuffer name tail buflen before) cur

/-- The length of the whole text. -/
def textLength (nodes : List α) : ℕ :=
  (nodes.map fun cur => (name cur).length + (tail cur).length).sum

end

/-- `snprintf(tmp, sizeof(tmp), " (socket %d)\n", cur->socket)` -/
def socketText (cur : UserNode) : CString :=
  strncpy 64 (" (socket ".toList ++ decimal cur.socket.toInt ++ ")\n".toList)

/-- The second string of an iteration of `list_rooms_to_buffer`. -/
def newline (_ : RoomNode) : CString := ['\n']

/-- What `list_rooms_to_buffer` leaves in the buffer. -/
def listRoomsToBuffer (rooms : List RoomNode) (buflen : BitVec 64) : CString :=
  listToBuffer RoomNode.roomname newline buflen rooms

/-- What `list_users_to_buffer` leaves in the buffer. -/
def listUsersToBuffer (users : List UserNode) (buflen : BitVec 64) : CString :=
  listToBuffer UserNode.username socketText buflen users

/-! ### How full the buffer is -/

section

variable {α : Type*} {name tail : α → CString} {buflen : BitVec 64}

theorem textLength_concat (nodes : List α) (cur : α) :
    textLength name tail (nodes ++ [cur]) =
      textLength name tail nodes + ((name cur).length + (tail cur).length) := by
  rw [textLength, List.map_append, List.sum_append]
  simp [textLength]

variable (name tail) in
theorem textLength_le_of_prefix {nodes nodes' : List α} (h : nodes <+: nodes') :
    textLength name tail nodes ≤ textLength name tail nodes' := by
  obtain ⟨rest, rfl⟩ := h
  rw [textLength, textLength, List.map_append, List.sum_append]
  omega

variable (name) in
theorem length_appendName {buf : CString} (cur : α) (h : buf.length + 2 ≤ buflen.toNat) :
    (appendName name buflen buf cur).length =
      min (buf.length + (name cur).length) (buflen.toNat - 2) :=
  length_strncat (name cur) h

/-- In a buffer with one free byte the bound wraps around, and nothing of the name is left out. -/
theorem length_appendName_of_full {buf : CString} (cur : α) (h : buf.length + 1 = buflen.toNat)
    (hname : (name cur).length < 2 ^ 64) :
    ¬ NoWrap buflen buf 2 ∧
      (appendName name buflen buf cur).length = buf.length + (name cur).length := by
  have htwo : (2 : BitVec 64).toNat = 2 := rfl
  have hbound : (spaceLeft buflen buf 2).toNat = 2 ^ 64 - 1 := by
    rw [spaceLeft, strlen, BitVec.toNat_sub, BitVec.toNat_sub, BitVec.toNat_ofNat, htwo]
    have := buflen.isLt
    omega
  refine ⟨fun hwrap => ?_, ?_⟩
  · rw [noWrap_iff, htwo] at hwrap
    omega
  · rw [appendName, strncat, List.length_append, List.length_take, hbound]
    omega

variable (htail : ∀ cur, tail cur ≠ [])

include htail

variable (name) in
/-- An iteration that starts with two free bytes appends what fits. -/
theorem length_appendNode {buf : CString} (cur : α) (h : buf.length + 2 ≤ buflen.toNat) :
    (appendNode name tail buflen buf cur).length =
      min (buf.length + ((name cur).length + (tail cur).length)) (buflen.toNat - 1) := by
  have hname := length_appendName name cur h
  have hpos := List.length_pos_iff.mpr (htail cur)
  have hfree : (appendName name buflen buf cur).length + (1 : BitVec 64).toNat ≤ buflen.toNat := by
    show (appendName name buflen buf cur).length + 1 ≤ buflen.toNat
    omega
  have hnode := length_strncat (tail cur) hfree
  have hone : (1 : BitVec 64).toNat = 1 := rfl
  rw [appendNode, hnode, hone]
  omega

theorem stepInBuffer_iff {buf : CString} (cur : α) :
    StepInBuffer name tail buflen buf cur ↔ buf.length + 2 ≤ buflen.toNat := by
  constructor
  · intro h
    exact noWrap_iff.mp h.noWrapName
  · intro h
    have hname := length_appendName name cur h
    have hnode := length_appendNode name htail cur h
    refine ⟨noWrap_iff.mpr h, by omega, noWrap_iff.mpr ?_, by omega⟩
    show (appendName name buflen buf cur).length + 1 ≤ buflen.toNat
    omega

/-- As long as the text of all nodes but the last leaves two bytes free, the buffer holds what
fits of the whole text. -/
theorem length_listToBuffer {nodes : List α}
    (h : textLength name tail nodes.dropLast + 2 ≤ buflen.toNat) :
    (listToBuffer name tail buflen nodes).length =
      min (textLength name tail nodes) (buflen.toNat - 1) := by
  induction nodes using List.reverseRecOn with
  | nil => exact (Nat.zero_min _).symm
  | append_singleton nodes cur ih =>
    rw [List.dropLast_concat] at h
    have hprefix := textLength_le_of_prefix name tail
      (List.dropLast_prefix nodes)
    have hbefore := ih (by omega)
    have hfull : (listToBuffer name tail buflen nodes).length = textLength name tail nodes := by
      omega
    rw [listToBuffer, List.foldl_append, List.foldl_cons, List.foldl_nil, ← listToBuffer,
      length_appendNode name htail cur (by omega), hfull, textLength_concat]

/-- **A listing in its buffer.**  The loop stays in the buffer and its bounds do not wrap around
if and only if the text of all nodes but the last leaves two bytes free. -/
theorem staysInBuffer_iff (hbuflen : 2 ≤ buflen.toNat) (nodes : List α) :
    StaysInBuffer name tail buflen nodes ↔
      textLength name tail nodes.dropLast + 2 ≤ buflen.toNat := by
  constructor
  · intro hstays
    induction nodes using List.reverseRecOn with
    | nil => exact hbuflen
    | append_singleton nodes cur ih =>
      have hprefix := ih fun before cur' after hsplit =>
        hstays before cur' (after ++ [cur]) (by rw [hsplit, List.append_assoc, List.cons_append])
      have hlast := (stepInBuffer_iff htail cur).mp (hstays nodes cur [] rfl)
      rw [length_listToBuffer htail hprefix] at hlast
      rw [List.dropLast_concat]
      omega
  · intro hfree before cur after hsplit
    rw [stepInBuffer_iff htail]
    have hprefix : before <+: nodes.dropLast := by
      rw [hsplit, List.dropLast_append_of_ne_nil (List.cons_ne_nil cur after)]
      exact List.prefix_append _ _
    have hle := textLength_le_of_prefix name tail hprefix
    have hle' := textLength_le_of_prefix name tail
      (List.dropLast_prefix before)
    rw [length_listToBuffer htail (by omega)]
    omega

end

theorem newline_ne_nil (cur : RoomNode) : newline cur ≠ [] := List.cons_ne_nil '\n' []

theorem socketText_ne_nil (cur : UserNode) : socketText cur ≠ [] := by
  intro hnil
  have hhead := congrArg List.head? hnil
  cases hhead

/-- **The two listings.**  Every iteration stays in the buffer and evaluates its bounds without
wrap-around, if and only if the text of all nodes but the last leaves two bytes free. -/
theorem listings_stayInBuffer_iff (rooms : List RoomNode) (users : List UserNode)
    (buflen : BitVec 64) (hbuflen : 2 ≤ buflen.toNat) :
    ((∀ before cur after, rooms = before ++ cur :: after →
        StepInBuffer RoomNode.roomname newline buflen (listRoomsToBuffer before buflen) cur) ↔
      textLength RoomNode.roomname newline rooms.dropLast + 2 ≤ buflen.toNat) ∧
    ((∀ before cur after, users = before ++ cur :: after →
        StepInBuffer UserNode.username socketText buflen (listUsersToBuffer before buflen) cur) ↔
      textLength UserNode.username socketText users.dropLast + 2 ≤ buflen.toNat) :=
  ⟨staysInBuffer_iff newline_ne_nil hbuflen rooms,
    staysInBuffer_iff socketText_ne_nil hbuflen users⟩

theorem listings_stayInBuffer_sample :
    let rooms : List RoomNode := [⟨['a'], []⟩, ⟨['b'], []⟩]
    let users : List UserNode := [⟨['c'], 5, []⟩]
    ((∀ before cur after, rooms = before ++ cur :: after →
        StepInBuffer RoomNode.roomname newline 4096 (listRoomsToBuffer before 4096) cur) ↔
      textLength RoomNode.roomname newline rooms.dropLast + 2 ≤ (4096 : BitVec 64).toNat) ∧
    ((∀ before cur after, users = before ++ cur :: after →
        StepInBuffer UserNode.username socketText 4096 (listUsersToBuffer before 4096) cur) ↔
      textLength UserNode.username socketText users.dropLast + 2 ≤ (4096 : BitVec 64).toNat) :=
  listings_stayInBuffer_iff _ _ 4096 (by decide)

/-- 82 names of 49 bytes fill the 4096 bytes, and the bound for the next one wraps around. -/
theorem fullBuffer_overflows :
    let r : RoomNode := ⟨List.replicate 49 'a', []⟩
    let buf := listRoomsToBuffer (List.replicate 82 r) 4096
    ¬ NoWrap 4096 buf 2 ∧ 4095 < (appendName RoomNode.roomname 4096 buf r).length := by
  intro r buf
  have htext (k : ℕ) : textLength RoomNode.roomname newline (List.replicate k r) = k * 50 := by
    rw [textLength, List.map_replicate, List.sum_replicate]
    rfl
  have hbuflen : (4096 : BitVec 64).toNat = 4096 := rfl
  have hfull : buf.length + 1 = (4096 : BitVec 64).toNat := by
    have hfree : textLength RoomNode.roomname newline (List.replicate 82 r).dropLast + 2 ≤
        (4096 : BitVec 64).toNat := by
      rw [List.dropLast_replicate, htext]
      decide
    have hlength : buf.length = min _ _ := length_listToBuffer newline_ne_nil hfree
    rw [hlength, htext]
    rfl
  have hname : r.roomname.length = 49 := rfl
  obtain ⟨hwrap, hnext⟩ : ¬ NoWrap 4096 buf 2 ∧
      (appendName RoomNode.roomname 4096 buf r).length = buf.length + r.roomname.length :=
    length_appendName_of_full r hfull (by omega)
  refine ⟨hwrap, ?_⟩
  rw [hnext]
  omega

end OsLabs.Chat
