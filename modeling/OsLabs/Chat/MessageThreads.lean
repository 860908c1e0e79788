import OsLabs.Chat.Threads
import OsLabs.Chat.Tokens
import OsLabs.Lib.Projection

/-!
# Chat server: the threads and the position of `strtok`

The threads from the bytes of the messages on.  `strtok` keeps its position in a static variable
that no lock protects: a call with `NULL` goes on in the `cmd` of the thread that called `strtok`
last, and its result points into this `cmd`.  Where no two threads cut messages at the same time,
each thread gets the tokens of its own messages, and the threads are those with tokens ready made.
Behind an overlap of two loops the tokens may change while a task uses them; the model reads them
where the loop ends, and says nothing about such runs.
-/

namespace OsLabs.Chat

open OsLabs.Lib OsLabs.Lib.Monitor

variable {n : ℕ}

/-- The descriptor of each connection, what `cmd` of its thread holds at first, and the bytes that
`recv` returns, call by call; there are none when `received <= 0`. -/
structure Messages (n : ℕ) where
  client : Fin n → Socket
  cmd : Fin n → List Char
  message : Fin n → ℕ → List Char

/-- The thread in whose `cmd` a pointer points, and the offset there. -/
abbrev Address (n : ℕ) := Fin n × ℕ

/-- The globals of the server, the buffers of the threads, and the position of `strtok`. -/
structure MessageShared (n : ℕ) where
  chat : ChatShared n
  cmd : Fin n → List Char
  sbuffer : Fin n → CString
  save : Option (Address n)

namespace MessageShared

/-- Both `strcpy` of the message. -/
def copy (d : MessageShared n) (t : Fin n) (buffer : CString) : MessageShared n :=
  { d with
    cmd := Function.update d.cmd t (fillCmd (d.cmd t) buffer)
    sbuffer := Function.update d.sbuffer t buffer }

/-- What a call of `strtok` leaves in the `cmd` of `u`. -/
def cut (d : MessageShared n) (u : Fin n) (r : Strtok) : MessageShared n :=
  { d with cmd := Function.update d.cmd u r.mem, save := some (u, r.save) }

def trim (d : MessageShared n) (u : Fin n) (mem : List Char) : MessageShared n :=
  { d with cmd := Function.update d.cmd u mem }

def setChat (d : MessageShared n) (c : ChatShared n) : MessageShared n := { d with chat := c }

/-- The string at an address. -/
def string (d : MessageShared n) (p : Address n) : CString := stringAt (d.cmd p.1) p.2

end MessageShared

/-- The next statement of a thread: one that cuts message number `k`, or another one. -/
inductive MessageLoc (n : ℕ)
  /-- `arguments[0] = strtok(cmd, delimiters_local)` -/
  | first (k : ℕ)
  /-- `while (arguments[i] != NULL)`, and in the loop `arguments[++i] = strtok(NULL, ..)`; the
  entries before `arguments[i]`, and this entry. -/
  | next (k : ℕ) (arguments : List (Address n)) (current : Option (Address n))
  /-- `strcpy(arguments[i-1], trimwhitespace(arguments[i-1]))` at the entry `p`. -/
  | trim (k : ℕ) (arguments : List (Address n)) (p : Address n) (current : Option (Address n))
  | chat (l : ChatLoc)
  deriving DecidableEq

abbrev MessageAction (n : ℕ) := Action RwMutex Empty (MessageShared n) (MessageLoc n)

namespace Messages

variable (cfg : Messages n)

/-- The connections, for the statements that receive nothing. -/
def quiet : Scenario n := ⟨cfg.client, fun _ _ => none⟩

end Messages

/-- `recv` and the copies of the message, and then the other statements. -/
def chatMessageCode (cfg : Messages n) (t : Fin n) (d : MessageShared n) :
    ChatLoc → List (MessageAction n)
  | .recv k =>
    if cfg.message t k = [] then [.exec d (.chat (.start .hangup k))]
    else [.exec (d.copy t (messageText (cfg.message t k))) (.first k)]
  | l => (chatCode cfg.quiet t l d.chat).map (Action.map d.setChat .chat)

def messageCode (cfg : Messages n) (t : Fin n) :
    MessageLoc n → MessageShared n → List (MessageAction n)
  | .first k, d =>
    let first := strtok isDelimiter (d.cmd t) 0
    [.exec (d.cut t first) (.next k [] (first.token.map (t, ·)))]
  | .next k arguments none, d =>
    [.exec d (.chat (.start (.request (requestOf ⟨arguments.map d.string, d.sbuffer t⟩)) k))]
  | .next k arguments (some p), d =>
    match d.save with
    | some (u, save) =>
      let next := strtok isDelimiter (d.cmd u) save
      if arguments.length + 1 < 80 then
        [.exec (d.cut u next) (.trim k arguments p (next.token.map (u, ·)))]
      else []
    | none => []
  | .trim k arguments p current, d =>
    match trimInPlace (d.cmd p.1) p.2 with
    | some mem => [.exec (d.trim p.1 mem) (.next k (arguments ++ [p]) current)]
    | none => []
  | .chat l, d => chatMessageCode cfg t d l

/-- The server after `init_default_room`, with the connections to come. -/
def messageThreads (cfg : Messages n) :
    Program (Fin n) RwMutex Empty (MessageShared n) fun _ => MessageLoc n where
  start _ := .chat .accept
  data := ⟨(chatThreads cfg.quiet).data, cfg.cmd, fun _ => [], none⟩
  code := messageCode cfg
  spurious := false

abbrev MessageState (n : ℕ) :=
  State (Fin n) RwMutex Empty (MessageShared n) fun _ => MessageLoc n

/-- From the first call of `strtok` for a message to the end of the loop. -/
def MessageLoc.Cutting : MessageLoc n → Prop
  | .next _ _ _ | .trim _ _ _ _ => True
  | .first _ | .chat _ => False

instance decidableCutting : DecidablePred (MessageLoc.Cutting (n := n))
  | .next _ _ _ | .trim _ _ _ _ => inferInstanceAs (Decidable True)
  | .first _ | .chat _ => inferInstanceAs (Decidable False)

/-- No two threads are cutting. -/
def CutApart (s : MessageState n) : Prop :=
  ∀ t u, (s.loc t).Cutting → (s.loc u).Cutting → t = u

instance decidableCutApart : DecidablePred (CutApart (n := n)) :=
  fun s => inferInstanceAs (Decidable (∀ t u, (s.loc t).Cutting → (s.loc u).Cutting → t = u))

/-! ### What each statement does -/

/-- The statements of a thread, by location. -/
inductive MessageStatement (cfg : Messages n) (t : Fin n) (d : MessageShared n) :
    MessageLoc n → MessageAction n → Prop
  | hangup {k : ℕ} : cfg.message t k = [] →
      MessageStatement cfg t d (.chat (.recv k)) (.exec d (.chat (.start .hangup k)))
  | receive {k : ℕ} : cfg.message t k ≠ [] →
      MessageStatement cfg t d (.chat (.recv k))
        (.exec (d.copy t (messageText (cfg.message t k))) (.first k))
  | first {k : ℕ} {r : Strtok} : strtok isDelimiter (d.cmd t) 0 = r →
      MessageStatement cfg t d (.first k)
        (.exec (d.cut t r) (.next k [] (r.token.map (t, ·))))
  | leave {k : ℕ} {arguments : List (Address n)} :
      MessageStatement cfg t d (.next k arguments none)
        (.exec d
          (.chat (.start (.request (requestOf ⟨arguments.map d.string, d.sbuffer t⟩)) k)))
  | next {k : ℕ} {arguments : List (Address n)} {p : Address n} {u : Fin n} {save : ℕ}
      {r : Strtok} : d.save = some (u, save) → strtok isDelimiter (d.cmd u) save = r →
      arguments.length + 1 < 80 →
      MessageStatement cfg t d (.next k arguments (some p))
        (.exec (d.cut u r) (.trim k arguments p (r.token.map (u, ·))))
  | trim {k : ℕ} {arguments : List (Address n)} {p : Address n} {current : Option (Address n)}
      {mem : List Char} : trimInPlace (d.cmd p.1) p.2 = some mem →
      MessageStatement cfg t d (.trim k arguments p current)
        (.exec (d.trim p.1 mem) (.next k (arguments ++ [p]) current))
  | chat {l : ChatLoc} {a : ChatAction n} : (∀ k, l ≠ .recv k) →
      a ∈ chatCode cfg.quiet t l d.chat →
      MessageStatement cfg t d (.chat l) (a.map d.setChat .chat)

theorem messageStatement_of_mem {cfg : Messages n} {t : Fin n} {l : MessageLoc n}
    {d : MessageShared n} {a : MessageAction n} (ha : a ∈ messageCode cfg t l d) :
    MessageStatement cfg t d l a := by
  cases l with
  | first k =>
    obtain rfl := List.mem_singleton.mp ha
    exact .first rfl
  | next k arguments current =>
    cases current with
    | none =>
      obtain rfl := List.mem_singleton.mp ha
      exact .leave
    | some p =>
      rw [messageCode] at ha
      split at ha
      · rename_i u save hsave
        dsimp only at ha
        split at ha
        · rename_i hroom
          obtain rfl := List.mem_singleton.mp ha
          exact .next hsave rfl hroom
        · cases ha
      · cases ha
  | trim k arguments p current =>
    rw [messageCode] at ha
    split at ha
    · rename_i mem htrim
      obtain rfl := List.mem_singleton.mp ha
      exact .trim htrim
    · cases ha
  | chat l =>
    rw [messageCode] at ha
    by_cases hrecv : ∃ k, l = .recv k
    · obtain ⟨k, rfl⟩ := hrecv
      rw [chatMessageCode] at ha
      split at ha
      · rename_i hempty
        obtain rfl := List.mem_singleton.mp ha
        exact .hangup hempty
      · rename_i hsome
        obtain rfl := List.mem_singleton.mp ha
        exact .receive hsome
    · have hne : ∀ k, l ≠ .recv k := fun k hk => hrecv ⟨k, hk⟩
      rw [chatMessageCode.eq_2 _ _ _ _ hne] at ha
      obtain ⟨b, hb, rfl⟩ := List.mem_map.mp ha
      exact .chat hne hb

variable {cfg : Messages n} {t : Fin n} {l : MessageLoc n} {d : MessageShared n}
  {a : MessageAction n}

/-- The other statements leave the messages alone. -/
theorem effect_chat (b : ChatAction n) (d : MessageShared n) :
    (b.map d.setChat (MessageLoc.chat (n := n))).effect d = d.setChat (b.effect d.chat) :=
  b.effect_map d.setChat MessageLoc.chat d.chat

/-! ### A thread that cuts alone -/

/-- The message in `sbuffer`. -/
structure Copied (cfg : Messages n) (t : Fin n) (d : MessageShared n) (k : ℕ) : Prop where
  some : cfg.message t k ≠ []
  sbuffer : d.sbuffer t = messageText (cfg.message t k)

/-- A thread, its `cmd` and the position of `strtok` against the loop of this message alone. -/
inductive Cuts (cfg : Messages n) (t : Fin n) (d : MessageShared n) : MessageLoc n → Prop
  | first {k : ℕ} {cmd : List Char} : Copied cfg t d k →
      d.cmd t = fillCmd cmd (messageText (cfg.message t k)) → Cuts cfg t d (.first k)
  | next {k : ℕ} {cmd : List Char} {s : TokenState} : Copied cfg t d k →
      Passes cmd (cfg.message t k) s → d.cmd t = s.cmd → d.save = some (t, s.save) →
      Cuts cfg t d (.next k (s.arguments.map (t, ·)) (s.current.map (t, ·)))
  | trim {k : ℕ} {cmd : List Char} {s : TokenState} {p : ℕ} {r : Strtok} : Copied cfg t d k →
      Passes cmd (cfg.message t k) s → s.current = some p → s.arguments.length + 1 < 80 →
      strtok isDelimiter s.cmd s.save = r → d.cmd t = r.mem → d.save = some (t, r.save) →
      Cuts cfg t d (.trim k (s.arguments.map (t, ·)) (t, p) (r.token.map (t, ·)))
  | chat {l : ChatLoc} : Cuts cfg t d (.chat l)

namespace Cuts

/-- The other threads do not matter as long as they leave the `cmd` and the position alone. -/
theorem of_eq (h : Cuts cfg t d l) {d' : MessageShared n} (hcmd : d'.cmd t = d.cmd t)
    (hsbuffer : d'.sbuffer t = d.sbuffer t) (hsave : l.Cutting → d'.save = d.save) :
    Cuts cfg t d' l := by
  have hcopied : ∀ {k : ℕ}, Copied cfg t d k → Copied cfg t d' k :=
    fun hk => ⟨hk.some, hsbuffer.trans hk.sbuffer⟩
  cases h with
  | first hk hfill => exact .first (hcopied hk) (hcmd.trans hfill)
  | next hk hpasses hmem hpos =>
    exact .next (hcopied hk) hpasses (hcmd.trans hmem) ((hsave trivial).trans hpos)
  | trim hk hpasses hcurrent hroom hcut hmem hpos =>
    exact .trim (hcopied hk) hpasses hcurrent hroom hcut (hcmd.trans hmem)
      ((hsave trivial).trans hpos)
  | chat => exact .chat

theorem exists_of_next {k : ℕ} {arguments : List (Address n)} {current : Option (Address n)}
    (h : Cuts cfg t d (.next k arguments current)) :
    ∃ cmd s, Copied cfg t d k ∧ Passes cmd (cfg.message t k) s ∧ d.cmd t = s.cmd ∧
      d.save = some (t, s.save) ∧ arguments = s.arguments.map (t, ·) ∧
      current = s.current.map (t, ·) := by
  generalize hl : MessageLoc.next k arguments current = l at h
  cases h with
  | @next k' cmd s hk hpasses hmem hpos =>
    obtain ⟨rfl, rfl, rfl⟩ := MessageLoc.next.inj hl
    exact ⟨cmd, s, hk, hpasses, hmem, hpos, rfl, rfl⟩
  | _ => cases hl

/-- A thread goes on with the loop of its message. -/
theorem step (h : Cuts cfg t d l) (ha : a ∈ messageCode cfg t l d) :
    Cuts cfg t (a.effect d) a.next := by
  cases messageStatement_of_mem ha with
  | hangup hempty => exact .chat
  | leave => exact .chat
  | chat hne hb =>
    rw [Action.next_map]
    exact .chat
  | receive hsome =>
    exact .first ⟨hsome, Function.update_self _ _ _⟩ (Function.update_self _ _ _)
  | @first k r hcut =>
    cases h with
    | @first _ cmd hk hfill =>
      rw [hfill] at hcut
      subst hcut
      exact .next (s := firstToken (fillCmd cmd (messageText (cfg.message t k))))
        ⟨hk.some, hk.sbuffer⟩ (passes_firstToken cmd _) (Function.update_self _ _ _) rfl
  | next hsave hcut hroom =>
    obtain ⟨cmd, s, hk, hpasses, hmem, hpos, rfl, hcurrent⟩ := h.exists_of_next
    obtain ⟨q, hq, rfl⟩ := Option.map_eq_some_iff.mp hcurrent.symm
    rw [hsave] at hpos
    obtain ⟨rfl, rfl⟩ := Prod.mk.inj (Option.some.inj hpos)
    rw [hmem] at hcut
    rw [List.length_map] at hroom
    exact .trim ⟨hk.some, hk.sbuffer⟩ hpasses hq hroom hcut (Function.update_self _ _ _) rfl
  | @trim k arguments p current mem htrim =>
    generalize hl : MessageLoc.trim k arguments p current = l at h
    cases h with
    | @trim k' cmd s q r hk hpasses hcurrent hroom hcut hmem hpos =>
      obtain ⟨rfl, rfl, rfl, rfl⟩ := MessageLoc.trim.inj hl
      have hnext : nextToken s = some ⟨mem, r.save, s.arguments ++ [q], r.token⟩ := by
        rw [nextToken, hcurrent]
        dsimp only
        rw [if_pos hroom, hcut, ← hmem, htrim, Option.map_some]
      have hne : s.current ≠ none := hcurrent ▸ Option.some_ne_none q
      have happend : s.arguments.map (t, ·) ++ [(t, q)] = (s.arguments ++ [q]).map (t, ·) := by
        rw [List.map_append, List.map_singleton]
      show Cuts cfg t _ (.next k (s.arguments.map (t, ·) ++ [(t, q)]) (r.token.map (t, ·)))
      rw [happend]
      exact .next (s := ⟨mem, r.save, s.arguments ++ [q], r.token⟩) ⟨hk.some, hk.sbuffer⟩
        (hpasses.next hne hnext) (Function.update_self _ _ _) hpos
    | _ => cases hl

/-- A thread that follows its own loop leaves the `cmd` of the others, and also the position
unless it is cutting itself. -/
theorem frame (h : Cuts cfg t d l) (ha : a ∈ messageCode cfg t l d) {u : Fin n} (hu : u ≠ t) :
    (a.effect d).cmd u = d.cmd u ∧ (a.effect d).sbuffer u = d.sbuffer u ∧
      (¬ a.next.Cutting → (a.effect d).save = d.save) := by
  cases messageStatement_of_mem ha with
  | hangup hempty => exact ⟨rfl, rfl, fun _ => rfl⟩
  | leave => exact ⟨rfl, rfl, fun _ => rfl⟩
  | @chat l b hne hb =>
    rw [effect_chat]
    exact ⟨rfl, rfl, fun _ => rfl⟩
  | receive hsome =>
    exact ⟨Function.update_of_ne hu _ _, Function.update_of_ne hu _ _, fun _ => rfl⟩
  | first hcut => exact ⟨Function.update_of_ne hu _ _, rfl, fun hnot => absurd trivial hnot⟩
  | next hsave hcut hroom =>
    obtain ⟨cmd, s, hk, hpasses, hmem, hpos, -, -⟩ := h.exists_of_next
    rw [hsave] at hpos
    obtain ⟨rfl, -⟩ := Prod.mk.inj (Option.some.inj hpos)
    exact ⟨Function.update_of_ne hu _ _, rfl, fun hnot => absurd trivial hnot⟩
  | @trim k arguments p current mem htrim =>
    cases h with
    | trim hk hpasses hcurrent hroom hcut hmem hpos =>
      exact ⟨Function.update_of_ne hu _ _, rfl, fun hnot => absurd trivial hnot⟩

end Cuts

/-- The runs in which no two threads cut at the same time. -/
abbrev apartMachine (cfg : Messages n) : Machine (MessageState n) (Fin n) :=
  (messageThreads cfg).machine.within CutApart

variable {s : MessageState n}

theorem cuts_of_reachable (h : (apartMachine cfg).Reachable s) (t : Fin n) :
    Cuts cfg t s.data (s.loc t) := by
  refine h.invariant (I := fun s => ∀ t, Cuts cfg t s.data (s.loc t)) (fun _ => .chat) ?_ t
  intro s t s' hs ih hstep u
  obtain ⟨a, ha, hacts⟩ := Step.acts_of_isEmpty hs.of_within hstep.1
  rw [hacts.data, hacts.loc]
  by_cases hu : u = t
  · subst hu
    rw [Function.update_self]
    exact (ih u).step ha
  · rw [Function.update_of_ne hu]
    obtain ⟨hcmd, hsbuffer, hsave⟩ := (ih t).frame ha hu
    refine (ih u).of_eq hcmd hsbuffer fun hcutting => hsave fun hnext => hu ?_
    refine hstep.2 u t ?_ ?_
    · rw [hacts.loc, Function.update_of_ne hu]
      exact hcutting
    · rw [hacts.loc, Function.update_self]
      exact hnext

/-! ### Tokens ready made -/

/-- What the loop finds in a message when no other thread cuts, with its copy. -/
def received (message : List Char) : Option Received :=
  if message = [] then none
  else some ⟨(fields isDelimiter (messageText message)).map trimmed, messageText message⟩

/-- The threads with the tokens of the messages. -/
def Messages.scenario (cfg : Messages n) : Scenario n where
  client := cfg.client
  inbox t k := received (cfg.message t k)

theorem requestOf_of_cuts {k : ℕ} {arguments : List (Address n)}
    (h : Cuts cfg t d (.next k arguments none)) :
    .request (requestOf ⟨arguments.map d.string, d.sbuffer t⟩) =
      taskOf (cfg.scenario.inbox t k) := by
  obtain ⟨cmd, s, hk, hpasses, hmem, -, rfl, hcurrent⟩ := h.exists_of_next
  have hstrings := hpasses.strings (Option.map_eq_none_iff.mp hcurrent.symm)
  have hsame : (s.arguments.map fun p => (t, p)).map d.string =
      s.arguments.map (stringAt s.cmd) := by
    rw [List.map_map, ← hmem]
    rfl
  have hinbox : cfg.scenario.inbox t k = _ := if_neg hk.some
  rw [hsame, hstrings, hk.sbuffer, hinbox]
  rfl

theorem chatCode_quiet {l : ChatLoc} (hne : ∀ k, l ≠ .recv k) (c : ChatShared n) :
    chatCode cfg.quiet t l c = chatCode cfg.scenario t l c := by
  cases l with
  | recv k => exact absurd rfl (hne k)
  | _ => rfl

namespace MessageLoc

/-- The location of the thread with tokens ready made. -/
def chatLoc : MessageLoc n → ChatLoc
  | first k | next k _ _ | trim k _ _ _ => .recv k
  | chat l => l

/-- The statement is one of the threads with tokens ready made; their `recv` is the end of the
loop. -/
def shown (cfg : Messages n) (t : Fin n) : MessageLoc n → Bool
  | chat (.recv k) => cfg.message t k = []
  | next _ _ none | chat _ => true
  | first _ | next _ _ (some _) | trim _ _ _ _ => false

end MessageLoc

/-- The threads at the same moment. -/
abbrev SameThreads (s : MessageState n) (r : ChatState n) : Prop :=
  Projects (fun _ l l' => l.chatLoc = l') (fun d c => d.chat = c) s r

/-- The step of the threads with tokens ready made that a statement stands for. -/
def shownOf (cfg : Messages n) (s : MessageState n) (t : Fin n) : Option (Fin n) :=
  Projection.emit (fun t l (_ : MessageShared n) => l.shown cfg t) s t

/-- **Messages.**  Where no two threads cut at the same time, the threads are those with the
tokens of the messages. -/
theorem messages_simulation (cfg : Messages n) :
    Machine.Simulation (apartMachine cfg) (chatThreads cfg.scenario).machine (shownOf cfg)
      SameThreads where
  init := ⟨rfl, rfl, fun _ => rfl, fun _ => rfl⟩
  silent s t s' r hreach hR hstep hemit := by
    obtain ⟨a, ha, hacts⟩ := Step.acts_of_isEmpty hreach.of_within hstep.1
    have hshown := Projection.emit_eq_none hemit
    have hloc := hR.loc t
    generalize s.loc t = l at ha hshown hloc
    cases messageStatement_of_mem ha with
    | receive hsome => exact hR.hidden hacts (fun _ => id) hloc hR.data
    | first hcut => exact hR.hidden hacts (fun _ => id) hloc hR.data
    | next hsave hcut hroom => exact hR.hidden hacts (fun _ => id) hloc hR.data
    | trim htrim => exact hR.hidden hacts (fun _ => id) hloc hR.data
    | hangup hempty => exact absurd (decide_eq_true hempty) (Bool.eq_false_iff.mp hshown)
    | leave => cases hshown
    | @chat l b hne hb =>
      cases l with
      | recv k => exact absurd rfl (hne k)
      | _ => cases hshown
  matched s t s' r e hreach hR hstep hemit := by
    obtain ⟨a, ha, hacts⟩ := Step.acts_of_isEmpty hreach.of_within hstep.1
    obtain ⟨hshown, rfl⟩ := Projection.emit_eq_some hemit
    have hloc := hR.loc e
    have hcuts := cuts_of_reachable hreach e
    have hfollow : ∀ b ∈ (chatThreads cfg.scenario).code e (r.loc e) r.data, _ → _ → _ → _ :=
      fun _ hb => hR.shown hacts hb
    generalize s.loc e = l at ha hshown hloc hcuts
    cases messageStatement_of_mem ha with
    | receive hsome => exact absurd (of_decide_eq_true hshown) hsome
    | first hcut => cases hshown
    | next hsave hcut hroom => cases hshown
    | trim htrim => cases hshown
    | @hangup k hempty =>
      have hinbox : cfg.scenario.inbox e k = none := if_pos hempty
      have htask : taskOf (cfg.scenario.inbox e k) = .hangup := by
        rw [hinbox]
        rfl
      refine hfollow (.exec r.data (.start .hangup k)) ?_ trivial rfl hR.data
      rw [← hloc, ← htask]
      exact List.mem_singleton_self _
    | @leave k arguments =>
      have htask := requestOf_of_cuts hcuts
      refine hfollow (.exec r.data (.start (taskOf (cfg.scenario.inbox e k)) k)) ?_ trivial
        (congrArg (ChatLoc.start · k) htask) hR.data
      rw [← hloc]
      exact List.mem_singleton_self _
    | @chat l b hne hb =>
      rw [chatCode_quiet hne, show s.data.chat = r.data from hR.data] at hb
      refine hfollow b (hloc ▸ hb) (b.mirrors_map _ _) ?_ ?_
      · rw [Action.next_map]
        rfl
      · rw [effect_chat, show s.data.chat = r.data from hR.data]
        rfl

end OsLabs.Chat
