import OsLabs.Lib.Simulation
import OsLabs.ListServer.Client
import OsLabs.ListServer.Replies

/-!
# The list server and its clients

The loop in `main` of `serv.c` and any number of clients that run `main` of `cli.c`, in any order
of their steps.  A connection holds the bytes that are on their way, and `recv` takes those that
are there, as far as its array has room; what one call of `send` sends arrives in one piece.  The
server serves one connection to its end and then accepts the next.  When it has exited, a client gets
the answers that are on their way and no more: the `recv` that returns 0 or -1, which `cli.c` does not
look at, is not a step here.
-/

namespace OsLabs.ListServer

open OsLabs.Lib
open OsLabs.LinkedList (ListT Represents)

variable {ι : Type}

/-! ### States -/

structure Connection where
  /-- What the client has sent and the server has not received. -/
  request : List Char
  response : List Char
  /-- The client has closed its socket. -/
  closed : Bool
  deriving DecidableEq

inductive ClientLoc
  | connecting
  /-- In front of `getCommandLine`. -/
  | prompt
  /-- In front of `recv`. -/
  | receiving
  | ended
  deriving DecidableEq

structure Client where
  loc : ClientLoc
  stdin : List Char
  responeData : List Char
  deriving DecidableEq

inductive ServerLoc (ι : Type)
  | accepting
  /-- In front of `recv` on the connection of this client. -/
  | receiving (i : ι)
  | exited
  deriving DecidableEq

structure System (ι : Type) where
  server : ServerLoc ι
  list : ListT
  recvBuf : List Char
  /-- The clients that are connected and wait for `accept`. -/
  queue : List ι
  client : ι → Client
  conn : ι → Connection

/-- What is typed into the clients, and what is in the arrays at the start. -/
structure Config (ι : Type) where
  stdin : ι → List Char
  responeData : ι → List Char
  length_responeData : ∀ i, (responeData i).length = 1024
  recvBuf : List Char

def start (cfg : Config ι) : System ι where
  server := .accepting
  list := listAlloc
  recvBuf := cfg.recvBuf
  queue := []
  client i := ⟨.connecting, cfg.stdin i, cfg.responeData i⟩
  conn _ := ⟨[], [], false⟩

/-! ### Steps -/

inductive Event (ι : Type)
  | connect (i : ι)
  /-- `connect` returns -1. -/
  | refuse (i : ι)
  /-- From the prompt to `recv`, or to the end of the client. -/
  | command (i : ι)
  | receive (i : ι)
  /-- The client is killed. -/
  | interrupt (i : ι)
  | accept
  /-- From `recv` to the next one, or to `accept` or `exit`. -/
  | serve
  deriving DecidableEq

section Next

variable (alloc : Allocator (Node ℤ))

/-- The message that `recv(clientSocket, recvBuf, sizeof(recvBuf) - 1, 0)` takes. -/
def firstMessage (request : List Char) (hne : request ≠ []) : Message where
  bytes := request.take 1023
  length_pos := by
    have := List.length_pos_iff.mpr hne
    rw [List.length_take]
    omega
  length_le := List.length_take_le _ _

variable [DecidableEq ι]

/-- The server with bytes of client `i`.  No walk over the list passes a node twice.  There is no
step where `strcmp` or `atoi` receives `NULL`, or where a text does not fit its buffer. -/
def System.serveRequest (s : System ι) (i : ι) (hne : (s.conn i).request ≠ []) :
    Option (System ι) := do
  let c := s.conn i
  let rest := c.request.drop 1023
  let cmd ← readCommand ((firstMessage c.request hne).received s.recvBuf)
  match ← serve alloc s.list.heap.keys.card s.list cmd with
  | .exited heap =>
    return { s with
      server := .exited
      list := ⟨none, heap⟩
      conn := Function.update s.conn i { c with request := rest } }
  | .replied _ none => none
  | .replied l (some sendBuf) =>
    if sendBuf.length < 1024 then
      return { s with
        list := l
        recvBuf := List.replicate 1024 NUL
        conn := Function.update s.conn i
          { c with request := rest, response := c.response ++ sendBuf } }
    else none

/-- Behind `send`: the client looks at the first token of what it has sent. -/
def locAfter (text : List Char) : ClientLoc :=
  match (strtok isBlank (text ++ [NUL]) 0).string with
  | none => .ended
  | some token => if token = "exit".toList then .ended else .receiving

def System.next (s : System ι) : Event ι → Option (System ι)
  | .connect i =>
    if (s.client i).loc = .connecting ∧ s.server ≠ .exited then
      some { s with
        queue := s.queue ++ [i]
        client := Function.update s.client i { s.client i with loc := .prompt } }
    else none
  | .refuse i =>
    if (s.client i).loc = .connecting then
      some { s with client := Function.update s.client i { s.client i with loc := .ended } }
    else none
  | .command i =>
    if (s.client i).loc = .prompt then do
      let (text, rest) ← getCommandLine (s.client i).stdin
      return { s with
        client := Function.update s.client i
          { s.client i with loc := locAfter text, stdin := rest }
        conn := Function.update s.conn i
          { s.conn i with
            request := (s.conn i).request ++ text
            closed := locAfter text = .ended } }
    else none
  | .receive i =>
    if (s.client i).loc = .receiving ∧ (s.conn i).response ≠ [] then
      some { s with
        client := Function.update s.client i
          { s.client i with
            loc := .prompt
            responeData :=
              recvInto (s.client i).responeData ((s.conn i).response.take 1024) }
        conn := Function.update s.conn i
          { s.conn i with response := (s.conn i).response.drop 1024 } }
    else none
  | .interrupt i =>
    if (s.client i).loc = .prompt ∨ (s.client i).loc = .receiving then
      some { s with
        client := Function.update s.client i { s.client i with loc := .ended }
        conn := Function.update s.conn i { s.conn i with closed := true } }
    else none
  | .accept =>
    match s.server, s.queue with
    | .accepting, i :: queue => some { s with server := .receiving i, queue := queue }
    | _, _ => none
  | .serve =>
    match s.server with
    | .receiving i =>
      if hne : (s.conn i).request = [] then
        if (s.conn i).closed = true then some { s with server := .accepting } else none
      else s.serveRequest alloc i hne
    | _ => none

def service (cfg : Config ι) : Machine (System ι) (Event ι) :=
  Machine.ofNext (start cfg) (System.next alloc)

end Next

/-! ### What a run shows -/

section Observations

variable [DecidableEq ι]

/-- What client `i` puts on the wire. -/
def sentBy (i : ι) (s : System ι) : Event ι → Option (List Char)
  | .command j =>
    if j = i then ((getCommandLine (s.client i).stdin).map Prod.fst).filter (· ≠ []) else none
  | _ => none

/-- What the server receives, and from whom. -/
def servedAt (s : System ι) : Event ι → Option (ι × List Char)
  | .serve =>
    match s.server with
    | .receiving i =>
      if (s.conn i).request = [] then none else some (i, (s.conn i).request.take 1023)
    | _ => none
  | _ => none

def receivedBy (i : ι) (s : System ι) : Event ι → Option (List Char)
  | .receive j => if j = i then some ((s.conn i).response.take 1024) else none
  | _ => none

/-- What client `i` prints behind `SERVER RESPONSE:`. -/
def shownBy (i : ι) (s : System ι) : Event ι → Option (Option (List Char))
  | .receive j =>
    if j = i then
      some (printed (recvInto (s.client i).responeData ((s.conn i).response.take 1024)))
    else none
  | _ => none

/-- The answers to client `i` in a log of requests, behind requests that are not in it. -/
def answersTo (i : ι) : List (List Char) → List (ι × List Char) → List (List Char)
  | _, [] => []
  | before, (j, text) :: log =>
    (if j = i then (answer before text).toList else []) ++ answersTo i (before ++ [text]) log

/-- The texts of client `i`. -/
def textsOf (i : ι) (log : List (ι × List Char)) : List (List Char) :=
  (log.filter (·.1 = i)).map Prod.snd

end Observations

/-- What is on its way, as messages. -/
def inFlight (bytes : List Char) : List (List Char) := if bytes = [] then [] else [bytes]

theorem answersTo_concat [DecidableEq ι] (i j : ι) (before : List (List Char))
    (log : List (ι × List Char)) (text : List Char) :
    answersTo i before (log ++ [(j, text)]) =
      answersTo i before log ++
        if j = i then (answer (before ++ log.map Prod.snd) text).toList else [] := by
  induction log generalizing before with
  | nil =>
    rw [List.nil_append, answersTo, answersTo, answersTo, List.map_nil, List.append_nil,
      List.append_nil, List.nil_append]
  | cons entry log ih =>
    obtain ⟨k, first⟩ := entry
    rw [List.cons_append, answersTo, ih, answersTo, List.map_cons, ← List.append_assoc,
      List.append_assoc before]
    rfl

theorem textsOf_concat [DecidableEq ι] (i j : ι) (log : List (ι × List Char)) (text : List Char) :
    textsOf i (log ++ [(j, text)]) = textsOf i log ++ if j = i then [text] else [] := by
  rw [textsOf, textsOf, List.filter_append, List.map_append]
  by_cases h : j = i <;> simp [h]

end OsLabs.ListServer
