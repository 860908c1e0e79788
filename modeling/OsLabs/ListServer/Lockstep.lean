import OsLabs.ListServer.Service

/-!
# Clients and server in step

In every run the requests that the server has served are those that the clients have sent, each
once and in the order of each client, except for at most one of each client that is on its way;
the same holds of the answers.  The list is that of the requests served, whoever sent them.
-/

namespace OsLabs.ListServer

open OsLabs.Lib
open OsLabs.LinkedList (ListT Represents)

variable {ι : Type}

/-! ### The invariant -/

/-- What is on the connection of a client that has got there. -/
def LocOk (conn : Connection) : ClientLoc → Prop
  | .connecting | .prompt => conn.request = [] ∧ conn.response = []
  | .receiving =>
    conn.request ≠ [] ∧ conn.response = [] ∨ conn.request = [] ∧ conn.response ≠ []
  | .ended => conn.request = [] ∨ conn.response = []

theorem LocOk.request_or_response {conn : Connection} {loc : ClientLoc} (h : LocOk conn loc) :
    conn.request = [] ∨ conn.response = [] := by
  cases loc with
  | connecting | prompt => exact Or.inl h.1
  | receiving => exact h.elim (fun h => Or.inr h.2) fun h => Or.inl h.1
  | ended => exact h

section

variable [DecidableEq ι]

/-- Client `i` with what it has sent, received and shown, and with the log of the server. -/
structure ClientAgrees (cfg : Config ι) (i : ι) (log : List (ι × List Char))
    (sent received : List (List Char)) (shown : List (Option (List Char))) (c : Client)
    (conn : Connection) : Prop where
  sent : sent = textsOf i log ++ inFlight conn.request
  answers : answersTo i [] log = received ++ inFlight conn.response
  shown : shown = displays (cfg.responeData i) received
  array : c.responeData = received.foldl recvInto (cfg.responeData i)
  loc : LocOk conn c.loc
  request : conn.request.length ≤ 1022 ∧ NUL ∉ conn.request
  response : conn.response.length < 1024 ∧ NUL ∉ conn.response
  received : ∀ response ∈ received, response.length < 1024 ∧ NUL ∉ response
  asks : c.loc = .receiving → commandOf conn.request ≠ some .exit

/-- The state behind a run. -/
structure Agrees (cfg : Config ι) (tr : List (System ι × Event ι)) (s : System ι) : Prop where
  list : Represents s.list
    (if s.server = .exited then []
      else sequenceOf ((Machine.emitted servedAt tr).map Prod.snd))
  client : ∀ i, ClientAgrees cfg i (Machine.emitted servedAt tr)
    (Machine.emitted (sentBy i) tr) (Machine.emitted (receivedBy i) tr)
    (Machine.emitted (shownBy i) tr) (s.client i) (s.conn i)

end

/-! ### The first token, on both sides -/

theorem strtok_text {text : List Char} (htext : NUL ∉ text) :
    (strtok isBlank (text ++ [NUL]) 0).string = (fields isBlank text).head? :=
  (remaining_zero htext isBlank []).strtok.1

theorem commandName_eq_exit {token : List Char} (h : commandName token = .exit) :
    token = "exit".toList := by
  unfold commandName at h
  split_ifs at h with hexit
  exact hexit

theorem token_of_commandOf_exit {text : List Char} (h : commandOf text = some .exit) :
    (fields isBlank text).head? = some "exit".toList := by
  rw [commandOf] at h
  cases hfields : fields isBlank text with
  | nil =>
    rw [hfields] at h
    cases h
  | cons token args =>
    rw [hfields, Command.ofTokens] at h
    cases hname : commandName token with
    | exit => rw [commandName_eq_exit hname]; rfl
    | getLength | removeFront | removeBack | print | invalid =>
      rw [hname] at h
      cases h
    | addFront | addBack | removePosition | get =>
      rw [hname] at h
      obtain ⟨arg, -, heq⟩ := Option.map_eq_some_iff.mp h
      cases heq
    | addPosition =>
      rw [hname] at h
      obtain ⟨idx, -, hval⟩ := Option.bind_eq_some_iff.mp h
      obtain ⟨val, -, heq⟩ := Option.map_eq_some_iff.mp hval
      cases heq

/-- A client that waits for an answer has sent a request that gets one. -/
theorem locAfter_receiving {text : List Char} (htext : NUL ∉ text)
    (h : locAfter text = .receiving) : text ≠ [] ∧ commandOf text ≠ some .exit := by
  rw [locAfter, strtok_text htext] at h
  constructor
  · rintro rfl
    rw [fields_nil] at h
    cases h
  · intro hexit
    rw [token_of_commandOf_exit hexit] at h
    cases h

theorem locAfter_cases (text : List Char) :
    locAfter text = .receiving ∨ locAfter text = .ended := by
  rw [locAfter]
  split
  · exact Or.inr rfl
  · split_ifs
    · exact Or.inr rfl
    · exact Or.inl rfl

/-! ### What the server does with a request -/

theorem length_le_card {l : ListT} {xs : List ℤ} (h : Represents l xs) :
    xs.length ≤ l.heap.keys.card := by
  obtain ⟨cells, ho, rfl⟩ := h
  have hsub : (cells.map Prod.fst).toFinset ⊆ l.heap.keys := by
    intro a ha
    obtain ⟨c, hc, rfl⟩ := List.mem_map.mp (List.mem_toFinset.mp ha)
    exact Finmap.mem_keys.mpr (ho.linked.mem_heap hc)
  have hcard := Finset.card_le_card hsub
  rwa [List.toFinset_card_of_nodup ho.nodup, List.length_map, ← List.length_map (f := Prod.snd)]
    at hcard

theorem text_firstMessage {request : List Char} (hne : request ≠ [])
    (hshort : request.length ≤ 1022) (hnul : NUL ∉ request) :
    (firstMessage request hne).text = request := by
  have hall : request.take 1023 = request := List.take_of_length_le (by omega)
  show (request.take 1023).takeWhile _ = request
  rw [hall]
  exact List.takeWhile_eq_self_iff.mpr fun c hc => decide_eq_true fun heq => hnul (heq ▸ hc)

variable [DecidableEq ι]

section ServeRequest

variable (alloc : Allocator (Node ℤ)) {s s' : System ι} {i : ι} {xs : List ℤ}
  (hne : (s.conn i).request ≠ [])
  (hrequest : (s.conn i).request.length ≤ 1022 ∧ NUL ∉ (s.conn i).request)

include hrequest

omit [DecidableEq ι] in
theorem readCommand_request :
    readCommand ((firstMessage (s.conn i).request hne).received s.recvBuf) =
      commandOf (s.conn i).request := by
  rw [readCommand_received, text_firstMessage hne hrequest.1 hrequest.2]

/-- The state behind an `exit`, or behind an answer. -/
theorem serveRequest_eq_some (hr : Represents s.list xs)
    (hnext : s.serveRequest alloc i hne = some s') :
    ∃ cmd, commandOf (s.conn i).request = some cmd ∧
      ((cmd = .exit ∧ ∃ heap, Represents ⟨none, heap⟩ [] ∧
          s' = { s with
            server := .exited
            list := ⟨none, heap⟩
            conn := Function.update s.conn i { s.conn i with request := [] } }) ∨
        ∃ l text, reply xs cmd = some text ∧ text.length < 1024 ∧ Represents l (effect xs cmd) ∧
          s' = { s with
            list := l
            recvBuf := List.replicate 1024 NUL
            conn := Function.update s.conn i
              { s.conn i with request := [], response := (s.conn i).response ++ text } }) := by
  have hdrop : (s.conn i).request.drop 1023 = [] := List.drop_of_length_le (by omega)
  rw [System.serveRequest, readCommand_request hne hrequest] at hnext
  obtain ⟨cmd, hcmd, hrest⟩ := Option.bind_eq_some_iff.mp hnext
  obtain ⟨outcome, hserve, hrest⟩ := Option.bind_eq_some_iff.mp hrest
  refine ⟨cmd, hcmd, ?_⟩
  rw [hdrop] at hrest
  have hfuel := length_le_card hr
  by_cases hexit : cmd = .exit
  · subst hexit
    obtain ⟨heap, hfree, howns⟩ := listFree_spec hr hfuel
    rw [serve, hfree] at hserve
    obtain rfl := Option.some.inj hserve
    exact Or.inl ⟨rfl, heap, ⟨[], howns, rfl⟩, (Option.some.inj hrest).symm⟩
  · obtain ⟨l, sendBuf, hreplied, -⟩ := serve_spec alloc hr hfuel hexit
    rw [hserve] at hreplied
    obtain rfl := Option.some.inj hreplied
    cases sendBuf with
    | none => cases hrest
    | some text =>
      dsimp only at hrest
      split_ifs at hrest with hshort
      obtain ⟨hreply, hr'⟩ := serve_replied alloc hr hfuel hserve
      exact Or.inr ⟨l, text, hreply, hshort, hr', (Option.some.inj hrest).symm⟩

/-- The server goes on if the request has a command and the answer fits. -/
theorem exists_serveRequest (hr : Represents s.list xs) (hint : ∀ x ∈ xs, InInt x) {cmd : Command}
    (hcmd : commandOf (s.conn i).request = some cmd)
    (hshort : ∀ text, reply xs cmd = some text → text.length < 1024) :
    ∃ s', s.serveRequest alloc i hne = some s' := by
  have hfuel := length_le_card hr
  rw [System.serveRequest, readCommand_request hne hrequest, hcmd]
  dsimp only [Option.bind_eq_bind, Option.bind_some]
  cases hreply : reply xs cmd with
  | none =>
    have hexit : cmd = .exit := by
      cases cmd with
      | exit => rfl
      | _ => cases hreply
    subst hexit
    obtain ⟨heap, hserve⟩ := serve_exit alloc hr hfuel
    rw [hserve]
    exact ⟨_, rfl⟩
  | some text =>
    obtain ⟨l, hserve⟩ := exists_serve_replied alloc hr hfuel hint hreply (hshort text hreply)
    rw [hserve]
    exact ⟨_, if_pos (hshort text hreply)⟩

end ServeRequest

/-! ### What a step keeps for one client -/

section ClientSteps

variable {cfg : Config ι} {i : ι} {log : List (ι × List Char)} {sent received : List (List Char)}
  {shown : List (Option (List Char))} {c : Client} {conn : Connection}
  (h : ClientAgrees cfg i log sent received shown c conn)

theorem inFlight_of_ne_nil {bytes : List Char} (hne : bytes ≠ []) : inFlight bytes = [bytes] :=
  if_neg hne

include h

/-- Requests of others change nothing. -/
theorem ClientAgrees.frame {j : ι} (hji : j ≠ i) (text : List Char) :
    ClientAgrees cfg i (log ++ [(j, text)]) sent received shown c conn where
  sent := by
    rw [textsOf_concat, if_neg hji, List.append_nil]
    exact h.sent
  answers := by
    rw [answersTo_concat, if_neg hji, List.append_nil]
    exact h.answers
  shown := h.shown
  array := h.array
  loc := h.loc
  request := h.request
  response := h.response
  received := h.received
  asks := h.asks

/-- Nothing is sent or received. -/
theorem ClientAgrees.move {c' : Client} {conn' : Connection}
    (hdata : c'.responeData = c.responeData) (hrequest : conn'.request = conn.request)
    (hresponse : conn'.response = conn.response) (hloc : LocOk conn' c'.loc)
    (hreceiving : c'.loc ≠ .receiving) : ClientAgrees cfg i log sent received shown c' conn' where
  sent := by
    rw [hrequest]
    exact h.sent
  answers := by
    rw [hresponse]
    exact h.answers
  shown := h.shown
  array := hdata.trans h.array
  loc := hloc
  request := hrequest ▸ h.request
  response := hresponse ▸ h.response
  received := h.received
  asks := fun hloc => absurd hloc hreceiving

theorem ClientAgrees.command (hloc : c.loc = .prompt) {text rest : List Char}
    (hline : getCommandLine c.stdin = some (text, rest)) (closed : Bool) :
    ClientAgrees cfg i log (sent ++ ((some text).filter (· ≠ [])).toList) received shown
      { c with loc := locAfter text, stdin := rest }
      { conn with request := conn.request ++ text, closed := closed } := by
  obtain ⟨hnul, hshort⟩ := getCommandLine_short hline
  have hempty := h.loc
  rw [hloc] at hempty
  obtain ⟨hrequest, hresponse⟩ := hempty
  have hsent := h.sent
  rw [hrequest, inFlight, if_pos rfl, List.append_nil] at hsent
  rw [hrequest, List.nil_append]
  refine ⟨?_, h.answers, h.shown, h.array, ?_, ⟨hshort, hnul⟩, h.response, h.received, ?_⟩
  · rw [hsent, inFlight]
    by_cases htext : text = [] <;> simp [htext]
  · show LocOk _ (locAfter text)
    obtain hwait | hend := locAfter_cases text
    · rw [hwait]
      exact Or.inl ⟨(locAfter_receiving hnul hwait).1, hresponse⟩
    · rw [hend]
      exact Or.inr hresponse
  · exact fun hwait => (locAfter_receiving hnul hwait).2

theorem ClientAgrees.receive (hloc : c.loc = .receiving) (hresponse : conn.response ≠ []) :
    ClientAgrees cfg i log sent (received ++ [conn.response.take 1024])
      (shown ++ [printed (recvInto c.responeData (conn.response.take 1024))])
      { c with
        loc := .prompt
        responeData := recvInto c.responeData (conn.response.take 1024) }
      { conn with response := conn.response.drop 1024 } := by
  have htake : conn.response.take 1024 = conn.response := List.take_of_length_le h.response.1.le
  have hdrop : conn.response.drop 1024 = [] := List.drop_of_length_le h.response.1.le
  have hwait := h.loc
  rw [hloc] at hwait
  have hrequest : conn.request = [] := hwait.elim (fun h => absurd h.2 hresponse) And.left
  have hanswers := h.answers
  rw [inFlight_of_ne_nil hresponse] at hanswers
  rw [htake, hdrop]
  refine ⟨h.sent, ?_, ?_, ?_, ⟨hrequest, rfl⟩, h.request,
    ⟨Nat.succ_pos 1023, List.not_mem_nil⟩, ?_, nofun⟩
  · rw [hanswers]
    exact (List.append_nil _).symm
  · rw [displays_concat, ← h.shown, ← h.array]
  · rw [List.foldl_append, ← h.array]
    rfl
  · exact List.forall_mem_append.mpr ⟨h.received, List.forall_mem_singleton.mpr h.response⟩

/-- The server has served the request and sent what there is to answer. -/
theorem ClientAgrees.serve (hne : conn.request ≠ []) {cmd : Command}
    (hcmd : commandOf conn.request = some cmd) {text : List Char}
    (hanswer : cmd = .exit ∧ text = [] ∨
      reply (sequenceOf (log.map Prod.snd)) cmd = some text ∧ text.length < 1024) :
    ClientAgrees cfg i (log ++ [(i, conn.request.take 1023)]) sent received shown c
      { conn with request := [], response := conn.response ++ text } := by
  have htake : conn.request.take 1023 = conn.request := List.take_of_length_le (by
    have := h.request.1
    omega)
  have hresponse : conn.response = [] :=
    h.loc.request_or_response.elim (fun hnil => absurd hnil hne) id
  have hanswers := h.answers
  rw [hresponse, inFlight, if_pos rfl, List.append_nil] at hanswers
  have hlast : (answer (log.map Prod.snd) conn.request).toList = inFlight text := by
    rw [answer, hcmd, Option.bind_some]
    obtain ⟨rfl, rfl⟩ | ⟨hreply, -⟩ := hanswer
    · rfl
    · rw [hreply, inFlight_of_ne_nil (reply_string hreply).2]
      rfl
  have hshort : text.length < 1024 ∧ NUL ∉ text := by
    obtain ⟨-, rfl⟩ | ⟨hreply, hshort⟩ := hanswer
    · decide
    · exact ⟨hshort, (reply_string hreply).1⟩
  rw [htake, hresponse, List.nil_append]
  have hnone : commandOf [] ≠ some .exit := by decide
  refine ⟨?_, ?_, h.shown, h.array, ?_, ⟨Nat.zero_le _, List.not_mem_nil⟩, hshort, h.received,
    fun _ => hnone⟩
  · have hsent := h.sent
    rw [inFlight_of_ne_nil hne] at hsent
    rw [textsOf_concat, if_pos rfl, hsent]
    exact (List.append_nil _).symm
  · rw [answersTo_concat, if_pos rfl, List.nil_append, hlast, hanswers]
  · have hloc := h.loc
    cases hc : c.loc with
    | connecting | prompt =>
      rw [hc] at hloc
      exact absurd hloc.1 hne
    | receiving =>
      obtain ⟨rfl, -⟩ | ⟨hreply, -⟩ := hanswer
      · exact absurd hcmd (h.asks hc)
      · exact Or.inr ⟨rfl, (reply_string hreply).2⟩
    | ended => exact Or.inl rfl

end ClientSteps

/-! ### The run -/

section Run

variable (alloc : Allocator (Node ℤ)) {cfg : Config ι}

theorem agrees_start : Agrees cfg [] (start cfg) where
  list := LinkedList.represents_listAlloc
  client i := by
    refine ⟨rfl, rfl, rfl, rfl, ⟨rfl, rfl⟩, ?_, ?_, nofun, nofun⟩
    · exact ⟨Nat.zero_le _, List.not_mem_nil⟩
    · exact ⟨Nat.succ_pos 1023, List.not_mem_nil⟩

variable {tr : List (System ι × Event ι)} {s s' : System ι} {e : Event ι}

/-- A step in which nothing is sent or received. -/
theorem Agrees.silent (h : Agrees cfg tr s) (hserved : servedAt s e = none)
    (hsilent : ∀ i, sentBy i s e = none ∧ receivedBy i s e = none ∧ shownBy i s e = none)
    (hlist : s'.list = s.list) (hserver : s'.server = .exited ↔ s.server = .exited)
    (hclient : ∀ i log sent received shown,
      ClientAgrees cfg i log sent received shown (s.client i) (s.conn i) →
        ClientAgrees cfg i log sent received shown (s'.client i) (s'.conn i)) :
    Agrees cfg (tr ++ [(s, e)]) s' where
  list := by
    rw [hlist, Machine.emitted_concat, hserved, Option.toList_none, List.append_nil]
    simp only [hserver]
    exact h.list
  client i := by
    obtain ⟨hsent, hreceived, hshown⟩ := hsilent i
    simp only [Machine.emitted_concat, hserved, hsent, hreceived, hshown, Option.toList_none,
      List.append_nil]
    exact hclient i _ _ _ _ (h.client i)

/-- A client that moves on. -/
theorem Agrees.moved (h : Agrees cfg tr s) (hserved : servedAt s e = none)
    (hsilent : ∀ i, sentBy i s e = none ∧ receivedBy i s e = none ∧ shownBy i s e = none)
    {i : ι} {loc : ClientLoc} (hloc : LocOk (s.conn i) loc) (hreceiving : loc ≠ .receiving)
    (closed : Bool) (queue : List ι) :
    Agrees cfg (tr ++ [(s, e)]) { s with
      queue := queue
      client := Function.update s.client i { s.client i with loc := loc }
      conn := Function.update s.conn i { s.conn i with closed := closed } } := by
  refine h.silent hserved hsilent rfl Iff.rfl fun j log sent received shown hj => ?_
  dsimp only
  by_cases hji : j = i
  · subst hji
    rw [Function.update_self, Function.update_self]
    have hloc' : LocOk { s.conn j with closed := closed } loc := by
      cases loc <;> exact hloc
    exact hj.move rfl rfl rfl hloc' hreceiving
  · rw [Function.update_of_ne hji, Function.update_of_ne hji]
    exact hj

theorem Agrees.command (h : Agrees cfg tr s) {i : ι} (hloc : (s.client i).loc = .prompt)
    {text rest : List Char} (hline : getCommandLine (s.client i).stdin = some (text, rest)) :
    Agrees cfg (tr ++ [(s, .command i)]) { s with
      client := Function.update s.client i { s.client i with loc := locAfter text, stdin := rest }
      conn := Function.update s.conn i
        { s.conn i with
          request := (s.conn i).request ++ text
          closed := locAfter text = .ended } } where
  list := by
    rw [Machine.emitted_concat]
    exact (List.append_nil (Machine.emitted servedAt tr)).symm ▸ h.list
  client j := by
    have hj := h.client j
    simp only [Machine.emitted_concat, servedAt, receivedBy, shownBy, Option.toList_none,
      List.append_nil]
    by_cases hji : j = i
    · subst hji
      rw [Function.update_self, Function.update_self, sentBy, if_pos rfl, hline]
      exact hj.command hloc hline _
    · rw [Function.update_of_ne hji, Function.update_of_ne hji, sentBy, if_neg (Ne.symm hji),
        Option.toList_none, List.append_nil]
      exact hj

theorem Agrees.receive (h : Agrees cfg tr s) {i : ι} (hloc : (s.client i).loc = .receiving)
    (hresponse : (s.conn i).response ≠ []) :
    Agrees cfg (tr ++ [(s, .receive i)]) { s with
      client := Function.update s.client i
        { s.client i with
          loc := .prompt
          responeData := recvInto (s.client i).responeData ((s.conn i).response.take 1024) }
      conn := Function.update s.conn i
        { s.conn i with response := (s.conn i).response.drop 1024 } } where
  list := by
    rw [Machine.emitted_concat]
    exact (List.append_nil (Machine.emitted servedAt tr)).symm ▸ h.list
  client j := by
    have hj := h.client j
    simp only [Machine.emitted_concat, servedAt, sentBy, Option.toList_none, List.append_nil]
    by_cases hji : j = i
    · subst hji
      rw [Function.update_self, Function.update_self, receivedBy, if_pos rfl, shownBy, if_pos rfl]
      exact hj.receive hloc hresponse
    · rw [Function.update_of_ne hji, Function.update_of_ne hji, receivedBy, if_neg (Ne.symm hji),
        shownBy, if_neg (Ne.symm hji), Option.toList_none, Option.toList_none, List.append_nil,
        List.append_nil]
      exact hj

/-- The server has served client `i`: its list, and what it has sent. -/
theorem Agrees.served (h : Agrees cfg tr s) {i : ι} (hserver : s.server = .receiving i)
    (hne : (s.conn i).request ≠ []) {cmd : Command}
    (hcmd : commandOf (s.conn i).request = some cmd) {text : List Char}
    (hanswer : cmd = .exit ∧ text = [] ∨
      reply (sequenceOf ((Machine.emitted servedAt tr).map Prod.snd)) cmd = some text ∧
        text.length < 1024)
    (server : ServerLoc ι) (recvBuf : List Char) {l : ListT} (hlist : Represents l
      (if server = .exited then []
      else effect (sequenceOf ((Machine.emitted servedAt tr).map Prod.snd)) cmd)) :
    Agrees cfg (tr ++ [(s, .serve)]) { s with
      server := server
      list := l
      recvBuf := recvBuf
      conn := Function.update s.conn i
        { s.conn i with request := [], response := (s.conn i).response ++ text } } := by
  have hserved : servedAt s .serve = some (i, (s.conn i).request.take 1023) := by
    rw [servedAt, hserver]
    exact if_neg hne
  have htake : (s.conn i).request.take 1023 = (s.conn i).request := by
    have := (h.client i).request.1
    exact List.take_of_length_le (by omega)
  refine ⟨?_, fun j => ?_⟩
  · rw [Machine.emitted_concat, hserved, Option.toList_some, List.map_append, List.map_singleton,
      sequenceOf_concat, htake, hcmd]
    exact hlist
  · have hj := h.client j
    simp only [Machine.emitted_concat, hserved, sentBy, receivedBy, shownBy, Option.toList_none,
      Option.toList_some, List.append_nil]
    by_cases hji : j = i
    · subst hji
      rw [Function.update_self]
      exact hj.serve hne hcmd hanswer
    · rw [Function.update_of_ne hji]
      exact hj.frame (Ne.symm hji) _

theorem Agrees.next (h : Agrees cfg tr s) (hnext : s.next alloc e = some s') :
    Agrees cfg (tr ++ [(s, e)]) s' := by
  have hsame : ∀ i, Function.update s.conn i { s.conn i with closed := (s.conn i).closed } =
      s.conn := fun i => Function.update_eq_self i s.conn
  cases e with
  | connect i =>
    rw [System.next] at hnext
    split_ifs at hnext with hguard
    cases hnext
    have hloc := (h.client i).loc
    rw [hguard.1] at hloc
    have hmoved := h.moved (e := .connect i) rfl (fun j => ⟨rfl, rfl, rfl⟩)
      (show LocOk (s.conn i) .prompt from hloc) nofun (s.conn i).closed (s.queue ++ [i])
    rwa [hsame i] at hmoved
  | refuse i =>
    rw [System.next] at hnext
    split_ifs at hnext with hguard
    cases hnext
    have hloc := (h.client i).loc
    rw [hguard] at hloc
    have hmoved := h.moved (e := .refuse i) rfl (fun j => ⟨rfl, rfl, rfl⟩)
      (show LocOk (s.conn i) .ended from Or.inl hloc.1) nofun (s.conn i).closed s.queue
    rwa [hsame i] at hmoved
  | command i =>
    rw [System.next] at hnext
    split_ifs at hnext with hguard
    obtain ⟨⟨text, rest⟩, hline, hs'⟩ := Option.bind_eq_some_iff.mp hnext
    cases hs'
    exact h.command hguard hline
  | receive i =>
    rw [System.next] at hnext
    split_ifs at hnext with hguard
    cases hnext
    exact h.receive hguard.1 hguard.2
  | interrupt i =>
    rw [System.next] at hnext
    split_ifs at hnext with hguard
    cases hnext
    exact h.moved (e := .interrupt i) rfl (fun j => ⟨rfl, rfl, rfl⟩)
      (show LocOk (s.conn i) .ended from (h.client i).loc.request_or_response) nofun true s.queue
  | accept =>
    rw [System.next] at hnext
    split at hnext
    · rename_i i queue hserver hqueue
      cases hnext
      refine h.silent rfl (fun j => ⟨rfl, rfl, rfl⟩) rfl ?_ fun _ _ _ _ _ hj => hj
      exact iff_of_false nofun (by rw [hserver]; exact nofun)
    · cases hnext
  | serve =>
    rw [System.next] at hnext
    cases hserver : s.server with
    | accepting =>
      rw [hserver] at hnext
      cases hnext
    | exited =>
      rw [hserver] at hnext
      cases hnext
    | receiving i =>
      rw [hserver] at hnext
      dsimp only at hnext
      have hrunning : s.server ≠ .exited := by
        rw [hserver]
        exact nofun
      split_ifs at hnext with hne hclosed
      · -- the client has closed its socket
        cases hnext
        have hserved : servedAt s .serve = none := by
          rw [servedAt, hserver]
          exact if_pos hne
        refine h.silent hserved (fun j => ⟨rfl, rfl, rfl⟩) rfl ?_ fun _ _ _ _ _ hj => hj
        exact iff_of_false nofun hrunning
      · have hlist := h.list
        rw [if_neg hrunning] at hlist
        obtain ⟨cmd, hcmd, hcases⟩ :=
          serveRequest_eq_some alloc hne (h.client i).request hlist hnext
        obtain ⟨rfl, heap, hfree, rfl⟩ | ⟨l, text, hreply, hshort, hr, rfl⟩ := hcases
        · have hserved := h.served hserver hne hcmd (Or.inl ⟨rfl, rfl⟩) .exited s.recvBuf
            (by rw [if_pos rfl]; exact hfree)
          rwa [List.append_nil] at hserved
        · exact h.served hserver hne hcmd (Or.inr ⟨hreply, hshort⟩) s.server _
            (by rw [if_neg hrunning]; exact hr)

/-- The request has a command, and its answer fits `sendBuf`. -/
def Answerable (log : List (List Char)) (request : List Char) : Prop :=
  ∃ cmd, commandOf request = some cmd ∧
    ∀ text, reply (sequenceOf log) cmd = some text → text.length < 1024

/-- The server gets through a request just when this can be answered. -/
theorem Agrees.exists_serve_iff (h : Agrees cfg tr s) {i : ι} (hserver : s.server = .receiving i)
    (hne : (s.conn i).request ≠ []) :
    (∃ s', s.next alloc .serve = some s') ↔
      Answerable ((Machine.emitted servedAt tr).map Prod.snd) (s.conn i).request := by
  have hrunning : s.server ≠ .exited := by
    rw [hserver]
    exact nofun
  have hlist := h.list
  rw [if_neg hrunning] at hlist
  have hnext : s.next alloc .serve = s.serveRequest alloc i hne := by
    rw [System.next, hserver]
    exact dif_neg hne
  rw [hnext]
  constructor
  · intro ⟨s', hs'⟩
    obtain ⟨cmd, hcmd, hcases⟩ := serveRequest_eq_some alloc hne (h.client i).request hlist hs'
    refine ⟨cmd, hcmd, fun text hreply => ?_⟩
    obtain ⟨rfl, -⟩ | ⟨l, text', hreply', hshort, -⟩ := hcases
    · cases hreply
    · rw [hreply] at hreply'
      cases hreply'
      exact hshort
  · intro ⟨cmd, hcmd, hshort⟩
    exact exists_serveRequest alloc hne (h.client i).request hlist (inInt_sequenceOf _) hcmd hshort

theorem agrees_of_run (hrun : (service alloc cfg).Run tr s) : Agrees cfg tr s := by
  induction hrun with
  | start => exact agrees_start
  | snoc hrun hstep ih => exact ih.next alloc hstep

/-- **Client and server agree.**  In every run of any number of clients, the server has served
each client's requests in their order, all but at most one that is on its way, and each client has
received the answers in this order, all but at most one; the list is that of the requests served.
The server gets through a request exactly if it has a command and the answer fits. -/
theorem service_agrees (hrun : (service alloc cfg).Run tr s) :
    Agrees cfg tr s ∧ ∀ i, s.server = .receiving i → (s.conn i).request ≠ [] →
      ((∃ s', s.next alloc .serve = some s') ↔
        Answerable ((Machine.emitted servedAt tr).map Prod.snd) (s.conn i).request) :=
  ⟨agrees_of_run alloc hrun,
    fun _ hserver hne => (agrees_of_run alloc hrun).exists_serve_iff alloc hserver hne⟩

/-- **Stale responses.**  In every run, what client `i` prints for its response `k` is what the
server has sent exactly when none of its earlier responses was longer and the byte behind it was a
`NUL` at the start. -/
theorem service_shown_iff (hrun : (service alloc cfg).Run tr s) (i : ι) {k : ℕ}
    {response : List Char} (hk : (Machine.emitted (receivedBy i) tr)[k]? = some response) :
    (Machine.emitted (shownBy i) tr)[k]? = some (some response) ↔
      (∀ earlier ∈ (Machine.emitted (receivedBy i) tr).take k,
        earlier.length ≤ response.length) ∧
        (cfg.responeData i)[response.length]? = some NUL := by
  have h : ClientAgrees cfg i _ _ _ _ _ _ := (agrees_of_run alloc hrun).client i
  rw [h.shown]
  refine displays_eq_iff (fun r hr => (h.received r hr).2) (fun r hr => ?_) hk
  rw [cfg.length_responeData]
  exact (h.received r hr).1

end Run

/-! ### Two clients -/

/-- One client adds an element and the other one prints the list. -/
def addAndPrint : Config Bool where
  stdin i := if i then "add_front 5\n".toList else "get_length\nprint\n".toList
  responeData _ := List.replicate 1024 NUL
  length_responeData _ := List.length_replicate
  recvBuf := []

/-- The second client sends its request while the first one is served, and then a second one. -/
def addAndPrintEvents : List (Event Bool) :=
  [.connect true, .connect false, .command true, .command false, .accept, .serve, .receive true,
    .interrupt true, .serve, .accept, .serve, .receive false, .command false, .serve,
    .receive false]

theorem addAndPrint_run : ∃ tr s, (service (Allocator.above _) addAndPrint).Run tr s ∧
    tr.map Prod.snd = addAndPrintEvents :=
  Machine.exists_run _ _ _ (by decide +kernel)

/-- The second response of the second client is shorter than its first one. -/
theorem service_shown_iff_addAndPrint :
    let tr := Machine.steps (System.next (Allocator.above _)) id (start addAndPrint)
      addAndPrintEvents
    Machine.emitted (receivedBy false) tr = ["Length = 1".toList, "5 -> NULL".toList] ∧
      (Machine.emitted (shownBy false) tr)[1]? = some (some "5 -> NULL1".toList) ∧
      ((Machine.emitted (shownBy false) tr)[1]? = some (some "5 -> NULL".toList) ↔
        (∀ earlier ∈ (Machine.emitted (receivedBy false) tr).take 1, earlier.length ≤ 9) ∧
          (addAndPrint.responeData false)[9]? = some NUL) := by
  intro tr
  have hsome : (addAndPrintEvents.foldlM (System.next (Allocator.above _))
      (start addAndPrint)).isSome = true := by decide +kernel
  obtain ⟨s, hs⟩ := Option.isSome_iff_exists.mp hsome
  have hrun : (service (Allocator.above _) addAndPrint).Run ([] ++ tr) s :=
    Machine.Run.steps (fun _ _ _ hnext => hnext) .start hs
  have hreceived : Machine.emitted (receivedBy false) tr =
      ["Length = 1".toList, "5 -> NULL".toList] := by
    decide +kernel
  have hsecond : (Machine.emitted (receivedBy false) tr)[1]? = some "5 -> NULL".toList := by
    rw [hreceived]
    rfl
  exact ⟨hreceived, by decide +kernel,
    service_shown_iff (Allocator.above _) hrun false hsecond⟩

theorem service_agrees_addAndPrint : ∃ tr s, Agrees addAndPrint tr s ∧
    tr.map Prod.snd = addAndPrintEvents := by
  obtain ⟨tr, s, hrun, hevents⟩ := addAndPrint_run
  exact ⟨tr, s, (service_agrees (Allocator.above _) hrun).1, hevents⟩

end OsLabs.ListServer
