import OsLabs.ListServer.Lockstep

/-!
# Who waits for whom

A client that is connected waits in the queue or is served, so the server is without work only
while it waits for the client that it serves, which is at its prompt, or when nobody is connected.
The clients in the queue wait for as long as that client stays.
-/

namespace OsLabs.ListServer

open OsLabs.Lib
open OsLabs.LinkedList (ListT Represents)

variable {ι : Type}

/-- Where the clients are that are connected, or were. -/
structure Lined (s : System ι) : Prop where
  connected : ∀ i, (s.client i).loc = .prompt ∨ (s.client i).loc = .receiving →
    s.server = .exited ∨ i ∈ s.queue ∨ s.server = .receiving i
  gone : ∀ i, i ∈ s.queue ∨ s.server = .receiving i →
    (s.client i).loc ≠ .connecting ∧ ((s.client i).loc = .ended → (s.conn i).closed = true)
  closed : ∀ i, (s.conn i).closed = true → (s.client i).loc = .ended

theorem lined_start (cfg : Config ι) : Lined (start cfg) where
  connected i h := by
    obtain h | h := h
    · cases h
    · cases h
  gone i h := by
    obtain h | h := h
    · cases h
    · cases h
  closed i h := by cases h

section Steps

variable [DecidableEq ι] {s : System ι} (h : Lined s)

include h

/-- A step of client `i` to another place, which closes its socket when it ends there. -/
theorem Lined.move {i : ι} {c : Client} {conn : Connection} {queue : List ι}
    (hqueue : ∀ j, j ≠ i → (j ∈ queue ↔ j ∈ s.queue)) (hin : i ∈ s.queue → i ∈ queue)
    (hconnected : c.loc = .prompt ∨ c.loc = .receiving →
      (s.client i).loc = .prompt ∨ (s.client i).loc = .receiving ∨ i ∈ queue)
    (hgone : i ∈ queue ∨ s.server = .receiving i →
      c.loc ≠ .connecting ∧ (c.loc = .ended → conn.closed = true))
    (hclosed : conn.closed = true → c.loc = .ended) :
    Lined { s with
      queue := queue
      client := Function.update s.client i c
      conn := Function.update s.conn i conn } := by
  constructor
  · intro j hj
    dsimp only at hj ⊢
    by_cases hji : j = i
    · subst hji
      rw [Function.update_self] at hj
      rcases hconnected hj with hloc | hloc | hmem
      · exact (h.connected j (Or.inl hloc)).imp_right (Or.imp_left hin)
      · exact (h.connected j (Or.inr hloc)).imp_right (Or.imp_left hin)
      · exact Or.inr (Or.inl hmem)
    · rw [Function.update_of_ne hji] at hj
      rw [hqueue j hji]
      exact h.connected j hj
  · intro j hj
    dsimp only at hj ⊢
    by_cases hji : j = i
    · subst hji
      rw [Function.update_self, Function.update_self]
      exact hgone hj
    · rw [Function.update_of_ne hji, Function.update_of_ne hji]
      rw [hqueue j hji] at hj
      exact h.gone j hj
  · intro j hj
    dsimp only at hj ⊢
    by_cases hji : j = i
    · subst hji
      rw [Function.update_self] at hj ⊢
      exact hclosed hj
    · rw [Function.update_of_ne hji] at hj ⊢
      exact h.closed j hj

/-- Bytes on the connections play no part. -/
theorem Lined.bytes {i : ι} {request response recvBuf : List Char} {l : ListT} :
    Lined { s with
      list := l
      recvBuf := recvBuf
      conn := Function.update s.conn i
        { s.conn i with request := request, response := response } } := by
  have hsame : ∀ j, (Function.update s.conn i
      { s.conn i with request := request, response := response } j).closed =
        (s.conn j).closed := by
    intro j
    by_cases hji : j = i
    · subst hji
      rw [Function.update_self]
    · rw [Function.update_of_ne hji]
  refine ⟨h.connected, fun j hj => ?_, fun j hj => ?_⟩
  · rw [hsame]
    exact h.gone j hj
  · rw [hsame] at hj
    exact h.closed j hj

omit [DecidableEq ι] in
theorem Lined.exit : Lined { s with server := .exited } := by
  refine ⟨fun _ _ => Or.inl rfl, fun i hi => ?_, h.closed⟩
  obtain hi | hi := hi
  · exact h.gone i (Or.inl hi)
  · cases hi

omit [DecidableEq ι] in
theorem Lined.accept {i : ι} {queue : List ι} (hserver : s.server = .accepting)
    (hqueue : s.queue = i :: queue) :
    Lined { s with server := .receiving i, queue := queue } := by
  refine ⟨fun j hj => ?_, fun j hj => h.gone j ?_, h.closed⟩
  · have hold := h.connected j hj
    rw [hserver, hqueue, List.mem_cons] at hold
    obtain hold | (rfl | hold) | hold := hold
    · cases hold
    · exact Or.inr (Or.inr rfl)
    · exact Or.inr (Or.inl hold)
    · cases hold
  · rw [hqueue]
    obtain hj | hj := hj
    · exact Or.inl (List.mem_cons_of_mem i hj)
    · cases hj
      exact Or.inl List.mem_cons_self

omit [DecidableEq ι] in
/-- The connection that ends is that of a client that has ended. -/
theorem Lined.hangUp {i : ι} (hserver : s.server = .receiving i)
    (hclosed : (s.conn i).closed = true) : Lined { s with server := .accepting } := by
  have hended := h.closed i hclosed
  refine ⟨fun j hj => ?_, fun j hj => h.gone j ?_, h.closed⟩
  · have hold := h.connected j hj
    rw [hserver] at hold
    obtain hold | hold | hold := hold
    · cases hold
    · exact Or.inr (Or.inl hold)
    · cases hold
      rw [hended] at hj
      exact hj.elim nofun nofun
  · exact hj.imp_right nofun

variable (alloc : Allocator (Node ℤ)) {cfg : Config ι} {tr : List (System ι × Event ι)}
  {s' : System ι} {e : Event ι}

theorem Lined.next (hagrees : Agrees cfg tr s) (hnext : s.next alloc e = some s') : Lined s' := by
  have hsame : ∀ i, Function.update s.conn i (s.conn i) = s.conn :=
    fun i => Function.update_eq_self i s.conn
  -- a client that has not ended has not closed its socket
  have hopen : ∀ i, (s.client i).loc ≠ .ended → (s.conn i).closed ≠ true :=
    fun i hloc hclosed => hloc (h.closed i hclosed)
  cases e with
  | connect i =>
    rw [System.next] at hnext
    split_ifs at hnext with hguard
    cases hnext
    have hclosed := hopen i (by rw [hguard.1]; simp)
    rw [← hsame i]
    refine h.move (fun j hji => ?_) (fun hi => List.mem_append_left _ hi) (fun _ => ?_)
      (fun _ => ⟨by simp, by simp⟩) fun hc => absurd hc hclosed
    · simp [hji]
    · exact Or.inr (Or.inr (List.mem_append_right _ (List.mem_singleton_self i)))
  | refuse i =>
    rw [System.next] at hnext
    split_ifs at hnext with hguard
    cases hnext
    rw [← hsame i]
    exact h.move (fun _ _ => Iff.rfl) id (fun hloc => by simp at hloc)
      (fun hi => absurd hguard (h.gone i hi).1) fun _ => rfl
  | command i =>
    rw [System.next] at hnext
    split_ifs at hnext with hguard
    obtain ⟨⟨text, rest⟩, -, hs'⟩ := Option.bind_eq_some_iff.mp hnext
    cases hs'
    refine h.move (fun _ _ => Iff.rfl) id (fun _ => Or.inl hguard)
      (fun _ => ⟨?_, fun hend => decide_eq_true hend⟩) fun hclosed => of_decide_eq_true hclosed
    show locAfter text ≠ .connecting
    obtain hloc | hloc := locAfter_cases text
    · simp [hloc]
    · simp [hloc]
  | receive i =>
    rw [System.next] at hnext
    split_ifs at hnext with hguard
    cases hnext
    have hclosed := hopen i (by rw [hguard.1]; simp)
    exact h.move (fun _ _ => Iff.rfl) id (fun _ => Or.inr (Or.inl hguard.1))
      (fun _ => ⟨by simp, by simp⟩) fun hc => absurd hc hclosed
  | interrupt i =>
    rw [System.next] at hnext
    split_ifs at hnext with hguard
    cases hnext
    exact h.move (fun _ _ => Iff.rfl) id (fun hloc => by simp at hloc)
      (fun _ => ⟨by simp, fun _ => rfl⟩) fun _ => rfl
  | accept =>
    rw [System.next] at hnext
    split at hnext
    · rename_i i queue hserver hqueue
      cases hnext
      exact h.accept hserver hqueue
    · cases hnext
  | serve =>
    rw [System.next] at hnext
    cases hserver : s.server with
    | accepting =>
      rw [hserver] at hnext
      cases hnext
    | exited =>
      rw [hserver] at hnext
      cases hnext
    | receiving i =>
      have hlist := hagrees.list
      rw [if_neg (by simp [hserver])] at hlist
      rw [hserver] at hnext
      dsimp only at hnext
      split_ifs at hnext with hne hclosed
      · cases hnext
        exact h.hangUp hserver hclosed
      · obtain ⟨cmd, -, hcases⟩ :=
          serveRequest_eq_some alloc hne (hagrees.client i).request hlist hnext
        obtain ⟨-, heap, -, rfl⟩ | ⟨l, text, -, -, -, rfl⟩ := hcases
        · exact h.bytes.exit
        · exact h.bytes

end Steps

section Idle

variable [DecidableEq ι] (alloc : Allocator (Node ℤ)) {cfg : Config ι} {s : System ι}

theorem lined_of_reachable (hs : (service alloc cfg).Reachable s) : Lined s :=
  hs.invariant (lined_start cfg) fun _ _ _ ⟨_, hrun⟩ h hstep =>
    h.next alloc (agrees_of_run alloc hrun) hstep

/-- **Nobody waits for nothing.**  As long as every request on its way can be answered, the server
and the clients that wait for an answer are without a step only if the server has exited, if it
waits for the client that it serves and this one is at its prompt, or if nobody is connected. -/
theorem service_idle {tr : List (System ι × Event ι)} (hrun : (service alloc cfg).Run tr s)
    (hanswerable : ∀ i, (s.conn i).request ≠ [] →
      Answerable ((Machine.emitted servedAt tr).map Prod.snd) (s.conn i).request)
    (hstuck : s.next alloc .accept = none ∧ s.next alloc .serve = none ∧
      ∀ i, s.next alloc (.receive i) = none) :
    s.server = .exited ∨
      (∃ i, s.server = .receiving i ∧ (s.client i).loc = .prompt) ∨
        s.server = .accepting ∧
          ∀ i, (s.client i).loc = .connecting ∨ (s.client i).loc = .ended := by
  obtain ⟨haccept, hserve, hreceive⟩ := hstuck
  have hlined := lined_of_reachable alloc ⟨tr, hrun⟩
  have hagrees := agrees_of_run alloc hrun
  cases hserver : s.server with
  | exited => exact Or.inl rfl
  | accepting =>
    refine Or.inr (Or.inr ⟨rfl, fun i => ?_⟩)
    have hempty : s.queue = [] := by
      cases hqueue : s.queue with
      | nil => rfl
      | cons j queue =>
        rw [System.next, hserver, hqueue] at haccept
        cases haccept
    have hnowhere : ¬ ((s.client i).loc = .prompt ∨ (s.client i).loc = .receiving) := by
      intro hloc
      have hold := hlined.connected i hloc
      rw [hserver, hempty] at hold
      obtain hold | hold | hold := hold
      · cases hold
      · cases hold
      · cases hold
    cases hloc : (s.client i).loc with
    | connecting => exact Or.inl rfl
    | ended => exact Or.inr rfl
    | prompt => exact absurd (Or.inl hloc) hnowhere
    | receiving => exact absurd (Or.inr hloc) hnowhere
  | receiving i =>
    refine Or.inr (Or.inl ⟨i, rfl, ?_⟩)
    have hempty : (s.conn i).request = [] := by
      by_contra hne
      obtain ⟨s', hs'⟩ := (hagrees.exists_serve_iff alloc hserver hne).mpr (hanswerable i hne)
      rw [hserve] at hs'
      cases hs'
    have hopen : (s.conn i).closed ≠ true := by
      intro hclosed
      rw [System.next, hserver] at hserve
      dsimp only at hserve
      rw [dif_pos hempty, if_pos hclosed] at hserve
      cases hserve
    obtain ⟨hconnected, hended⟩ := hlined.gone i (Or.inr hserver)
    cases hloc : (s.client i).loc with
    | connecting => exact absurd hloc hconnected
    | ended => exact absurd (hended hloc) hopen
    | prompt => rfl
    | receiving =>
      -- the answer is there
      have hwait := (hagrees.client i).loc
      rw [hloc] at hwait
      obtain ⟨hne, -⟩ | ⟨-, hresponse⟩ := hwait
      · exact absurd hempty hne
      · have hnone := hreceive i
        rw [System.next, if_pos ⟨hloc, hresponse⟩] at hnone
        cases hnone

end Idle

/-- The first client has its answer and is at its prompt again; the second one waits in the queue,
with its request sent. -/
theorem service_idle_addAndPrint :
    ∃ tr s, (service (Allocator.above _) addAndPrint).Run tr s ∧
      tr.map Prod.snd = addAndPrintEvents.take 7 ∧
      s.queue = [false] ∧ (s.client false).loc = .receiving ∧
      (s.conn false).request = "get_length".toList ∧
      (s.server = .exited ∨
        (∃ i, s.server = .receiving i ∧ (s.client i).loc = .prompt) ∨
          s.server = .accepting ∧
            ∀ i, (s.client i).loc = .connecting ∨ (s.client i).loc = .ended) := by
  have hlast : ((addAndPrintEvents.take 7).foldlM (System.next (Allocator.above _))
      (start addAndPrint)).map (fun s => (s.server, s.queue,
        fun i => ((s.client i).loc, s.conn i))) =
      some (.receiving true, [false],
        fun i => if i then (.prompt, ⟨[], [], false⟩)
          else (.receiving, ⟨"get_length".toList, [], false⟩)) := by
    decide +kernel
  obtain ⟨s, hs, heq⟩ := Option.map_eq_some_iff.mp hlast
  obtain ⟨hserver, heq⟩ := Prod.mk.inj heq
  obtain ⟨hqueue, hclients⟩ := Prod.mk.inj heq
  obtain ⟨hprompt, hserved⟩ := Prod.mk.inj (congrFun hclients true)
  obtain ⟨hwaits, hwaiting⟩ := Prod.mk.inj (congrFun hclients false)
  have hrun : (service (Allocator.above _) addAndPrint).Run
      ([] ++ Machine.steps (System.next (Allocator.above _)) id (start addAndPrint)
        (addAndPrintEvents.take 7)) s :=
    Machine.Run.steps (fun _ _ _ hnext => hnext) .start hs
  refine ⟨_, s, hrun, by decide +kernel, hqueue, hwaits, congrArg Connection.request hwaiting,
    service_idle _ hrun ?_ ?_⟩
  · intro i hne
    cases i with
    | true =>
      rw [hserved] at hne
      exact absurd rfl hne
    | false =>
      rw [hwaiting]
      have hlog : (Machine.emitted servedAt ([] ++
          Machine.steps (System.next (Allocator.above _)) id (start addAndPrint)
            (addAndPrintEvents.take 7))).map Prod.snd = ["add_front 5".toList] := by
        decide +kernel
      rw [hlog]
      refine ⟨.getLength, by decide +kernel, fun text hreply => ?_⟩
      obtain rfl := Option.some.inj hreply
      decide +kernel
  · refine ⟨?_, ?_, fun i => ?_⟩
    · rw [System.next, hserver, hqueue]
    · rw [System.next, hserver]
      dsimp only
      rw [dif_pos (congrArg Connection.request hserved),
        if_neg (by rw [hserved]; exact Bool.false_ne_true)]
    · rw [System.next]
      cases i with
      | true => rw [hprompt, if_neg (by simp)]
      | false => rw [hwaiting, if_neg (by simp)]

end OsLabs.ListServer
