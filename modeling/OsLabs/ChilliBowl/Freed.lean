import OsLabs.ChilliBowl.Closing

/-!
# Ben's Chilli Bowl: orders that a cook has freed

`AddOrder` hands the order to the cooks inside its critical section, but reads its number for
the return value outside, and the customer then prints its menu item.  Orders in the queue are
never freed; an order that was taken may be, and a customer reads a freed order exactly in the
runs in which a cook frees one that its customer has still to read.
-/

namespace OsLabs.ChilliBowl

open OsLabs.Lib OsLabs.Lib.Monitor

variable {customers cooks : ℕ} {cfg : Config customers}
  {s s' : State (Thread customers cooks) Mutex Cond (Shared cooks) Loc}

/-- The orders that the next statement of a customer reads.  The walk of `AddOrderToBack` reads
the chain of the queue, `return order->order_number` and the `printf` read the own order. -/
def CustomerLoc.reads (queue : List Order) : CustomerLoc → List Order
  | addToBack _ _ => queue
  | addReturn _ order | printPlaced _ _ order => [order]
  | _ => []

/-- The next statement of no customer reads an order that a cook has freed. -/
def NoFreedRead (s : State (Thread customers cooks) Mutex Cond (Shared cooks) Loc) : Prop :=
  ∀ c : Fin customers, ∀ order ∈ CustomerLoc.reads s.data.bcb.orders (s.loc (.inl c)),
    order ∉ s.data.freed

/-- The customer is behind its critical section and has still to read the order. -/
def CustomerLoc.Keeps (order : Order) : CustomerLoc → Prop
  | addReturn _ own | printPlaced _ _ own => own = order
  | _ => False

theorem CustomerLoc.mem_reads {queue : List Order} {l : CustomerLoc} {order : Order}
    (h : order ∈ l.reads queue) : order ∈ queue ∨ l.Keeps order := by
  cases l with
  | addToBack i own => exact Or.inl h
  | addReturn i own => exact Or.inr (List.mem_singleton.mp h).symm
  | printPlaced i n own => exact Or.inr (List.mem_singleton.mp h).symm
  | _ => cases h

theorem CustomerLoc.Keeps.mem_reads {l : CustomerLoc} {order : Order} (h : l.Keeps order)
    (queue : List Order) : order ∈ l.reads queue := by
  cases l with
  | addReturn i own => exact List.mem_singleton.mpr h.symm
  | printPlaced i n own => exact List.mem_singleton.mpr h.symm
  | _ => exact h.elim

/-! ### Freed orders have left the queue -/

/-- The order that a cook has taken and not yet freed. -/
def CookLoc.hand : CookLoc → List Order
  | getSize order | getUnlock order | getSignal order | handleLock order | handleCount order
  | handleTest order | handleBroadcast order | handleUnlock order | printFulfilled order
  | freeOrder order => [order]
  | _ => []

def hand : ∀ t : Thread customers cooks, Loc t → List Order
  | .inl _ => fun _ => []
  | .inr _ => CookLoc.hand

theorem mem_returned_effect {t : Thread customers cooks} {l : Loc t} {w : Shared cooks}
    {a : Act cooks (Loc t)} (ha : a ∈ (restaurant cfg cooks).code t l w) {order : Order}
    (h : order ∈ w.returned) : order ∈ (a.effect w).returned := by
  cases t with
  | inl c => cases customerStep_of_mem ha <;> exact h
  | inr k =>
    cases cookStep_of_mem ha with
    | take hfirst => exact List.mem_append_left _ h
    | _ => exact h

/-- What a cook holds after a statement was returned to it. -/
theorem hand_returned {t : Thread customers cooks} {l : Loc t} {w : Shared cooks}
    {a : Act cooks (Loc t)} (ha : a ∈ (restaurant cfg cooks).code t l w)
    (h : ∀ order ∈ hand t l, order ∈ w.returned) :
    ∀ order ∈ hand t a.next, order ∈ (a.effect w).returned := by
  cases t with
  | inl c =>
    intro order horder
    cases horder
  | inr k =>
    cases cookStep_of_mem ha with
    | @take own rest hfirst =>
      intro order horder
      obtain rfl := List.mem_singleton.mp horder
      exact List.mem_append_right _ (List.mem_singleton_self order)
    | lock | noMore | wait | unlockNull | free =>
      intro order horder
      cases horder
    | _ => exact h

/-- What a statement frees was held by its cook. -/
theorem mem_freed_effect {t : Thread customers cooks} {l : Loc t} {w : Shared cooks}
    {a : Act cooks (Loc t)} (ha : a ∈ (restaurant cfg cooks).code t l w) {order : Order}
    (h : order ∈ (a.effect w).freed) : order ∈ w.freed ∨ order ∈ hand t l := by
  cases t with
  | inl c => cases customerStep_of_mem ha <;> exact Or.inl h
  | inr k =>
    cases cookStep_of_mem ha with
    | free => exact List.mem_append.mp h
    | _ => exact Or.inl h

/-- Orders in the hands of the cooks have been taken from the queue. -/
theorem mem_returned_of_hand (h : (restaurant cfg cooks).machine.Reachable s)
    (t : Thread customers cooks) : ∀ order ∈ hand t (s.loc t), order ∈ s.data.returned := by
  refine assertion_invariant (I := fun t l w => ∀ order ∈ hand t l, order ∈ w.returned)
    ?_ ?_ ?_ h t
  · intro t order horder
    cases t <;> cases horder
  · intro t l w a ha hl
    exact hand_returned ha hl
  · intro t l w a ha _ u _ k hk order horder
    exact mem_returned_effect ha (hk order horder)

/-- Freed orders have been taken from the queue. -/
theorem mem_returned_of_freed (h : (restaurant cfg cooks).machine.Reachable s) :
    ∀ order ∈ s.data.freed, order ∈ s.data.returned := by
  refine h.invariant (I := fun s => ∀ order ∈ s.data.freed, order ∈ s.data.returned) ?_ ?_
  · intro order horder
    cases horder
  · intro s t s' hreach ih hstep order horder
    rcases Step.acts_or_quiet hstep with ⟨l, a, hrun, ha, hacts⟩ | hquiet
    · rw [hacts.data] at horder ⊢
      apply mem_returned_effect ha
      rcases mem_freed_effect ha horder with hold | hnew
      · exact ih order hold
      · refine mem_returned_of_hand hreach t order ?_
        rw [State.loc, hrun]
        exact hnew
    · rw [hquiet.data] at horder ⊢
      exact ih order horder

/-- The numbers tell the orders of the queue from those that were taken. -/
theorem not_mem_freed_of_mem_orders (h : (restaurant cfg cooks).machine.Reachable s)
    {order : Order} (horder : order ∈ s.data.bcb.orders) : order ∉ s.data.freed := by
  intro hfreed
  obtain ⟨pending, uncounted, room, hinv⟩ := exists_queueInv h
  have hnodup := nodup_numbersFromOne
    (s.data.returned.length + s.data.bcb.orders.length + pending.length)
  rw [← hinv.numbers, List.map_append] at hnodup
  have hdisjoint := (List.nodup_append.mp (List.nodup_append.mp hnodup).1).2.2
  have hreturned := mem_returned_of_freed h order hfreed
  exact hdisjoint order.orderNumber (List.mem_map_of_mem hreturned) order.orderNumber
    (List.mem_map_of_mem horder) rfl

/-! ### The order of a customer in its critical section -/

/-- From the insertion to the unlock the order of the customer is in the queue. -/
def CustomerLoc.queued : CustomerLoc → Shared cooks → Prop
  | addSize _ order | addSignal _ order | addUnlock _ order => fun w => order ∈ w.bcb.orders
  | _ => fun _ => True

def queued : ∀ t : Thread customers cooks, Loc t → Shared cooks → Prop
  | .inl _ => CustomerLoc.queued
  | .inr _ => fun _ _ => True

theorem queued_protects (cfg : Config customers) (cooks : ℕ) :
    Protects (restaurant cfg cooks) .mutex owns (fun _ => True) queued where
  toGuarded := guarded cfg cooks
  init := trivial
  acquire := by
    rintro (c | k) l w next ha -
    · cases customerStep_of_mem ha
      trivial
    · trivial
  release := fun _ _ _ _ _ _ => trivial
  sleep := fun _ _ _ _ _ _ _ => trivial
  wakeup := by
    rintro (c | k) l w cond next ha w' -
    · cases customerStep_of_mem ha
      trivial
    · trivial
  inside := by
    rintro (c | k) l w a ha - howns hA
    · cases customerStep_of_mem ha with
      | toBack => exact List.mem_append_right _ (List.mem_singleton_self _)
      | size => exact hA
      | signal => exact hA
      | skip | place | lock | ret | print => exact howns.elim
      | _ => trivial
    · trivial
  outside := by
    rintro (c | k) l w a ha howns
    · cases customerStep_of_mem ha with
      | number | toBack | size | wait | signal | unlock => exact absurd trivial howns
      | _ => exact ⟨id, fun _ _ => id⟩
    · cases cookStep_of_mem ha with
      | lock | signal | handleLock | print => exact ⟨id, fun _ _ => id⟩
      | free =>
        refine ⟨id, ?_⟩
        rintro (c | k) loc hA
        · cases loc <;> exact hA
        · trivial
      | _ => exact absurd trivial howns

/-- At the unlock the order is still in the queue, so no cook has freed it. -/
theorem not_mem_freed_of_addUnlock (h : (restaurant cfg cooks).machine.Reachable s)
    {c : Fin customers} {i : ℕ} {order : Order}
    (hrun : s.status (.inl c) = .running (CustomerLoc.addUnlock i order)) :
    order ∉ s.data.freed := by
  have howner := ((guarded cfg cooks).owner_eq_some_iff h (.inl c)).mpr
    (by rw [hrun]; trivial)
  have hlock := (lockInv_some howner).mp ((queued_protects cfg cooks).lockInv h)
  rw [State.loc, hrun] at hlock
  exact not_mem_freed_of_mem_orders h hlock

/-! ### When no customer reads a freed order -/

/-- The order that the next statement of a cook frees. -/
def frees : Status Mutex Cond CookLoc → List Order
  | .running (.freeOrder order) => [order]
  | _ => []

/-- A cook does not free an order that a customer has still to read. -/
def FreesUnkept (s : State (Thread customers cooks) Mutex Cond (Shared cooks) Loc) :
    Thread customers cooks → Prop
  | .inl _ => True
  | .inr k => ∀ order ∈ frees (s.status (.inr k)), ∀ c : Fin customers,
      ¬ CustomerLoc.Keeps order (s.loc (.inl c))

theorem mem_frees {st : Status Mutex Cond CookLoc} {order : Order} (h : order ∈ frees st) :
    st = .running (.freeOrder order) := by
  unfold frees at h
  split at h
  · rw [List.mem_singleton.mp h]
  · cases h

theorem NoFreedRead.step (hreach : (restaurant cfg cooks).machine.Reachable s)
    (h : NoFreedRead s) {t : Thread customers cooks} (hfree : FreesUnkept s t)
    (hstep : Step (restaurant cfg cooks) s t s') : NoFreedRead s' := by
  intro c order hreads hfreed
  rcases CustomerLoc.mem_reads hreads with hqueue | hkeeps
  · exact not_mem_freed_of_mem_orders (hreach.step hstep) hqueue hfreed
  have hold : ∀ own, CustomerLoc.Keeps own (s.loc (.inl c)) → own ∉ s.data.freed :=
    fun own hown => h c own (hown.mem_reads _)
  rcases Step.acts_or_quiet hstep with ⟨l, a, hrun, ha, hacts⟩ | hquiet
  · rw [hacts.data] at hfreed
    rw [hacts.loc] at hkeeps
    cases t with
    | inl c' =>
      have hsame : order ∈ s.data.freed := by
        cases customerStep_of_mem ha <;> exact hfreed
      by_cases hc : c = c'
      · subst hc
        rw [Function.update_self] at hkeeps
        cases customerStep_of_mem ha with
        | @unlock i own =>
          obtain rfl : own = order := hkeeps
          exact not_mem_freed_of_addUnlock hreach hrun hsame
        | @ret i own =>
          refine hold order ?_ hsame
          rw [State.loc, hrun]
          exact hkeeps
        | _ => exact hkeeps
      · rw [Function.update_of_ne fun heq => hc (Sum.inl.inj heq)] at hkeeps
        exact hold order hkeeps hsame
    | inr k =>
      rw [Function.update_of_ne Sum.inl_ne_inr] at hkeeps
      cases cookStep_of_mem ha with
      | @free own =>
        rcases List.mem_append.mp hfreed with hfreed | hown
        · exact hold order hkeeps hfreed
        · refine hfree order ?_ c hkeeps
          rw [hrun]
          exact hown
      | _ => exact hold order hkeeps hfreed
  · rw [hquiet.loc] at hkeeps
    rw [hquiet.data] at hfreed
    exact hold order hkeeps hfreed

/-- A cook that frees an order which a customer keeps makes that customer read it. -/
theorem not_noFreedRead_of_free {t : Thread customers cooks} (hfree : ¬ FreesUnkept s t)
    (hstep : Step (restaurant cfg cooks) s t s') : ¬ NoFreedRead s' := by
  cases t with
  | inl c => exact absurd trivial hfree
  | inr k =>
    unfold FreesUnkept at hfree
    push Not at hfree
    obtain ⟨order, horder, c, hkeeps⟩ := hfree
    have hrunning := mem_frees horder
    intro h
    rcases Step.acts_or_resumes hstep with
      ⟨l, a, hrun, ha, hacts⟩ | ⟨m, next, hwoken, -⟩ | ⟨cond, m, next, hwait, -⟩
    · obtain rfl : l = CookLoc.freeOrder order :=
        Status.running.inj (hrun.symm.trans hrunning)
      have hcook : a ∈ cookCode k (.freeOrder order) s.data := ha
      cases cookStep_of_mem hcook
      refine h c order ?_ ?_
      · rw [hacts.loc, Function.update_of_ne Sum.inl_ne_inr]
        exact hkeeps.mem_reads _
      · rw [hacts.data]
        exact List.mem_append_right _ (List.mem_singleton_self order)
    · rw [hrunning] at hwoken
      cases hwoken
    · rw [hrunning] at hwait
      cases hwait

/-- **Orders that are read after they were freed.**  In every run, no customer ever comes to read
an order that a cook has freed if and only if no cook frees an order that its customer has still
to read, behind the unlock of `AddOrder`. -/
theorem noFreedRead_iff (cfg : Config customers) (cooks : ℕ)
    (tr : List (State (Thread customers cooks) Mutex Cond (Shared cooks) Loc ×
      Thread customers cooks))
    (s : State (Thread customers cooks) Mutex Cond (Shared cooks) Loc)
    (h : (restaurant cfg cooks).machine.Run tr s) :
    (∀ x ∈ Machine.visited tr s, NoFreedRead x) ↔ ∀ x ∈ tr, FreesUnkept x.1 x.2 := by
  refine Machine.Run.forall_visited_iff
    (I := fun s => (restaurant cfg cooks).machine.Reachable s ∧ NoFreedRead s)
    ⟨Machine.reachable_init, ?_⟩ (fun s hs => hs.2) ?_ ?_ h
  · intro c order horder
    cases horder
  · intro s t s' hs hfree hstep
    exact ⟨hs.1.step hstep, hs.2.step hs.1 hfree hstep⟩
  · intro s t s' _ hfree hstep
    exact not_noFreedRead_of_free hfree hstep

instance decidableKeeps (order : Order) : DecidablePred (CustomerLoc.Keeps order)
  | .addReturn _ own | .printPlaced _ _ own => inferInstanceAs (Decidable (own = order))
  | .forLoop _ | .addLock _ _ | .addWhile _ _ | .addToBack _ _ | .addSize _ _ | .addSignal _ _
  | .addUnlock _ _ => inferInstanceAs (Decidable False)

instance decidableFreesUnkept
    (s : State (Thread customers cooks) Mutex Cond (Shared cooks) Loc) :
    ∀ t, Decidable (FreesUnkept s t)
  | .inl _ => inferInstanceAs (Decidable True)
  | .inr k =>
    let _ (order : Order) (c : Fin customers) :
        Decidable (CustomerLoc.Keeps order (s.loc (.inl c))) :=
      decidableKeeps order (s.loc (.inl c))
    inferInstanceAs (Decidable (∀ order ∈ frees (s.status (.inr k)),
      ∀ c : Fin customers, ¬ CustomerLoc.Keeps order (s.loc (.inl c))))

/-- The day of `oneEachDay`, in which the customer prints its order before the cook frees it. -/
theorem noFreedRead_iff_oneEachDay :
    ∃ tr s, (restaurant oneEach 1).machine.Run tr s ∧ s.data.freed.length = 1 ∧
      ∀ x ∈ Machine.visited tr s, NoFreedRead x := by
  have hrun : (oneEachDay.foldlM (restaurant oneEach 1).next
      (restaurant oneEach 1).machine.init).map (fun s => s.data.freed.length) = some 1 := by
    decide +kernel
  obtain ⟨s, hs, heq⟩ := Option.map_eq_some_iff.mp hrun
  have hfree : ∀ x ∈ Machine.steps (restaurant oneEach 1).next Prod.fst
      (restaurant oneEach 1).machine.init oneEachDay, FreesUnkept x.1 x.2 := by
    decide +kernel
  exact ⟨_, s, run_of_choices hs, heq,
    (noFreedRead_iff oneEach 1 _ s (run_of_choices hs)).mpr hfree⟩

/-- The customer adds its order and unlocks the mutex, and the cook takes, handles and frees it. -/
def earlyFree : List (Thread 1 1 × ℕ × Option (Thread 1 1)) :=
  List.replicate 7 (.inl (Fin.last 0), 0, none) ++
    List.replicate 12 (.inr (Fin.last 0), 0, none)

/-- The return statement of the customer then reads the freed order. -/
theorem orderFreed_before_return :
    ¬ ∀ s s', (restaurant oneEach 1).machine.Reachable s →
      (restaurant oneEach 1).machine.step s (.inl 0) s' →
      ∀ order ∈ CustomerLoc.reads s.data.bcb.orders (s.loc (.inl 0)), order ∉ s.data.freed := by
  intro h
  have hrun : (earlyFree.foldlM (restaurant oneEach 1).next
      (restaurant oneEach 1).machine.init).map (fun s =>
        (CustomerLoc.reads s.data.bcb.orders (s.loc (.inl 0)), s.data.freed,
          ((restaurant oneEach 1).next s (.inl 0, 0, none)).isSome)) =
      some ([⟨"BensChilli", 0, 1⟩], [⟨"BensChilli", 0, 1⟩], true) := by decide +kernel
  obtain ⟨s, hs, heq⟩ := Option.map_eq_some_iff.mp hrun
  simp only [Prod.mk.injEq] at heq
  obtain ⟨hreads, hfreed, hnext⟩ := heq
  obtain ⟨s', hs'⟩ := Option.isSome_iff_exists.mp hnext
  refine h s s' (reachable_of_choices hs) (step_of_next hs') ⟨"BensChilli", 0, 1⟩ ?_ ?_
  · rw [hreads]
    exact List.mem_singleton_self _
  · rw [hfreed]
    exact List.mem_singleton_self _

end OsLabs.ChilliBowl
