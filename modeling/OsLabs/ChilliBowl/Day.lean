import OsLabs.ChilliBowl.Progress
import OsLabs.Lib.Ranking

/-!
# Ben's Chilli Bowl: the whole day

Every loop of the program waits for a mutex, for an order or for a free place, and each wakeup is
paid for by the statement that signals it.  An order carries enough for the customer that places
it and for the cook that takes it, so every day ends; and it ends with every order of every
customer handled once and freed once.  A customer that reads an order which a cook has freed goes on
here; `Freed` says when that happens.
-/

namespace OsLabs.ChilliBowl

open OsLabs.Lib OsLabs.Lib.Monitor

variable {customers cooks : ℕ} {cfg : Config customers}
  {s : State (Thread customers cooks) Mutex Cond (Shared cooks) Loc}

/-! ### What the statements cost -/

/-- The cost of a broadcast to `threads` threads. -/
def bell (threads : ℕ) : ℕ := 2 * threads + 1

/-- What a cook needs from a location to its next wait or end. -/
def CookLoc.share (threads : ℕ) : CookLoc → ℕ
  | noMoreOrders => 0
  | getUnlockNull => 1
  | getWhile => bell threads + 1
  | getLock => bell threads + 2
  | freeOrder _ => bell threads + 3
  | printFulfilled _ => bell threads + 4
  | handleUnlock _ => bell threads + 5
  | handleBroadcast _ => 2 * bell threads + 5
  | handleTest _ => 3 * bell threads + 8
  | handleCount _ => 3 * bell threads + 9
  | handleLock _ => 3 * bell threads + 10
  | getSignal _ => 3 * bell threads + 13
  | getUnlock _ => 3 * bell threads + 14
  | getSize _ => 3 * bell threads + 15

/-- What an order in the queue brings the cook that takes it. -/
def orderFund (threads : ℕ) : ℕ := 2 * bell threads + 15

/-- What a customer needs for its orders from a location on, the funds of the orders included. -/
def CustomerLoc.share (threads orders : ℕ) : CustomerLoc → ℕ
  | forLoop i => (orderFund threads + 11) * (orders - i)
  | addLock i _ => (orderFund threads + 11) * (orders - (i + 1)) + (orderFund threads + 10)
  | addWhile i _ => (orderFund threads + 11) * (orders - (i + 1)) + (orderFund threads + 9)
  | addToBack i _ => (orderFund threads + 11) * (orders - (i + 1)) + (orderFund threads + 8)
  | addSize i _ => (orderFund threads + 11) * (orders - (i + 1)) + 7
  | addSignal i _ => (orderFund threads + 11) * (orders - (i + 1)) + 6
  | addUnlock i _ => (orderFund threads + 11) * (orders - (i + 1)) + 3
  | addReturn i _ => (orderFund threads + 11) * (orders - (i + 1)) + 2
  | printPlaced i _ _ => (orderFund threads + 11) * (orders - (i + 1)) + 1

def share (cfg : Config customers) (cooks : ℕ) : ∀ t : Thread customers cooks, Loc t → ℕ
  | .inl c => CustomerLoc.share (customers + cooks) (cfg.ordersPerCustomer c)
  | .inr _ => CookLoc.share (customers + cooks)

/-- What the orders in the queue bring. -/
def fund (customers : ℕ) (w : Shared cooks) : ℕ :=
  orderFund (customers + cooks) * w.bcb.orders.length

theorem CustomerStep.pays {c : Fin customers} {w : Shared cooks} {l : CustomerLoc}
    {a : Act cooks CustomerLoc} (h : CustomerStep cfg c w l a) (threads : ℕ) :
    orderFund threads * (a.effect w).bcb.orders.length +
        CustomerLoc.share threads (cfg.ordersPerCustomer c) a.next + a.cost threads ≤
      orderFund threads * w.bcb.orders.length +
        CustomerLoc.share threads (cfg.ordersPerCustomer c) l := by
  have hnext : ∀ {i}, i < cfg.ordersPerCustomer c →
      (orderFund threads + 11) * (cfg.ordersPerCustomer c - (i + 1)) + (orderFund threads + 11) =
        (orderFund threads + 11) * (cfg.ordersPerCustomer c - i) := by
    intro i hi
    rw [← Nat.mul_succ]
    exact congrArg _ (by omega)
  cases h with
  | skip hi hfail =>
    have hi := hnext hi
    simp only [Action.effect, Action.next, Action.cost, CustomerLoc.share]
    omega
  | place hi =>
    have hi := hnext hi
    simp only [Action.effect, Action.next, Action.cost, CustomerLoc.share]
    omega
  | toBack =>
    simp only [Action.effect, Action.next, Action.cost, CustomerLoc.share, List.length_append,
      List.length_singleton, Nat.mul_succ]
    omega
  | _ =>
    simp only [Action.effect, Action.next, Action.cost, CustomerLoc.share]
    omega

theorem CookStep.pays {k : Fin cooks} {w : Shared cooks} {l : CookLoc}
    {a : Act cooks CookLoc} (h : CookStep k w l a) (threads : ℕ) :
    orderFund threads * (a.effect w).bcb.orders.length + CookLoc.share threads a.next +
        a.cost threads ≤
      orderFund threads * w.bcb.orders.length + CookLoc.share threads l := by
  cases h with
  | take hfirst =>
    simp only [Action.effect, Action.next, Action.cost, CookLoc.share, hfirst, List.length_cons,
      Nat.mul_succ, orderFund]
    omega
  | _ =>
    simp only [Action.effect, Action.next, Action.cost, CookLoc.share, bell]
    omega

theorem ranked (cfg : Config customers) (cooks : ℕ) :
    Ranked (restaurant cfg cooks) (fund customers) (share cfg cooks) := by
  intro t l w a ha
  have hcard : Fintype.card (Thread customers cooks) = customers + cooks := by
    rw [Fintype.card_sum, Fintype.card_fin, Fintype.card_fin]
  rw [hcard]
  cases t with
  | inl c => exact (customerStep_of_mem ha).pays _
  | inr k => exact (cookStep_of_mem ha).pays _

/-- A bound for the steps of a day. -/
def dayLength (cfg : Config customers) (cooks : ℕ) : ℕ :=
  (4 * (customers + cooks) + 28) * (∑ c, cfg.ordersPerCustomer c) +
    (customers + cooks * (2 * (customers + cooks) + 4))

theorem rank_init (cfg : Config customers) (cooks : ℕ) :
    (restaurant cfg cooks).machine.init.rank (fund customers) (share cfg cooks) =
      dayLength cfg cooks := by
  have hcustomer : ∀ c, Status.purse (share cfg cooks (.inl c))
      ((restaurant cfg cooks).machine.init.status (.inl c)) =
        (4 * (customers + cooks) + 28) * cfg.ordersPerCustomer c + 1 := by
    intro c
    show (orderFund (customers + cooks) + 11) * (cfg.ordersPerCustomer c - 0) + 1 = _
    rw [Nat.sub_zero, orderFund, bell]
    exact congrArg (· * _ + 1) (by omega)
  have hcook : ∀ k, Status.purse (share cfg cooks (.inr k))
      ((restaurant cfg cooks).machine.init.status (.inr k)) = 2 * (customers + cooks) + 4 :=
    fun k => rfl
  rw [State.rank, Fintype.sum_sum_type]
  simp only [hcustomer, hcook]
  rw [Finset.sum_add_distrib, ← Finset.mul_sum, Finset.sum_const, Finset.sum_const,
    Finset.card_univ, Finset.card_univ, Fintype.card_fin, Fintype.card_fin, smul_eq_mul,
    smul_eq_mul, mul_one, add_assoc]
  exact Nat.zero_add _

/-! ### The orders of a customer -/

/-- The order of a customer in `AddOrder` bears its number. -/
def CustomerLoc.Signed (c : ℕ) : CustomerLoc → Prop
  | addLock _ order | addWhile _ order | addToBack _ order => order.customerId = c
  | _ => True

def Signed : ∀ t : Thread customers cooks, Loc t → Prop
  | .inl c => CustomerLoc.Signed c
  | .inr _ => fun _ => True

theorem signed (h : (restaurant cfg cooks).machine.Reachable s) (t : Thread customers cooks) :
    Signed t (s.loc t) := by
  refine loc_invariant (I := Signed) ?_ ?_ h t
  · rintro (c | k) <;> trivial
  · rintro (c | k) l w a ha hl
    · cases customerStep_of_mem ha with
      | place hi => exact rfl
      | lock | wait | number => exact hl
      | _ => trivial
    · trivial

/-- The orders that a customer has still to put into the queue. -/
def CustomerLoc.toPlace (orders : ℕ) : CustomerLoc → ℕ
  | forLoop i | addLock i _ | addWhile i _ => orders - i
  | addToBack i _ => orders - (i + 1) + 1
  | addSize i _ | addSignal i _ | addUnlock i _ | addReturn i _ | printPlaced i _ _ =>
    orders - (i + 1)

/-- The share of a thread in the orders of customer `c`. -/
def toPlace (cfg : Config customers) (c : Fin customers) : ∀ t : Thread customers cooks, Loc t → ℕ
  | .inl c' => fun l => if c' = c then CustomerLoc.toPlace (cfg.ordersPerCustomer c) l else 0
  | .inr _ => fun _ => 0

/-- How many of the orders are those of customer `c`. -/
def ordersOf (c : ℕ) (orders : List Order) : ℕ := orders.countP fun order => order.customerId = c

theorem ordersOf_append (c : ℕ) (orders orders' : List Order) :
    ordersOf c (orders ++ orders') = ordersOf c orders + ordersOf c orders' :=
  List.countP_append

theorem ordersOf_cons (c : ℕ) (order : Order) (orders : List Order) :
    ordersOf c (order :: orders) =
      ordersOf c orders + if order.customerId = c then 1 else 0 := by
  rw [ordersOf, List.countP_cons]
  simp only [decide_eq_true_eq]
  rfl

theorem ordersOf_perm {c : ℕ} {orders orders' : List Order} (h : orders.Perm orders') :
    ordersOf c orders = ordersOf c orders' :=
  h.countP_eq _

/-- **Balance of a customer.**  Its orders have been taken, are in the queue or are still to
come. -/
theorem ordersPerCustomer_eq (hcfg : cfg.PlacesAll)
    (h : (restaurant cfg cooks).machine.Reachable s) (c : Fin customers) :
    cfg.ordersPerCustomer c =
      ordersOf c s.data.returned + ordersOf c s.data.bcb.orders +
        ∑ t, toPlace cfg c t (s.loc t) := by
  refine account (p := fun _ => cfg.ordersPerCustomer c)
    (q := fun w => ordersOf c w.returned + ordersOf c w.bcb.orders)
    (I := fun t l => InLoop cfg t l ∧ Signed t l)
    (fun s hs t => ⟨inLoop hs t, signed hs t⟩) ?_ ?_ h
  · show _ = 0 + 0 + _
    rw [add_zero, zero_add, Fintype.sum_sum_type]
    show _ = ∑ c', (if c' = c then cfg.ordersPerCustomer c - 0 else 0) + ∑ k : Fin cooks, 0
    rw [Finset.sum_const_zero, add_zero, Finset.sum_ite_eq' Finset.univ c]
    simp
  · rintro (c' | k) l w a ⟨hloop, hsigned⟩ ha
    · cases customerStep_of_mem ha with
      | skip hi hfail =>
        rw [hcfg.malloc] at hfail
        cases hfail
      | @number i order hroom =>
        have hi : i < cfg.ordersPerCustomer c' := hloop
        have hsame : c' = c →
            cfg.ordersPerCustomer c - i = cfg.ordersPerCustomer c - (i + 1) + 1 := by
          intro heq
          subst heq
          omega
        show _ + (_ + if c' = c then cfg.ordersPerCustomer c - i else 0) =
          _ + (_ + if c' = c then cfg.ordersPerCustomer c - (i + 1) + 1 else 0)
        split
        · rename_i heq
          rw [hsame heq]
          rfl
        · rfl
      | @toBack i order =>
        have hid : order.customerId = c' := hsigned
        show _ + (ordersOf c w.returned + ordersOf c w.bcb.orders +
            if c' = c then cfg.ordersPerCustomer c - (i + 1) + 1 else 0) =
          _ + (ordersOf c w.returned + ordersOf c (w.bcb.orders ++ [order]) +
            if c' = c then cfg.ordersPerCustomer c - (i + 1) else 0)
        rw [ordersOf_append, ordersOf_cons]
        have hzero : ordersOf (c : ℕ) [] = 0 := rfl
        by_cases heq : c' = c
        · rw [if_pos heq, if_pos heq, if_pos (by rw [hid, heq])]
          omega
        · have hne : order.customerId ≠ c := fun hc => heq (Fin.ext (hid.symm.trans hc))
          rw [if_neg heq, if_neg heq, if_neg hne]
          omega
      | _ => rfl
    · cases cookStep_of_mem ha with
      | @take order rest hfirst =>
        show _ + (ordersOf c w.returned + ordersOf c w.bcb.orders + 0) =
          _ + (ordersOf c (w.returned ++ [order]) + ordersOf c rest + 0)
        have hzero : ordersOf (c : ℕ) [] = 0 := rfl
        rw [hfirst, ordersOf_append, ordersOf_cons, ordersOf_cons]
        omega
      | _ => rfl

/-! ### The orders that are freed -/

/-- The order that a cook has counted as handled and not yet freed. -/
def CookLoc.toFree : CookLoc → Multiset Order
  | handleTest order | handleBroadcast order | handleUnlock order | printFulfilled order
  | freeOrder order => {order}
  | _ => 0

def toFree : ∀ t : Thread customers cooks, Loc t → Multiset Order
  | .inl _ => fun _ => 0
  | .inr _ => CookLoc.toFree

theorem handled_eq_freed_add_toFree (h : (restaurant cfg cooks).machine.Reachable s) :
    ((s.data.handled.map Prod.snd : List Order) : Multiset Order) =
      (s.data.freed : Multiset Order) + ∑ t, toFree t (s.loc t) := by
  refine account (p := fun w => ((w.handled.map Prod.snd : List Order) : Multiset Order))
    (q := fun w => (w.freed : Multiset Order)) (fun s hs => inLoop hs) ?_ ?_ h
  · show (0 : Multiset Order) = 0 + _
    rw [zero_add]
    refine (Finset.sum_eq_zero ?_).symm
    rintro (c | k) - <;> rfl
  · rintro (c | k) l w a - ha
    · cases customerStep_of_mem ha <;> rfl
    · cases cookStep_of_mem ha with
      | @count order =>
        show ((((w.handled ++ [(k, order)]).map Prod.snd : List Order)) : Multiset Order) +
          (_ + 0) = _ + (_ + {order})
        rw [List.map_append, ← Multiset.coe_add, add_zero]
        show _ + {order} + _ = _
        ac_rfl
      | @free order =>
        show _ + ((w.freed : Multiset Order) + {order}) =
          _ + (((w.freed ++ [order] : List Order) : Multiset Order) + 0)
        rw [← Multiset.coe_add, Multiset.coe_singleton, add_zero]
        rfl
      | _ => rfl

/-! ### The end of the day -/

/-- Every thread has finished, the expected orders have been handled once each, all orders of each
customer among them, the cooks have freed what they handled, and `CloseRestaurant` neither waits
nor finds an order left. -/
structure DayDone (cfg : Config customers)
    (s : State (Thread customers cooks) Mutex Cond (Shared cooks) Loc) : Prop where
  finished : ∀ t, Finished (restaurant cfg cooks) s t
  numbers : (s.data.handled.map fun p => p.2.orderNumber).Perm
    (numbersFromOne cfg.expectedNumOrders.toNat)
  customer : ∀ c : Fin customers,
    ordersOf c (s.data.handled.map Prod.snd) = cfg.ordersPerCustomer c
  freed : s.data.freed.Perm (s.data.handled.map Prod.snd)
  closes : closeRestaurant s.data.bcb = some []

theorem toPlace_eq_zero (c : Fin customers)
    (hfinished : ∀ t, Finished (restaurant cfg cooks) s t) :
    ∑ t, toPlace cfg c t (s.loc t) = 0 := by
  refine Finset.sum_eq_zero fun t _ => ?_
  cases t with
  | inl c' =>
    obtain ⟨i, hrun, hi⟩ := finished_customer (hfinished (.inl c'))
    rw [State.loc, hrun]
    show (if c' = c then cfg.ordersPerCustomer c - i else 0) = 0
    split
    · rename_i heq
      subst heq
      omega
    · rfl
  | inr k => rfl

theorem toFree_eq_zero (hfinished : ∀ t, Finished (restaurant cfg cooks) s t) :
    ∑ t, toFree t (s.loc t) = 0 := by
  refine Finset.sum_eq_zero fun t _ => ?_
  cases t with
  | inl c => rfl
  | inr k =>
    rw [State.loc, finished_cook (hfinished (.inr k))]
    rfl

theorem dayDone_of_stuck (hmax : 1 ≤ cfg.maxSize) (hcfg : cfg.PlacesAll) (hcooks : 0 < cooks)
    (h : (restaurant cfg cooks).machine.Reachable s) (hstuck : Stuck (restaurant cfg cooks) s) :
    DayDone cfg s := by
  have hfinished := finished_of_stuck hmax hcfg hcooks h hstuck
  have hloc : ∀ k : Fin cooks, s.loc (.inr k) = CookLoc.noMoreOrders := by
    intro k
    rw [State.loc, finished_cook (hfinished (.inr k))]
    rfl
  obtain ⟨horders, hreturned, -⟩ :=
    drained hcfg h (toldNull_of_finished (hfinished (.inr ⟨0, hcooks⟩)))
  have hperm := handled_perm_returned h hloc
  obtain ⟨pending, uncounted, room, hinv⟩ := exists_queueInv h
  refine ⟨hfinished, ?_, fun c => ?_, ?_, ?_⟩
  · have hnumbers := hperm.map Order.orderNumber
    rw [List.map_map, hinv.returned_numbers] at hnumbers
    rw [← hreturned, Int.toNat_natCast]
    exact hnumbers
  · have hbalance := ordersPerCustomer_eq hcfg h c
    rw [toPlace_eq_zero c hfinished, horders, ← ordersOf_perm hperm] at hbalance
    exact hbalance.symm
  · have hfreed := handled_eq_freed_add_toFree h
    rw [toFree_eq_zero hfinished, add_zero] at hfreed
    exact (Multiset.coe_eq_coe.mp hfreed).symm
  · have hcount := ordersHandled_eq h
    have hlength := hperm.length_eq
    rw [List.length_map] at hlength
    rw [closeRestaurant, if_neg (by rw [expectedNumOrders_eq h]; omega), horders]

/-- **The whole day.**  A day takes no more steps than its orders and threads pay for, but for
what wakeups without a signal add; it is done when no thread can step; and without such wakeups
every run goes on until it is done. -/
theorem day_ends (hmax : 1 ≤ cfg.maxSize) (hcfg : cfg.PlacesAll) (hcooks : 0 < cooks) :
    (∀ tr s, (restaurant cfg cooks).machine.Run tr s →
      tr.length ≤ dayLength cfg cooks + (tr.map unsignalled).sum ∧
        (Stuck (restaurant cfg cooks) s → DayDone cfg s)) ∧
    (cfg.spuriousWakeups = false → ∀ tr s, (restaurant cfg cooks).machine.Run tr s →
      ∃ rest s', (restaurant cfg cooks).machine.Run (tr ++ rest) s' ∧ DayDone cfg s') := by
  refine ⟨fun tr s hrun => ⟨?_, ?_⟩, fun hspurious tr s hrun => ?_⟩
  · rw [← rank_init]
    exact (ranked cfg cooks).length_le hrun
  · exact dayDone_of_stuck hmax hcfg hcooks ⟨tr, hrun⟩
  · obtain ⟨rest, s', hrun', hstuck⟩ := (ranked cfg cooks).exists_stuck hspurious hrun
    exact ⟨rest, s', hrun', dayDone_of_stuck hmax hcfg hcooks ⟨_, hrun'⟩ hstuck⟩

/-- One customer with one order, and one cook. -/
theorem day_ends_oneEach :
    (∀ tr s, (restaurant oneEach 1).machine.Run tr s →
      tr.length ≤ 45 + (tr.map unsignalled).sum) ∧
    ∃ tr s, (restaurant oneEach 1).machine.Run tr s ∧ DayDone oneEach s ∧
      s.data.freed.length = 1 := by
  obtain ⟨hlength, hdone⟩ := @day_ends 1 1 oneEach (by decide) ⟨rfl, rfl⟩ one_pos
  refine ⟨fun tr s hrun => (hlength tr s hrun).1, ?_⟩
  obtain ⟨rest, s, hrun, hday⟩ := hdone rfl [] _ .start
  have hfreed := hday.freed.length_eq
  have hnumbers := hday.numbers.length_eq
  rw [List.length_map] at hfreed hnumbers
  exact ⟨_, s, hrun, hday, hfreed.trans (hnumbers.trans (by decide))⟩

end OsLabs.ChilliBowl
