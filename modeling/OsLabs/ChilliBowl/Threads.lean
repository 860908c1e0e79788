import OsLabs.ChilliBowl.Restaurant
import OsLabs.Lib.Monitor

/-!
# Ben's Chilli Bowl: the threads

`BENSCHILLIBOWLCustomer` with `AddOrder`, and `BENSCHILLIBOWLCook` with `GetOrder`, as
programs over the restaurant's mutex and its two condition variables.  Each location is a
statement of the source; a test is one step with the statement that it selects.  The delays
(`usleep`) are part of the interleaving.
-/

namespace OsLabs.ChilliBowl

open OsLabs.Lib.Monitor

inductive Mutex
  | mutex
  deriving DecidableEq

inductive Cond
  | canAddOrders
  | canGetOrders
  deriving DecidableEq

instance : Subsingleton Mutex := ⟨fun _ _ => rfl⟩

/-- How `main` opens the restaurant and what the customers order.  `mallocFails` says that
`malloc` may return `NULL`, in which case the customer skips the order, and `spuriousWakeups`
that `pthread_cond_wait` may return without a signal. -/
structure Config (customers : ℕ) where
  maxSize : ℤ
  expectedNumOrders : ℤ
  ordersPerCustomer : Fin customers → ℕ
  mallocFails : Bool
  spuriousWakeups : Bool

/-- The shared restaurant, with a record of what happened to the orders: those that
`GetOrder` took off the queue to return, those that each cook counted as handled, and those
that a cook freed. -/
structure Shared (cooks : ℕ) where
  bcb : Restaurant
  returned : List Order
  handled : List (Fin cooks × Order)
  freed : List Order

inductive CustomerLoc
  /-- `for (int i = 0; i < ORDERS_PER_CUSTOMER; ++i)` and the allocation of an order. -/
  | forLoop (i : ℕ)
  | addLock (i : ℕ) (order : Order)
  /-- `while (IsFull(bcb))`, then `order->order_number = bcb->next_order_number++`. -/
  | addWhile (i : ℕ) (order : Order)
  | addToBack (i : ℕ) (order : Order)
  | addSize (i : ℕ) (order : Order)
  | addSignal (i : ℕ) (order : Order)
  | addUnlock (i : ℕ) (order : Order)
  /-- `return order->order_number`, after the unlock. -/
  | addReturn (i : ℕ) (order : Order)
  /-- `printf` of the number and of `order->menu_item`. -/
  | printPlaced (i : ℕ) (orderNum : ℤ) (order : Order)

inductive CookLoc
  | getLock
  /-- `while (IsEmpty(bcb))` with the test for the end of all orders, then the removal of the
  first order. -/
  | getWhile
  | getUnlockNull
  /-- `GetOrder` has returned `NULL`. -/
  | noMoreOrders
  | getSize (order : Order)
  | getUnlock (order : Order)
  /-- `pthread_cond_signal(&bcb->can_add_orders)`, after the unlock. -/
  | getSignal (order : Order)
  | handleLock (order : Order)
  | handleCount (order : Order)
  /-- `if (bcb->orders_handled >= bcb->expected_num_orders)`. -/
  | handleTest (order : Order)
  | handleBroadcast (order : Order)
  | handleUnlock (order : Order)
  | printFulfilled (order : Order)
  | freeOrder (order : Order)

variable {customers cooks : ℕ}

abbrev Thread (customers cooks : ℕ) := Fin customers ⊕ Fin cooks

def Loc : Thread customers cooks → Type
  | .inl _ => CustomerLoc
  | .inr _ => CookLoc

abbrev Act (cooks : ℕ) (L : Type) := Action Mutex Cond (Shared cooks) L

/-- `BENSCHILLIBOWLCustomer` with `AddOrder`. -/
def customerCode (cfg : Config customers) (c : Fin customers) :
    CustomerLoc → Shared cooks → List (Act cooks CustomerLoc)
  | .forLoop i, w =>
    if i < cfg.ordersPerCustomer c then
      (if cfg.mallocFails then [.exec w (.forLoop (i + 1))] else []) ++
        benschillibowlMenu.map fun item => .exec w (.addLock i ⟨item, c, 0⟩)
    else []
  | .addLock i order, _ => [.lock .mutex (.addWhile i order)]
  | .addWhile i order, w =>
    if isFull w.bcb then [.wait .canAddOrders .mutex (.addWhile i order)]
    else [.exec { w with bcb := { w.bcb with nextOrderNumber := w.bcb.nextOrderNumber + 1 } }
      (.addToBack i { order with orderNumber := w.bcb.nextOrderNumber })]
  | .addToBack i order, w =>
    [.exec { w with bcb := { w.bcb with orders := addOrderToBack w.bcb.orders order } }
      (.addSize i order)]
  | .addSize i order, w =>
    [.exec { w with bcb := { w.bcb with currentSize := w.bcb.currentSize + 1 } }
      (.addSignal i order)]
  | .addSignal i order, _ => [.signal .canGetOrders (.addUnlock i order)]
  | .addUnlock i order, _ => [.unlock .mutex (.addReturn i order)]
  | .addReturn i order, w => [.exec w (.printPlaced i order.orderNumber order)]
  | .printPlaced i _ _, w => [.exec w (.forLoop (i + 1))]

/-- `BENSCHILLIBOWLCook` with `GetOrder`. -/
def cookCode (k : Fin cooks) : CookLoc → Shared cooks → List (Act cooks CookLoc)
  | .getLock, _ => [.lock .mutex .getWhile]
  | .getWhile, w =>
    match w.bcb.orders with
    | [] =>
      if w.bcb.nextOrderNumber - 1 ≥ w.bcb.expectedNumOrders then
        [.broadcast .canGetOrders .getUnlockNull]
      else [.wait .canGetOrders .mutex .getWhile]
    | order :: rest =>
      [.exec { w with bcb := { w.bcb with orders := rest }, returned := w.returned ++ [order] }
        (.getSize order)]
  | .getUnlockNull, _ => [.unlock .mutex .noMoreOrders]
  | .noMoreOrders, _ => []
  | .getSize order, w =>
    [.exec { w with bcb := { w.bcb with currentSize := w.bcb.currentSize - 1 } }
      (.getUnlock order)]
  | .getUnlock order, _ => [.unlock .mutex (.getSignal order)]
  | .getSignal order, _ => [.signal .canAddOrders (.handleLock order)]
  | .handleLock order, _ => [.lock .mutex (.handleCount order)]
  | .handleCount order, w =>
    [.exec { w with
      bcb := { w.bcb with ordersHandled := w.bcb.ordersHandled + 1 }
      handled := w.handled ++ [(k, order)] } (.handleTest order)]
  | .handleTest order, w =>
    if w.bcb.ordersHandled ≥ w.bcb.expectedNumOrders then
      [.broadcast .canGetOrders (.handleBroadcast order)]
    else [.signal .canAddOrders (.handleUnlock order)]
  | .handleBroadcast order, _ => [.broadcast .canAddOrders (.handleUnlock order)]
  | .handleUnlock order, _ => [.unlock .mutex (.printFulfilled order)]
  | .printFulfilled order, w => [.exec w (.freeOrder order)]
  | .freeOrder order, w => [.exec { w with freed := w.freed ++ [order] } .getLock]

/-! ### What each statement does -/

/-- The statements of a customer, by location. -/
inductive CustomerStep (cfg : Config customers) (c : Fin customers) (w : Shared cooks) :
    CustomerLoc → Act cooks CustomerLoc → Prop
  | skip {i : ℕ} : i < cfg.ordersPerCustomer c → cfg.mallocFails = true →
      CustomerStep cfg c w (.forLoop i) (.exec w (.forLoop (i + 1)))
  | place {i : ℕ} {item : String} : i < cfg.ordersPerCustomer c →
      CustomerStep cfg c w (.forLoop i) (.exec w (.addLock i ⟨item, c, 0⟩))
  | lock {i : ℕ} {order : Order} :
      CustomerStep cfg c w (.addLock i order) (.lock .mutex (.addWhile i order))
  | wait {i : ℕ} {order : Order} : w.bcb.maxSize ≤ w.bcb.currentSize →
      CustomerStep cfg c w (.addWhile i order) (.wait .canAddOrders .mutex (.addWhile i order))
  | number {i : ℕ} {order : Order} : w.bcb.currentSize < w.bcb.maxSize →
      CustomerStep cfg c w (.addWhile i order)
        (.exec { w with bcb := { w.bcb with nextOrderNumber := w.bcb.nextOrderNumber + 1 } }
          (.addToBack i { order with orderNumber := w.bcb.nextOrderNumber }))
  | toBack {i : ℕ} {order : Order} :
      CustomerStep cfg c w (.addToBack i order)
        (.exec { w with bcb := { w.bcb with orders := w.bcb.orders ++ [order] } }
          (.addSize i order))
  | size {i : ℕ} {order : Order} :
      CustomerStep cfg c w (.addSize i order)
        (.exec { w with bcb := { w.bcb with currentSize := w.bcb.currentSize + 1 } }
          (.addSignal i order))
  | signal {i : ℕ} {order : Order} :
      CustomerStep cfg c w (.addSignal i order) (.signal .canGetOrders (.addUnlock i order))
  | unlock {i : ℕ} {order : Order} :
      CustomerStep cfg c w (.addUnlock i order) (.unlock .mutex (.addReturn i order))
  | ret {i : ℕ} {order : Order} :
      CustomerStep cfg c w (.addReturn i order)
        (.exec w (.printPlaced i order.orderNumber order))
  | print {i : ℕ} {n : ℤ} {order : Order} :
      CustomerStep cfg c w (.printPlaced i n order) (.exec w (.forLoop (i + 1)))

theorem customerStep_of_mem {cfg : Config customers} {c : Fin customers} {l : CustomerLoc}
    {w : Shared cooks} {a : Act cooks CustomerLoc} (h : a ∈ customerCode cfg c l w) :
    CustomerStep cfg c w l a := by
  cases l with
  | forLoop i =>
    rw [customerCode] at h
    split at h
    · rename_i hi
      rcases List.mem_append.mp h with hskip | hplace
      · by_cases hm : cfg.mallocFails = true
        · rw [if_pos hm] at hskip
          obtain rfl := List.mem_singleton.mp hskip
          exact .skip hi hm
        · rw [if_neg hm] at hskip
          cases hskip
      · obtain ⟨item, -, rfl⟩ := List.mem_map.mp hplace
        exact .place hi
    · cases h
  | addLock i order =>
    obtain rfl := List.mem_singleton.mp h
    exact .lock
  | addWhile i order =>
    rw [customerCode] at h
    split at h
    · rename_i hfull
      obtain rfl := List.mem_singleton.mp h
      exact .wait ((isFull_iff _).mp hfull)
    · rename_i hfull
      obtain rfl := List.mem_singleton.mp h
      exact .number (by rw [isFull_iff] at hfull; omega)
  | addToBack i order =>
    obtain rfl := List.mem_singleton.mp h
    rw [addOrderToBack_eq]
    exact .toBack
  | addSize i order =>
    obtain rfl := List.mem_singleton.mp h
    exact .size
  | addSignal i order =>
    obtain rfl := List.mem_singleton.mp h
    exact .signal
  | addUnlock i order =>
    obtain rfl := List.mem_singleton.mp h
    exact .unlock
  | addReturn i order =>
    obtain rfl := List.mem_singleton.mp h
    exact .ret
  | printPlaced i n order =>
    obtain rfl := List.mem_singleton.mp h
    exact .print

/-- The statements of a cook, by location. -/
inductive CookStep (k : Fin cooks) (w : Shared cooks) : CookLoc → Act cooks CookLoc → Prop
  | lock : CookStep k w .getLock (.lock .mutex .getWhile)
  | noMore : w.bcb.orders = [] → w.bcb.expectedNumOrders ≤ w.bcb.nextOrderNumber - 1 →
      CookStep k w .getWhile (.broadcast .canGetOrders .getUnlockNull)
  | wait : w.bcb.orders = [] → w.bcb.nextOrderNumber - 1 < w.bcb.expectedNumOrders →
      CookStep k w .getWhile (.wait .canGetOrders .mutex .getWhile)
  | take {order : Order} {rest : List Order} : w.bcb.orders = order :: rest →
      CookStep k w .getWhile (.exec { w with
        bcb := { w.bcb with orders := rest }, returned := w.returned ++ [order] }
        (.getSize order))
  | unlockNull : CookStep k w .getUnlockNull (.unlock .mutex .noMoreOrders)
  | size {order : Order} :
      CookStep k w (.getSize order)
        (.exec { w with bcb := { w.bcb with currentSize := w.bcb.currentSize - 1 } }
          (.getUnlock order))
  | unlock {order : Order} : CookStep k w (.getUnlock order) (.unlock .mutex (.getSignal order))
  | signal {order : Order} :
      CookStep k w (.getSignal order) (.signal .canAddOrders (.handleLock order))
  | handleLock {order : Order} :
      CookStep k w (.handleLock order) (.lock .mutex (.handleCount order))
  | count {order : Order} :
      CookStep k w (.handleCount order) (.exec { w with
        bcb := { w.bcb with ordersHandled := w.bcb.ordersHandled + 1 }
        handled := w.handled ++ [(k, order)] } (.handleTest order))
  | notifyAll {order : Order} : w.bcb.expectedNumOrders ≤ w.bcb.ordersHandled →
      CookStep k w (.handleTest order) (.broadcast .canGetOrders (.handleBroadcast order))
  | notifyOne {order : Order} : w.bcb.ordersHandled < w.bcb.expectedNumOrders →
      CookStep k w (.handleTest order) (.signal .canAddOrders (.handleUnlock order))
  | notifyAdd {order : Order} :
      CookStep k w (.handleBroadcast order) (.broadcast .canAddOrders (.handleUnlock order))
  | handleUnlock {order : Order} :
      CookStep k w (.handleUnlock order) (.unlock .mutex (.printFulfilled order))
  | print {order : Order} : CookStep k w (.printFulfilled order) (.exec w (.freeOrder order))
  | free {order : Order} :
      CookStep k w (.freeOrder order) (.exec { w with freed := w.freed ++ [order] } .getLock)

theorem cookStep_of_mem {k : Fin cooks} {l : CookLoc} {w : Shared cooks}
    {a : Act cooks CookLoc} (h : a ∈ cookCode k l w) : CookStep k w l a := by
  cases l with
  | getLock =>
    obtain rfl := List.mem_singleton.mp h
    exact .lock
  | getWhile =>
    rw [cookCode] at h
    split at h
    · rename_i hempty
      split at h
      · rename_i hall
        obtain rfl := List.mem_singleton.mp h
        exact .noMore hempty hall
      · rename_i hall
        obtain rfl := List.mem_singleton.mp h
        exact .wait hempty (not_le.mp hall)
    · rename_i order rest hfirst
      obtain rfl := List.mem_singleton.mp h
      exact .take hfirst
  | getUnlockNull =>
    obtain rfl := List.mem_singleton.mp h
    exact .unlockNull
  | noMoreOrders => cases h
  | getSize order =>
    obtain rfl := List.mem_singleton.mp h
    exact .size
  | getUnlock order =>
    obtain rfl := List.mem_singleton.mp h
    exact .unlock
  | getSignal order =>
    obtain rfl := List.mem_singleton.mp h
    exact .signal
  | handleLock order =>
    obtain rfl := List.mem_singleton.mp h
    exact .handleLock
  | handleCount order =>
    obtain rfl := List.mem_singleton.mp h
    exact .count
  | handleTest order =>
    rw [cookCode] at h
    split at h
    · rename_i hall
      obtain rfl := List.mem_singleton.mp h
      exact .notifyAll hall
    · rename_i hall
      obtain rfl := List.mem_singleton.mp h
      exact .notifyOne (not_le.mp hall)
  | handleBroadcast order =>
    obtain rfl := List.mem_singleton.mp h
    exact .notifyAdd
  | handleUnlock order =>
    obtain rfl := List.mem_singleton.mp h
    exact .handleUnlock
  | printFulfilled order =>
    obtain rfl := List.mem_singleton.mp h
    exact .print
  | freeOrder order =>
    obtain rfl := List.mem_singleton.mp h
    exact .free

/-! ### The whole program -/

/-- The threads that `main` starts. -/
def restaurant (cfg : Config customers) (cooks : ℕ) :
    Program (Thread customers cooks) Mutex Cond (Shared cooks) Loc where
  start
    | .inl _ => CustomerLoc.forLoop 0
    | .inr _ => CookLoc.getLock
  data := ⟨openRestaurant cfg.maxSize cfg.expectedNumOrders, [], [], []⟩
  code
    | .inl c => customerCode cfg c
    | .inr k => cookCode k
  spurious := cfg.spuriousWakeups

end OsLabs.ChilliBowl
