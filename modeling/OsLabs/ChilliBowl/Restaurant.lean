import Mathlib.Tactic

/-!
# Ben's Chilli Bowl: the restaurant

The data of `BENSCHILLIBOWL.h` and the functions of `BENSCHILLIBOWL.c` that use no
synchronisation.  The `int` fields are integers: the counters and the order numbers, which grow by
one at a time, are taken within `int`.  A queue of orders is the list of the orders on its `next`
chain.
-/

namespace OsLabs.ChilliBowl

structure Order where
  menuItem : String
  customerId : ℕ
  orderNumber : ℤ
  deriving DecidableEq, Repr

/-- `BENSCHILLIBOWL`, without its synchronisation objects. -/
structure Restaurant where
  orders : List Order
  currentSize : ℤ
  maxSize : ℤ
  nextOrderNumber : ℤ
  ordersHandled : ℤ
  expectedNumOrders : ℤ
  deriving DecidableEq, Repr

def benschillibowlMenu : List String :=
  ["BensChilli", "BensHalfSmoke", "BensHotDog", "BensChilliCheeseFries", "BensShake",
    "BensHotCakes", "BensCake", "BensHamburger", "BensVeggieBurger", "BensOnionRings"]

def openRestaurant (maxSize expectedNumOrders : ℤ) : Restaurant where
  orders := []
  currentSize := 0
  maxSize := maxSize
  nextOrderNumber := 1
  ordersHandled := 0
  expectedNumOrders := expectedNumOrders

def isFull (bcb : Restaurant) : Bool := bcb.currentSize ≥ bcb.maxSize

/-- The walk to the last order of the chain. -/
def addOrderToBack : List Order → Order → List Order
  | [], order => [order]
  | cur :: rest, order => cur :: addOrderToBack rest order

/-- The orders that `CloseRestaurant` frees, once no other thread runs.  `none` when its loop
waits, since nobody is left to wake it. -/
def closeRestaurant (bcb : Restaurant) : Option (List Order) :=
  if bcb.ordersHandled < bcb.expectedNumOrders then none else some bcb.orders

theorem addOrderToBack_eq (orders : List Order) (order : Order) :
    addOrderToBack orders order = orders ++ [order] := by
  induction orders with
  | nil => rfl
  | cons cur rest ih => rw [addOrderToBack, ih, List.cons_append]

theorem isFull_iff (bcb : Restaurant) : isFull bcb = true ↔ bcb.maxSize ≤ bcb.currentSize :=
  decide_eq_true_iff

end OsLabs.ChilliBowl
