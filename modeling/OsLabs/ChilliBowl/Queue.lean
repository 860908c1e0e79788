import OsLabs.ChilliBowl.Threads

/-!
# Ben's Chilli Bowl: the queue of orders

The size counter, the queue and the numbering agree whenever the mutex is free.  Between the
statements of `AddOrder` and `GetOrder` they differ by what the owner of the mutex has not yet
updated, and `QueueInv` takes these differences as parameters.
-/

namespace OsLabs.ChilliBowl

open OsLabs.Lib OsLabs.Lib.Monitor

variable {customers cooks : ℕ} {cfg : Config customers}

/-! ### Ownership of the mutex -/

def CustomerLoc.owns : CustomerLoc → Prop
  | addWhile _ _ | addToBack _ _ | addSize _ _ | addSignal _ _ | addUnlock _ _ => True
  | _ => False

def CookLoc.owns : CookLoc → Prop
  | getWhile | getUnlockNull | getSize _ | getUnlock _ | handleCount _ | handleTest _
  | handleBroadcast _ | handleUnlock _ => True
  | _ => False

def owns : ∀ t : Thread customers cooks, Loc t → Prop
  | .inl _ => CustomerLoc.owns
  | .inr _ => CookLoc.owns

theorem guarded (cfg : Config customers) (cooks : ℕ) :
    Guarded (restaurant cfg cooks) .mutex owns where
  start := by
    rintro (c | k)
    · exact id
    · exact id
  lock := by
    rintro (c | k) l w next ha
    · cases customerStep_of_mem ha
      trivial
    · cases cookStep_of_mem ha <;> trivial
  unlock := by
    rintro (c | k) l w next ha
    · cases customerStep_of_mem ha
      exact ⟨trivial, id⟩
    · cases cookStep_of_mem ha <;> exact ⟨trivial, id⟩
  wait := by
    rintro (c | k) l w cond next ha
    · cases customerStep_of_mem ha
      exact ⟨trivial, trivial⟩
    · cases cookStep_of_mem ha
      exact ⟨trivial, trivial⟩
  other := by
    rintro (c | k) l w a ha huse
    · cases customerStep_of_mem ha with
      | lock | wait | unlock => exact absurd rfl huse
      | _ => exact Iff.rfl
    · cases cookStep_of_mem ha with
      | lock | wait | unlockNull | unlock | handleLock | handleUnlock => exact absurd rfl huse
      | _ => exact Iff.rfl

/-! ### The data of the queue -/

/-- The list `1, 2, …` of the given length. -/
def numbersFromOne (n : ℕ) : List ℤ := (List.range n).map fun k : ℕ => (k : ℤ) + 1

theorem numbersFromOne_succ (n : ℕ) :
    numbersFromOne (n + 1) = numbersFromOne n ++ [(n : ℤ) + 1] := by
  rw [numbersFromOne, List.range_succ, List.map_append]
  rfl

theorem length_numbersFromOne (n : ℕ) : (numbersFromOne n).length = n := by
  rw [numbersFromOne, List.length_map, List.length_range]

theorem numbersFromOne_add (n k : ℕ) : numbersFromOne (n + k) =
    numbersFromOne n ++ (List.range k).map fun j : ℕ => (n : ℤ) + j + 1 := by
  rw [numbersFromOne, List.range_add, List.map_append, List.map_map]
  refine congrArg (numbersFromOne n ++ ·) (List.map_congr_left fun j _ => ?_)
  show ((n + j : ℕ) : ℤ) + 1 = n + j + 1
  rw [Nat.cast_add]

/-- The orders taken, the queue and the numbers given to orders that are not yet in the queue
are `1, 2, …` up to the last number given.  The queue has `uncounted` orders more than
`current_size`, which has space for `room` more. -/
structure QueueInv (maxSize : ℤ) (pending : List ℤ) (uncounted room : ℤ) (w : Shared cooks) :
    Prop where
  numbers : (w.returned ++ w.bcb.orders).map Order.orderNumber ++ pending =
    numbersFromOne (w.returned.length + w.bcb.orders.length + pending.length)
  next : w.bcb.nextOrderNumber =
    w.returned.length + w.bcb.orders.length + pending.length + 1
  size : (w.bcb.orders.length : ℤ) = w.bcb.currentSize + uncounted
  bound : w.bcb.currentSize + room ≤ max maxSize 0
  maxSize_eq : w.bcb.maxSize = maxSize

def CustomerLoc.queueInv (maxSize : ℤ) : CustomerLoc → Shared cooks → Prop
  | addToBack _ order => QueueInv maxSize [order.orderNumber] 0 1
  | addSize _ _ => QueueInv maxSize [] 1 1
  | _ => QueueInv maxSize [] 0 0

def CookLoc.queueInv (maxSize : ℤ) : CookLoc → Shared cooks → Prop
  | getSize _ => QueueInv maxSize [] (-1) 0
  | _ => QueueInv maxSize [] 0 0

def queueInv (maxSize : ℤ) : ∀ t : Thread customers cooks, Loc t → Shared cooks → Prop
  | .inl _ => CustomerLoc.queueInv maxSize
  | .inr _ => CookLoc.queueInv maxSize

section Statements

variable {maxSize : ℤ} {w : Shared cooks}

theorem QueueInv.number (h : QueueInv maxSize [] 0 0 w)
    (hroom : w.bcb.currentSize < w.bcb.maxSize) :
    QueueInv maxSize [w.bcb.nextOrderNumber] 0 1
      { w with bcb := { w.bcb with nextOrderNumber := w.bcb.nextOrderNumber + 1 } } where
  numbers := by
    have hnumbers := h.numbers
    have hnext := h.next
    rw [List.append_nil, List.length_nil, add_zero] at hnumbers
    rw [List.length_nil, Nat.cast_zero, add_zero] at hnext
    show _ ++ [w.bcb.nextOrderNumber] = numbersFromOne (_ + 1)
    rw [numbersFromOne_succ, hnumbers, hnext]
    push_cast
    rfl
  next := by
    have hnext := h.next
    rw [List.length_nil, Nat.cast_zero, add_zero] at hnext
    show w.bcb.nextOrderNumber + 1 = _
    rw [hnext]
    rfl
  size := h.size
  bound := by
    have heq := h.maxSize_eq
    show w.bcb.currentSize + 1 ≤ max maxSize 0
    omega
  maxSize_eq := h.maxSize_eq

theorem QueueInv.toBack {order : Order} (h : QueueInv maxSize [order.orderNumber] 0 1 w) :
    QueueInv maxSize [] 1 1
      { w with bcb := { w.bcb with orders := w.bcb.orders ++ [order] } } where
  numbers := by
    have hnumbers := h.numbers
    show (w.returned ++ (w.bcb.orders ++ [order])).map _ ++ [] =
      numbersFromOne (_ + (w.bcb.orders ++ [order]).length + 0)
    rw [← List.append_assoc, List.map_append, List.append_nil, List.length_append, add_zero,
      ← add_assoc]
    exact hnumbers
  next := by
    have hnext := h.next
    show w.bcb.nextOrderNumber = _ + ((w.bcb.orders ++ [order]).length : ℤ) + _ + 1
    rw [hnext]
    simp only [List.length_append, List.length_singleton, List.length_nil]
    push_cast
    ring
  size := by
    have hsize := h.size
    show ((w.bcb.orders ++ [order]).length : ℤ) = w.bcb.currentSize + 1
    rw [List.length_append, List.length_singleton]
    push_cast
    omega
  bound := h.bound
  maxSize_eq := h.maxSize_eq

theorem QueueInv.count (h : QueueInv maxSize [] 1 1 w) :
    QueueInv maxSize [] 0 0
      { w with bcb := { w.bcb with currentSize := w.bcb.currentSize + 1 } } where
  numbers := h.numbers
  next := h.next
  size := by
    have hsize := h.size
    show (w.bcb.orders.length : ℤ) = w.bcb.currentSize + 1 + 0
    omega
  bound := by
    have hbound := h.bound
    show w.bcb.currentSize + 1 + 0 ≤ max maxSize 0
    omega
  maxSize_eq := h.maxSize_eq

theorem QueueInv.take {order : Order} {rest : List Order} (h : QueueInv maxSize [] 0 0 w)
    (hfirst : w.bcb.orders = order :: rest) :
    QueueInv maxSize [] (-1) 0 { w with
      bcb := { w.bcb with orders := rest }, returned := w.returned ++ [order] } where
  numbers := by
    have hnumbers := h.numbers
    rw [hfirst] at hnumbers
    show (w.returned ++ [order] ++ rest).map _ ++ [] =
      numbersFromOne ((w.returned ++ [order]).length + rest.length + 0)
    rw [List.append_assoc, List.length_append, List.length_singleton, add_right_comm _ 1]
    exact hnumbers
  next := by
    have hnext := h.next
    rw [hfirst, List.length_cons] at hnext
    show w.bcb.nextOrderNumber = ((w.returned ++ [order]).length : ℤ) + rest.length + _ + 1
    rw [hnext, List.length_append, List.length_singleton]
    push_cast
    ring
  size := by
    have hsize := h.size
    rw [hfirst, List.length_cons] at hsize
    show (rest.length : ℤ) = w.bcb.currentSize + -1
    push_cast at hsize
    omega
  bound := h.bound
  maxSize_eq := h.maxSize_eq

/-- `GetOrder` has returned the first numbers in ascending order. -/
theorem QueueInv.returned_numbers {pending : List ℤ} {uncounted room : ℤ}
    (h : QueueInv maxSize pending uncounted room w) :
    w.returned.map Order.orderNumber = numbersFromOne w.returned.length := by
  have hnumbers := h.numbers
  rw [List.map_append, List.append_assoc, Nat.add_assoc, numbersFromOne_add] at hnumbers
  exact (List.append_inj hnumbers (by rw [List.length_map, length_numbersFromOne])).1

theorem QueueInv.uncount (h : QueueInv maxSize [] (-1) 0 w) :
    QueueInv maxSize [] 0 0
      { w with bcb := { w.bcb with currentSize := w.bcb.currentSize - 1 } } where
  numbers := h.numbers
  next := h.next
  size := by
    have hsize := h.size
    show (w.bcb.orders.length : ℤ) = w.bcb.currentSize - 1 + 0
    omega
  bound := by
    have hbound := h.bound
    show w.bcb.currentSize - 1 + 0 ≤ max maxSize 0
    omega
  maxSize_eq := h.maxSize_eq

/-- `QueueInv` reads only the queue, its counters and the orders taken. -/
theorem QueueInv.congr {pending : List ℤ} {uncounted room : ℤ} {w' : Shared cooks}
    (h : QueueInv maxSize pending uncounted room w) (hreturned : w'.returned = w.returned)
    (horders : w'.bcb.orders = w.bcb.orders) (hsize : w'.bcb.currentSize = w.bcb.currentSize)
    (hmax : w'.bcb.maxSize = w.bcb.maxSize)
    (hnext : w'.bcb.nextOrderNumber = w.bcb.nextOrderNumber) :
    QueueInv maxSize pending uncounted room w' where
  numbers := by
    rw [hreturned, horders]
    exact h.numbers
  next := by
    rw [hreturned, horders, hnext]
    exact h.next
  size := by
    rw [horders, hsize]
    exact h.size
  bound := by
    rw [hsize]
    exact h.bound
  maxSize_eq := by
    rw [hmax]
    exact h.maxSize_eq

end Statements

/-! ### The invariant of the mutex -/

theorem queue_protects (cfg : Config customers) (cooks : ℕ) :
    Protects (restaurant cfg cooks) .mutex owns (QueueInv cfg.maxSize [] 0 0)
      (queueInv cfg.maxSize) where
  toGuarded := guarded cfg cooks
  init := ⟨rfl, rfl, rfl, le_max_right cfg.maxSize 0, rfl⟩
  acquire := by
    rintro (c | k) l w next ha hR
    · cases customerStep_of_mem ha
      exact hR
    · cases cookStep_of_mem ha <;> exact hR
  release := by
    rintro (c | k) l w next ha hA
    · cases customerStep_of_mem ha
      exact hA
    · cases cookStep_of_mem ha <;> exact hA
  sleep := by
    rintro (c | k) l w cond next ha hA
    · cases customerStep_of_mem ha
      exact hA
    · cases cookStep_of_mem ha
      exact hA
  wakeup := by
    rintro (c | k) l w cond next ha w' hR
    · cases customerStep_of_mem ha
      exact hR
    · cases cookStep_of_mem ha
      exact hR
  inside := by
    rintro (c | k) l w a ha - howns hA
    · cases customerStep_of_mem ha with
      | number hroom => exact QueueInv.number hA hroom
      | toBack => exact QueueInv.toBack hA
      | size => exact QueueInv.count hA
      | skip | place | lock | ret | print => exact howns.elim
      | wait | signal | unlock => exact hA
    · cases cookStep_of_mem ha with
      | take hfirst => exact QueueInv.take hA hfirst
      | size => exact QueueInv.uncount hA
      | count => exact QueueInv.congr hA rfl rfl rfl rfl rfl
      | lock | signal | handleLock | print | free => exact howns.elim
      | _ => exact hA
  outside := by
    rintro (c | k) l w a ha howns
    · cases customerStep_of_mem ha with
      | number | toBack | size | wait | signal | unlock => exact absurd trivial howns
      | _ => exact ⟨id, fun _ _ => id⟩
    · cases cookStep_of_mem ha with
      | lock | signal | handleLock | print => exact ⟨id, fun _ _ => id⟩
      | free =>
        refine ⟨fun hR => hR.congr rfl rfl rfl rfl rfl, ?_⟩
        rintro (c | k) loc hA
        · cases loc <;> exact QueueInv.congr hA rfl rfl rfl rfl rfl
        · cases loc <;> exact QueueInv.congr hA rfl rfl rfl rfl rfl
      | _ => exact absurd trivial howns

variable {s : State (Thread customers cooks) Mutex Cond (Shared cooks) Loc}

/-- **Queue integrity.**  Whenever the mutex is free, `current_size` is the length of the
queue and at most `max_size`, the queue holds the last numbers given in ascending order, and
`GetOrder` has returned all numbers before them, each once and in ascending order. -/
theorem queue_integrity (hmax : 1 ≤ cfg.maxSize)
    (h : (restaurant cfg cooks).machine.Reachable s) (hfree : s.owner .mutex = none) :
    s.data.bcb.currentSize = s.data.bcb.orders.length ∧
      s.data.bcb.currentSize ≤ cfg.maxSize ∧
      s.data.bcb.orders.map Order.orderNumber =
        (List.range s.data.bcb.orders.length).map
          (fun k : ℕ => s.data.bcb.nextOrderNumber - s.data.bcb.currentSize + (k : ℤ)) ∧
      (s.data.returned.length : ℤ) =
        s.data.bcb.nextOrderNumber - 1 - s.data.bcb.currentSize ∧
      s.data.returned.map Order.orderNumber =
        (List.range s.data.returned.length).map fun k : ℕ => (k : ℤ) + 1 := by
  have hinv := (lockInv_none hfree).mp ((queue_protects cfg cooks).lockInv h)
  have hsize := hinv.size
  have hnext := hinv.next
  have hbound := hinv.bound
  have hnumbers := hinv.numbers
  rw [List.length_nil, Nat.cast_zero] at hnext
  rw [List.append_nil, List.length_nil, Nat.add_zero, List.map_append, numbersFromOne_add,
    hinv.returned_numbers] at hnumbers
  refine ⟨by omega, by omega, ?_, by omega, hinv.returned_numbers⟩
  rw [List.append_cancel_left hnumbers]
  refine List.map_congr_left fun k _ => ?_
  omega

/-- One customer, one cook and one place in the queue. -/
def oneEach : Config 1 := ⟨1, 1, fun _ => 1, false, false⟩

/-- One order has been added and not yet taken. -/
theorem queue_integrity_oneEach :
    ∃ s, (restaurant oneEach 1).machine.Reachable s ∧ s.data.bcb.orders.length = 1 ∧
      s.data.bcb.currentSize = s.data.bcb.orders.length ∧
      s.data.bcb.currentSize ≤ oneEach.maxSize ∧
      s.data.bcb.orders.map Order.orderNumber =
        (List.range s.data.bcb.orders.length).map
          (fun k : ℕ => s.data.bcb.nextOrderNumber - s.data.bcb.currentSize + (k : ℤ)) ∧
      (s.data.returned.length : ℤ) =
        s.data.bcb.nextOrderNumber - 1 - s.data.bcb.currentSize ∧
      s.data.returned.map Order.orderNumber =
        (List.range s.data.returned.length).map fun k : ℕ => (k : ℤ) + 1 := by
  let customer : Thread 1 1 × ℕ × Option (Thread 1 1) := (.inl 0, 0, none)
  have hrun : ((List.replicate 7 customer).foldlM (restaurant oneEach 1).next
      (restaurant oneEach 1).machine.init).map (fun s =>
        (s.owner .mutex, s.data.bcb.orders.length)) = some (none, 1) := by decide +kernel
  obtain ⟨s, hs, heq⟩ := Option.map_eq_some_iff.mp hrun
  have hreach := reachable_of_choices hs
  have hfree : s.owner .mutex = none := congrArg Prod.fst heq
  exact ⟨s, hreach, congrArg Prod.snd heq, queue_integrity (by decide) hreach hfree⟩

end OsLabs.ChilliBowl
