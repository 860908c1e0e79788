import OsLabs.ChilliBowl.Queue

/-!
# Ben's Chilli Bowl: where the orders are

Two balances over all threads.  The orders numbered so far and those that the customers have
still to add are the expected ones, if `malloc` does not fail and the customers together place
the expected number of orders.  The orders that `GetOrder` returned are those counted as
handled and those in the hands of a cook.
-/

namespace OsLabs.ChilliBowl

open OsLabs.Lib OsLabs.Lib.Monitor

variable {customers cooks : ℕ} {cfg : Config customers}
  {s : State (Thread customers cooks) Mutex Cond (Shared cooks) Loc}

/-- The customers together place exactly the expected orders. -/
structure Config.PlacesAll (cfg : Config customers) : Prop where
  malloc : cfg.mallocFails = false
  total : (∑ c, (cfg.ordersPerCustomer c : ℤ)) = cfg.expectedNumOrders

theorem expectedNumOrders_eq (h : (restaurant cfg cooks).machine.Reachable s) :
    s.data.bcb.expectedNumOrders = cfg.expectedNumOrders := by
  refine data_invariant (I := fun w => w.bcb.expectedNumOrders = cfg.expectedNumOrders) rfl ?_ h
  rintro (c | k) l w a ha hw
  · cases customerStep_of_mem ha <;> exact hw
  · cases cookStep_of_mem ha <;> exact hw

theorem ordersHandled_eq (h : (restaurant cfg cooks).machine.Reachable s) :
    s.data.bcb.ordersHandled = s.data.handled.length := by
  refine data_invariant (I := fun w => w.bcb.ordersHandled = w.handled.length) rfl ?_ h
  rintro (c | k) l w a ha hw
  · cases customerStep_of_mem ha <;> exact hw
  · cases cookStep_of_mem ha with
    | count =>
      show w.bcb.ordersHandled + 1 = ((w.handled ++ [_]).length : ℤ)
      rw [hw, List.length_append, List.length_singleton]
      push_cast
      rfl
    | _ => exact hw

/-! ### Orders still to be added -/

/-- The orders that a customer with the given number of orders has still to number. -/
def CustomerLoc.toAdd (orders : ℕ) : CustomerLoc → ℕ
  | forLoop i | addLock i _ | addWhile i _ => orders - i
  | addToBack i _ | addSize i _ | addSignal i _ | addUnlock i _ | addReturn i _
  | printPlaced i _ _ => orders - (i + 1)

def toAdd (cfg : Config customers) : ∀ t : Thread customers cooks, Loc t → ℤ
  | .inl c => fun l => CustomerLoc.toAdd (cfg.ordersPerCustomer c) l
  | .inr _ => fun _ => 0

/-- A customer in `AddOrder` has an order of its loop to add. -/
def CustomerLoc.InLoop (orders : ℕ) : CustomerLoc → Prop
  | addLock i _ | addWhile i _ => i < orders
  | _ => True

def InLoop (cfg : Config customers) : ∀ t : Thread customers cooks, Loc t → Prop
  | .inl c => CustomerLoc.InLoop (cfg.ordersPerCustomer c)
  | .inr _ => fun _ => True

theorem inLoop (h : (restaurant cfg cooks).machine.Reachable s) (t : Thread customers cooks) :
    InLoop cfg t (s.loc t) := by
  refine loc_invariant (I := InLoop cfg) ?_ ?_ h t
  · rintro (c | k) <;> trivial
  · rintro (c | k) l w a ha hl
    · cases customerStep_of_mem ha with
      | place hi => exact hi
      | lock => exact hl
      | wait => exact hl
      | _ => trivial
    · trivial

theorem toAdd_nonneg (t : Thread customers cooks) (l : Loc t) : 0 ≤ toAdd cfg t l := by
  cases t with
  | inl c => exact Int.natCast_nonneg _
  | inr k => exact le_rfl

/-- **Balance of the numbering.** -/
theorem numbered_add_toAdd (hcfg : cfg.PlacesAll)
    (h : (restaurant cfg cooks).machine.Reachable s) :
    cfg.expectedNumOrders = s.data.bcb.nextOrderNumber - 1 + ∑ t, toAdd cfg t (s.loc t) := by
  refine account (p := fun _ => cfg.expectedNumOrders)
    (q := fun w => w.bcb.nextOrderNumber - 1) (fun s hs => inLoop hs) ?_ ?_ h
  · show _ = (1 : ℤ) - 1 + _
    rw [sub_self, zero_add, Fintype.sum_sum_type]
    show _ = ∑ c, ((cfg.ordersPerCustomer c - 0 : ℕ) : ℤ) + ∑ k : Fin cooks, 0
    rw [Finset.sum_const_zero, add_zero, ← hcfg.total]
    rfl
  · rintro (c | k) l w a hl ha
    · cases customerStep_of_mem ha with
      | skip hi hfail =>
        rw [hcfg.malloc] at hfail
        cases hfail
      | @number i order hroom =>
        have hi : i < cfg.ordersPerCustomer c := hl
        show cfg.expectedNumOrders +
            (w.bcb.nextOrderNumber - 1 + ((cfg.ordersPerCustomer c - i : ℕ) : ℤ)) =
          cfg.expectedNumOrders +
            (w.bcb.nextOrderNumber + 1 - 1 + ((cfg.ordersPerCustomer c - (i + 1) : ℕ) : ℤ))
        omega
      | _ => rfl
    · cases cookStep_of_mem ha <;> rfl

theorem numbered_le (hcfg : cfg.PlacesAll) (h : (restaurant cfg cooks).machine.Reachable s) :
    s.data.bcb.nextOrderNumber - 1 ≤ cfg.expectedNumOrders := by
  have hbalance := numbered_add_toAdd hcfg h
  have hsum : 0 ≤ ∑ t, toAdd cfg t (s.loc t) :=
    Finset.sum_nonneg fun t _ => toAdd_nonneg t _
  omega

/-- Once all expected orders have a number, no customer has an order left to add. -/
theorem toAdd_eq_zero (hcfg : cfg.PlacesAll) (h : (restaurant cfg cooks).machine.Reachable s)
    (hall : cfg.expectedNumOrders ≤ s.data.bcb.nextOrderNumber - 1)
    (t : Thread customers cooks) : toAdd cfg t (s.loc t) = 0 := by
  have hbalance := numbered_add_toAdd hcfg h
  have hle : toAdd cfg t (s.loc t) ≤ ∑ t, toAdd cfg t (s.loc t) :=
    Finset.single_le_sum (f := fun t => toAdd cfg t (s.loc t))
      (fun t _ => toAdd_nonneg t _) (Finset.mem_univ t)
  have hnonneg : 0 ≤ toAdd cfg t (s.loc t) := toAdd_nonneg t _
  omega

/-! ### Orders in the hands of the cooks -/

/-- The orders that a cook has taken and not yet counted as handled. -/
def CookLoc.held : CookLoc → Multiset Order
  | getSize order | getUnlock order | getSignal order | handleLock order
  | handleCount order => {order}
  | _ => 0

def held : ∀ t : Thread customers cooks, Loc t → Multiset Order
  | .inl _ => fun _ => 0
  | .inr _ => CookLoc.held

/-- **Balance of the kitchen.** -/
theorem returned_eq_handled_add_held (h : (restaurant cfg cooks).machine.Reachable s) :
    (s.data.returned : Multiset Order) =
      (s.data.handled.map Prod.snd : List Order) + ∑ t, held t (s.loc t) := by
  refine account (p := fun w => (w.returned : Multiset Order))
    (q := fun w => ((w.handled.map Prod.snd : List Order) : Multiset Order))
    (fun s hs => inLoop hs) ?_ ?_ h
  · show (0 : Multiset Order) = 0 + _
    rw [zero_add]
    refine (Finset.sum_eq_zero ?_).symm
    rintro (c | k) - <;> rfl
  · rintro (c | k) l w a - ha
    · cases customerStep_of_mem ha <;> rfl
    · cases cookStep_of_mem ha with
      | @take order rest hfirst =>
        show ((w.returned ++ [order] : List Order) : Multiset Order) + (_ + 0) =
          (w.returned : Multiset Order) + (_ + {order})
        rw [← Multiset.coe_add, Multiset.coe_singleton, add_zero]
        ac_rfl
      | @count order =>
        show (w.returned : Multiset Order) + (_ + {order}) = (w.returned : Multiset Order) +
          (((w.handled ++ [(k, order)]).map Prod.snd : List Order) + 0)
        rw [List.map_append, ← Multiset.coe_add, add_zero]
        rfl
      | _ => rfl

/-! ### The last order -/

/-- Whoever owns the mutex, the queue is known up to what the owner has not yet updated. -/
theorem exists_queueInv (h : (restaurant cfg cooks).machine.Reachable s) :
    ∃ pending uncounted room, QueueInv cfg.maxSize pending uncounted room s.data := by
  have hlock := (queue_protects cfg cooks).lockInv h
  rw [LockInv] at hlock
  split at hlock
  · exact ⟨_, _, _, hlock⟩
  · rename_i t _
    cases t with
    | inl c =>
      change CustomerLoc.queueInv cfg.maxSize (s.loc (.inl c)) s.data at hlock
      cases hloc : s.loc (.inl c) <;> rw [hloc] at hlock <;> exact ⟨_, _, _, hlock⟩
    | inr k =>
      change CookLoc.queueInv cfg.maxSize (s.loc (.inr k)) s.data at hlock
      cases hloc : s.loc (.inr k) <;> rw [hloc] at hlock <;> exact ⟨_, _, _, hlock⟩

/-- The orders taken and the orders in the queue have numbers. -/
theorem returned_add_orders_le (h : (restaurant cfg cooks).machine.Reachable s) :
    (s.data.returned.length : ℤ) + s.data.bcb.orders.length ≤ s.data.bcb.nextOrderNumber - 1 := by
  obtain ⟨pending, uncounted, room, hinv⟩ := exists_queueInv h
  have hnext := hinv.next
  omega

/-- A cook that `GetOrder` has told, or is about to tell, that there are no more orders. -/
def CookLoc.toldNull : CookLoc → Prop
  | getUnlockNull | noMoreOrders => True
  | _ => False

theorem returned_mono {t : Thread customers cooks} {l : Loc t} {w : Shared cooks}
    {a : Act cooks (Loc t)} (ha : a ∈ (restaurant cfg cooks).code t l w) :
    w.returned.length ≤ (a.effect w).returned.length := by
  cases t with
  | inl c => cases customerStep_of_mem ha <;> exact le_rfl
  | inr k =>
    cases cookStep_of_mem ha with
    | @take order rest hfirst =>
      show w.returned.length ≤ (w.returned ++ [order]).length
      rw [List.length_append]
      omega
    | _ => exact le_rfl

/-- `GetOrder` returns `NULL` only after it has returned all expected orders. -/
theorem expected_le_returned (h : (restaurant cfg cooks).machine.Reachable s) (k : Fin cooks)
    (hnull : CookLoc.toldNull (s.loc (.inr k))) :
    cfg.expectedNumOrders ≤ s.data.returned.length := by
  refine Machine.Reachable.invariant (I := fun s => ∀ k : Fin cooks,
    CookLoc.toldNull (s.loc (.inr k)) → cfg.expectedNumOrders ≤ s.data.returned.length)
    (fun _ => False.elim) ?_ h k hnull
  intro s t s' hreach ih hstep k hk
  rcases Step.acts_or_quiet hstep with ⟨l, a, hrun, ha, hacts⟩ | hquiet
  · have hmono := returned_mono ha
    rw [← hacts.data] at hmono
    by_cases hold : CookLoc.toldNull (s.loc (.inr k))
    · have := ih k hold
      omega
    -- only the test of cook `k` itself brings it here
    rw [hacts.loc] at hk
    by_cases ht : .inr k = t
    · subst ht
      rw [Function.update_self] at hk
      have hl : s.loc (.inr k) = l := by rw [State.loc, hrun]; rfl
      rw [hl] at hold
      cases cookStep_of_mem ha with
      | noMore hempty hall =>
        have howner := ((guarded cfg cooks).owner_eq_some_iff hreach (.inr k)).mpr
          (by rw [hrun]; trivial)
        have hlock := (lockInv_some howner).mp ((queue_protects cfg cooks).lockInv hreach)
        rw [hl] at hlock
        have hnext := QueueInv.next hlock
        rw [hempty, List.length_nil, List.length_nil] at hnext
        rw [expectedNumOrders_eq hreach] at hall
        push_cast at hnext
        omega
      | unlockNull => exact absurd trivial hold
      | _ => exact hk.elim
    · rw [Function.update_of_ne ht] at hk
      exact absurd hk hold
  · rw [hquiet.loc] at hk
    rw [hquiet.data]
    exact ih k hk

/-- A cook told that there are no more orders finds all expected orders taken, and none in the
queue. -/
theorem drained (hcfg : cfg.PlacesAll)
    (h : (restaurant cfg cooks).machine.Reachable s) {k : Fin cooks}
    (hnull : CookLoc.toldNull (s.loc (.inr k))) :
    s.data.bcb.orders = [] ∧ (s.data.returned.length : ℤ) = cfg.expectedNumOrders ∧
      s.data.bcb.nextOrderNumber - 1 = cfg.expectedNumOrders := by
  have hreturned := expected_le_returned h k hnull
  have hle := returned_add_orders_le h
  have hnumbered := numbered_le hcfg h
  refine ⟨List.length_eq_zero_iff.mp (by omega), by omega, by omega⟩

end OsLabs.ChilliBowl
