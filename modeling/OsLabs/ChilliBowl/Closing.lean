import OsLabs.ChilliBowl.Accounting

/-!
# Ben's Chilli Bowl: closing

When all cooks have returned, every expected order has been added and handled, so
`CloseRestaurant` does not wait and frees no order.
-/

namespace OsLabs.ChilliBowl

open OsLabs.Lib OsLabs.Lib.Monitor

variable {customers cooks : ℕ} {cfg : Config customers}
  {s : State (Thread customers cooks) Mutex Cond (Shared cooks) Loc}

theorem cookCode_eq_nil {k : Fin cooks} {l : CookLoc} {w : Shared cooks}
    (h : cookCode k l w = []) : l = .noMoreOrders := by
  cases l with
  | noMoreOrders => rfl
  | getWhile =>
    rw [cookCode] at h
    split at h
    · split at h <;> cases h
    · cases h
  | handleTest order =>
    rw [cookCode] at h
    split at h <;> cases h
  | _ => cases h

/-- A cook has returned when `GetOrder` has returned `NULL` to it. -/
theorem finished_cook {k : Fin cooks} (h : Finished (restaurant cfg cooks) s (.inr k)) :
    s.status (.inr k) = .running CookLoc.noMoreOrders := by
  obtain ⟨l, hrun, hcode⟩ := h
  rw [hrun]
  exact congrArg Status.running (cookCode_eq_nil hcode)

theorem mem_numbersFromOne {n : ℕ} {x : ℤ} : x ∈ numbersFromOne n ↔ 1 ≤ x ∧ x ≤ n := by
  rw [numbersFromOne, List.mem_map]
  constructor
  · rintro ⟨j, hj, rfl⟩
    have := List.mem_range.mp hj
    omega
  · intro hx
    exact ⟨(x - 1).toNat, List.mem_range.mpr (by omega), by omega⟩

theorem nodup_numbersFromOne (n : ℕ) : (numbersFromOne n).Nodup := by
  refine List.Nodup.map (fun i j hij => ?_) List.nodup_range
  have hij' : (i : ℤ) + 1 = j + 1 := hij
  omega

/-- When no cook holds an order, the orders handled are the orders returned. -/
theorem handled_perm_returned (h : (restaurant cfg cooks).machine.Reachable s)
    (hcooks : ∀ k : Fin cooks, s.loc (.inr k) = CookLoc.noMoreOrders) :
    (s.data.handled.map Prod.snd).Perm s.data.returned := by
  have hbalance := returned_eq_handled_add_held h
  have hnone : ∑ t, held t (s.loc t) = 0 := by
    apply Finset.sum_eq_zero
    rintro (c | k) -
    · rfl
    · show CookLoc.held (s.loc (.inr k)) = 0
      rw [hcooks k]
      rfl
  rw [hnone, add_zero] at hbalance
  exact (Multiset.coe_eq_coe.mp hbalance).symm

/-- **Closing.**  `GetOrder` returns `NULL` only when all expected orders have been added and
taken; and once all cooks have returned, the customers have added all their orders, each
expected order has been handled, by one cook, and `CloseRestaurant` neither waits nor frees an
order. -/
theorem closes_drained (hcfg : cfg.PlacesAll) (hcooks : 0 < cooks)
    (h : (restaurant cfg cooks).machine.Reachable s) :
    (∀ k : Fin cooks, CookLoc.toldNull (s.loc (.inr k)) →
      s.data.bcb.orders = [] ∧ (s.data.returned.length : ℤ) = cfg.expectedNumOrders ∧
        s.data.bcb.nextOrderNumber - 1 = cfg.expectedNumOrders) ∧
    ((∀ k : Fin cooks, Finished (restaurant cfg cooks) s (.inr k)) →
      (∀ c, toAdd cfg (.inl c) (s.loc (.inl c)) = 0) ∧
      s.data.bcb.ordersHandled = cfg.expectedNumOrders ∧
      (s.data.handled.length : ℤ) = cfg.expectedNumOrders ∧
      (∀ n, 1 ≤ n → n ≤ cfg.expectedNumOrders →
        ∃! p, p ∈ s.data.handled ∧ p.2.orderNumber = n) ∧
      s.data.bcb.orders = [] ∧
      closeRestaurant s.data.bcb = some []) := by
  refine ⟨fun k hnull => drained hcfg h hnull, fun hfinished => ?_⟩
  have hloc : ∀ k : Fin cooks, s.loc (.inr k) = CookLoc.noMoreOrders := by
    intro k
    rw [State.loc, finished_cook (hfinished k)]
    rfl
  have hnull : CookLoc.toldNull (s.loc (.inr ⟨0, hcooks⟩)) := by
    rw [hloc]
    trivial
  obtain ⟨horders, hreturned, hnext⟩ := drained hcfg h hnull
  have hperm := handled_perm_returned h hloc
  have hlength := hperm.length_eq
  rw [List.length_map] at hlength
  have hcount := ordersHandled_eq h
  have hnumbers : (s.data.handled.map fun p => p.2.orderNumber).Perm
      (numbersFromOne s.data.returned.length) := by
    obtain ⟨pending, uncounted, room, hinv⟩ := exists_queueInv h
    have hmap := hperm.map Order.orderNumber
    rw [List.map_map, hinv.returned_numbers] at hmap
    exact hmap
  refine ⟨fun c => toAdd_eq_zero hcfg h (by omega) (.inl c), by omega, by omega, ?_, horders, ?_⟩
  · intro n hn hle
    have hmem := hnumbers.mem_iff.mpr (mem_numbersFromOne.mpr ⟨hn, by omega⟩)
    obtain ⟨p, hp, hpn⟩ := List.mem_map.mp hmem
    have hnodup := hnumbers.nodup_iff.mpr (nodup_numbersFromOne _)
    refine ⟨p, ⟨hp, hpn⟩, fun q hq => ?_⟩
    exact List.inj_on_of_nodup_map hnodup hq.1 hp (hq.2.trans hpn.symm)
  · rw [closeRestaurant, if_neg (by rw [expectedNumOrders_eq h]; omega), horders]

/-- The cook waits, the customer adds its order and wakes it, and the cook takes the order,
handles it and is told that there are no more. -/
def oneEachDay : List (Thread 1 1 × ℕ × Option (Thread 1 1)) :=
  let customer : Thread 1 1 := .inl 0
  let cook : Thread 1 1 := .inr 0
  List.replicate 2 (cook, 0, none) ++ List.replicate 5 (customer, 0, none) ++
    [(customer, 0, some cook)] ++ List.replicate 3 (customer, 0, none) ++
    List.replicate 15 (cook, 0, none)

theorem closes_drained_oneEach :
    ∃ s, (restaurant oneEach 1).machine.Reachable s ∧
      (∀ k : Fin 1, CookLoc.toldNull (s.loc (.inr k))) ∧
      s.data.bcb.orders = [] ∧ s.data.bcb.ordersHandled = 1 ∧
      (∃! p, p ∈ s.data.handled ∧ p.2.orderNumber = 1) ∧
      closeRestaurant s.data.bcb = some [] := by
  have hrun : (oneEachDay.foldlM (restaurant oneEach 1).next
      (restaurant oneEach 1).machine.init).map (fun s =>
        decide (∀ k : Fin 1, Finished (restaurant oneEach 1) s (.inr k))) = some true := by
    decide +kernel
  obtain ⟨s, hs, heq⟩ := Option.map_eq_some_iff.mp hrun
  have hreach := reachable_of_choices hs
  have hfinished := of_decide_eq_true heq
  obtain ⟨-, hclose⟩ := closes_drained ⟨rfl, rfl⟩ one_pos hreach
  obtain ⟨-, hcount, -, honce, hempty, hfreed⟩ := hclose hfinished
  refine ⟨s, hreach, fun k => ?_, hempty, hcount, honce 1 le_rfl le_rfl, hfreed⟩
  rw [State.loc, finished_cook (hfinished k)]
  trivial

end OsLabs.ChilliBowl
