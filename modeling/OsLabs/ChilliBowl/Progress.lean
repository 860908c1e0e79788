import OsLabs.ChilliBowl.Closing

/-!
# Ben's Chilli Bowl: no deadlock

A stuck restaurant has a free mutex, and every thread has finished or waits.  Three invariants
exclude the waiting ones.  A customer waits only while the free places are spoken for, by the
customers about to fill them and the cooks about to signal them.  The cooks do not all wait
while there is something to be told, unless a customer is about to signal it.  And no cook
waits once one has been told that there are no more orders.
-/

namespace OsLabs.ChilliBowl

open OsLabs.Lib OsLabs.Lib.Monitor

variable {customers cooks : ℕ} {cfg : Config customers}
  {s s' : State (Thread customers cooks) Mutex Cond (Shared cooks) Loc}
  {t : Thread customers cooks}

/-! ### Who waits for what -/

/-- Customers wait and resume in `AddOrder`, cooks in `GetOrder`. -/
def WaitsInLoop : ∀ t : Thread customers cooks, Status Mutex Cond (Loc t) → Prop
  | .inl _, .waiting c _ l => c = .canAddOrders ∧ ∃ i order, l = CustomerLoc.addWhile i order
  | .inl _, .woken _ l => ∃ i order, l = CustomerLoc.addWhile i order
  | .inr _, .waiting c _ l => c = .canGetOrders ∧ l = CookLoc.getWhile
  | .inr _, .woken _ l => l = CookLoc.getWhile
  | _, .running _ => True

theorem waitsInLoop (h : (restaurant cfg cooks).machine.Reachable s)
    (t : Thread customers cooks) : WaitsInLoop t (s.status t) := by
  refine status_invariant (I := WaitsInLoop) ?_ ?_ ?_ ?_ h t
  · rintro (c | k) <;> trivial
  · rintro (c | k) l w a ha -
    · cases customerStep_of_mem ha with
      | @wait i order => exact ⟨rfl, i, order, rfl⟩
      | _ => trivial
    · cases cookStep_of_mem ha with
      | wait => exact ⟨rfl, rfl⟩
      | _ => trivial
  · rintro (c | k) cond m l hw
    · exact hw.2
    · exact hw.2
  · rintro (c | k) m l -
    · trivial
    · trivial

def waitsFor : Thread customers cooks → Cond
  | .inl _ => .canAddOrders
  | .inr _ => .canGetOrders

theorem waitsOn_waitsFor (h : (restaurant cfg cooks).machine.Reachable s)
    (hw : (s.status t).IsWaiting) : (s.status t).WaitsOn (waitsFor t) := by
  have hloop := waitsInLoop h t
  cases hst : s.status t with
  | waiting cond m l =>
    rw [hst] at hloop
    cases t with
    | inl c => exact hloop.1
    | inr k => exact hloop.1
  | running l =>
    rw [hst] at hw
    exact hw
  | woken m l =>
    rw [hst] at hw
    exact hw

/-! ### Cooks that wait -/

/-- A customer between the numbering of its order and its signal. -/
def CustomerLoc.announces : CustomerLoc → Prop
  | addToBack _ _ | addSize _ _ | addSignal _ _ => True
  | _ => False

/-- All cooks wait only while there is nothing to tell them, or a customer is about to. -/
def CooksAlert (s : State (Thread customers cooks) Mutex Cond (Shared cooks) Loc) : Prop :=
  (∀ k, (s.status (.inr k)).IsWaiting) →
    (s.data.bcb.orders = [] ∧ s.data.bcb.nextOrderNumber - 1 < s.data.bcb.expectedNumOrders) ∨
      ∃ c, CustomerLoc.announces (s.loc (.inl c))

/-- After the signal of a customer some cook does not wait. -/
theorem not_all_wait_of_signal (hcooks : 0 < cooks)
    (h : (restaurant cfg cooks).machine.Reachable s)
    (h' : (restaurant cfg cooks).machine.Reachable s') {a : Act cooks (Loc t)} {l : Loc t}
    (ha : a = .signal .canGetOrders l) (hacts : Acts s t a s') :
    ¬ ∀ k, (s'.status (.inr k)).IsWaiting := by
  intro hall
  rcases hacts.signal _ _ ha with ⟨u, -, hu, hwake⟩ | hnone
  · cases u with
    | inl c =>
      have heq := hu.unique (waitsOn_waitsFor h hu.isWaiting)
      cases heq
    | inr k =>
      have hk := hall k
      rw [hwake] at hk
      exact Status.not_isWaiting_wake _ hk
  · exact hnone _ (waitsOn_waitsFor h' (hall ⟨0, hcooks⟩))

theorem cooksAlert (hcooks : 0 < cooks) (h : (restaurant cfg cooks).machine.Reachable s) :
    CooksAlert s := by
  refine Machine.Reachable.invariant (I := CooksAlert) ?_ ?_ h
  · intro hall
    exact False.elim (hall ⟨0, hcooks⟩)
  intro s t s' hreach ih hstep hall
  have hreach' := hreach.step hstep
  rcases Step.acts_or_quiet hstep with ⟨l, a, hrun, ha, hacts⟩ | hquiet
  · have hl : s.loc t = l := by rw [State.loc, hrun]; rfl
    cases t with
    | inr k =>
      have hself := hall k
      rw [hacts.self] at hself
      rw [hacts.data]
      cases cookStep_of_mem ha with
      | wait hempty hless => exact Or.inl ⟨hempty, hless⟩
      | _ => exact hself.elim
    | inl c =>
      have hself : s'.loc (.inl c) = a.next := by rw [hacts.loc, Function.update_self]
      have hbefore : ∀ k, (s.status (.inr k)).IsWaiting := by
        intro k
        rw [← hacts.status_of_isWaiting (by simp) (hall k)]
        exact hall k
      -- a statement that neither announces nor changes the data
      have hother : a.effect s.data = s.data → ¬ CustomerLoc.announces l →
          (s'.data.bcb.orders = [] ∧
            s'.data.bcb.nextOrderNumber - 1 < s'.data.bcb.expectedNumOrders) ∨
          ∃ c, CustomerLoc.announces (s'.loc (.inl c)) := by
        intro hsame hquiet
        rw [hacts.data, hsame]
        rcases ih hbefore with hnothing | ⟨c', hc'⟩
        · exact Or.inl hnothing
        · refine Or.inr ⟨c', ?_⟩
          have hne : Sum.inl c' ≠ (Sum.inl c : Thread customers cooks) := by
            intro heq
            obtain rfl := Sum.inl.inj heq
            rw [hl] at hc'
            exact hquiet hc'
          rw [hacts.loc, Function.update_of_ne hne]
          exact hc'
      cases customerStep_of_mem ha with
      | number => exact Or.inr ⟨c, by rw [hself]; trivial⟩
      | toBack => exact Or.inr ⟨c, by rw [hself]; trivial⟩
      | size => exact Or.inr ⟨c, by rw [hself]; trivial⟩
      | signal => exact absurd hall (not_all_wait_of_signal hcooks hreach hreach' rfl hacts)
      | _ => exact hother rfl id
  · have hbefore : ∀ k, (s.status (.inr k)).IsWaiting := by
      intro k
      rw [← hquiet.waits _ (hall k)]
      exact hall k
    rw [hquiet.data, hquiet.loc]
    exact ih hbefore

/-! ### Cooks told that there are no more orders -/

/-- No cook waits once a cook has been told that there are no more orders. -/
theorem no_cook_waits (hcfg : cfg.PlacesAll) (h : (restaurant cfg cooks).machine.Reachable s)
    {k k' : Fin cooks} (hnull : CookLoc.toldNull (s.loc (.inr k))) :
    ¬ (s.status (.inr k')).IsWaiting := by
  refine Machine.Reachable.invariant (I := fun s => ∀ k k' : Fin cooks,
    CookLoc.toldNull (s.loc (.inr k)) → ¬ (s.status (.inr k')).IsWaiting)
    (fun _ _ => False.elim) ?_ h k k' hnull
  intro s t s' hreach ih hstep k k' hk hwait
  have hreach' := hreach.step hstep
  rcases Step.acts_or_quiet hstep with ⟨l, a, hrun, ha, hacts⟩ | hquiet
  · have hl : s.loc t = l := by rw [State.loc, hrun]; rfl
    have hk' : Sum.inr k' ≠ t := by
      intro ht
      subst ht
      rw [hacts.self] at hwait
      cases cookStep_of_mem ha with
      | wait hempty hless =>
        have hall := (drained hcfg hreach' hk).2.2
        rw [hacts.data] at hall
        change s.data.bcb.nextOrderNumber - 1 = _ at hall
        rw [expectedNumOrders_eq hreach] at hless
        omega
      | _ => exact hwait.elim
    have hbefore : (s.status (.inr k')).IsWaiting := by
      rw [← hacts.status_of_isWaiting hk' hwait]
      exact hwait
    have hnew : ¬ CookLoc.toldNull (s.loc (.inr k)) := fun hold => ih k k' hold hbefore
    by_cases ht : .inr k = t
    · subst ht
      rw [hacts.loc, Function.update_self] at hk
      rw [hl] at hnew
      cases cookStep_of_mem ha with
      | noMore =>
        exact hacts.broadcast _ _ rfl _ (waitsOn_waitsFor hreach' hwait)
      | unlockNull => exact hnew trivial
      | _ => exact hk.elim
    · rw [hacts.loc, Function.update_of_ne ht] at hk
      exact hnew hk
  · rw [hquiet.loc] at hk
    apply ih k k' hk
    rw [← hquiet.waits _ hwait]
    exact hwait

/-! ### Customers that wait -/

/-- A customer in `AddOrder` that has not filled its place yet. -/
def CustomerLoc.fills : CustomerLoc → ℤ
  | addLock _ _ | addWhile _ _ | addToBack _ _ | addSize _ _ => 1
  | _ => 0

/-- A cook that has freed a place and not signalled it yet. -/
def CookLoc.frees : CookLoc → ℤ
  | getUnlock _ | getSignal _ => 1
  | _ => 0

theorem CustomerLoc.fills_nonneg (l : CustomerLoc) : 0 ≤ l.fills := by
  cases l <;> simp [fills]

theorem CookLoc.frees_nonneg (l : CookLoc) : 0 ≤ l.frees := by
  cases l <;> simp [frees]

theorem CookLoc.frees_le_one (l : CookLoc) : l.frees ≤ 1 := by
  cases l <;> simp [frees]

/-- The number of free places that a thread speaks for. -/
def speaksFor : ∀ t : Thread customers cooks, Status Mutex Cond (Loc t) → ℤ
  | .inl _, .running l => CustomerLoc.fills l
  | .inl _, .woken _ _ => 1
  | .inr _, .running l => CookLoc.frees l
  | _, _ => 0

theorem speaksFor_nonneg (t : Thread customers cooks) (st : Status Mutex Cond (Loc t)) :
    0 ≤ speaksFor t st := by
  cases t with
  | inl c =>
    cases st with
    | running l => exact CustomerLoc.fills_nonneg l
    | waiting cond m l => exact le_rfl
    | woken m l => exact zero_le_one
  | inr k =>
    cases st with
    | running l => exact CookLoc.frees_nonneg l
    | waiting cond m l => exact le_rfl
    | woken m l => exact le_rfl

theorem speaksFor_wake (t : Thread customers cooks) (st : Status Mutex Cond (Loc t)) :
    speaksFor t st ≤ speaksFor t st.wake := by
  cases st with
  | waiting cond m l =>
    cases t with
    | inl c => exact zero_le_one
    | inr k => exact le_rfl
  | running l => exact le_rfl
  | woken m l => exact le_rfl

theorem speaksFor_other {a : Act cooks (Loc t)} (hacts : Acts s t a s')
    (u : Thread customers cooks) (hu : u ≠ t) :
    speaksFor u (s.status u) ≤ speaksFor u (s'.status u) := by
  rcases hacts.other u hu with hsame | ⟨c, -, -, hwake⟩
  · rw [hsame]
  · rw [hwake]
    exact speaksFor_wake u _

def freePlaces (w : Shared cooks) : ℤ := w.bcb.maxSize - w.bcb.currentSize

/-- A customer that does not wait speaks for the place that it is about to fill. -/
theorem CustomerStep.places {c : Fin customers} {w : Shared cooks} {l : CustomerLoc}
    {a : Act cooks CustomerLoc} (h : CustomerStep cfg c w l a) (hmove : ¬ a.status.IsWaiting) :
    freePlaces (a.effect w) + CustomerLoc.fills l ≤
      freePlaces w + speaksFor (.inl c : Thread customers cooks) a.status := by
  cases h with
  | wait => exact absurd trivial hmove
  | size =>
    show w.bcb.maxSize - (w.bcb.currentSize + 1) + 1 ≤ w.bcb.maxSize - w.bcb.currentSize + 0
    omega
  | place =>
    show freePlaces w + 0 ≤ freePlaces w + 1
    omega
  | _ => exact le_rfl

/-- A cook speaks for the place that it has freed until it signals it. -/
theorem CookStep.places {k : Fin cooks} {w : Shared cooks} {l : CookLoc}
    {a : Act cooks CookLoc} (h : CookStep k w l a)
    (hsignal : ∀ next, a ≠ .signal .canAddOrders next) :
    freePlaces (a.effect w) + CookLoc.frees l ≤
      freePlaces w + speaksFor (.inr k : Thread customers cooks) a.status := by
  cases h with
  | signal => exact absurd rfl (hsignal _)
  | size =>
    show w.bcb.maxSize - (w.bcb.currentSize - 1) + 0 ≤ w.bcb.maxSize - w.bcb.currentSize + 1
    omega
  | _ => exact le_rfl

/-- A customer waits only while threads speak for all free places. -/
def PlacesSpokenFor (s : State (Thread customers cooks) Mutex Cond (Shared cooks) Loc) : Prop :=
  (∃ c, (s.status (.inl c)).IsWaiting) →
    freePlaces s.data ≤ ∑ t, speaksFor t (s.status t)

/-- The signal of a cook hands the place that it speaks for to a customer. -/
theorem sum_speaksFor_signal {k : Fin cooks} {a : Act cooks CookLoc} {next : CookLoc}
    (h : (restaurant cfg cooks).machine.Reachable s)
    (h' : (restaurant cfg cooks).machine.Reachable s')
    (ha : a = .signal .canAddOrders next) (hacts : Acts s (.inr k) a s')
    (hwait : ∃ c, (s'.status (.inl c)).IsWaiting) :
    ∑ u, speaksFor u (s.status u) + speaksFor (.inr k) (s'.status (.inr k)) <
      ∑ u, speaksFor u (s'.status u) + speaksFor (.inr k) (s.status (.inr k)) := by
  obtain ⟨c, hc⟩ := hwait
  rcases hacts.signal _ _ ha with ⟨u, hu, hwaits, hwake⟩ | hnone
  · apply sum_lt_of_others (.inr k) (speaksFor_other hacts) hu
    rw [hwake]
    cases u with
    | inl c' =>
      cases hst : s.status (.inl c') with
      | waiting cond m l => exact zero_lt_one
      | running l =>
        rw [hst] at hwaits
        exact hwaits.elim
      | woken m l =>
        rw [hst] at hwaits
        exact hwaits.elim
    | inr k' =>
      have heq := hwaits.unique (waitsOn_waitsFor h hwaits.isWaiting)
      cases heq
  · exact absurd (waitsOn_waitsFor h' hc) (hnone _)

/-- A thread that wakes up or goes on after a wait speaks for no fewer places. -/
theorem sum_speaksFor_le_of_quiet (h : (restaurant cfg cooks).machine.Reachable s)
    (hstep : Resumes s t s' ∨ Awakes s t s') :
    ∑ u, speaksFor u (s.status u) ≤ ∑ u, speaksFor u (s'.status u) := by
  have hloop := waitsInLoop h t
  have hself : ∀ st : Status Mutex Cond (Loc t),
      speaksFor t (s.status t) ≤ speaksFor t st →
      ∑ u, speaksFor u (s.status u) ≤ ∑ u, speaksFor u (Function.update s.status t st u) := by
    intro st hle
    refine Finset.sum_le_sum fun u _ => ?_
    by_cases hu : u = t
    · subst hu
      rw [Function.update_self]
      exact hle
    · rw [Function.update_of_ne hu]
  rcases hstep with ⟨m, l, hwoken, -, rfl⟩ | ⟨cond, m, l, hwait, rfl⟩
  · apply hself
    rw [hwoken] at hloop ⊢
    cases t with
    | inl c =>
      obtain ⟨i, order, rfl⟩ := hloop
      exact le_rfl
    | inr k =>
      obtain rfl : l = CookLoc.getWhile := hloop
      exact le_rfl
  · apply hself
    rw [hwait]
    exact speaksFor_wake t (.waiting cond m l)

theorem placesSpokenFor (h : (restaurant cfg cooks).machine.Reachable s) : PlacesSpokenFor s := by
  refine Machine.Reachable.invariant (I := PlacesSpokenFor) ?_ ?_ h
  · rintro ⟨c, hc⟩
    exact False.elim hc
  intro s t s' hreach ih hstep hwait
  have hreach' := hreach.step hstep
  rcases Step.acts_or_resumes hstep with ⟨l, a, hrun, ha, hacts⟩ | hquiet
  · have hsum := sum_le_of_others t (speaksFor_other hacts)
    have hbefore : (∀ c, Sum.inl c = t → ¬ a.status.IsWaiting) →
        freePlaces s.data ≤ ∑ u, speaksFor u (s.status u) := by
      intro hmove
      obtain ⟨c, hc⟩ := hwait
      refine ih ⟨c, ?_⟩
      have hne : Sum.inl c ≠ t := by
        intro ht
        have hstill := hmove c ht
        subst ht
        rw [hacts.self] at hc
        exact hstill hc
      rw [← hacts.status_of_isWaiting hne hc]
      exact hc
    rw [hacts.self, hrun] at hsum
    rw [hacts.data]
    cases t with
    | inl c =>
      have hcase := customerStep_of_mem ha
      by_cases hmove : a.status.IsWaiting
      · cases hcase with
        | wait hfull =>
          have hnonneg : 0 ≤ ∑ u, speaksFor u (s'.status u) :=
            Finset.sum_nonneg fun u _ => speaksFor_nonneg u _
          show s.data.bcb.maxSize - s.data.bcb.currentSize ≤ _
          omega
        | _ => exact hmove.elim
      · have hold := hbefore fun _ _ => hmove
        have hplaces : freePlaces (a.effect s.data) + CustomerLoc.fills l ≤
            freePlaces s.data + speaksFor (.inl c) a.status := hcase.places hmove
        change _ ≤ _ + CustomerLoc.fills l at hsum
        omega
    | inr k =>
      have hcase := cookStep_of_mem ha
      have hold := hbefore fun _ => nofun
      by_cases hsignal : ∃ next, a = .signal .canAddOrders next
      · obtain ⟨next, rfl⟩ := hsignal
        have hlt := sum_speaksFor_signal hreach hreach' rfl hacts hwait
        have hnonneg := speaksFor_nonneg (.inr k) (s'.status (.inr k))
        have hle := CookLoc.frees_le_one l
        rw [hrun] at hlt
        change _ < _ + CookLoc.frees l at hlt
        show freePlaces s.data ≤ _
        omega
      · have hplaces : freePlaces (a.effect s.data) + CookLoc.frees l ≤
            freePlaces s.data + speaksFor (.inr k) a.status :=
          hcase.places fun next heq => hsignal ⟨next, heq⟩
        change _ ≤ _ + CookLoc.frees l at hsum
        omega
  · have hstay : Quiet s s' := hquiet.elim Resumes.quiet Awakes.quiet
    obtain ⟨c, hc⟩ := hwait
    have hold := ih ⟨c, hstay.waits _ hc ▸ hc⟩
    rw [hstay.data]
    exact hold.trans (sum_speaksFor_le_of_quiet hreach hquiet)

/-! ### Stuck states -/

theorem customerCode_eq_nil {c : Fin customers} {l : CustomerLoc} {w : Shared cooks}
    (h : customerCode cfg c l w = []) :
    ∃ i, l = .forLoop i ∧ cfg.ordersPerCustomer c ≤ i := by
  cases l with
  | forLoop i =>
    rw [customerCode] at h
    split at h
    · cases List.append_eq_nil_iff.mp h with
      | intro _ hmenu => cases hmenu
    · exact ⟨i, rfl, by omega⟩
  | addWhile i order =>
    rw [customerCode] at h
    split at h <;> cases h
  | _ => cases h

theorem finished_customer {c : Fin customers} (h : Finished (restaurant cfg cooks) s (.inl c)) :
    ∃ i, s.status (.inl c) = .running (CustomerLoc.forLoop i) ∧ cfg.ordersPerCustomer c ≤ i := by
  obtain ⟨l, hrun, hcode⟩ := h
  obtain ⟨i, rfl, hi⟩ := customerCode_eq_nil hcode
  exact ⟨i, hrun, hi⟩

/-- The owner of the mutex has a statement to execute, and it is not a lock. -/
theorem owns_busy (t : Thread customers cooks) (l : Loc t) (w : Shared cooks) (h : owns t l) :
    ∃ a ∈ (restaurant cfg cooks).code t l w, ∀ m k, a ≠ .lock m k := by
  have hne : (restaurant cfg cooks).code t l w ≠ [] := by
    intro hnil
    cases t with
    | inl c =>
      obtain ⟨i, rfl, -⟩ := customerCode_eq_nil hnil
      exact h
    | inr k =>
      obtain rfl := cookCode_eq_nil hnil
      exact h
  obtain ⟨a, ha⟩ := List.exists_mem_of_ne_nil _ hne
  refine ⟨a, ha, fun m next heq => ?_⟩
  subst heq
  cases t with
  | inl c =>
    cases customerStep_of_mem ha
    exact h
  | inr k => cases cookStep_of_mem ha <;> exact h

/-- When every thread has finished or waits, no thread speaks for a free place. -/
theorem sum_speaksFor_eq_zero
    (hquiet : ∀ t, Finished (restaurant cfg cooks) s t ∨ (s.status t).IsWaiting) :
    ∑ t, speaksFor t (s.status t) = 0 := by
  refine Finset.sum_eq_zero fun t _ => ?_
  cases t with
  | inl c =>
    rcases hquiet (.inl c) with hfin | hwait
    · obtain ⟨i, hrun, -⟩ := finished_customer hfin
      rw [hrun]
      rfl
    · cases hst : s.status (.inl c) with
      | waiting cond m l => rfl
      | running l =>
        rw [hst] at hwait
        exact hwait.elim
      | woken m l =>
        rw [hst] at hwait
        exact hwait.elim
  | inr k =>
    rcases hquiet (.inr k) with hfin | hwait
    · rw [finished_cook hfin]
      rfl
    · cases hst : s.status (.inr k) with
      | waiting cond m l => rfl
      | running l =>
        rw [hst] at hwait
        exact hwait.elim
      | woken m l => rfl

/-- No customer announces an order when every thread has finished or waits. -/
theorem not_announces (h : (restaurant cfg cooks).machine.Reachable s)
    (hquiet : ∀ t, Finished (restaurant cfg cooks) s t ∨ (s.status t).IsWaiting)
    (c : Fin customers) : ¬ CustomerLoc.announces (s.loc (.inl c)) := by
  rw [State.loc]
  rcases hquiet (.inl c) with hfin | hwait
  · obtain ⟨i, hrun, -⟩ := finished_customer hfin
    rw [hrun]
    exact id
  · have hloop := waitsInLoop h (.inl c)
    cases hst : s.status (.inl c) with
    | waiting cond m l =>
      rw [hst] at hloop
      obtain ⟨-, i, order, rfl⟩ := hloop
      exact id
    | running l =>
      rw [hst] at hwait
      exact hwait.elim
    | woken m l =>
      rw [hst] at hwait
      exact hwait.elim

/-- A cook told that there are no more orders has nothing left to do. -/
theorem toldNull_of_finished {k : Fin cooks}
    (h : Finished (restaurant cfg cooks) s (.inr k)) : CookLoc.toldNull (s.loc (.inr k)) := by
  rw [State.loc, finished_cook h]
  trivial

/-- Where every thread has finished or waits, all cooks wait or none does. -/
theorem nothing_to_tell (hcfg : cfg.PlacesAll) (hcooks : 0 < cooks)
    (h : (restaurant cfg cooks).machine.Reachable s)
    (hquiet : ∀ t, Finished (restaurant cfg cooks) s t ∨ (s.status t).IsWaiting)
    {k : Fin cooks} (hk : (s.status (.inr k)).IsWaiting) :
    s.data.bcb.orders = [] ∧ s.data.bcb.nextOrderNumber - 1 < cfg.expectedNumOrders := by
  have hall : ∀ k, (s.status (.inr k)).IsWaiting := by
    intro k'
    rcases hquiet (.inr k') with hfin | hwait
    · exact absurd hk (no_cook_waits hcfg h (toldNull_of_finished hfin))
    · exact hwait
  rcases cooksAlert hcooks h hall with ⟨horders, hless⟩ | ⟨c, hc⟩
  · rw [expectedNumOrders_eq h] at hless
    exact ⟨horders, hless⟩
  · exact absurd hc (not_announces h hquiet c)

/-- Only a state in which all threads have finished is stuck. -/
theorem finished_of_stuck (hmax : 1 ≤ cfg.maxSize) (hcfg : cfg.PlacesAll)
    (hcooks : 0 < cooks) (h : (restaurant cfg cooks).machine.Reachable s)
    (hstuck : Stuck (restaurant cfg cooks) s) (t : Thread customers cooks) :
    Finished (restaurant cfg cooks) s t := by
  obtain ⟨hfree, hblocked⟩ := (guarded cfg cooks).stuck owns_busy h hstuck
  have hquiet : ∀ t, Finished (restaurant cfg cooks) s t ∨ (s.status t).IsWaiting := by
    intro t
    rcases hblocked t with hfin | ⟨c, k, hwait⟩
    · exact Or.inl hfin
    · apply Or.inr
      rw [hwait]
      trivial
  -- a customer would wait on a full queue, so that no cook waits and one has finished
  have hcustomers : ∀ c, Finished (restaurant cfg cooks) s (.inl c) := by
    intro c
    refine (hquiet (.inl c)).resolve_right fun hwait => ?_
    have hplaces := placesSpokenFor h ⟨c, hwait⟩
    rw [sum_speaksFor_eq_zero hquiet, freePlaces] at hplaces
    have hinv := (lockInv_none hfree).mp ((queue_protects cfg cooks).lockInv h)
    have hsize := hinv.size
    have hmaxSize := hinv.maxSize_eq
    have hne : s.data.bcb.orders ≠ [] := by
      intro hempty
      rw [hempty, List.length_nil, Nat.cast_zero] at hsize
      omega
    rcases hquiet (.inr ⟨0, hcooks⟩) with hfin | hcook
    · exact hne (drained hcfg h (toldNull_of_finished hfin)).1
    · exact hne (nothing_to_tell hcfg hcooks h hquiet hcook).1
  cases t with
  | inl c => exact hcustomers c
  | inr k =>
    refine (hquiet (.inr k)).resolve_right fun hwait => ?_
    have hless := (nothing_to_tell hcfg hcooks h hquiet hwait).2
    have hbalance := numbered_add_toAdd hcfg h
    have hnone : ∑ t, toAdd cfg t (s.loc t) = 0 := by
      refine Finset.sum_eq_zero fun t _ => ?_
      cases t with
      | inl c =>
        obtain ⟨i, hrun, hi⟩ := finished_customer (hcustomers c)
        rw [State.loc, hrun]
        show ((cfg.ordersPerCustomer c - i : ℕ) : ℤ) = 0
        omega
      | inr k => rfl
    omega

/-- **No deadlock.**  No reachable state has an unfinished thread while no thread can take a
step. -/
theorem restaurant_deadlock_free (hmax : 1 ≤ cfg.maxSize) (hcfg : cfg.PlacesAll)
    (hcooks : 0 < cooks) (h : (restaurant cfg cooks).machine.Reachable s) :
    ¬ ((∃ t, ¬ Finished (restaurant cfg cooks) s t) ∧ Stuck (restaurant cfg cooks) s) := by
  rintro ⟨⟨t, hunfinished⟩, hstuck⟩
  exact hunfinished (finished_of_stuck hmax hcfg hcooks h hstuck t)

/-- The cook waits for the first order. -/
theorem restaurant_deadlock_free_oneEach :
    ∃ s, (restaurant oneEach 1).machine.Reachable s ∧
      (s.status (.inr 0)).WaitsOn .canGetOrders ∧
      ¬ ((∃ t, ¬ Finished (restaurant oneEach 1) s t) ∧ Stuck (restaurant oneEach 1) s) := by
  let cook : Thread 1 1 × ℕ × Option (Thread 1 1) := (.inr 0, 0, none)
  have hrun : ((List.replicate 2 cook).foldlM (restaurant oneEach 1).next
      (restaurant oneEach 1).machine.init).map (fun s =>
        decide ((s.status (.inr 0)).WaitsOn .canGetOrders)) = some true := by decide +kernel
  obtain ⟨s, hs, heq⟩ := Option.map_eq_some_iff.mp hrun
  have hreach := reachable_of_choices hs
  exact ⟨s, hreach, of_decide_eq_true heq,
    restaurant_deadlock_free (by decide) ⟨rfl, rfl⟩ one_pos hreach⟩

end OsLabs.ChilliBowl
