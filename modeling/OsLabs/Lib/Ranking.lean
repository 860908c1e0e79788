import OsLabs.Lib.Monitor

/-!
# Runs that end

A rank that every step lowers bounds the length of every run, and every run goes on to a state
without steps.  For threads with mutexes and condition variables the rank is a sum over the data
and the locations of the threads: a statement pays for itself and for the threads that it may
wake, so the runs end unless threads go on waking up without a signal.
-/

namespace OsLabs.Lib

namespace Machine

variable {σ ε : Type*} {m : Machine σ ε}

/-- No step is possible. -/
def Ends (m : Machine σ ε) (s : σ) : Prop := ∀ e s', ¬ m.step s e s'

/-- Where each step costs at most what it takes off the rank and what it is granted, the rank
and all that was granted pay for the run. -/
theorem Run.length_add_rank_le (rank : σ → ℕ) (granted : σ × ε → ℕ)
    (hrank : ∀ s e s', m.Reachable s → m.step s e s' → rank s' + 1 ≤ rank s + granted (s, e))
    {tr : List (σ × ε)} {s : σ} (h : m.Run tr s) :
    tr.length + rank s ≤ rank m.init + (tr.map granted).sum := by
  induction h with
  | start => simp
  | @snoc tr s s' e hrun hs ih =>
    have hstep := hrank s e s' ⟨tr, hrun⟩ hs
    rw [List.length_append, List.length_singleton, List.map_append, List.sum_append,
      List.map_singleton, List.sum_singleton]
    omega

/-- Where every step lowers the rank, every run goes on to its end. -/
theorem Run.exists_end (rank : σ → ℕ)
    (hrank : ∀ s e s', m.Reachable s → m.step s e s' → rank s' < rank s)
    {tr : List (σ × ε)} {s : σ} (h : m.Run tr s) :
    ∃ rest s', m.Run (tr ++ rest) s' ∧ m.Ends s' := by
  induction hn : rank s using Nat.strong_induction_on generalizing tr s with
  | _ n ih =>
    by_cases hend : m.Ends s
    · exact ⟨[], s, by rwa [List.append_nil], hend⟩
    · unfold Ends at hend
      push Not at hend
      obtain ⟨e, s₁, hstep⟩ := hend
      obtain ⟨rest, s', hrun, hends⟩ :=
        ih (rank s₁) (hn ▸ hrank s e s₁ ⟨tr, h⟩ hstep) (h.snoc hstep) rfl
      exact ⟨(s, e) :: rest, s', by rwa [List.append_assoc] at hrun, hends⟩

end Machine

namespace Monitor

variable {Thread Lock Cond Data : Type*} {Loc : Thread → Type*}

/-- What an action has to pay for, among `n` threads: its step, but for a wait, and the two steps
by which each thread that it wakes goes on. -/
def Action.cost {L : Type*} (n : ℕ) : Action Lock Cond Data L → ℕ
  | .wait _ _ _ => 0
  | .signal _ _ => 3
  | .broadcast _ _ => 2 * n + 1
  | _ => 1

/-- The steps that a thread may take without a statement, once it has been woken. -/
def Status.ahead {L : Type*} : Status Lock Cond L → ℕ
  | .waiting _ _ _ => 0
  | .running _ => 1
  | .woken _ _ => 2

theorem Status.ahead_wake_le {L : Type*} (st : Status Lock Cond L) :
    st.wake.ahead ≤ st.ahead + 2 := by
  cases st with
  | waiting c m l => exact le_rfl
  | running l => exact Nat.le_add_right 1 2
  | woken m l => exact Nat.le_add_right 2 2

instance decidableIsWaiting {L : Type*} :
    ∀ st : Status Lock Cond L, Decidable st.IsWaiting
  | .waiting _ _ _ => inferInstanceAs (Decidable True)
  | .running _ | .woken _ _ => inferInstanceAs (Decidable False)

/-- The step of a waiting thread ends its wait without a signal. -/
def unsignalled (x : State Thread Lock Cond Data Loc × Thread) : ℕ :=
  if (x.1.status x.2).IsWaiting then 3 else 0

section Rank

variable [Fintype Thread]

/-- The data and the locations of the threads pay for the actions. -/
def Ranked (P : Program Thread Lock Cond Data Loc) (fund : Data → ℕ) (share : ∀ t, Loc t → ℕ) :
    Prop :=
  ∀ t l d a, a ∈ P.code t l d →
    fund (a.effect d) + share t a.next + a.cost (Fintype.card Thread) ≤ fund d + share t l

/-- What a thread has left to pay with. -/
def Status.purse {L : Type*} (share : L → ℕ) (st : Status Lock Cond L) : ℕ :=
  share st.loc + st.ahead

theorem Status.purse_wake_le {L : Type*} (share : L → ℕ) (st : Status Lock Cond L) :
    st.wake.purse share ≤ st.purse share + 2 := by
  have hahead := st.ahead_wake_le
  rw [purse, purse, loc_wake]
  omega

def State.rank (fund : Data → ℕ) (share : ∀ t, Loc t → ℕ)
    (s : State Thread Lock Cond Data Loc) : ℕ :=
  fund s.data + ∑ t, (s.status t).purse (share t)

variable [DecidableEq Thread] [DecidableEq Lock] [DecidableEq Cond]
  {P : Program Thread Lock Cond Data Loc} {fund : Data → ℕ} {share : ∀ t, Loc t → ℕ}
  {s s' : State Thread Lock Cond Data Loc} {t : Thread}

omit [DecidableEq Lock] [DecidableEq Cond] in
/-- The rank changes with the data and the status of the thread that steps. -/
theorem rank_update (fund : Data → ℕ) (share : ∀ t, Loc t → ℕ) (d d' : Data) (o : Lock → Option Thread)
    (st : ∀ u, Status Lock Cond (Loc u)) (t : Thread) (x : Status Lock Cond (Loc t)) :
    State.rank fund share ⟨d', o, Function.update st t x⟩ + (fund d + (st t).purse (share t)) =
      State.rank fund share ⟨d, o, st⟩ + (fund d' + x.purse (share t)) := by
  have hsum := sum_update_add (fun u y => y.purse (share u)) st t x
  rw [State.rank, State.rank]
  dsimp only
  omega

omit [DecidableEq Thread] [DecidableEq Lock] in
theorem rank_wakeAll_le (fund : Data → ℕ) (share : ∀ t, Loc t → ℕ) (d : Data) (o : Lock → Option Thread)
    (st : ∀ u, Status Lock Cond (Loc u)) (c : Cond) :
    State.rank fund share ⟨d, o, wakeAll c st⟩ ≤
      State.rank fund share ⟨d, o, st⟩ + 2 * Fintype.card Thread := by
  have hsum : ∑ u, (wakeAll c st u).purse (share u) ≤ ∑ u, ((st u).purse (share u) + 2) := by
    refine Finset.sum_le_sum fun u _ => ?_
    rw [wakeAll]
    split
    · exact Status.purse_wake_le _ _
    · exact Nat.le_add_right _ _
  rw [Finset.sum_add_distrib, Finset.sum_const, Finset.card_univ, smul_eq_mul] at hsum
  rw [State.rank, State.rank]
  dsimp only
  omega

omit [DecidableEq Lock] [DecidableEq Cond] in
theorem rank_wake_le (fund : Data → ℕ) (share : ∀ t, Loc t → ℕ) (d : Data) (o : Lock → Option Thread)
    (st : ∀ u, Status Lock Cond (Loc u)) (u : Thread) :
    State.rank fund share ⟨d, o, Function.update st u (st u).wake⟩ ≤
      State.rank fund share ⟨d, o, st⟩ + 2 := by
  have hrank := rank_update fund share d d o st u (st u).wake
  have hwake := Status.purse_wake_le (share u) (st u)
  omega

omit [DecidableEq Lock] [DecidableEq Cond] in
/-- The statement of a running thread, once it has woken the others, is paid for. -/
theorem Ranked.pays (h : Ranked P fund share) {l : Loc t}
    {a : Action Lock Cond Data (Loc t)} (hrun : s.status t = .running l)
    (ha : a ∈ P.code t l s.data) (o : Lock → Option Thread) :
    State.rank fund share ⟨a.effect s.data, o, Function.update s.status t (.running a.next)⟩ +
      a.cost (Fintype.card Thread) ≤ s.rank fund share := by
  have hpay := h t l s.data a ha
  have hrank := rank_update fund share s.data (a.effect s.data) o s.status t
    (.running a.next)
  rw [hrun] at hrank
  change _ + (fund s.data + (share t l + 1)) =
    s.rank fund share + (fund (a.effect s.data) + (share t a.next + 1)) at hrank
  omega

/-- A cost of more than the wakeups leaves one for the step. -/
theorem paid {r r₁ r₀ cost wakes granted : ℕ} (hpay : r + cost ≤ r₁) (hwake : r₁ ≤ r₀ + wakes)
    (hcost : wakes + 1 ≤ cost) : r + 1 ≤ r₀ + granted := by
  omega

/-- Every step lowers the rank, unless a thread wakes up without a signal. -/
theorem Ranked.step (h : Ranked P fund share) (hstep : Step P s t s') :
    s'.rank fund share + 1 ≤ s.rank fund share + unsignalled (s, t) := by
  cases hstep with
  | @lock l k m hrun ha hfree => exact paid (h.pays hrun ha _) (Nat.le_add_right _ 0) le_rfl
  | @unlock l k m hrun ha => exact paid (h.pays hrun ha _) (Nat.le_add_right _ 0) le_rfl
  | @exec l k d hrun ha => exact paid (h.pays hrun ha _) (Nat.le_add_right _ 0) le_rfl
  | @wait l k c m hrun ha =>
    have hpay := h t l s.data _ ha
    have hrank := rank_update fund share s.data s.data
      (Function.update s.owner m none) s.status t (.waiting c m k)
    rw [hrun] at hrank
    change _ + (fund s.data + (share t l + 1)) =
      s.rank fund share + (fund s.data + share t k) at hrank
    change fund s.data + share t k ≤ fund s.data + share t l at hpay
    omega
  | @signal u l k c hrun ha hu =>
    have hne : t ≠ u := by
      intro heq
      subst heq
      rw [hrun] at hu
      exact hu
    have hself : Function.update s.status u (s.status u).wake t = .running l := by
      rw [Function.update_of_ne hne, hrun]
    have hpay := h.pays
      (s := ⟨s.data, s.owner, Function.update s.status u (s.status u).wake⟩) hself ha s.owner
    exact paid hpay (rank_wake_le _ _ _ _ _ u) le_rfl
  | @signalLost l k c hrun ha hnone =>
    exact paid (h.pays hrun ha s.owner) (Nat.le_add_right _ 0) (Nat.le_add_left 1 2)
  | @broadcast l k c hrun ha =>
    have hself : wakeAll c s.status t = .running l := by
      rw [wakeAll, if_neg (by rw [hrun]; exact id), hrun]
    have hpay := h.pays (s := ⟨s.data, s.owner, wakeAll c s.status⟩) hself ha s.owner
    exact paid hpay (rank_wakeAll_le _ _ _ _ _ c) le_rfl
  | @resume m k hwoken hfree =>
    have hrank := rank_update fund share s.data s.data
      (Function.update s.owner m (some t)) s.status t (.running k)
    rw [hwoken] at hrank
    change _ + (fund s.data + (share t k + 2)) =
      s.rank fund share + (fund s.data + (share t k + 1)) at hrank
    omega
  | @spurious c m k hspurious hwait =>
    have hrank := rank_update fund share s.data s.data s.owner s.status t
      (.woken m k)
    have hgrant : unsignalled (s, t) = 3 := by
      rw [unsignalled, hwait]
      rfl
    rw [hwait] at hrank
    change _ + (fund s.data + (share t k + 0)) =
      s.rank fund share + (fund s.data + (share t k + 2)) at hrank
    omega

/-- **Length of a run.**  What there is to pay with at the start bounds the length of every run
in which no thread wakes up without a signal. -/
theorem Ranked.length_le (h : Ranked P fund share) {tr} (hrun : P.machine.Run tr s) :
    tr.length ≤ P.machine.init.rank fund share + (tr.map unsignalled).sum := by
  have hpaid := hrun.length_add_rank_le (State.rank fund share) unsignalled
    fun _ _ _ _ hstep => h.step hstep
  omega

/-- Without such wakeups every run goes on to a state in which no thread can step. -/
theorem Ranked.exists_stuck (h : Ranked P fund share) (hspurious : P.spurious = false) {tr}
    (hrun : P.machine.Run tr s) :
    ∃ rest s', P.machine.Run (tr ++ rest) s' ∧ Stuck P s' := by
  refine hrun.exists_end (State.rank fund share) fun s t s' _ hstep => ?_
  have hrank := h.step hstep
  have hnone : unsignalled (s, t) = 0 := by
    refine if_neg fun hwait => ?_
    cases hstep with
    | spurious htrue _ =>
      rw [hspurious] at htrue
      cases htrue
    | lock hrun _ _ | unlock hrun _ | wait hrun _ | signal hrun _ _ | signalLost hrun _ _
    | broadcast hrun _ | exec hrun _ | resume hrun _ =>
      rw [hrun] at hwait
      exact hwait
  omega

end Rank

end Monitor

end OsLabs.Lib
