import OsLabs.Bank.Transaction
import OsLabs.Lib.Monitor

/-!
# Strict alternation

`ParentProcess` and `ChildProcess` of the first bank program, which share the balance
`SharedMem[0]` and the turn `SharedMem[1]`.  Each access to the shared memory is one step.  A
round copies the balance and only then waits for the turn, so that the copy may be older than
the last round of the other process.
-/

namespace OsLabs.Bank

open OsLabs.Lib OsLabs.Lib.Monitor

inductive Process
  | parent
  | child
  deriving DecidableEq

instance fintypeProcess : Fintype Process where
  elems := {.parent, .child}
  complete p := by cases p <;> decide

/-- The value of `SharedMem[1]` for which the process waits. -/
def Process.turn : Process → ℤ
  | parent => 0
  | child => 1

def Process.other : Process → Process
  | parent => child
  | child => parent

structure SharedMem where
  /-- `SharedMem[0]`. -/
  balance : ℤ
  /-- `SharedMem[1]`. -/
  turn : ℤ
  /-- The transactions that have been printed. -/
  printed : List Transaction
  deriving DecidableEq

/-- The next statement of a process, in its round number `i`. -/
inductive RoundLoc
  /-- The head of the `for` loop, the pause, and `account = SharedMem[0]`. -/
  | copy (i : ℕ)
  /-- `while (SharedMem[1] != turn)`. -/
  | waitTurn (i : ℕ) (account : ℤ)
  /-- The decision on the copy, with the message that announces it. -/
  | decide (i : ℕ) (account : ℤ)
  /-- `SharedMem[0] = account`. -/
  | write (i : ℕ) (account : ℤ)
  /-- `SharedMem[1]` becomes the turn of the other process. -/
  | giveTurn (i : ℕ)
  deriving DecidableEq

/-- What `ParentProcess` may announce. -/
def parentDecides (account : ℤ) : List (Option Transaction) :=
  if account ≤ 100 then
    (List.range 100).map fun balance : ℕ =>
      if balance % 2 = 0 then some (.deposits balance) else none
  else [none]

/-- What `ChildProcess` may announce. -/
def childDecides (account : ℤ) : List (Option Transaction) :=
  (List.range 50).map fun need : ℕ =>
    if need ≤ account then some (.withdraws need) else none

def Process.decides : Process → ℤ → List (Option Transaction)
  | parent => parentDecides
  | child => childDecides

abbrev RoundAction := Action Empty Empty SharedMem RoundLoc

def roundCode (rounds : ℕ) (p : Process) : RoundLoc → SharedMem → List RoundAction
  | .copy i, d => if i < rounds then [.exec d (.waitTurn i d.balance)] else []
  | .waitTurn i account, d =>
    if d.turn ≠ p.turn then [.exec d (.waitTurn i account)] else [.exec d (.decide i account)]
  | .decide i account, d =>
    (p.decides account).map fun
      | some transaction => .exec { d with printed := d.printed ++ [transaction] }
          (.write i (transaction.apply account))
      | none => .exec d (.write i account)
  | .write i account, d => [.exec { d with balance := account } (.giveTurn i)]
  | .giveTurn i, d => [.exec { d with turn := p.other.turn } (.copy (i + 1))]

/-- The two processes, with their numbers of rounds. -/
def alternation (rounds : Process → ℕ) :
    Program Process Empty Empty SharedMem fun _ => RoundLoc where
  start _ := .copy 0
  data := ⟨0, 0, []⟩
  code p := roundCode (rounds p) p
  spurious := false

abbrev RoundState := State Process Empty Empty SharedMem fun _ => RoundLoc

/-! ### The statements -/

inductive RoundStatement (p : Process) (d : SharedMem) : RoundLoc → RoundAction → Prop
  | copy {i : ℕ} : RoundStatement p d (.copy i) (.exec d (.waitTurn i d.balance))
  | spin {i : ℕ} {account : ℤ} : d.turn ≠ p.turn →
      RoundStatement p d (.waitTurn i account) (.exec d (.waitTurn i account))
  | enter {i : ℕ} {account : ℤ} : d.turn = p.turn →
      RoundStatement p d (.waitTurn i account) (.exec d (.decide i account))
  | announce {i : ℕ} {account : ℤ} {transaction : Transaction} :
      RoundStatement p d (.decide i account)
        (.exec { d with printed := d.printed ++ [transaction] }
          (.write i (transaction.apply account)))
  | noChange {i : ℕ} {account : ℤ} :
      RoundStatement p d (.decide i account) (.exec d (.write i account))
  | write {i : ℕ} {account : ℤ} :
      RoundStatement p d (.write i account) (.exec { d with balance := account } (.giveTurn i))
  | giveTurn {i : ℕ} : RoundStatement p d (.giveTurn i)
      (.exec { d with turn := p.other.turn } (.copy (i + 1)))

theorem roundStatement_of_mem {rounds : ℕ} {p : Process} {l : RoundLoc} {d : SharedMem}
    {a : RoundAction} (ha : a ∈ roundCode rounds p l d) : RoundStatement p d l a := by
  cases l with
  | copy i =>
    rw [roundCode] at ha
    split at ha
    · obtain rfl := List.mem_singleton.mp ha
      exact .copy
    · cases ha
  | waitTurn i account =>
    rw [roundCode] at ha
    split at ha
    · rename_i hother
      obtain rfl := List.mem_singleton.mp ha
      exact .spin hother
    · rename_i hturn
      obtain rfl := List.mem_singleton.mp ha
      exact .enter (not_not.mp hturn)
  | decide i account =>
    obtain ⟨outcome, -, rfl⟩ := List.mem_map.mp ha
    cases outcome with
    | none => exact .noChange
    | some transaction => exact .announce
  | write i account =>
    obtain rfl := List.mem_singleton.mp ha
    exact .write
  | giveTurn i =>
    obtain rfl := List.mem_singleton.mp ha
    exact .giveTurn

/-! ### Turns -/

/-- The process has seen its turn and not handed it over yet. -/
def RoundLoc.InRound : RoundLoc → Prop
  | decide _ _ | write _ _ | giveTurn _ => True
  | _ => False

variable {rounds : Process → ℕ} {s s' : RoundState} {p : Process}

theorem turn_injective {p q : Process} (h : p.turn = q.turn) : p = q := by
  cases p <;> cases q <;> first | rfl | exact absurd h (by decide)

theorem step_statement (h : (alternation rounds).machine.Reachable s)
    (hstep : Step (alternation rounds) s p s') :
    ∃ a, RoundStatement p s.data (s.loc p) a ∧ s'.data = a.effect s.data ∧
      s'.loc = Function.update s.loc p a.next := by
  obtain ⟨a, ha, hacts⟩ := hstep.acts_of_isEmpty h
  exact ⟨a, roundStatement_of_mem ha, hacts.data, hacts.loc⟩

/-- **Strict alternation.**  A process in a round has the turn. -/
theorem turn_of_inRound (h : (alternation rounds).machine.Reachable s) :
    ∀ p, (s.loc p).InRound → s.data.turn = p.turn := by
  refine h.invariant (I := fun s => ∀ p, (s.loc p).InRound → s.data.turn = p.turn) ?_ ?_
  · intro p hp
    exact hp.elim
  · intro s p s' hreach ih hstep q hq
    obtain ⟨a, hstatement, hdata, hloc⟩ := step_statement hreach hstep
    rw [hdata]
    rw [hloc] at hq
    generalize hl : s.loc p = l at hstatement
    by_cases hqp : q = p
    · subst hqp
      rw [Function.update_self] at hq
      cases hstatement with
      | enter hturn => exact hturn
      | copy => exact hq.elim
      | spin hother => exact hq.elim
      | giveTurn => exact hq.elim
      | _ => exact ih q (hl ▸ trivial)
    · rw [Function.update_of_ne hqp] at hq
      have hturn := ih q hq
      cases hstatement with
      | giveTurn =>
        -- the process that hands the turn over had it alone
        have hown := ih p (hl ▸ trivial)
        exact absurd (turn_injective (hturn.symm.trans hown)) hqp
      | _ => exact hturn

theorem inRound_unique (h : (alternation rounds).machine.Reachable s) {p q : Process}
    (hp : (s.loc p).InRound) (hq : (s.loc q).InRound) : p = q :=
  turn_injective ((turn_of_inRound h p hp).symm.trans (turn_of_inRound h q hq))

/-! ### The balance in hand -/

/-- The copy that a process in its round has not written back yet. -/
def RoundLoc.inHand : RoundLoc → Option ℤ
  | decide _ account | write _ account => some account
  | _ => none

/-- The balance as it will be when the round under way is over, if nothing more is announced. -/
def nextBalance (s : RoundState) : ℤ :=
  (((s.loc .parent).inHand).or ((s.loc .child).inHand)).getD s.data.balance

/-- The balance that the announcements amount to. -/
def announced (s : RoundState) : ℤ :=
  totalDeposits s.data.printed - totalWithdrawals s.data.printed

/-- No process is between its turn test and the hand-over. -/
def Between (s : RoundState) : Prop := ∀ p, ¬ (s.loc p).InRound

theorem RoundLoc.inHand_eq_none {l : RoundLoc} (h : ¬ l.InRound) : l.inHand = none := by
  cases l <;> first | rfl | exact absurd trivial h

theorem nextBalance_of_inHand (h : (alternation rounds).machine.Reachable s) {account : ℤ}
    (hp : (s.loc p).inHand = some account) : nextBalance s = account := by
  have hround : (s.loc p).InRound := by
    by_contra hnot
    rw [RoundLoc.inHand_eq_none hnot] at hp
    cases hp
  have hother : ∀ q, q ≠ p → (s.loc q).inHand = none := by
    intro q hq
    apply RoundLoc.inHand_eq_none
    exact fun hin => hq (inRound_unique h hin hround)
  cases p with
  | parent =>
    rw [nextBalance, hp]
    rfl
  | child =>
    rw [nextBalance, hother .parent (by decide), hp]
    rfl

theorem nextBalance_of_none (h : ∀ p, (s.loc p).inHand = none) :
    nextBalance s = s.data.balance := by
  rw [nextBalance, h .parent, h .child]
  rfl

theorem Between.nextBalance (h : Between s) : nextBalance s = s.data.balance :=
  nextBalance_of_none fun p => RoundLoc.inHand_eq_none (h p)

theorem nextBalance_congr (hbalance : s'.data.balance = s.data.balance)
    (hhand : ∀ p, (s'.loc p).inHand = (s.loc p).inHand) : nextBalance s' = nextBalance s := by
  rw [OsLabs.Bank.nextBalance, OsLabs.Bank.nextBalance, hhand, hhand, hbalance]

/-- The test at which the process leaves its wait. -/
def Enters (s : RoundState) (p : Process) (account : ℤ) : Prop :=
  ∃ i, s.loc p = .waitTurn i account ∧ s.data.turn = p.turn

/-- A process enters its round when the other one is in none. -/
theorem Enters.between (h : (alternation rounds).machine.Reachable s) {account : ℤ}
    (he : Enters s p account) : Between s := by
  obtain ⟨i, hl, hturn⟩ := he
  intro q hq
  have hqp : q = p := turn_injective ((turn_of_inRound h q hq).symm.trans hturn)
  rw [hqp, hl] at hq
  exact hq

/-- The copy of a process that enters its round is current. -/
def Current (s : RoundState) (p : Process) : Prop :=
  ∀ account, Enters s p account → account = s.data.balance

/-- Only the copy taken into a round can part the balance from the announcements. -/
theorem nextBalance_step (h : (alternation rounds).machine.Reachable s)
    (hstep : Step (alternation rounds) s p s') :
    (∃ account, Enters s p account ∧ nextBalance s' = account ∧ announced s' = announced s) ∨
      ((∀ account, ¬ Enters s p account) ∧
        nextBalance s' - announced s' = nextBalance s - announced s) := by
  have hreach' := h.step hstep
  obtain ⟨a, hstatement, hdata, hloc⟩ := step_statement h hstep
  have hself : s'.loc p = a.next := by rw [hloc, Function.update_self]
  have hhand : (s.loc p).inHand = a.next.inHand →
      ∀ q, (s'.loc q).inHand = (s.loc q).inHand := by
    intro hsame q
    by_cases hq : q = p
    · rw [hq, hself, hsame]
    · rw [hloc, Function.update_of_ne hq]
  have hprinted : announced s' = totalDeposits (a.effect s.data).printed -
      totalWithdrawals (a.effect s.data).printed := by rw [announced, hdata]
  generalize hl : s.loc p = l at hstatement hhand
  have hout : (∀ i account, l ≠ .waitTurn i account) → ∀ account, ¬ Enters s p account := by
    rintro hne account ⟨i, hwait, -⟩
    exact hne i account (hl.symm.trans hwait)
  cases hstatement with
  | copy =>
    refine Or.inr ⟨hout nofun, ?_⟩
    rw [nextBalance_congr (congrArg SharedMem.balance hdata) (hhand rfl), hprinted]
    rfl
  | spin hother =>
    refine Or.inr ⟨?_, ?_⟩
    · rintro account ⟨i, -, hturn⟩
      exact hother hturn
    · rw [nextBalance_congr (congrArg SharedMem.balance hdata) (hhand rfl), hprinted]
      rfl
  | @enter i account hturn =>
    refine Or.inl ⟨account, ⟨i, hl, hturn⟩, ?_, hprinted⟩
    exact nextBalance_of_inHand hreach' (by rw [hself]; rfl)
  | @announce i account transaction =>
    refine Or.inr ⟨hout nofun, ?_⟩
    rw [nextBalance_of_inHand h (by rw [hl]; rfl),
      nextBalance_of_inHand hreach' (by rw [hself]; rfl), hprinted]
    show transaction.apply account - (totalDeposits (s.data.printed ++ [transaction]) -
      totalWithdrawals (s.data.printed ++ [transaction])) = _
    rw [apply_totals, announced]
    cases transaction with
    | deposits amount => exact add_sub_add_right_eq_sub _ _ _
    | withdraws amount => exact sub_sub_sub_cancel_right _ _ _
  | @noChange i account =>
    refine Or.inr ⟨hout nofun, ?_⟩
    rw [nextBalance_of_inHand h (by rw [hl]; rfl),
      nextBalance_of_inHand hreach' (by rw [hself]; rfl), hprinted]
    rfl
  | @write i account =>
    have hnone : ∀ q, (s'.loc q).inHand = none := by
      intro q
      by_cases hq : q = p
      · rw [hq, hself]
        rfl
      · -- the other process is in no round
        apply RoundLoc.inHand_eq_none
        intro hin
        exact hq (inRound_unique hreach' hin (by rw [hself]; trivial))
    refine Or.inr ⟨hout nofun, ?_⟩
    rw [nextBalance_of_inHand h (by rw [hl]; rfl), nextBalance_of_none hnone, hprinted, hdata]
    rfl
  | giveTurn =>
    refine Or.inr ⟨hout nofun, ?_⟩
    rw [nextBalance_congr (by rw [hdata]; rfl) (hhand rfl), hprinted]
    rfl

/-! ### Runs -/

/-- Whenever no round is under way, the balance is what the announcements amount to. -/
def Balanced (s : RoundState) : Prop := Between s → s.data.balance = announced s

/-- A process that enters its round with a current copy keeps the balance right. -/
theorem nextBalance_of_current (h : (alternation rounds).machine.Reachable s)
    (hbefore : nextBalance s = announced s) (hok : Current s p)
    (hstep : Step (alternation rounds) s p s') : nextBalance s' = announced s' := by
  rcases nextBalance_step h hstep with ⟨account, henter, hnext, hsame⟩ | ⟨-, hdiff⟩
  · rw [hnext, hsame, hok account henter, ← hbefore]
    exact (henter.between h).nextBalance.symm
  · omega

theorem balanced_of_current {tr : List (RoundState × Process)}
    (h : (alternation rounds).machine.Run tr s) (hok : ∀ x ∈ tr, Current x.1 x.2) :
    ∀ x ∈ Machine.visited tr s, Balanced x := by
  have hall := h.forall_visited
    (I := fun s => (alternation rounds).machine.Reachable s ∧ nextBalance s = announced s)
    (C := Current) ⟨Machine.reachable_init, rfl⟩
    (fun s p s' hI hcurrent hstep =>
      ⟨hI.1.step hstep, nextBalance_of_current hI.1 hI.2 hcurrent hstep⟩) hok
  intro x hx hbetween
  exact hbetween.nextBalance.symm.trans (hall x hx).2

/-- Where the balance is right between all rounds, and also now, all copies were current. -/
theorem current_of_balanced {tr : List (RoundState × Process)}
    (h : (alternation rounds).machine.Run tr s)
    (hbalanced : ∀ x ∈ Machine.visited tr s, Balanced x) (hnow : nextBalance s = announced s) :
    ∀ x ∈ tr, Current x.1 x.2 := by
  induction h with
  | start => exact nofun
  | @snoc tr s s' p hrun hstep ih =>
    have hreach : (alternation rounds).machine.Reachable s := ⟨tr, hrun⟩
    rw [Machine.visited_snoc] at hbalanced
    have hbefore := ih fun x hx => hbalanced x (List.mem_append_left _ hx)
    have hs : Balanced s := hbalanced s (List.mem_append_left _
      (List.mem_append_right _ List.mem_cons_self))
    rw [List.forall_mem_append, List.forall_mem_singleton]
    rcases nextBalance_step hreach hstep with ⟨account, henter, hnext, hsame⟩ | ⟨hout, hdiff⟩
    · have hbetween := henter.between hreach
      have hright := hs hbetween
      refine ⟨hbefore (hbetween.nextBalance.trans hright), fun account' henter' => ?_⟩
      obtain ⟨i, hl, -⟩ := henter
      obtain ⟨i', hl', -⟩ := henter'
      obtain ⟨-, rfl⟩ := RoundLoc.waitTurn.inj (hl.symm.trans hl')
      show account = s.data.balance
      omega
    · exact ⟨hbefore (by omega), fun account henter => absurd henter (hout account)⟩

/-- **Rounds and the balance.**  In a run in which every process enters its rounds with a
current copy, `SharedMem[0]` is what was announced whenever no round is under way.  In a run
whose rounds are all over it is so only if all copies were current. -/
theorem balanced_iff_current {tr : List (RoundState × Process)}
    (h : (alternation rounds).machine.Run tr s) :
    ((∀ x ∈ tr, Current x.1 x.2) → ∀ x ∈ Machine.visited tr s, Balanced x) ∧
      (Between s → (∀ x ∈ Machine.visited tr s, Balanced x) → ∀ x ∈ tr, Current x.1 x.2) := by
  refine ⟨balanced_of_current h, fun hbetween hbalanced => current_of_balanced h hbalanced ?_⟩
  have hlast := hbalanced s (List.mem_append_right _ List.mem_cons_self) hbetween
  exact hbetween.nextBalance.trans hlast

/-- The parent deposits 98, and then the child copies the balance and withdraws 8. -/
def turnsTaken : List (Process × ℕ × Option Process) :=
  [(.parent, 0, none), (.parent, 0, none), (.parent, 98, none), (.parent, 0, none),
    (.parent, 0, none), (.child, 0, none), (.child, 0, none), (.child, 8, none),
    (.child, 0, none), (.child, 0, none)]

theorem balanced_iff_current_one_round :
    ∃ tr s, (alternation fun _ => 1).machine.Run tr s ∧
      s.data.printed = [.deposits 98, .withdraws 8] ∧
      ((∀ x ∈ tr, Current x.1 x.2) → ∀ x ∈ Machine.visited tr s, Balanced x) ∧
      (Between s → (∀ x ∈ Machine.visited tr s, Balanced x) →
        ∀ x ∈ tr, Current x.1 x.2) := by
  have hrun : (turnsTaken.foldlM (alternation fun _ => 1).next
      (alternation fun _ => 1).machine.init).map (fun s => s.data.printed) =
        some [.deposits 98, .withdraws 8] := by decide +kernel
  obtain ⟨s, hs, hprinted⟩ := Option.map_eq_some_iff.mp hrun
  obtain ⟨tr, htr⟩ := reachable_of_choices hs
  exact ⟨tr, s, htr, hprinted, balanced_iff_current htr⟩

/-- The child copies the balance before the parent deposits 98. -/
def staleCopy : List (Process × ℕ × Option Process) :=
  [(.child, 0, none), (.parent, 0, none), (.parent, 0, none), (.parent, 98, none),
    (.parent, 0, none), (.parent, 0, none), (.child, 0, none), (.child, 0, none),
    (.child, 0, none), (.child, 0, none)]

theorem staleCopy_loses_deposit :
    ¬ ∀ rounds s, (alternation rounds).machine.Reachable s → Balanced s := by
  intro h
  have hrun : (staleCopy.foldlM (alternation fun _ => 1).next
      (alternation fun _ => 1).machine.init).map
        (fun s => (s.loc .parent, s.loc .child, s.data)) =
          some (.copy 1, .copy 1, ⟨0, 0, [.deposits 98, .withdraws 0]⟩) := by decide +kernel
  obtain ⟨s, hs, heq⟩ := Option.map_eq_some_iff.mp hrun
  obtain ⟨hparent, hchild, hdata⟩ : s.loc .parent = .copy 1 ∧ s.loc .child = .copy 1 ∧
      s.data = ⟨0, 0, [.deposits 98, .withdraws 0]⟩ := by simpa using heq
  have hbetween : Between s := by
    intro p
    cases p with
    | parent => rw [hparent]; exact id
    | child => rw [hchild]; exact id
  have hbalance := h _ s (reachable_of_choices hs) hbetween
  rw [announced, hdata] at hbalance
  exact absurd hbalance (by decide)

end OsLabs.Bank
