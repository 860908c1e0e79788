import OsLabs.Bank.Alternation

/-!
# The rounds of the two bank processes, one after the other

A process completes its round with the write of `SharedMem[1]`.  Since it has the turn from the
exit of its wait loop to this write, the completed rounds belong to the parent and the child in
turn.  The copies in hand may be old, but every copy was a balance, and the balances stay
between 0 and 198.
-/

namespace OsLabs.Bank

open OsLabs.Lib OsLabs.Lib.Monitor

variable {rounds : Process → ℕ} {s s' : RoundState} {p : Process}

/-! ### Completed rounds -/

/-- The next statement is the write of `SharedMem[1]`. -/
def RoundLoc.Completes : RoundLoc → Bool
  | giveTurn _ => true
  | _ => false

/-- The processes that completed the rounds of a run, in order. -/
def completed (tr : List (RoundState × Process)) : List Process :=
  (tr.filter fun x => (x.1.loc x.2).Completes).map Prod.snd

/-- The process of the round number `k`: parent, child, parent, child. -/
def processOfRound (k : ℕ) : Process := if k % 2 = 0 then .parent else .child

theorem processOfRound_succ (k : ℕ) : processOfRound (k + 1) = (processOfRound k).other := by
  unfold processOfRound
  by_cases h : k % 2 = 0
  · have hsucc : ¬ (k + 1) % 2 = 0 := by omega
    rw [if_pos h, if_neg hsucc]
    rfl
  · have hsucc : (k + 1) % 2 = 0 := by omega
    rw [if_neg h, if_pos hsucc]
    rfl

theorem completed_snoc (tr : List (RoundState × Process)) (s : RoundState) (p : Process) :
    completed (tr ++ [(s, p)]) =
      completed tr ++ if (s.loc p).Completes then [p] else [] := by
  rw [completed, List.filter_append, List.map_append]
  cases h : (s.loc p).Completes <;> simp [completed, h]

/-- A step that completes no round leaves the turn. -/
theorem turn_step (h : (alternation rounds).machine.Reachable s)
    (hstep : Step (alternation rounds) s p s') :
    if (s.loc p).Completes then s.data.turn = p.turn ∧ s'.data.turn = p.other.turn
    else s'.data.turn = s.data.turn := by
  obtain ⟨a, hstatement, hdata, -⟩ := step_statement h hstep
  have hturn := turn_of_inRound h p
  rw [hdata]
  generalize s.loc p = l at hstatement hturn
  cases hstatement with
  | giveTurn => exact ⟨hturn trivial, rfl⟩
  | _ => rfl

/-- The completed rounds alternate, and the turn is that of the next one. -/
theorem completed_alternate {tr : List (RoundState × Process)}
    (h : (alternation rounds).machine.Run tr s) :
    completed tr = (List.range (completed tr).length).map processOfRound ∧
      s.data.turn = (processOfRound (completed tr).length).turn := by
  induction h with
  | start => exact ⟨rfl, rfl⟩
  | @snoc tr s s' p hrun hstep ih =>
    have hturn := turn_step ⟨tr, hrun⟩ hstep
    rw [completed_snoc]
    cases hcompletes : (s.loc p).Completes with
    | false =>
      rw [hcompletes] at hturn
      simp only [Bool.false_eq_true, if_false, List.append_nil] at hturn ⊢
      exact ⟨ih.1, hturn.trans ih.2⟩
    | true =>
      rw [hcompletes, if_pos rfl] at hturn
      rw [if_pos rfl]
      have hp : p = processOfRound (completed tr).length :=
        turn_injective (hturn.1.symm.trans ih.2)
      constructor
      · rw [List.length_append, List.length_singleton, List.range_succ, List.map_append, ← ih.1,
          hp]
        rfl
      · rw [List.length_append, List.length_singleton, processOfRound_succ, ← hp]
        exact hturn.2

/-! ### Bounds -/

/-- The values that the balance and its copies can have. -/
def InBounds (account : ℤ) : Prop := 0 ≤ account ∧ account ≤ 198

/-- The copy of the balance at a location. -/
def RoundLoc.account : RoundLoc → Option ℤ
  | waitTurn _ account | decide _ account | write _ account => some account
  | _ => none

/-- What a process decides on a copy within the bounds stays within them: the parent adds at
most 98 to at most 100, the child takes no more than there is. -/
theorem InBounds.decides {account : ℤ} (h : InBounds account) {transaction : Transaction}
    (hmem : some transaction ∈ p.decides account) : InBounds (transaction.apply account) := by
  cases p with
  | parent =>
    have hparent : some transaction ∈ parentDecides account := hmem
    unfold parentDecides at hparent
    split at hparent
    · obtain ⟨balance, hrange, heq⟩ := List.mem_map.mp hparent
      have hlt := List.mem_range.mp hrange
      split at heq
      · obtain rfl := Option.some.inj heq
        have heven : ¬ balance = 99 := by omega
        exact ⟨by show 0 ≤ account + (balance : ℤ); have := h.1; omega,
          by show account + (balance : ℤ) ≤ 198; omega⟩
      · cases heq
    · cases List.mem_singleton.mp hparent
  | child =>
    obtain ⟨need, -, heq⟩ := List.mem_map.mp hmem
    split at heq
    · rename_i hneed
      obtain rfl := Option.some.inj heq
      exact ⟨by show 0 ≤ account - (need : ℤ); omega,
        by show account - (need : ℤ) ≤ 198; have := h.2; omega⟩
    · cases heq

/-- Every statement keeps the balance and the copies within the bounds. -/
theorem InBounds.statement {l : RoundLoc} {d : SharedMem} {a : RoundAction}
    (ha : a ∈ roundCode (rounds p) p l d) (hd : InBounds d.balance)
    (hl : ∀ account, l.account = some account → InBounds account) :
    InBounds (a.effect d).balance ∧
      ∀ account, a.next.account = some account → InBounds account := by
  cases l with
  | decide i account =>
    have haccount := hl account rfl
    obtain ⟨outcome, hmem, rfl⟩ := List.mem_map.mp ha
    cases outcome with
    | none => exact ⟨hd, fun v hv => Option.some.inj hv ▸ haccount⟩
    | some transaction => exact ⟨hd, fun v hv => Option.some.inj hv ▸ haccount.decides hmem⟩
  | copy i =>
    cases roundStatement_of_mem ha
    exact ⟨hd, fun v hv => Option.some.inj hv ▸ hd⟩
  | waitTurn i account =>
    cases roundStatement_of_mem ha with
    | spin hother => exact ⟨hd, hl⟩
    | enter hturn => exact ⟨hd, hl⟩
  | write i account =>
    cases roundStatement_of_mem ha
    refine ⟨hl account rfl, fun v hv => ?_⟩
    cases hv
  | giveTurn i =>
    cases roundStatement_of_mem ha
    refine ⟨hd, fun v hv => ?_⟩
    cases hv

theorem inBounds_of_reachable (h : (alternation rounds).machine.Reachable s) :
    InBounds s.data.balance ∧ ∀ p account, (s.loc p).account = some account →
      InBounds account := by
  refine h.invariant (I := fun s => InBounds s.data.balance ∧ ∀ p account,
    (s.loc p).account = some account → InBounds account) ?_ ?_
  · refine ⟨⟨le_rfl, ?_⟩, fun p account haccount => ?_⟩
    · show (0 : ℤ) ≤ 198
      decide
    · cases haccount
  · intro s p s' hreach ih hstep
    obtain ⟨a, ha, hacts⟩ := hstep.acts_of_isEmpty hreach
    have hstatement := InBounds.statement ha ih.1 (ih.2 p)
    rw [hacts.data, hacts.loc]
    refine ⟨hstatement.1, fun q account haccount => ?_⟩
    by_cases hq : q = p
    · subst hq
      rw [Function.update_self] at haccount
      exact hstatement.2 account haccount
    · rw [Function.update_of_ne hq] at haccount
      exact ih.2 q account haccount

/-- **Strict alternation of the rounds.**  In every run, for any numbers of rounds, no two
processes are between their exit from the wait loop and their write of `SharedMem[1]` at the
same time, the completed rounds belong to parent, child, parent, child and so on, and
`SharedMem[0]` is always between 0 and 198. -/
theorem rounds_alternate (rounds : Process → ℕ) (tr : List (RoundState × Process))
    (s : RoundState) (h : (alternation rounds).machine.Run tr s) :
    (∀ p q, (s.loc p).InRound → (s.loc q).InRound → p = q) ∧
      (∀ k q, (completed tr)[k]? = some q → q = if k % 2 = 0 then .parent else .child) ∧
      0 ≤ s.data.balance ∧ s.data.balance ≤ 198 := by
  refine ⟨fun p q => inRound_unique ⟨tr, h⟩, fun k q hk => ?_,
    (inBounds_of_reachable ⟨tr, h⟩).1⟩
  rw [(completed_alternate h).1, List.getElem?_map] at hk
  obtain ⟨j, hj, rfl⟩ := Option.map_eq_some_iff.mp hk
  obtain ⟨hlt, rfl⟩ := List.getElem?_eq_some_iff.mp hj
  rw [List.getElem_range]
  rfl

theorem rounds_alternate_one_round :
    ∃ tr s, (alternation fun _ => 1).machine.Run tr s ∧ completed tr = [.parent, .child] ∧
      0 ≤ s.data.balance ∧ s.data.balance ≤ 198 := by
  have hrun : (turnsTaken.foldlM (alternation fun _ => 1).next
      (alternation fun _ => 1).machine.init).isSome = true := by decide +kernel
  obtain ⟨s, hs⟩ := Option.isSome_iff_exists.mp hrun
  have hcompleted : completed (Machine.steps (alternation fun _ => 1).next Prod.fst
      (alternation fun _ => 1).machine.init turnsTaken) = [.parent, .child] := by
    decide +kernel
  exact ⟨_, s, run_of_choices hs, hcompleted,
    (rounds_alternate (fun _ => 1) _ s (run_of_choices hs)).2.2⟩

end OsLabs.Bank
