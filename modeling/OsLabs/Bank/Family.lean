import OsLabs.Bank.Transaction
import OsLabs.Lib.Semaphore

/-!
# The family's bank account

`shm_processes.c` with the semaphore: Dad, Mom and the students as processes that share
`*BankAccount`.  A round draws `r`, waits for the semaphore, copies the balance, decides on the
copy, writes the copy back if it changed, prints, and posts the semaphore.  What is printed as
deposited and withdrawn is kept as a record; `rand() % k` may be any number below `k`.
-/

namespace OsLabs.Bank

open OsLabs.Lib OsLabs.Lib.Monitor

/-- A process: the values of `r` before the semaphore, and what it may do in its critical
section with `r` and its copy of the balance. -/
structure Role where
  draws : List ℕ
  decide : ℕ → ℤ → List (Option Transaction)

def dearOldDadProcess : Role where
  draws := List.range 10
  decide r localBalance :=
    if r % 2 = 0 then
      if localBalance < 100 then
        (List.range 100).map fun amount : ℕ =>
          if amount % 2 = 0 then some (.deposits amount) else none
      else [none]
    else [none]

/-- Mom draws no `r`. -/
def lovableMomProcess : Role where
  draws := [0]
  decide _ localBalance :=
    if localBalance ≤ 100 then
      (List.range 125).map fun amount : ℕ => some (.deposits amount)
    else [none]

def poorStudentProcess : Role where
  draws := List.range 10
  decide r localBalance :=
    if r % 2 = 0 then
      (List.range 50).map fun need : ℕ =>
        if need ≤ localBalance then some (.withdraws need) else none
    else [none]

/-- The processes that `main` forks. -/
def role {numParents numStudents : ℕ} : Fin numParents ⊕ Fin numStudents → Role
  | .inl p =>
    if numParents = 1 then dearOldDadProcess
    else if p.val = 0 then dearOldDadProcess else lovableMomProcess
  | .inr _ => poorStudentProcess

structure Shared where
  bankAccount : ℤ
  /-- The value of the semaphore. -/
  mutex : ℕ
  /-- The transactions that have been printed. -/
  printed : List Transaction
  deriving DecidableEq

inductive Loc
  /-- The pause, the first message and the draw of `r`. -/
  | attempt
  | semWait (r : ℕ)
  /-- `int localBalance = *BankAccount`. -/
  | read (r : ℕ)
  | decide (r : ℕ) (localBalance : ℤ)
  /-- `*BankAccount = localBalance`. -/
  | write (transaction : Transaction) (localBalance : ℤ)
  | print (transaction : Transaction) (localBalance : ℤ)
  | semPost
  deriving DecidableEq

abbrev BankAction := Action Empty Empty Shared Loc

def roleCode (role : Role) : Loc → Shared → List BankAction
  | .attempt, d => role.draws.map fun r => .exec d (.semWait r)
  | .semWait r, d => if d.mutex > 0 then [.exec { d with mutex := d.mutex - 1 } (.read r)] else []
  | .read r, d => [.exec d (.decide r d.bankAccount)]
  | .decide r localBalance, d =>
    (role.decide r localBalance).map fun
      | some transaction => .exec d (.write transaction (transaction.apply localBalance))
      | none => .exec d .semPost
  | .write transaction localBalance, d =>
    [.exec { d with bankAccount := localBalance } (.print transaction localBalance)]
  | .print transaction _, d =>
    [.exec { d with printed := d.printed ++ [transaction] } .semPost]
  | .semPost, d => [.exec { d with mutex := d.mutex + 1 } .attempt]

def bank {Process : Type} (roles : Process → Role) :
    Program Process Empty Empty Shared fun _ => Loc where
  start _ := .attempt
  data := ⟨0, 1, []⟩
  code p := roleCode (roles p)
  spurious := false

/-- Between `sem_wait` and `sem_post`. -/
def Loc.Critical : Loc → Prop
  | read _ | decide _ _ | write _ _ | print _ _ | semPost => True
  | _ => False

instance Loc.decidableCritical : DecidablePred Loc.Critical
  | read _ | decide _ _ | write _ _ | print _ _ | semPost => inferInstanceAs (Decidable True)
  | attempt | semWait _ => inferInstanceAs (Decidable False)

/-! ### The decisions -/

/-- A balance from 0 to `limit` stays there. -/
def Role.KeepsWithin (role : Role) (limit : ℤ) : Prop :=
  ∀ r localBalance transaction, 0 ≤ localBalance → localBalance ≤ limit →
    some transaction ∈ role.decide r localBalance →
    0 ≤ transaction.apply localBalance ∧ transaction.apply localBalance ≤ limit

theorem dearOldDad_keepsWithin : dearOldDadProcess.KeepsWithin 224 := by
  intro r localBalance transaction hzero hlimit hmem
  simp only [dearOldDadProcess] at hmem
  split at hmem
  · split at hmem
    · rename_i hlow
      obtain ⟨amount, hamount, heq⟩ := List.mem_map.mp hmem
      have hrange := List.mem_range.mp hamount
      split at heq
      · obtain rfl := Option.some.inj heq
        simp only [Transaction.apply]
        omega
      · cases heq
    · cases List.mem_singleton.mp hmem
  · cases List.mem_singleton.mp hmem

theorem lovableMom_keepsWithin : lovableMomProcess.KeepsWithin 224 := by
  intro r localBalance transaction hzero hlimit hmem
  simp only [lovableMomProcess] at hmem
  split at hmem
  · rename_i hlow
    obtain ⟨amount, hamount, heq⟩ := List.mem_map.mp hmem
    have hrange := List.mem_range.mp hamount
    obtain rfl := Option.some.inj heq
    simp only [Transaction.apply]
    omega
  · cases List.mem_singleton.mp hmem

theorem poorStudent_keepsWithin : poorStudentProcess.KeepsWithin 224 := by
  intro r localBalance transaction hzero hlimit hmem
  simp only [poorStudentProcess] at hmem
  split at hmem
  · obtain ⟨need, hneed, heq⟩ := List.mem_map.mp hmem
    split at heq
    · obtain rfl := Option.some.inj heq
      simp only [Transaction.apply]
      omega
    · cases heq
  · cases List.mem_singleton.mp hmem

theorem role_keepsWithin {numParents numStudents : ℕ} (p : Fin numParents ⊕ Fin numStudents) :
    (role p).KeepsWithin 224 := by
  cases p with
  | inl p =>
    simp only [role]
    split
    · exact dearOldDad_keepsWithin
    · split
      · exact dearOldDad_keepsWithin
      · exact lovableMom_keepsWithin
  | inr s => exact poorStudent_keepsWithin

/-! ### The critical section -/

inductive RoleStatement (role : Role) (d : Shared) : Loc → BankAction → Prop
  | attempt {r : ℕ} : r ∈ role.draws → RoleStatement role d .attempt (.exec d (.semWait r))
  | semWait {r : ℕ} : 0 < d.mutex →
      RoleStatement role d (.semWait r) (.exec { d with mutex := d.mutex - 1 } (.read r))
  | read {r : ℕ} : RoleStatement role d (.read r) (.exec d (.decide r d.bankAccount))
  | change {r : ℕ} {localBalance : ℤ} {transaction : Transaction} :
      some transaction ∈ role.decide r localBalance →
      RoleStatement role d (.decide r localBalance)
        (.exec d (.write transaction (transaction.apply localBalance)))
  | noChange {r : ℕ} {localBalance : ℤ} : none ∈ role.decide r localBalance →
      RoleStatement role d (.decide r localBalance) (.exec d .semPost)
  | write {transaction : Transaction} {localBalance : ℤ} :
      RoleStatement role d (.write transaction localBalance)
        (.exec { d with bankAccount := localBalance } (.print transaction localBalance))
  | print {transaction : Transaction} {localBalance : ℤ} :
      RoleStatement role d (.print transaction localBalance)
        (.exec { d with printed := d.printed ++ [transaction] } .semPost)
  | semPost : RoleStatement role d .semPost (.exec { d with mutex := d.mutex + 1 } .attempt)

theorem roleStatement_of_mem {role : Role} {l : Loc} {d : Shared} {a : BankAction}
    (ha : a ∈ roleCode role l d) : RoleStatement role d l a := by
  cases l with
  | attempt =>
    obtain ⟨r, hr, rfl⟩ := List.mem_map.mp ha
    exact .attempt hr
  | semWait r =>
    rw [roleCode] at ha
    split at ha
    · rename_i hpos
      obtain rfl := List.mem_singleton.mp ha
      exact .semWait hpos
    · cases ha
  | decide r localBalance =>
    obtain ⟨outcome, houtcome, rfl⟩ := List.mem_map.mp ha
    cases outcome with
    | none => exact .noChange houtcome
    | some transaction => exact .change houtcome
  | _ =>
    obtain rfl := List.mem_singleton.mp ha
    constructor

variable {Process : Type} [DecidableEq Process] [Fintype Process] {roles : Process → Role}
  {limit : ℤ}

abbrev BankState (Process : Type) := State Process Empty Empty Shared fun _ => Loc

variable {s : BankState Process}

theorem critical_exclusive (h : (bank roles).machine.Reachable s) {p q : Process}
    (hp : (s.loc p).Critical) (hq : (s.loc q).Critical) : p = q := by
  refine semaphore_exclusive (P := bank roles) Shared.mutex (fun _ => Loc.Critical) rfl
    (fun _ => id) ?_ h hp hq
  intro p l d a ha
  cases roleStatement_of_mem ha with
  | semWait hpos => simp [Action.effect, Action.next, Loc.Critical, Nat.sub_add_cancel hpos]
  | _ => simp [Action.effect, Action.next, Loc.Critical]

def Within (limit : ℤ) (d : Shared) : Prop := 0 ≤ d.bankAccount ∧ d.bankAccount ≤ limit

/-- The balance is what the printed transactions amount to. -/
def Settled (limit : ℤ) (d : Shared) : Prop :=
  Within limit d ∧ d.bankAccount = totalDeposits d.printed - totalWithdrawals d.printed

/-- What a process in its critical section knows: its copy of the balance is current. -/
def Assertion (limit : ℤ) : Loc → Shared → Prop
  | .decide _ localBalance, d => Settled limit d ∧ localBalance = d.bankAccount
  | .write transaction localBalance, d => Settled limit d ∧
      localBalance = transaction.apply d.bankAccount ∧ 0 ≤ localBalance ∧ localBalance ≤ limit
  | .print transaction _, d => Within limit d ∧
      d.bankAccount = transaction.apply (totalDeposits d.printed - totalWithdrawals d.printed)
  | _, d => Settled limit d

theorem Assertion.within {l : Loc} {d : Shared} (h : Assertion limit l d) : Within limit d := by
  cases l with
  | decide r localBalance => exact h.1.1
  | write transaction localBalance => exact h.1.1
  | print transaction localBalance => exact h.1
  | _ => exact h.1

omit [DecidableEq Process] [Fintype Process] in
theorem bank_region (hlimit : 0 ≤ limit) (hroles : ∀ p, (roles p).KeepsWithin limit) :
    Region (bank roles) (fun _ => Loc.Critical) (Settled limit) fun _ => Assertion limit where
  start _ := id
  init := ⟨⟨le_refl 0, hlimit⟩, rfl⟩
  enter p l d a ha hout hin hsettled := by
    cases roleStatement_of_mem ha with
    | semWait hpos => exact hsettled
    | attempt hr => exact hin.elim
    | _ => exact absurd trivial hout
  stay p l d a ha hin hnext hassert := by
    cases roleStatement_of_mem ha with
    | read => exact ⟨hassert, rfl⟩
    | change hmem =>
      obtain ⟨hsettled, rfl⟩ := hassert
      exact ⟨hsettled, rfl, hroles p _ _ _ hsettled.1.1 hsettled.1.2 hmem⟩
    | noChange hmem => exact hassert.1
    | write =>
      obtain ⟨hsettled, hlocal, hwithin⟩ := hassert
      exact ⟨hwithin, hlocal.trans (congrArg (Transaction.apply · _) hsettled.2)⟩
    | print =>
      obtain ⟨hwithin, hbalance⟩ := hassert
      exact ⟨hwithin, hbalance.trans (apply_totals d.printed _).symm⟩
    | semPost => exact hnext.elim
    | attempt hr => exact hin.elim
    | semWait hpos => exact hin.elim
  leave p l d a ha hin hnext hassert := by
    cases roleStatement_of_mem ha with
    | semPost => exact hassert
    | attempt hr => exact hin.elim
    | semWait hpos => exact hin.elim
    | _ => exact absurd trivial hnext
  elsewhere p l d a ha hout hnext := by
    cases roleStatement_of_mem ha with
    | attempt hr => rfl
    | semWait hpos => exact absurd trivial hnext
    | _ => exact absurd trivial hout

theorem regionInv_of_reachable (hlimit : 0 ≤ limit) (hroles : ∀ p, (roles p).KeepsWithin limit)
    (h : (bank roles).machine.Reachable s) :
    RegionInv (fun _ => Loc.Critical) (Settled limit) (fun _ => Assertion limit) s :=
  (bank_region hlimit hroles).regionInv (fun _ hs _ _ => critical_exclusive hs) h

theorem within_of_reachable (hlimit : 0 ≤ limit) (hroles : ∀ p, (roles p).KeepsWithin limit)
    (h : (bank roles).machine.Reachable s) : Within limit s.data := by
  obtain ⟨hidle, hcritical⟩ := regionInv_of_reachable hlimit hroles h
  by_cases hsome : ∃ p, (s.loc p).Critical
  · obtain ⟨p, hp⟩ := hsome
    exact (hcritical p hp).within
  · exact (hidle fun p hp => hsome ⟨p, hp⟩).1

/-- **No lost update.**  For any parents and students and in every interleaving, the balance is
all deposits minus all withdrawals whenever no process is in its critical section, and it is
never below 0 or above 224. -/
theorem bankAccount_eq {numParents numStudents : ℕ}
    {s : BankState (Fin numParents ⊕ Fin numStudents)}
    (h : (bank role).machine.Reachable s) :
    ((∀ p, ¬ (s.loc p).Critical) →
      s.data.bankAccount = totalDeposits s.data.printed - totalWithdrawals s.data.printed) ∧
      0 ≤ s.data.bankAccount ∧ s.data.bankAccount ≤ 224 := by
  have hlimit : (0 : ℤ) ≤ 224 := by decide
  refine ⟨fun hidle => ?_, within_of_reachable hlimit role_keepsWithin h⟩
  exact ((regionInv_of_reachable hlimit role_keepsWithin h).1 hidle).2

/-- Dad deposits 98, and then the student withdraws 8. -/
def twoRounds : List ((Fin 1 ⊕ Fin 1) × ℕ × Option (Fin 1 ⊕ Fin 1)) :=
  let dad := .inl (Fin.last 0)
  let student := .inr (Fin.last 0)
  [(dad, 0, none), (dad, 0, none), (dad, 0, none), (dad, 98, none), (dad, 0, none),
    (dad, 0, none), (dad, 0, none), (student, 0, none), (student, 0, none), (student, 0, none),
    (student, 8, none), (student, 0, none), (student, 0, none), (student, 0, none)]

theorem bankAccount_eq_one_student :
    ∃ s : BankState (Fin 1 ⊕ Fin 1), (bank role).machine.Reachable s ∧
      s.data.printed = [.deposits 98, .withdraws 8] ∧
      ((∀ p, ¬ (s.loc p).Critical) →
        s.data.bankAccount = totalDeposits s.data.printed - totalWithdrawals s.data.printed) ∧
      0 ≤ s.data.bankAccount ∧ s.data.bankAccount ≤ 224 := by
  have hrun : (twoRounds.foldlM (bank role).next (bank role).machine.init).map
      (fun s => s.data.printed) = some [.deposits 98, .withdraws 8] := by decide +kernel
  obtain ⟨s, hs, hprinted⟩ := Option.map_eq_some_iff.mp hrun
  have hreach := reachable_of_choices hs
  exact ⟨s, hreach, hprinted, bankAccount_eq hreach⟩

end OsLabs.Bank
