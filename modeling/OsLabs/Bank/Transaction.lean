import Mathlib.Tactic

/-!
# Deposits and withdrawals

What the bank processes print about the account.
-/

namespace OsLabs.Bank

inductive Transaction
  | deposits (amount : ℤ)
  | withdraws (amount : ℤ)
  deriving DecidableEq

def Transaction.apply (localBalance : ℤ) : Transaction → ℤ
  | deposits amount => localBalance + amount
  | withdraws amount => localBalance - amount

def totalDeposits (printed : List Transaction) : ℤ :=
  (printed.map fun | .deposits amount => amount | .withdraws _ => 0).sum

def totalWithdrawals (printed : List Transaction) : ℤ :=
  (printed.map fun | .withdraws amount => amount | .deposits _ => 0).sum

theorem apply_totals (printed : List Transaction) (transaction : Transaction) :
    totalDeposits (printed ++ [transaction]) - totalWithdrawals (printed ++ [transaction]) =
      transaction.apply (totalDeposits printed - totalWithdrawals printed) := by
  cases transaction <;>
    simp only [totalDeposits, totalWithdrawals, Transaction.apply, List.map_append, List.map_cons,
      List.map_nil, List.sum_append, List.sum_cons, List.sum_nil] <;>
    omega

end OsLabs.Bank
