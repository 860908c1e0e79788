import OsLabs.Lib.SingleCpu

/-!
# The process table of the scheduling simulator

`ProcessType` of `process.h`.  An array `plist` of `n` processes is a function on `Fin n`,
and the `int` fields are integers.  The functions on them compute exactly; those that check that
each result stays within `int` are in `ClockRange` and `Main`, and `IntClock` compares the two.
-/

namespace OsLabs.SchedSim

open OsLabs.Lib

structure ProcessType where
  pid : ℤ
  bt : ℤ
  art : ℤ
  wt : ℤ
  tat : ℤ
  pri : ℤ
  deriving DecidableEq, Repr

/-- `INT_MAX` of `limits.h`. -/
def INT_MAX : ℤ := 2147483647

variable {n : ℕ}

/-- Arrival times as the jobs of a single-CPU schedule have them. -/
def arrival (plist : Fin n → ProcessType) (i : Fin n) : ℕ := (plist i).art.toNat

/-- Burst times as the jobs of a single-CPU schedule have them. -/
def burst (plist : Fin n → ProcessType) (i : Fin n) : ℕ := (plist i).bt.toNat

/-- The waiting time of a process in a schedule: completion minus burst minus arrival. -/
noncomputable def waitingTime (plist : Fin n → ProcessType) (σ : Schedule (Fin n))
    (i : Fin n) : ℤ :=
  completion σ i - (plist i).bt - (plist i).art

end OsLabs.SchedSim
