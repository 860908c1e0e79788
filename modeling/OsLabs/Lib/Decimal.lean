import Mathlib.Tactic

/-!
# Decimal output

The characters that the conversion `%d` writes for an integer.
-/

namespace OsLabs.Lib

def decimal (z : ℤ) : List Char :=
  if z < 0 then '-' :: Nat.toDigits 10 z.natAbs else Nat.toDigits 10 z.natAbs

/-- The digits of a number do not start with a sign. -/
theorem toDigits_ne_cons_minus (n : ℕ) (l : List Char) : Nat.toDigits 10 n ≠ '-' :: l := by
  intro h
  have hmem : '-' ∈ Nat.toDigits 10 n := by
    rw [h]
    exact List.mem_cons_self
  have hdigit := Nat.isDigit_of_mem_toDigits (by decide) (by decide) hmem
  exact absurd hdigit (by decide)

theorem toDigits_ten_injective : Function.Injective (Nat.toDigits 10) := by
  intro m n h
  have hval := congrArg (Nat.ofDigitChars 10 · 0) h
  simpa only [Nat.ofDigitChars_ten_toDigits] using hval

theorem decimal_injective : Function.Injective decimal := by
  intro y z h
  unfold decimal at h
  by_cases hy : y < 0
  · rw [if_pos hy] at h
    by_cases hz : z < 0
    · rw [if_pos hz] at h
      have habs := toDigits_ten_injective (List.cons.inj h).2
      omega
    · rw [if_neg hz] at h
      exact absurd h.symm (toDigits_ne_cons_minus _ _)
  · rw [if_neg hy] at h
    by_cases hz : z < 0
    · rw [if_pos hz] at h
      exact absurd h (toDigits_ne_cons_minus _ _)
    · rw [if_neg hz] at h
      have habs := toDigits_ten_injective h
      omega

/-- A 32-bit integer takes at most eleven characters. -/
theorem length_decimal_le {z : ℤ} (hlow : -2 ^ 31 ≤ z) (hhigh : z < 2 ^ 31) :
    (decimal z).length ≤ 11 := by
  have hdigits : (Nat.toDigits 10 z.natAbs).length ≤ 10 := by
    apply (Nat.length_toDigits_le_iff (by decide) (by decide)).mpr
    omega
  unfold decimal
  split
  · rw [List.length_cons]
    omega
  · omega

/-- The number of characters that `%d` writes. -/
def decimalWidth (z : ℤ) : ℕ := (if z < 0 then 1 else 0) + (Nat.log 10 z.natAbs + 1)

theorem length_toDigits_ten (n : ℕ) : (Nat.toDigits 10 n).length = Nat.log 10 n + 1 := by
  refine le_antisymm ?_ ?_
  · rw [Nat.length_toDigits_le_iff (by decide) (Nat.succ_pos _)]
    exact Nat.lt_pow_succ_log_self (by decide) n
  · by_contra hshort
    have hpos : 0 < (Nat.toDigits 10 n).length := Nat.length_toDigits_pos
    have hle : (Nat.toDigits 10 n).length ≤ Nat.log 10 n := by omega
    have hlog : 0 < Nat.log 10 n := by omega
    rw [Nat.length_toDigits_le_iff (by decide) hlog] at hle
    have hne : n ≠ 0 := by
      intro hzero
      rw [hzero, Nat.log_zero_right] at hlog
      exact absurd hlog (lt_irrefl 0)
    exact absurd (Nat.pow_log_le_self 10 hne) (not_le.mpr hle)

theorem length_decimal (z : ℤ) : (decimal z).length = decimalWidth z := by
  unfold decimal decimalWidth
  split
  · rw [List.length_cons, length_toDigits_ten, Nat.add_comm]
  · rw [length_toDigits_ten, Nat.zero_add]

end OsLabs.Lib
