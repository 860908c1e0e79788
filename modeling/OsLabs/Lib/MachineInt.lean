import Mathlib.Tactic

/-!
# 32-bit `int` arithmetic

The values of an `int` are a range of the integers.  `wrapInt` is what a register holds of an
integer result; within the range it changes nothing.  `addInt` and `subInt` are the checked
operations: a computation made of them has a value exactly when none of its steps overflows.
-/

namespace OsLabs.Lib

/-- The range of a 32-bit `int`. -/
def InInt (x : ℤ) : Prop := -2147483648 ≤ x ∧ x ≤ 2147483647

instance decidableInInt : DecidablePred InInt := fun _ => inferInstanceAs (Decidable (_ ∧ _))

/-- Two's complement wrap-around. -/
def wrapInt (x : ℤ) : ℤ := x.bmod 4294967296

theorem wrapInt_of_inInt {x : ℤ} (h : InInt x) : wrapInt x = x := by
  apply Int.bmod_eq_of_le
  · exact h.1
  · show x < 2147483648
    have := h.2
    omega

/-- The value of an `int` expression, which has none where it overflows. -/
def checkInt (x : ℤ) : Option ℤ := if InInt x then some x else none

def addInt (x y : ℤ) : Option ℤ := checkInt (x + y)

def subInt (x y : ℤ) : Option ℤ := checkInt (x - y)

theorem addInt_of_inInt {x y : ℤ} (h : InInt (x + y)) : addInt x y = some (x + y) :=
  if_pos h

theorem subInt_of_inInt {x y : ℤ} (h : InInt (x - y)) : subInt x y = some (x - y) :=
  if_pos h

end OsLabs.Lib
