import OsLabs.Lib.MachineInt

/-!
# Comparators for `qsort`

A comparator returns an `int`, and the sign of it stands for the order of the two elements.
`qsort` requires the signs to be consistent: antisymmetric and transitive.  A comparator that
subtracts the keys and lets the result wrap around has the signs of the order of the keys exactly
where no difference leaves the range of `int`.
-/

namespace OsLabs.Lib

variable {α : Type*}

/-- The order that the sign of a comparator's result stands for. -/
def outcome (comparer : α → α → ℤ) (x y : α) : Ordering := compare (comparer x y) 0

/-- The signs are those of the given order, for any two elements of the set. -/
def OrdersOn (comparer : α → α → ℤ) (order : α → α → Ordering) (S : Set α) : Prop :=
  ∀ x ∈ S, ∀ y ∈ S, outcome comparer x y = order x y

/-- The signs are antisymmetric and transitive on the set. -/
def ConsistentOn (comparer : α → α → ℤ) (S : Set α) : Prop :=
  Std.TransCmp fun x y : S => outcome comparer x y

theorem OrdersOn.consistentOn {comparer : α → α → ℤ} {order : α → α → Ordering} {S : Set α}
    [Std.TransCmp order] (h : OrdersOn comparer order S) : ConsistentOn comparer S where
  eq_swap {x y} := by
    rw [h x x.2 y y.2, h y y.2 x x.2]
    exact Std.OrientedCmp.eq_swap
  isLE_trans {x y z} := by
    rw [h x x.2 y y.2, h y y.2 z z.2, h x x.2 z z.2]
    exact Std.TransCmp.isLE_trans

/-- Three elements, each ordered before the next one, and the last one before the first. -/
theorem not_consistentOn_of_cycle {comparer : α → α → ℤ} {S : Set α} {x y z : α} (hx : x ∈ S)
    (hy : y ∈ S) (hz : z ∈ S) (hxy : comparer x y < 0) (hyz : comparer y z < 0)
    (hzx : comparer z x < 0) : ¬ ConsistentOn comparer S := by
  intro hconsistent
  have hle {u v : α} (h : comparer u v < 0) : (outcome comparer u v).isLE := by
    rw [outcome, Int.compare_eq_lt.mpr h]
    rfl
  have htrans : (outcome comparer x z).isLE :=
    hconsistent.isLE_trans (a := ⟨x, hx⟩) (b := ⟨y, hy⟩) (c := ⟨z, hz⟩) (hle hxy) (hle hyz)
  have hswap : outcome comparer x z = (outcome comparer z x).swap :=
    hconsistent.eq_swap (a := ⟨x, hx⟩) (b := ⟨z, hz⟩)
  have hback : outcome comparer z x = .lt := Int.compare_eq_lt.mpr hzx
  rw [hswap, hback] at htrans
  cases htrans

/-! ### Two keys and subtraction -/

variable (first second : α → ℤ)

/-- The larger first key in front, and for equal ones the smaller second key. -/
def keyOrder : α → α → Ordering :=
  compareLex (fun x y => compareOn first y x) (compareOn second)

/-- The comparator that subtracts the keys in `int`. -/
def subtractKeys (x y : α) : ℤ :=
  if first x ≠ first y then wrapInt (first y - first x) else wrapInt (second x - second y)

/-- The difference of the keys that decide between the two is an `int` whichever way it is taken. -/
def KeysWithin (x y : α) : Prop :=
  (first x ≠ first y → |first x - first y| ≤ 2147483647) ∧
    (first x = first y → |second x - second y| ≤ 2147483647)

theorem keyOrder_eq (x y : α) :
    keyOrder first second x y =
      if first x ≠ first y then compare (first y) (first x)
      else compare (second x) (second y) := by
  by_cases heq : first x = first y
  · rw [if_neg (not_not.mpr heq), keyOrder, compareLex, compareOn, heq,
      Int.compare_eq_eq.mpr rfl]
    rfl
  · rw [if_pos heq, keyOrder, compareLex, compareOn]
    cases hcmp : compare (first y) (first x) with
    | eq => exact absurd (Int.compare_eq_eq.mp hcmp).symm heq
    | lt => rfl
    | gt => rfl

/-- The sign of a difference that wraps around is wrong exactly when it wraps around. -/
theorem compare_wrapInt_sub_iff {x y : ℤ} (hx : InInt x) (hy : InInt y) :
    compare (wrapInt (x - y)) 0 = compare x y ↔ InInt (x - y) := by
  have hx' := hx
  have hy' := hy
  unfold InInt at hx' hy'
  constructor
  · intro hsame
    by_contra hout
    have hwrap : wrapInt (x - y) = x - y - 4294967296 ∧ y < x ∨
        wrapInt (x - y) = x - y + 4294967296 ∧ x < y := by
      unfold InInt at hout
      rw [wrapInt, Int.bmod_def]
      split <;> omega
    rcases hwrap with ⟨hwrap, hgt⟩ | ⟨hwrap, hlt⟩
    · rw [Int.compare_eq_gt.mpr hgt, Int.compare_eq_gt] at hsame
      omega
    · rw [Int.compare_eq_lt.mpr hlt, Int.compare_eq_lt] at hsame
      omega
  · intro hin
    rw [wrapInt_of_inInt hin]
    rcases lt_trichotomy x y with hlt | rfl | hgt
    · rw [Int.compare_eq_lt.mpr hlt, Int.compare_eq_lt]
      omega
    · rw [sub_self]
      exact (Int.compare_eq_eq.mpr rfl).trans (Int.compare_eq_eq.mpr rfl).symm
    · rw [Int.compare_eq_gt.mpr hgt, Int.compare_eq_gt]
      omega

variable {first second} {S : Set α}

theorem outcome_subtractKeys_iff {x y : α} (hx : InInt (first x) ∧ InInt (second x))
    (hy : InInt (first y) ∧ InInt (second y)) :
    outcome (subtractKeys first second) x y = keyOrder first second x y ↔
      (first x ≠ first y → InInt (first y - first x)) ∧
        (first x = first y → InInt (second x - second y)) := by
  rw [keyOrder_eq, outcome, subtractKeys]
  by_cases heq : first x = first y
  · rw [if_neg (not_not.mpr heq), if_neg (not_not.mpr heq), compare_wrapInt_sub_iff hx.2 hy.2]
    exact ⟨fun h => ⟨fun hne => absurd heq hne, fun _ => h⟩, fun h => h.2 heq⟩
  · rw [if_pos heq, if_pos heq, compare_wrapInt_sub_iff hy.1 hx.1]
    exact ⟨fun h => ⟨fun _ => h, fun heq' => absurd heq' heq⟩, fun h => h.1 heq⟩

/-- **Subtraction as a comparison.**  On a set of elements with `int` keys the comparator has the
signs of the order of the keys, and is consistent, if and only if no two elements are too far
apart in the keys that decide between them. -/
theorem subtractKeys_ordersOn_iff (hS : ∀ x ∈ S, InInt (first x) ∧ InInt (second x)) :
    OrdersOn (subtractKeys first second) (keyOrder first second) S ∧
        ConsistentOn (subtractKeys first second) S ↔
      ∀ x ∈ S, ∀ y ∈ S, KeysWithin first second x y := by
  constructor
  · intro ⟨horders, _⟩ x hx y hy
    have hxy := (outcome_subtractKeys_iff (hS x hx) (hS y hy)).mp (horders x hx y hy)
    have hyx := (outcome_subtractKeys_iff (hS y hy) (hS x hx)).mp (horders y hy x hx)
    refine ⟨fun hne => ?_, fun heq => ?_⟩
    · have h₁ := (hxy.1 hne).2
      have h₂ := (hyx.1 hne.symm).2
      rw [abs_le]
      constructor <;> omega
    · have h₁ := (hxy.2 heq).2
      have h₂ := (hyx.2 heq.symm).2
      rw [abs_le]
      constructor <;> omega
  · intro hwithin
    have horders : OrdersOn (subtractKeys first second) (keyOrder first second) S := by
      intro x hx y hy
      obtain ⟨hfirst, hsecond⟩ := hwithin x hx y hy
      refine (outcome_subtractKeys_iff (hS x hx) (hS y hy)).mpr ⟨fun hne => ?_, fun heq => ?_⟩
      · obtain ⟨hlow, hhigh⟩ := abs_le.mp (hfirst hne)
        constructor <;> omega
      · obtain ⟨hlow, hhigh⟩ := abs_le.mp (hsecond heq)
        constructor <;> omega
    have htrans : Std.TransCmp (keyOrder first second) := by
      unfold keyOrder
      infer_instance
    exact ⟨horders, horders.consistentOn⟩

end OsLabs.Lib
