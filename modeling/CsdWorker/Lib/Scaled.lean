import Mathlib

/-! # Integers with a scale

`number / base ^ scale` as a rational, and when two such numbers are ordered as their integers are.
-/

namespace CsdWorker.Scaled

set_option autoImplicit false

def value (base : Nat) (number scale : Int) : ℚ := number / (base : ℚ) ^ scale

/-- The integers are ordered as the numbers they stand for. -/
structure SameOrder (base : Nat) (m r n s : Int) : Prop where
  lt_iff : m < n ↔ value base m r < value base n s
  eq_iff : m = n ↔ value base m r = value base n s

/-- `n` lies between `m` and what `m` becomes at a scale larger by `k`. -/
def Within (base k : Nat) (m n : Int) : Prop := min m (m * base ^ k) ≤ n ∧ n ≤ max m (m * base ^ k)

instance (base k : Nat) (m n : Int) : Decidable (Within base k m n) := inferInstanceAs (Decidable (_ ∧ _))

section Value
variable {base : Nat} {m n r s : Int}

@[simp] theorem value_scale_zero (base : Nat) (n : Int) : value base n 0 = n := by simp [value]

@[simp] theorem value_zero (base : Nat) (s : Int) : value base 0 s = 0 := by simp [value]

theorem value_add (base : Nat) (m n s : Int) : value base (m + n) s = value base m s + value base n s := by
  simp [value, add_div]

theorem value_int_mul (base : Nat) (c n s : Int) : value base (c * n) s = c * value base n s := by
  simp [value, mul_div_assoc]

theorem base_ne_zero (hBase : 1 < base) : (base : ℚ) ≠ 0 := by
  have hPos : (0 : ℚ) < base := by exact_mod_cast (by omega : 0 < base)
  exact hPos.ne'

theorem pow_pos_of_base (hBase : 1 < base) (s : Int) : (0 : ℚ) < (base : ℚ) ^ s := by
  have hPos : (0 : ℚ) < base := by exact_mod_cast (by omega : 0 < base)
  exact zpow_pos hPos s

theorem value_mul (hBase : 1 < base) (m r n s : Int) :
    value base (m * n) (r + s) = value base m r * value base n s := by
  rw [value, value, value, zpow_add₀ (base_ne_zero hBase), Int.cast_mul, mul_div_mul_comm]

theorem value_rescale (hBase : 1 < base) (n s : Int) (k : Nat) :
    value base (n * base ^ k) (s + k) = value base n s := by
  rw [value_mul hBase, value, value, Int.cast_pow, Int.cast_natCast, zpow_natCast,
    div_self (pow_ne_zero k (base_ne_zero hBase)), mul_one]

theorem value_eq_zero_iff (hBase : 1 < base) : value base n s = 0 ↔ n = 0 := by
  rw [value, div_eq_zero_iff, or_iff_left (pow_pos_of_base hBase s).ne', Int.cast_eq_zero]

/-- The scale shows unless the number is zero. -/
theorem value_eq_value_iff (hBase : 1 < base) : value base n r = value base n s ↔ n = 0 ∨ r = s := by
  have hPos : (0 : ℚ) < base := by exact_mod_cast (by omega : 0 < base)
  have hOne : (base : ℚ) ≠ 1 := by exact_mod_cast (by omega : base ≠ 1)
  rw [value, value, div_eq_div_iff (pow_pos_of_base hBase r).ne' (pow_pos_of_base hBase s).ne', mul_eq_mul_left_iff,
    (zpow_right_injective₀ hPos hOne).eq_iff, Int.cast_eq_zero, or_comm, @eq_comm _ r]

theorem value_lt_value_iff (hBase : 1 < base) : value base m s < value base n s ↔ m < n := by
  rw [value, value, div_lt_div_iff_of_pos_right (pow_pos_of_base hBase s), Int.cast_lt]

theorem value_inj (hBase : 1 < base) : value base m s = value base n s ↔ m = n := by
  rw [value, value, div_left_inj' (pow_pos_of_base hBase s).ne', Int.cast_inj]

end Value

section Order
variable {base : Nat} {m n r s : Int}

theorem SameOrder.symm (h : SameOrder base m r n s) : SameOrder base n s m r where
  lt_iff := by
    rw [← not_le, ← not_le, le_iff_lt_or_eq, le_iff_lt_or_eq, h.lt_iff, h.eq_iff]
  eq_iff := by rw [eq_comm, h.eq_iff, eq_comm]

theorem sameOrder_comm : SameOrder base m r n s ↔ SameOrder base n s m r := ⟨SameOrder.symm, SameOrder.symm⟩

/-- Multiplying one of two integers keeps their order only if the other is not passed over. -/
theorem mul_keeps_order_iff {c : Int} (hc : 1 < c) :
    (m < n ↔ m * c < n) ∧ (m = n ↔ m * c = n) ↔ m = 0 ∨ ¬ (min m (m * c) ≤ n ∧ n ≤ max m (m * c)) := by
  rcases lt_trichotomy m 0 with hm | rfl | hm
  · have hLess : m * c < m := by nlinarith
    omega
  · simp
  · have hMore : m < m * c := by nlinarith
    omega

theorem sameOrder_iff_of_le (hBase : 1 < base) (h : r ≤ s) :
    SameOrder base m r n s ↔ r = s ∨ m = 0 ∨ ¬ Within base (s - r).toNat m n := by
  obtain ⟨k, rfl⟩ := Int.le.dest h
  have hScale : (r + k - r).toNat = k := by omega
  have hSame : SameOrder base m r n (r + k) ↔ (m < n ↔ m * base ^ k < n) ∧ (m = n ↔ m * base ^ k = n) := by
    have hLt : m * base ^ k < n ↔ value base m r < value base n (r + k) := by
      rw [← value_lt_value_iff hBase, value_rescale hBase]
    have hEq : m * base ^ k = n ↔ value base m r = value base n (r + k) := by
      rw [← value_inj hBase, value_rescale hBase]
    rw [hLt, hEq]
    exact ⟨fun h => ⟨h.lt_iff, h.eq_iff⟩, fun h => ⟨h.1, h.2⟩⟩
  rw [hSame, hScale, Within]
  cases k with
  | zero => simp
  | succ k =>
    have hPow : (1 : Int) < base ^ (k + 1) := by exact_mod_cast Nat.one_lt_pow (Nat.succ_ne_zero k) hBase
    have hScales : ¬ r = r + (k + 1 : Nat) := by omega
    rw [mul_keeps_order_iff hPow, or_iff_right hScales]

end Order

end CsdWorker.Scaled
