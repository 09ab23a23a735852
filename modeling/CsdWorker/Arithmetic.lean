import CsdWorker.Lib.Scaled
import CsdWorker.RawDataHandler

/-! # Sums, differences and products of numbers

`calcul_plus_operation`, `calcul_minus_operation` and `calcul_multiple_operation` on values of the types `INT32`,
`INT64` and `DECIMAL`. An operand is given by its type, the member the type selects and `real_`; its other
members may hold anything.
-/

namespace CsdWorker

open Endian

set_option autoImplicit false

inductive NumberKind where
  | int32 | int64 | decimal
  deriving DecidableEq, Repr

def NumberKind.type : NumberKind → KetiValueType
  | .int32 => .int32
  | .int64 => .int64
  | .decimal => .decimal

theorem NumberKind.type_inj {a b : NumberKind} (h : a.type = b.type) : a = b := by
  cases a <;> cases b <;> first | rfl | cases h

theorem NumberKind.type_ne_string (a : NumberKind) : a.type ≠ .string := by
  cases a <;> decide

structure Number where
  kind : NumberKind
  number : Int
  real : Int
  deriving DecidableEq, Repr

namespace Number

def scale (x : Number) : Int := if x.kind = .decimal then x.real else 0

def value (x : Number) : ℚ := Scaled.value 100 x.number x.scale

/-- What is added to a number if its scale is dropped. -/
def excess (x : Number) : ℚ := x.number - x.value

end Number

def KValue.number? (v : KValue) : Option Number :=
  match v.type_ with
  | .int32 => some ⟨.int32, v.int_, v.real_⟩
  | .int64 => some ⟨.int64, v.int64_, v.real_⟩
  | .decimal => some ⟨.decimal, v.int64_, v.real_⟩
  | _ => none

/-- The members that the type does not select hold `junk`. -/
def Number.toKValue (x : Number) (junk : Int) : KValue :=
  match x.kind with
  | .int32 => { KValue.zero with type_ := .int32, int_ := x.number, int64_ := junk, real_ := x.real }
  | .int64 => { KValue.zero with type_ := .int64, int_ := junk, int64_ := x.number, real_ := x.real }
  | .decimal => { KValue.zero with type_ := .decimal, int_ := junk, int64_ := x.number, real_ := x.real }

section Members
variable {v : KValue} {x : Number}

theorem number?_toKValue (x : Number) (junk : Int) : (x.toKValue junk).number? = some x := by
  obtain ⟨kind, number, real⟩ := x
  cases kind <;> rfl

theorem members_of_number? (h : v.number? = some x) :
    v.type_ = x.kind.type ∧ v.real_ = x.real ∧ (if x.kind = .int32 then v.int_ else v.int64_) = x.number := by
  rw [KValue.number?] at h
  split at h
  · rename_i hType
    cases h
    exact ⟨hType, rfl, rfl⟩
  · rename_i hType
    cases h
    exact ⟨hType, rfl, rfl⟩
  · rename_i hType
    cases h
    exact ⟨hType, rfl, rfl⟩
  · cases h

theorem int_of_number? (h : v.number? = some x) (hKind : x.kind = .int32) : v.int_ = x.number := by
  rw [← (members_of_number? h).2.2, if_pos hKind]

theorem int64_of_number? (h : v.number? = some x) (hKind : x.kind ≠ .int32) : v.int64_ = x.number := by
  rw [← (members_of_number? h).2.2, if_neg hKind]

theorem type_eq_iff (h : v.number? = some x) (kind : NumberKind) : v.type_ = kind.type ↔ x.kind = kind := by
  rw [(members_of_number? h).1]
  cases x.kind <;> cases kind <;> decide

/-- A property of two values that depends on their numbers only. -/
theorem forall_operands_iff {R : KValue → KValue → Prop} {P : Prop} {x y : Number}
    (h : ∀ lv rv : KValue, lv.number? = some x → rv.number? = some y → (R lv rv ↔ P)) :
    (∀ lv rv : KValue, lv.number? = some x → rv.number? = some y → R lv rv) ↔ P := by
  have hLeft := number?_toKValue x 0
  have hRight := number?_toKValue y 0
  constructor
  · intro hAll
    exact (h _ _ hLeft hRight).mp (hAll _ _ hLeft hRight)
  · intro hP lv rv hLeft hRight
    exact (h lv rv hLeft hRight).mpr hP

end Members

section Sum

/-- Every operation on signed integers, with its width in bytes. -/
def sumSteps (op : Int → Int → Int) (lv rv : KValue) : List (Nat × Int) :=
  match lv.type_ with
  | .int32 =>
    if rv.type_ = .decimal then
      [(4, powBase rv.real_), (4, lv.int_ * powBase rv.real_), (8, op (lv.int_ * powBase rv.real_) rv.int64_)]
    else [(4, op lv.int_ rv.int_)]
  | .int64 | .decimal => [(8, op lv.int64_ rv.int64_)]
  | _ => []

def sumNumber (op : Int → Int → Int) (lv rv : KValue) : Option Number :=
  match lv.type_ with
  | .int32 =>
    if rv.type_ = .decimal then
      some ⟨.decimal, wrap 8 (op (wrap 4 (lv.int_ * powBase rv.real_)) rv.int64_), rv.real_⟩
    else some ⟨.int32, wrap 4 (op lv.int_ rv.int_), 0⟩
  | .int64 => some ⟨.int64, wrap 8 (op lv.int64_ rv.int64_), 0⟩
  | .decimal => some ⟨.decimal, wrap 8 (op lv.int64_ rv.int64_), 0⟩
  | _ => none

/-- Nothing overflows, and `answer` denotes the exact result. -/
def Exact (steps : List (Nat × Int)) (answer : Option Number) (result : ℚ) : Prop :=
  (∀ step ∈ steps, Fits step.1 step.2) ∧ answer.map Number.value = some result

def PlusExact (x y : Number) : Prop :=
  ∀ (u lv rv : KValue), lv.number? = some x → rv.number? = some y →
    Exact (sumSteps (· + ·) lv rv) (calculPlusOperation u lv rv).number? (x.value + y.value)

def MinusExact (x y : Number) : Prop :=
  ∀ (u lv rv : KValue), lv.number? = some x → rv.number? = some y →
    Exact (sumSteps (· - ·) lv rv) (calculMinusOperation u lv rv).number? (x.value - y.value)

/-- The condition on `x + y` for `sign = 1` and on `x - y` for `sign = -1`. -/
def SumKept (sign : Int) (x y : Number) : Prop :=
  if x.kind = .int32 then
    if y.kind = .int32 then Fits 4 (x.number + sign * y.number)
    else if y.kind = .decimal then
      Fits 4 (powBase y.real) ∧ Fits 4 (x.number * powBase y.real) ∧
        Fits 8 (x.number * powBase y.real + sign * y.number) ∧ (0 ≤ y.real ∨ x.number = 0)
    else False
  else if y.kind = .int32 then False
  else Fits 8 (x.number + sign * y.number) ∧ x.excess + sign * y.excess = 0

theorem number?_calculPlusOperation {lv : KValue} {x : Number} (u rv : KValue) (h : lv.number? = some x) :
    (calculPlusOperation u lv rv).number? = sumNumber (· + ·) lv rv := by
  rw [calculPlusOperation, sumNumber]
  cases hType : lv.type_ with
  | int32 => by_cases hRight : rv.type_ = .decimal <;> simp [hRight, KValue.number?, KValue.fresh]
  | int64 => rfl
  | decimal => rfl
  | _ => simp [KValue.number?, hType] at h

theorem number?_calculMinusOperation {lv : KValue} {x : Number} (u rv : KValue) (h : lv.number? = some x) :
    (calculMinusOperation u lv rv).number? = sumNumber (· - ·) lv rv := by
  rw [calculMinusOperation, sumNumber]
  cases hType : lv.type_ with
  | int32 => by_cases hRight : rv.type_ = .decimal <;> simp [hRight, KValue.number?, KValue.fresh]
  | int64 => rfl
  | decimal => rfl
  | _ => simp [KValue.number?, hType] at h

/-- Both operations at once: `op a b` is `a + sign * b`. -/
def SumExact (op : Int → Int → Int) (sign : Int) (x y : Number) : Prop :=
  ∀ lv rv : KValue, lv.number? = some x → rv.number? = some y →
    Exact (sumSteps op lv rv) (sumNumber op lv rv) (x.value + sign * y.value)

theorem exact_some_iff {steps : List (Nat × Int)} {answer : Number} {result : ℚ} :
    Exact steps (some answer) result ↔ (∀ step ∈ steps, Fits step.1 step.2) ∧ answer.value = result := by
  rw [Exact, Option.map_some, Option.some_inj]

theorem value_of_scale_zero {x : Number} (h : x.scale = 0) : x.value = x.number := by
  rw [Number.value, h, Scaled.value_scale_zero]

theorem value_of_not_decimal {x : Number} (h : x.kind ≠ .decimal) : x.value = x.number :=
  value_of_scale_zero (if_neg h)

theorem value_of_decimal {x : Number} (h : x.kind = .decimal) : x.value = Scaled.value 100 x.number x.real := by
  rw [Number.value, Number.scale, if_pos h]

theorem value_unscaled (kind : NumberKind) (number : Int) : (Number.mk kind number 0).value = number :=
  value_of_scale_zero (ite_self _)

/-- Rescaling an integer to a decimal's scale is exact for every scale but a negative one. -/
theorem value_mul_powBase (n real : Int) : Scaled.value 100 (n * powBase real) real = n ↔ 0 ≤ real ∨ n = 0 := by
  rw [powBase]
  split
  · rename_i hNegative
    rw [Int.mul_zero, Scaled.value_zero, eq_comm, Int.cast_eq_zero, or_iff_right (not_le.mpr hNegative)]
  · rename_i hNonneg
    obtain ⟨k, rfl⟩ := Int.eq_ofNat_of_zero_le (not_lt.mp hNonneg)
    have hScale := Scaled.value_rescale (show 1 < 100 by decide) n 0 k
    rw [Int.zero_add, Scaled.value_scale_zero] at hScale
    exact iff_of_true hScale (Or.inl (Int.natCast_nonneg k))

section Cases
variable {op : Int → Int → Int} {sign : Int} {x y : Number} {lv rv : KValue} {result : ℚ}

theorem exact_sum_narrow (hLeft : lv.number? = some x) (hx : x.kind = .int32) (hRight : rv.type_ ≠ .decimal) :
    Exact (sumSteps op lv rv) (sumNumber op lv rv) result ↔
      Fits 4 (op x.number rv.int_) ∧ (op x.number rv.int_ : ℚ) = result := by
  have hType : lv.type_ = .int32 := (type_eq_iff hLeft .int32).mpr hx
  simp only [sumSteps, sumNumber, hType, if_neg hRight, exact_some_iff, List.forall_mem_singleton,
    int_of_number? hLeft hx, value_unscaled]
  exact and_congr_right fun hFits => by rw [wrap_of_fits hFits]

theorem exact_sum_wide (hLeft : lv.number? = some x) (hx : x.kind ≠ .int32) :
    Exact (sumSteps op lv rv) (sumNumber op lv rv) result ↔
      Fits 8 (op x.number rv.int64_) ∧ (op x.number rv.int64_ : ℚ) = result := by
  have hInt := int64_of_number? hLeft hx
  have hType := (members_of_number? hLeft).1
  have hSteps : sumSteps op lv rv = [(8, op x.number rv.int64_)] ∧
      sumNumber op lv rv = some ⟨x.kind, wrap 8 (op x.number rv.int64_), 0⟩ := by
    rw [sumSteps, sumNumber, hType, hInt]
    cases hKind : x.kind with
    | int32 => exact absurd hKind hx
    | int64 => exact ⟨rfl, rfl⟩
    | decimal => exact ⟨rfl, rfl⟩
  rw [hSteps.1, hSteps.2, exact_some_iff, List.forall_mem_singleton, value_unscaled]
  exact and_congr_right fun hFits => by rw [wrap_of_fits hFits]

theorem exact_sum_rescaled (hLeft : lv.number? = some x) (hx : x.kind = .int32) (hRight : rv.number? = some y)
    (hy : y.kind = .decimal) :
    Exact (sumSteps op lv rv) (sumNumber op lv rv) result ↔
      Fits 4 (powBase y.real) ∧ Fits 4 (x.number * powBase y.real) ∧ Fits 8 (op (x.number * powBase y.real) y.number) ∧
        Scaled.value 100 (op (x.number * powBase y.real) y.number) y.real = result := by
  have hType : lv.type_ = .int32 := (type_eq_iff hLeft .int32).mpr hx
  have hDecimal : rv.type_ = .decimal := (type_eq_iff hRight .decimal).mpr hy
  have hInt64 := int64_of_number? hRight (by rw [hy]; decide)
  simp only [sumSteps, sumNumber, hType, if_pos hDecimal, exact_some_iff, List.forall_mem_cons, int_of_number? hLeft hx,
    hInt64, (members_of_number? hRight).2.1, List.not_mem_nil, false_implies, implies_true, and_true, and_assoc]
  refine and_congr_right fun _ => and_congr_right fun hProduct => and_congr_right fun hSum => ?_
  rw [wrap_of_fits hProduct, wrap_of_fits hSum]
  rfl

theorem sumExact_rescaled_iff (hOp : ∀ a b, op a b = a + sign * b) (hx : x.kind = .int32) (hy : y.kind = .decimal) :
    SumExact op sign x y ↔
      Fits 4 (powBase y.real) ∧ Fits 4 (x.number * powBase y.real) ∧
        Fits 8 (x.number * powBase y.real + sign * y.number) ∧ (0 ≤ y.real ∨ x.number = 0) := by
  have hLeftValue := value_of_not_decimal (x := x) (by rw [hx]; decide)
  have hValue : Scaled.value 100 (x.number * powBase y.real + sign * y.number) y.real = x.value + sign * y.value ↔
      0 ≤ y.real ∨ x.number = 0 := by
    rw [Scaled.value_add, Scaled.value_int_mul 100 sign, hLeftValue, value_of_decimal hy, add_left_inj,
      value_mul_powBase]
  apply forall_operands_iff
  intro lv rv hLeft hRight
  rw [exact_sum_rescaled hLeft hx hRight hy, hOp, hValue]

theorem sumExact_narrow_iff (hOp : ∀ a b, op a b = a + sign * b) (hx : x.kind = .int32) (hy : y.kind = .int32) :
    SumExact op sign x y ↔ Fits 4 (x.number + sign * y.number) := by
  have hNarrow : y.kind ≠ .decimal := by rw [hy]; decide
  have hResult : ((x.number + sign * y.number : Int) : ℚ) = x.value + sign * y.value := by
    rw [value_of_not_decimal (x := x) (by rw [hx]; decide), value_of_not_decimal hNarrow]
    push_cast
    rfl
  apply forall_operands_iff
  intro lv rv hLeft hRight
  rw [exact_sum_narrow hLeft hx (mt (type_eq_iff hRight .decimal).mp hNarrow), int_of_number? hRight hy, hOp]
  exact and_iff_left hResult

theorem sumExact_wide_iff (hOp : ∀ a b, op a b = a + sign * b) (hx : x.kind ≠ .int32) (hy : y.kind ≠ .int32) :
    SumExact op sign x y ↔ Fits 8 (x.number + sign * y.number) ∧ x.excess + sign * y.excess = 0 := by
  have hResult : ((x.number + sign * y.number : Int) : ℚ) = x.value + sign * y.value ↔
      x.excess + sign * y.excess = 0 := by
    rw [Number.excess, Number.excess, ← sub_eq_zero]
    push_cast
    ring_nf
  apply forall_operands_iff
  intro lv rv hLeft hRight
  rw [exact_sum_wide hLeft hx, int64_of_number? hRight hy, hOp, hResult]

/-- A member that the right operand's type does not select would decide the result. -/
theorem not_forall_junk (hSign : sign ≠ 0) (n : Int) (result : ℚ) :
    ¬ ∀ junk : Int, ((n + sign * junk : Int) : ℚ) = result := by
  intro h
  have hTwo := (h 0).trans (h 1).symm
  rw [Int.cast_inj] at hTwo
  omega

theorem not_sumExact_int64 (hSign : sign ≠ 0) (hOp : ∀ a b, op a b = a + sign * b) (hx : x.kind = .int32)
    (hy : y.kind = .int64) : ¬ SumExact op sign x y := by
  intro h
  refine not_forall_junk hSign x.number (x.value + sign * y.value) fun junk => ?_
  have hType : (y.toKValue junk).type_ ≠ .decimal := by
    rw [(members_of_number? (number?_toKValue y junk)).1, hy]
    decide
  have hExact := h _ _ (number?_toKValue x 0) (number?_toKValue y junk)
  rw [exact_sum_narrow (number?_toKValue x 0) hx hType, hOp] at hExact
  simpa only [Number.toKValue, hy] using hExact.2

theorem not_sumExact_int32 (hSign : sign ≠ 0) (hOp : ∀ a b, op a b = a + sign * b) (hx : x.kind ≠ .int32)
    (hy : y.kind = .int32) : ¬ SumExact op sign x y := by
  intro h
  refine not_forall_junk hSign x.number (x.value + sign * y.value) fun junk => ?_
  have hExact := h _ _ (number?_toKValue x 0) (number?_toKValue y junk)
  rw [exact_sum_wide (number?_toKValue x 0) hx, hOp] at hExact
  simpa only [Number.toKValue, hy] using hExact.2

theorem sumExact_iff_sumKept (hSign : sign ≠ 0) (hOp : ∀ a b, op a b = a + sign * b) :
    SumExact op sign x y ↔ SumKept sign x y := by
  rw [SumKept]
  by_cases hx : x.kind = .int32
  · rw [if_pos hx]
    cases hy : y.kind with
    | int32 => exact sumExact_narrow_iff hOp hx hy
    | int64 => exact iff_of_false (not_sumExact_int64 hSign hOp hx hy) not_false
    | decimal => exact sumExact_rescaled_iff hOp hx hy
  · rw [if_neg hx]
    by_cases hy : y.kind = .int32
    · rw [if_pos hy]
      exact iff_of_false (not_sumExact_int32 hSign hOp hx hy) not_false
    · rw [if_neg hy]
      exact sumExact_wide_iff hOp hx hy

end Cases

theorem forall_exact_iff_sumKept {op : Int → Int → Int} {f : KValue → KValue → KValue → KValue} {sign : Int}
    {x y : Number} (hSign : sign ≠ 0) (hOp : ∀ a b, op a b = a + sign * b)
    (hf : ∀ {lv : KValue} {x : Number} (u rv : KValue), lv.number? = some x →
      (f u lv rv).number? = sumNumber op lv rv) :
    (∀ u lv rv : KValue, lv.number? = some x → rv.number? = some y →
      Exact (sumSteps op lv rv) (f u lv rv).number? (x.value + sign * y.value)) ↔ SumKept sign x y := by
  rw [← sumExact_iff_sumKept hSign hOp]
  constructor
  · intro h lv rv hLeft hRight
    rw [← hf KValue.zero rv hLeft]
    exact h KValue.zero lv rv hLeft hRight
  · intro h u lv rv hLeft hRight
    rw [hf u rv hLeft]
    exact h lv rv hLeft hRight

/-- When the exact sum is returned, and when the exact difference is. -/
theorem plusExact_iff_and_minusExact_iff (x y : Number) :
    (PlusExact x y ↔ SumKept 1 x y) ∧ (MinusExact x y ↔ SumKept (-1) x y) := by
  have hPlus : x.value + y.value = x.value + (1 : Int) * y.value := by push_cast; ring
  have hMinus : x.value - y.value = x.value + (-1 : Int) * y.value := by push_cast; ring
  constructor
  · rw [PlusExact, hPlus]
    exact forall_exact_iff_sumKept (by decide) (fun a b => by ring) number?_calculPlusOperation
  · rw [MinusExact, hMinus]
    exact forall_exact_iff_sumKept (by decide) (fun a b => by ring) number?_calculMinusOperation

/-- 1.00 + 2.00 is returned as the decimal 300 without a scale. -/
theorem sum_of_prices_unscaled :
    (calculPlusOperation KValue.zero (Number.toKValue ⟨.decimal, 100, 1⟩ 0)
      (Number.toKValue ⟨.decimal, 200, 1⟩ 0)).number? =
        some ⟨.decimal, 300, 0⟩ ∧
      ¬ PlusExact ⟨.decimal, 100, 1⟩ ⟨.decimal, 200, 1⟩ := by
  have hSum : (calculPlusOperation KValue.zero (Number.toKValue ⟨.decimal, 100, 1⟩ 0)
      (Number.toKValue ⟨.decimal, 200, 1⟩ 0)).number? = some ⟨.decimal, 300, 0⟩ := by decide
  refine ⟨hSum, fun h => ?_⟩
  have hValue := (h KValue.zero _ _ (number?_toKValue _ 0) (number?_toKValue _ 0)).2
  rw [hSum, Option.map_some, Option.some_inj] at hValue
  norm_num [Number.value, Number.scale, Scaled.value] at hValue

end Sum

section Product

def productSteps (lv rv : KValue) : List (Nat × Int) :=
  match lv.type_ with
  | .int32 => [(4, lv.int_ * rv.int_)]
  | .int64 => [(8, lv.int64_ * rv.int64_)]
  | .decimal =>
    if rv.type_ = .int32 then [(8, lv.int64_ * rv.int_)]
    else [(8, lv.int64_ * rv.int64_), (4, lv.real_ + rv.real_)]
  | _ => []

def ProductExact (x y : Number) : Prop :=
  ∀ (u lv rv : KValue), lv.number? = some x → rv.number? = some y →
    Exact (productSteps lv rv) (calculMultipleOperation u lv rv).number? (x.value * y.value)

def ProductKept (x y : Number) : Prop :=
  match x.kind with
  | .int32 => if y.kind = .int32 then Fits 4 (x.number * y.number) else x.number = 0
  | .int64 =>
    if y.kind = .int32 then x.number = 0
    else Fits 8 (x.number * y.number) ∧ (x.number * y.number = 0 ∨ y.scale = 0)
  | .decimal =>
    if y.kind = .int32 then Fits 8 (x.number * y.number)
    else Fits 8 (x.number * y.number) ∧ Fits 4 (x.real + y.real) ∧ (x.number * y.number = 0 ∨ y.real = y.scale)

section Cases
variable {x y : Number} {lv rv : KValue} {result : ℚ}

theorem exact_product_int32 (u rv : KValue) (hLeft : lv.number? = some x) (hx : x.kind = .int32) :
    Exact (productSteps lv rv) (calculMultipleOperation u lv rv).number? result ↔
      Fits 4 (x.number * rv.int_) ∧ ((x.number * rv.int_ : Int) : ℚ) = result := by
  have hType : lv.type_ = .int32 := (type_eq_iff hLeft .int32).mpr hx
  have hNumber : (calculMultipleOperation u lv rv).number? = some ⟨.int32, wrap 4 (x.number * rv.int_), 0⟩ := by
    simp only [calculMultipleOperation, KValue.number?, KValue.fresh, hType, int_of_number? hLeft hx]
  rw [hNumber, exact_some_iff, value_unscaled]
  simp only [productSteps, hType, int_of_number? hLeft hx, List.forall_mem_singleton]
  exact and_congr_right fun hFits => by rw [wrap_of_fits hFits]

theorem exact_product_int64 (u rv : KValue) (hLeft : lv.number? = some x) (hx : x.kind = .int64) :
    Exact (productSteps lv rv) (calculMultipleOperation u lv rv).number? result ↔
      Fits 8 (x.number * rv.int64_) ∧ ((x.number * rv.int64_ : Int) : ℚ) = result := by
  have hType : lv.type_ = .int64 := (type_eq_iff hLeft .int64).mpr hx
  have hInt := int64_of_number? hLeft (by rw [hx]; decide)
  have hNumber : (calculMultipleOperation u lv rv).number? = some ⟨.int64, wrap 8 (x.number * rv.int64_), 0⟩ := by
    simp only [calculMultipleOperation, KValue.number?, KValue.fresh, hType, hInt]
  rw [hNumber, exact_some_iff, value_unscaled]
  simp only [productSteps, hType, hInt, List.forall_mem_singleton]
  exact and_congr_right fun hFits => by rw [wrap_of_fits hFits]

theorem exact_product_decimal_int32 (u : KValue) (hLeft : lv.number? = some x) (hx : x.kind = .decimal)
    (hRight : rv.number? = some y) (hy : y.kind = .int32) :
    Exact (productSteps lv rv) (calculMultipleOperation u lv rv).number? (x.value * y.value) ↔
      Fits 8 (x.number * y.number) := by
  have hType : lv.type_ = .decimal := (type_eq_iff hLeft .decimal).mpr hx
  have hRightType : rv.type_ = .int32 := (type_eq_iff hRight .int32).mpr hy
  have hInt := int64_of_number? hLeft (by rw [hx]; decide)
  have hNumber : (calculMultipleOperation u lv rv).number? = some ⟨.decimal, wrap 8 (x.number * y.number), x.real⟩ := by
    simp only [calculMultipleOperation, KValue.number?, KValue.fresh, hType, hRightType, if_true, hInt,
      int_of_number? hRight hy, (members_of_number? hLeft).2.1]
  have hValue : (Number.mk .decimal (x.number * y.number) x.real).value = x.value * y.value := by
    rw [value_of_not_decimal (x := y) (by rw [hy]; decide), value_of_decimal hx, value_of_decimal rfl, Int.mul_comm,
      Scaled.value_int_mul, mul_comm]
  rw [hNumber, exact_some_iff]
  simp only [productSteps, hType, hRightType, if_true, hInt, int_of_number? hRight hy, List.forall_mem_singleton]
  exact ⟨And.left, fun hFits => ⟨hFits, by rw [wrap_of_fits hFits, hValue]⟩⟩

/-- The result takes the right operand's `real_` whatever the operand's type is. -/
theorem value_mul_eq_iff (hx : x.kind = .decimal) :
    (Number.mk .decimal (x.number * y.number) (x.real + y.real)).value = x.value * y.value ↔
      x.number * y.number = 0 ∨ y.real = y.scale := by
  have hBase : 1 < 100 := by decide
  rw [value_of_decimal rfl, value_of_decimal hx, Number.value]
  dsimp only
  rw [Scaled.value_mul hBase, mul_eq_mul_left_iff, Scaled.value_eq_value_iff hBase, Scaled.value_eq_zero_iff hBase,
    Int.mul_eq_zero]
  tauto

theorem exact_product_decimal_wide (u : KValue) (hLeft : lv.number? = some x) (hx : x.kind = .decimal)
    (hRight : rv.number? = some y) (hy : y.kind ≠ .int32) :
    Exact (productSteps lv rv) (calculMultipleOperation u lv rv).number? (x.value * y.value) ↔
      Fits 8 (x.number * y.number) ∧ Fits 4 (x.real + y.real) ∧ (x.number * y.number = 0 ∨ y.real = y.scale) := by
  have hType : lv.type_ = .decimal := (type_eq_iff hLeft .decimal).mpr hx
  have hRightType : rv.type_ ≠ .int32 := mt (type_eq_iff hRight .int32).mp hy
  have hInt := int64_of_number? hLeft (by rw [hx]; decide)
  have hNumber : (calculMultipleOperation u lv rv).number? =
      some ⟨.decimal, wrap 8 (x.number * y.number), wrap 4 (x.real + y.real)⟩ := by
    simp only [calculMultipleOperation, KValue.number?, KValue.fresh, hType, if_neg hRightType, hInt,
      int64_of_number? hRight hy, (members_of_number? hLeft).2.1, (members_of_number? hRight).2.1]
  rw [hNumber, exact_some_iff]
  simp only [productSteps, hType, if_neg hRightType, hInt, int64_of_number? hRight hy, (members_of_number? hLeft).2.1,
    (members_of_number? hRight).2.1, List.forall_mem_cons, List.not_mem_nil, false_implies, implies_true, and_true,
    and_assoc]
  refine and_congr_right fun hProduct => and_congr_right fun hScale => ?_
  rw [wrap_of_fits hProduct, wrap_of_fits hScale, value_mul_eq_iff hx]

theorem mul_value_eq_iff (hx : x.kind = .int64) :
    ((x.number * y.number : Int) : ℚ) = x.value * y.value ↔ x.number * y.number = 0 ∨ y.scale = 0 := by
  have hBase : 1 < 100 := by decide
  have hScale : (y.number : ℚ) = y.value ↔ y.number = 0 ∨ y.scale = 0 := by
    rw [eq_comm (a := y.scale), ← Scaled.value_eq_value_iff hBase, Scaled.value_scale_zero, Number.value]
  rw [value_of_not_decimal (x := x) (by rw [hx]; decide), Int.cast_mul, mul_eq_mul_left_iff, hScale, Int.cast_eq_zero,
    Int.mul_eq_zero]
  exact or_comm.trans or_assoc.symm

/-- A factor that the right operand's type does not select would decide the product. -/
theorem eq_zero_of_forall_junk {n : Int} {result : ℚ} (h : ∀ junk : Int, ((n * junk : Int) : ℚ) = result) : n = 0 := by
  have hTwo := (h 1).trans (h 0).symm
  rwa [Int.cast_inj, Int.mul_one, Int.mul_zero] at hTwo

end Cases

theorem productExact_iff_of_forall {x y : Number} {P : Prop}
    (h : ∀ u lv rv : KValue, lv.number? = some x → rv.number? = some y →
      (Exact (productSteps lv rv) (calculMultipleOperation u lv rv).number? (x.value * y.value) ↔ P)) :
    ProductExact x y ↔ P := by
  constructor
  · intro hExact
    exact (forall_operands_iff (h KValue.zero)).mp (hExact KValue.zero)
  · intro hP u
    exact (forall_operands_iff (h u)).mpr hP

theorem productExact_mixed_iff {x y : Number} {member : KValue → Int} {width : Nat}
    (hExact : ∀ u lv rv : KValue, lv.number? = some x → rv.number? = some y →
      (Exact (productSteps lv rv) (calculMultipleOperation u lv rv).number? (x.value * y.value) ↔
        Fits width (x.number * member rv) ∧ ((x.number * member rv : Int) : ℚ) = x.value * y.value))
    (hMember : ∀ junk, member (y.toKValue junk) = junk) (hx : x.number = 0 → x.value = 0) :
    ProductExact x y ↔ x.number = 0 := by
  constructor
  · intro h
    apply eq_zero_of_forall_junk
    intro junk
    have hJunk := h KValue.zero _ _ (number?_toKValue x 0) (number?_toKValue y junk)
    rw [hExact KValue.zero _ _ (number?_toKValue x 0) (number?_toKValue y junk), hMember] at hJunk
    exact hJunk.2
  · intro hZero u lv rv hLeft hRight
    rw [hExact u lv rv hLeft hRight, hx hZero, hZero, Int.zero_mul, zero_mul, Int.cast_zero]
    exact ⟨⟨by simp, by positivity⟩, rfl⟩

/-- When the exact product is returned. -/
theorem productExact_iff_productKept (x y : Number) : ProductExact x y ↔ ProductKept x y := by
  rw [ProductKept]
  cases hx : x.kind with
  | int32 =>
    dsimp only
    have hValue := value_of_not_decimal (x := x) (by rw [hx]; decide)
    split
    · rename_i hy
      apply productExact_iff_of_forall
      intro u lv rv hLeft hRight
      rw [exact_product_int32 u rv hLeft hx, int_of_number? hRight hy]
      apply and_iff_left
      rw [hValue, value_of_not_decimal (x := y) (by rw [hy]; decide), Int.cast_mul]
    · rename_i hy
      refine productExact_mixed_iff (fun u lv rv hLeft _ => exact_product_int32 u rv hLeft hx) ?_ ?_
      · intro junk
        rw [Number.toKValue]
        cases hKind : y.kind with
        | int32 => exact absurd hKind hy
        | int64 => rfl
        | decimal => rfl
      · intro hZero
        rw [hValue, hZero, Int.cast_zero]
  | int64 =>
    dsimp only
    split
    · rename_i hy
      refine productExact_mixed_iff (fun u lv rv hLeft _ => exact_product_int64 u rv hLeft hx) ?_ ?_
      · intro junk
        simp only [Number.toKValue, hy]
      · intro hZero
        rw [value_of_not_decimal (x := x) (by rw [hx]; decide), hZero, Int.cast_zero]
    · rename_i hy
      apply productExact_iff_of_forall
      intro u lv rv hLeft hRight
      rw [exact_product_int64 u rv hLeft hx, int64_of_number? hRight hy, mul_value_eq_iff hx]
  | decimal =>
    dsimp only
    split
    · rename_i hy
      exact productExact_iff_of_forall fun u lv rv hLeft hRight => exact_product_decimal_int32 u hLeft hx hRight hy
    · rename_i hy
      exact productExact_iff_of_forall fun u lv rv hLeft hRight => exact_product_decimal_wide u hLeft hx hRight hy

/-- `2 * 1.50`, with the member `int_` of the decimal left at zero. -/
theorem quantity_times_price_lost :
    (calculMultipleOperation KValue.zero (Number.toKValue ⟨.int32, 2, 0⟩ 0)
      (Number.toKValue ⟨.decimal, 150, 1⟩ 0)).number? =
        some ⟨.int32, 0, 0⟩ ∧
      ¬ ProductExact ⟨.int32, 2, 0⟩ ⟨.decimal, 150, 1⟩ := by
  have hProduct : (calculMultipleOperation KValue.zero (Number.toKValue ⟨.int32, 2, 0⟩ 0)
      (Number.toKValue ⟨.decimal, 150, 1⟩ 0)).number? = some ⟨.int32, 0, 0⟩ := by decide
  refine ⟨hProduct, fun h => ?_⟩
  have hValue := (h KValue.zero _ _ (number?_toKValue _ 0) (number?_toKValue _ 0)).2
  rw [hProduct, Option.map_some, Option.some_inj] at hValue
  norm_num [Number.value, Number.scale, Scaled.value] at hValue

end Product

end CsdWorker
