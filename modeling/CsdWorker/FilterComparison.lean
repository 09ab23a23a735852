import CsdWorker.Filter
import CsdWorker.OperandValue

/-! # Comparisons of numbers

`compare_ge`, `compare_le`, `compare_gt`, `compare_lt` and `compare_eq` on two operands with numeric values. The type
of the left value selects the member that is compared on both sides, and no scale is looked at.
-/

namespace CsdWorker.Filter

open Memory

set_option autoImplicit false

/-- Every comparison is that of the two rational numbers. -/
structure ComparesAs (row : Mem) (offsets : List Int) (schemaInfo : SchemaInfo) (filtering : Filtering) (p q : ℚ)
    (u : KValue) : Prop where
  ge : (compareGe u row filtering offsets).run' schemaInfo = some (decide (p ≥ q))
  le : (compareLe u row filtering offsets).run' schemaInfo = some (decide (p ≤ q))
  gt : (compareGt u row filtering offsets).run' schemaInfo = some (decide (p > q))
  lt : (compareLt u row filtering offsets).run' schemaInfo = some (decide (p < q))
  eq : (compareEq u row filtering offsets).run' schemaInfo = some (decide (p = q))

/-- Both numbers are in the same member, and the one of the larger scale does not lie between the other number
and what that is at the larger scale. -/
def OrderKept (x y : Number) : Prop :=
  (x.kind = .int32 ↔ y.kind = .int32) ∧
    if x.scale ≤ y.scale then
      x.scale = y.scale ∨ x.number = 0 ∨ ¬ Scaled.Within 100 (y.scale - x.scale).toNat x.number y.number
    else y.number = 0 ∨ ¬ Scaled.Within 100 (x.scale - y.scale).toNat y.number x.number

/-- The member of the right value that is compared. -/
def rightMember (u : KValue) (x y : Number) : Int :=
  if x.kind = .int32 then if y.kind = .int32 then y.number else u.int_
  else if y.kind = .int32 then u.int64_ else y.number

/-- What the comparisons do once both values are there. -/
def compareValues (int : Int → Int → Bool) (float : Float32 → Float32 → Bool) (double : Float → Float → Bool)
    (string : Bytes → Bytes → Bool) (lv rv : KValue) : Bool :=
  match lv.type_ with
  | .int32 => int lv.int_ rv.int_
  | .int64 | .decimal => int lv.int64_ rv.int64_
  | .float32 => float lv.float_ rv.float_
  | .double => double lv.double_ rv.double_
  | .string => string lv.string_ rv.string_
  | _ => false

section Values
variable {u : KValue} {row : Mem} {offsets : List Int} {s : SchemaInfo} {filtering : Filtering}
  {int : Int → Int → Bool} {float : Float32 → Float32 → Bool} {double : Float → Float → Bool}
  {string : Bytes → Bytes → Bool} {lv rv : KValue} {x y : Number}

theorem compareBy_eq : compareBy u row int float double string filtering offsets = (do
    let lv ← calculOperandValue u row filtering.lv offsets none
    let rv ← calculOperandValue u row filtering.rv offsets none
    pure (compareValues int float double string lv rv)) := by
  rw [compareBy]
  refine bind_congr fun lv => bind_congr fun rv => ?_
  rw [compareValues]
  cases lv.type_ <;> rfl

theorem compareBy_run' (hLeft : (calculOperandValue u row filtering.lv offsets none).run' s = some lv)
    (hRight : (calculOperandValue u row filtering.rv offsets none).run' s = some rv) :
    (compareBy u row int float double string filtering offsets).run' s =
      some (compareValues int float double string lv rv) := by
  have hRest : Query (do
      let rv ← calculOperandValue u row filtering.rv offsets none
      pure (compareValues int float double string lv rv)) fun _ => True :=
    Query.bind (query_calculOperandValue u row filtering.rv offsets none) fun rv _ => Query.pure trivial
  rw [compareBy_eq, Query.run'_bind_of_eq_some (query_calculOperandValue u row filtering.lv offsets none) hRest hLeft,
    run'_bind_pure hRight]

theorem compareValues_of_number? (hLeft : lv.number? = some x) (hRight : rv.number? = some y)
    (hUnset : LeavesUnset u rv) :
    compareValues int float double string lv rv = int x.number (rightMember u x y) := by
  have hMember : (if x.kind = .int32 then rv.int_ else rv.int64_) = rightMember u x y := by
    have hType := (members_of_number? hRight).1
    rw [rightMember]
    by_cases hx : x.kind = .int32
    · rw [if_pos hx, if_pos hx]
      cases hy : y.kind with
      | int32 => exact int_of_number? hRight hy
      | int64 => exact hUnset.int_ (Or.inl (by rw [hType, hy, NumberKind.type]))
      | decimal => exact hUnset.int_ (Or.inr (by rw [hType, hy, NumberKind.type]))
    · rw [if_neg hx, if_neg hx]
      by_cases hy : y.kind = .int32
      · rw [if_pos hy]
        exact hUnset.int64_ (by rw [hType, hy, NumberKind.type])
      · rw [if_neg hy]
        exact int64_of_number? hRight hy
  rw [compareValues, (members_of_number? hLeft).1, ← hMember]
  cases hx : x.kind with
  | int32 => exact congrArg (int · rv.int_) (int_of_number? hLeft hx)
  | int64 => exact congrArg (int · rv.int64_) (int64_of_number? hLeft (by rw [hx]; decide))
  | decimal => exact congrArg (int · rv.int64_) (int64_of_number? hLeft (by rw [hx]; decide))

theorem compareBy_of_hasNumber (hLeft : HasNumber row offsets s filtering.lv x)
    (hRight : HasNumber row offsets s filtering.rv y) (u : KValue) :
    (compareBy u row int float double string filtering offsets).run' s = some (int x.number (rightMember u x y)) := by
  obtain ⟨lv, hLeftRun, hLeftNumber⟩ := hLeft u
  obtain ⟨rv, hRightRun, hRightNumber⟩ := hRight u
  have hUnset := (query_calculOperandValue u row filtering.rv offsets none).answer_run' hRightRun
  rw [compareBy_run' hLeftRun hRightRun, compareValues_of_number? hLeftNumber hRightNumber hUnset]

end Values

section Order
variable {row : Mem} {offsets : List Int} {s : SchemaInfo} {filtering : Filtering} {x y : Number}

theorem comparesAs_iff_order (hLeft : HasNumber row offsets s filtering.lv x)
    (hRight : HasNumber row offsets s filtering.rv y) (p q : ℚ) (u : KValue) :
    ComparesAs row offsets s filtering p q u ↔
      (x.number < rightMember u x y ↔ p < q) ∧ (x.number = rightMember u x y ↔ p = q) := by
  constructor
  · rintro ⟨-, -, -, hLt, hEq⟩
    rw [compareLt, compareBy_of_hasNumber hLeft hRight, Option.some_inj, decide_eq_decide] at hLt
    rw [compareEq, compareBy_of_hasNumber hLeft hRight, Option.some_inj, beq_eq_decide, decide_eq_decide] at hEq
    exact ⟨hLt, hEq⟩
  · rintro ⟨hLt, hEq⟩
    have hLe : x.number ≤ rightMember u x y ↔ p ≤ q := by rw [le_iff_lt_or_eq, le_iff_lt_or_eq, hLt, hEq]
    constructor
    · rw [compareGe, compareBy_of_hasNumber hLeft hRight, Option.some_inj, decide_eq_decide, ge_iff_le, ge_iff_le,
        ← not_lt, ← not_lt, hLt]
    · rw [compareLe, compareBy_of_hasNumber hLeft hRight, Option.some_inj, decide_eq_decide, hLe]
    · rw [compareGt, compareBy_of_hasNumber hLeft hRight, Option.some_inj, decide_eq_decide, gt_iff_lt, gt_iff_lt,
        ← not_le, ← not_le, hLe]
    · rw [compareLt, compareBy_of_hasNumber hLeft hRight, Option.some_inj, decide_eq_decide, hLt]
    · rw [compareEq, compareBy_of_hasNumber hLeft hRight, Option.some_inj, beq_eq_decide, decide_eq_decide, hEq]

theorem rightMember_of_iff (u : KValue) (h : x.kind = .int32 ↔ y.kind = .int32) : rightMember u x y = y.number := by
  rw [rightMember]
  by_cases hx : x.kind = .int32
  · rw [if_pos hx, if_pos (h.mp hx)]
  · rw [if_neg hx, if_neg (mt h.mpr hx)]

/-- With values in different members the unset one can be anything. -/
theorem rightMember_surjective (h : ¬ (x.kind = .int32 ↔ y.kind = .int32)) (n : Int) : ∃ u, rightMember u x y = n := by
  refine ⟨{ KValue.zero with int_ := n, int64_ := n }, ?_⟩
  rw [rightMember]
  by_cases hx : x.kind = .int32
  · rw [if_pos hx, if_neg fun hy => h (iff_of_true hx hy)]
  · rw [if_neg hx, if_pos (not_not.mp fun hy => h (iff_of_false hx hy))]

theorem sameOrder_iff (x y : Number) :
    Scaled.SameOrder 100 x.number x.scale y.number y.scale ↔
      if x.scale ≤ y.scale then
        x.scale = y.scale ∨ x.number = 0 ∨ ¬ Scaled.Within 100 (y.scale - x.scale).toNat x.number y.number
      else y.number = 0 ∨ ¬ Scaled.Within 100 (x.scale - y.scale).toNat y.number x.number := by
  split
  · rename_i hScale
    exact Scaled.sameOrder_iff_of_le (by decide) hScale
  · rename_i hScale
    rw [Scaled.sameOrder_comm, Scaled.sameOrder_iff_of_le (by decide) (by omega), or_iff_right (by omega)]

/-- When all comparisons are those of the numbers, whatever the indeterminate members hold. -/
theorem comparesAs_iff_orderKept (hLeft : HasNumber row offsets s filtering.lv x)
    (hRight : HasNumber row offsets s filtering.rv y) :
    (∀ u, ComparesAs row offsets s filtering x.value y.value u) ↔ OrderKept x y := by
  rw [OrderKept, ← sameOrder_iff]
  constructor
  · intro h
    have hKinds : x.kind = .int32 ↔ y.kind = .int32 := by
      by_contra hKinds
      obtain ⟨u, hu⟩ := rightMember_surjective hKinds x.number
      obtain ⟨u', hu'⟩ := rightMember_surjective hKinds (x.number + 1)
      have hEqual := ((comparesAs_iff_order hLeft hRight _ _ u).mp (h u)).2.mp hu.symm
      have hLess := ((comparesAs_iff_order hLeft hRight _ _ u').mp (h u')).1.mp (by rw [hu']; omega)
      exact absurd hEqual hLess.ne
    obtain ⟨hLt, hEq⟩ := (comparesAs_iff_order hLeft hRight _ _ KValue.zero).mp (h KValue.zero)
    rw [rightMember_of_iff _ hKinds] at hLt hEq
    exact ⟨hKinds, hLt, hEq⟩
  · rintro ⟨hKinds, hOrder⟩ u
    rw [comparesAs_iff_order hLeft hRight, rightMember_of_iff u hKinds]
    exact ⟨hOrder.lt_iff, hOrder.eq_iff⟩

end Order

section SameType
variable {row : Mem} {offsets : List Int} {s : SchemaInfo} {filtering : Filtering} {x y : Value}

theorem compareBy_of_hasValue {int : Int → Int → Bool} {float : Float32 → Float32 → Bool}
    {double : Float → Float → Bool} {text : Bytes → Bytes → Bool} (hLeft : HasValue row offsets s filtering.lv x)
    (hRight : HasValue row offsets s filtering.rv y) (hType : y.type = x.type) (u : KValue) :
    (compareBy u row int float double text filtering offsets).run' s = some (x.compareWith int text y) := by
  cases x with
  | number x =>
    cases y with
    | number y =>
      have hKinds : x.kind = .int32 ↔ y.kind = .int32 := by rw [NumberKind.type_inj hType]
      rw [compareBy_of_hasNumber (hasValue_number_iff.mp hLeft) (hasValue_number_iff.mp hRight),
        rightMember_of_iff u hKinds]
      rfl
    | string t => exact absurd hType.symm x.kind.type_ne_string
  | string s =>
    cases y with
    | number y => exact absurd hType y.kind.type_ne_string
    | string t =>
      obtain ⟨lv, hLeftRun, hLeftValue⟩ := hLeft u
      obtain ⟨rv, hRightRun, hRightValue⟩ := hRight u
      obtain ⟨hLeftType, rfl⟩ := value?_eq_string_iff.mp hLeftValue
      obtain ⟨-, rfl⟩ := value?_eq_string_iff.mp hRightValue
      rw [compareBy_run' hLeftRun hRightRun, compareValues, hLeftType]
      rfl

end SameType

/-- Two decimal columns, 5.00 and 7.00. -/
def priceSchema : SchemaInfo :=
  { columnName := [bytesOf "price", bytesOf "fee"], columnOffset := [0, 7, 14], columnLength := [7, 7],
    columnType := [.newDecimal, .newDecimal], columnIndexMap := [(bytesOf "price", 0), (bytesOf "fee", 1)],
    pkColumn := [], tableIndexNumber := 0, hasVarChar := false }

def priceRow : Bytes := [128, 0, 0, 0, 0, 5, 0, 128, 0, 0, 0, 0, 7, 0]

theorem hasNumber_price :
    HasNumber (ofBytes priceRow) [0, 7, 14] priceSchema ⟨[.column], [bytesOf "price"]⟩ ⟨.decimal, 500, 1⟩ :=
  hasNumber_newDecimal 0 ⟨bytesOf "price", 0, rfl, by decide, rfl, rfl, rfl⟩ (by decide +kernel)

theorem hasNumber_fee :
    HasNumber (ofBytes priceRow) [0, 7, 14] priceSchema ⟨[.column], [bytesOf "fee"]⟩ ⟨.decimal, 700, 1⟩ :=
  hasNumber_newDecimal 7 ⟨bytesOf "fee", 1, rfl, by decide, rfl, rfl, rfl⟩ (by decide +kernel)

theorem price_compares_fee :
    ComparesAs (ofBytes priceRow) [0, 7, 14] priceSchema
      ⟨⟨[.column], [bytesOf "price"]⟩, .lt, ⟨[.column], [bytesOf "fee"]⟩⟩ (Number.mk .decimal 500 1).value
      (Number.mk .decimal 700 1).value KValue.zero :=
  (comparesAs_iff_orderKept hasNumber_price hasNumber_fee).mpr ⟨by decide, by decide⟩ KValue.zero

/-- The column 5.00 against the literal 5: with unset members at zero they are not equal. -/
theorem price_misses_literal :
    HasNumber (ofBytes priceRow) [0, 7, 14] priceSchema ⟨[.column], [bytesOf "price"]⟩ ⟨.decimal, 500, 1⟩ ∧
      HasNumber (ofBytes priceRow) [0, 7, 14] priceSchema ⟨[.int32], [bytesOf "5"]⟩ ⟨.int32, 5, 0⟩ ∧
      ¬ ComparesAs (ofBytes priceRow) [0, 7, 14] priceSchema
        ⟨⟨[.column], [bytesOf "price"]⟩, .eq, ⟨[.int32], [bytesOf "5"]⟩⟩ (Number.mk .decimal 500 1).value
        (Number.mk .int32 5 0).value KValue.zero := by
  refine ⟨hasNumber_price, fun _ => ⟨_, rfl, rfl⟩, fun h => ?_⟩
  have hEq := h.eq
  rw [show (compareEq KValue.zero (ofBytes priceRow) ⟨⟨[.column], [bytesOf "price"]⟩, .eq, ⟨[.int32], [bytesOf "5"]⟩⟩
    [0, 7, 14]).run' priceSchema = some false by decide] at hEq
  norm_num [Number.value, Number.scale, Scaled.value] at hEq

end CsdWorker.Filter
