import CsdWorker.FilterComparison

/-! # BETWEEN

`compare_between` against `compare_ge` and `compare_le`, on operands with a numeric value or a string.
-/

namespace CsdWorker.Filter

open Memory

set_option autoImplicit false

section Between

/-- The answer of BETWEEN is that of GE with the first bound and LE with the second. -/
def BetweenAgrees (row : Mem) (offsets : List Int) (schemaInfo : SchemaInfo) (lv : Operand)
    (low high : KetiValueType × Bytes) (u : KValue) : Prop :=
  ∃ ge le, (compareGe u row ⟨lv, .ge, ⟨[low.1], [low.2]⟩⟩ offsets).run' schemaInfo = some ge ∧
    (compareLe u row ⟨lv, .le, ⟨[high.1], [high.2]⟩⟩ offsets).run' schemaInfo = some le ∧
    (compareBetween u row ⟨lv, .between, ⟨[low.1, high.1], [low.2, high.2]⟩⟩ offsets).run' schemaInfo = some (ge && le)

/-- What `compare_between` does once the three values are there. -/
def betweenValues (u lv min max : KValue) : Bool :=
  match lv.type_ with
  | .int32 => min.int_ ≤ lv.int_ && lv.int_ ≤ max.int_
  | .int64 | .decimal => min.int64_ ≤ lv.int64_ && lv.int64_ ≤ max.int64_
  | .float32 => min.float_ ≤ lv.float_ && lv.float_ ≤ max.float_
  | .double => min.double_ ≤ lv.double_ && lv.double_ ≤ max.double_
  | _ => u.bool_

variable {u : KValue} {row : Mem} {offsets : List Int} {s : SchemaInfo} {lv : Operand}
    {low high : KetiValueType × Bytes}

theorem compareBetween_eq (filtering : Filtering) : compareBetween u row filtering offsets = (do
    let lv ← calculOperandValue u row filtering.lv offsets none
    let min ← calculOperandValue u row filtering.rv offsets (some 0)
    let max ← calculOperandValue u row filtering.rv offsets (some 1)
    pure (betweenValues u lv min max)) := by
  rw [compareBetween]
  refine bind_congr fun lv => bind_congr fun min => bind_congr fun max => ?_
  rw [betweenValues]
  cases lv.type_ <;> rfl

theorem compareBetween_run' {value min max : KValue}
    (hValue : (calculOperandValue u row lv offsets none).run' s = some value)
    (hMin : (calculOperandValue u row ⟨[low.1], [low.2]⟩ offsets none).run' s = some min)
    (hMax : (calculOperandValue u row ⟨[high.1], [high.2]⟩ offsets none).run' s = some max) :
    (compareBetween u row ⟨lv, .between, ⟨[low.1, high.1], [low.2, high.2]⟩⟩ offsets).run' s =
      some (betweenValues u value min max) := by
  have hMaxQuery : ∀ min, Query (do
      let max ← calculOperandValue u row ⟨[high.1], [high.2]⟩ offsets none
      pure (betweenValues u value min max)) fun _ => True :=
    fun min => Query.bind (query_calculOperandValue u row _ offsets none) fun max _ => Query.pure trivial
  have hMinQuery : Query (do
      let min ← calculOperandValue u row ⟨[low.1], [low.2]⟩ offsets none
      let max ← calculOperandValue u row ⟨[high.1], [high.2]⟩ offsets none
      pure (betweenValues u value min max)) fun _ => True :=
    Query.bind (query_calculOperandValue u row _ offsets none) fun min _ => hMaxQuery min
  rw [compareBetween_eq, calculOperandValue_token u row offsets rfl rfl, calculOperandValue_token u row offsets rfl rfl,
    Query.run'_bind_of_eq_some (query_calculOperandValue u row lv offsets none) hMinQuery hValue,
    Query.run'_bind_of_eq_some (query_calculOperandValue u row _ offsets none) (hMaxQuery min) hMin,
    run'_bind_pure hMax]

/-- The two comparisons read the members that BETWEEN reads. -/
theorem betweenValues_number {value min max : KValue} {x a b : Number} (hValue : value.number? = some x)
    (hMin : min.number? = some a) (hMax : max.number? = some b) (hLow : a.kind = x.kind) (hHigh : b.kind = x.kind) :
    betweenValues u value min max = (decide (x.number ≥ a.number) && decide (x.number ≤ b.number)) := by
  rw [betweenValues, (members_of_number? hValue).1]
  cases hx : x.kind with
  | int32 =>
    rw [hx] at hLow hHigh
    simp only [NumberKind.type, int_of_number? hValue hx, int_of_number? hMin hLow, int_of_number? hMax hHigh,
      ge_iff_le]
  | int64 =>
    rw [hx] at hLow hHigh
    simp only [NumberKind.type, int64_of_number? hValue (by rw [hx]; decide),
      int64_of_number? hMin (by rw [hLow]; decide), int64_of_number? hMax (by rw [hHigh]; decide), ge_iff_le]
  | decimal =>
    rw [hx] at hLow hHigh
    simp only [NumberKind.type, int64_of_number? hValue (by rw [hx]; decide),
      int64_of_number? hMin (by rw [hLow]; decide), int64_of_number? hMax (by rw [hHigh]; decide), ge_iff_le]

theorem betweenAgrees_iff_eq {x a b : Value} {value min max : KValue} (hValue : HasValue row offsets s lv x)
    (hLow : HasValue row offsets s ⟨[low.1], [low.2]⟩ a) (hHigh : HasValue row offsets s ⟨[high.1], [high.2]⟩ b)
    (hLowType : a.type = x.type) (hHighType : b.type = x.type)
    (hRun : (calculOperandValue u row lv offsets none).run' s = some value)
    (hMin : (calculOperandValue u row ⟨[low.1], [low.2]⟩ offsets none).run' s = some min)
    (hMax : (calculOperandValue u row ⟨[high.1], [high.2]⟩ offsets none).run' s = some max) :
    BetweenAgrees row offsets s lv low high u ↔
      betweenValues u value min max =
        (x.compareWith (fun a b => a ≥ b) (fun a b => a ≥ b) a && x.compareWith (fun a b => a ≤ b)
          (fun a b => a ≤ b) b) := by
  have hGe : (compareGe u row ⟨lv, .ge, ⟨[low.1], [low.2]⟩⟩ offsets).run' s = _ :=
    compareBy_of_hasValue hValue hLow hLowType u
  have hLe : (compareLe u row ⟨lv, .le, ⟨[high.1], [high.2]⟩⟩ offsets).run' s = _ :=
    compareBy_of_hasValue hValue hHigh hHighType u
  rw [BetweenAgrees, hGe, hLe, compareBetween_run' hRun hMin hMax]
  constructor
  · rintro ⟨ge, le, hGe, hLe, hBetween⟩
    cases hGe
    cases hLe
    exact Option.some_inj.mp hBetween
  · intro hBetween
    exact ⟨_, _, rfl, rfl, congrArg some hBetween⟩

/-- BETWEEN is GE and LE unless the value is a string. -/
theorem betweenAgrees_iff_not_string (row : Mem) (offsets : List Int) (s : SchemaInfo) (lv : Operand)
    (low high : KetiValueType × Bytes) (x a b : Value) (hValue : HasValue row offsets s lv x)
    (hLow : HasValue row offsets s ⟨[low.1], [low.2]⟩ a) (hHigh : HasValue row offsets s ⟨[high.1], [high.2]⟩ b)
    (hLowType : a.type = x.type) (hHighType : b.type = x.type) :
    (∀ u, BetweenAgrees row offsets s lv low high u) ↔ x.type ≠ .string := by
  have hIff : ∀ u, ∃ value min max, value.value? = some x ∧ min.value? = some a ∧ max.value? = some b ∧
      (BetweenAgrees row offsets s lv low high u ↔ betweenValues u value min max =
        (x.compareWith (fun a b => a ≥ b) (fun a b => a ≥ b) a && x.compareWith (fun a b => a ≤ b)
          (fun a b => a ≤ b) b)) := by
    intro u
    obtain ⟨value, hRun, hx⟩ := hValue u
    obtain ⟨min, hMin, ha⟩ := hLow u
    obtain ⟨max, hMax, hb⟩ := hHigh u
    exact ⟨value, min, max, hx, ha, hb, betweenAgrees_iff_eq hValue hLow hHigh hLowType hHighType hRun hMin hMax⟩
  cases x with
  | number x =>
    refine iff_of_true (fun u => ?_) x.kind.type_ne_string
    obtain ⟨value, min, max, hx, ha, hb, hAgrees⟩ := hIff u
    cases a with
    | number a =>
      cases b with
      | number b =>
        rw [hAgrees, betweenValues_number (value?_eq_number_iff.mp hx) (value?_eq_number_iff.mp ha)
          (value?_eq_number_iff.mp hb) (NumberKind.type_inj hLowType) (NumberKind.type_inj hHighType)]
        rfl
      | string t => exact absurd hHighType.symm x.kind.type_ne_string
    | string t => exact absurd hLowType.symm x.kind.type_ne_string
  | string t =>
    refine iff_of_false (fun h => ?_) (not_not.mpr rfl)
    -- the two answers of BETWEEN are the two contents of the unset boolean
    obtain ⟨value, min, max, hx, -, -, hAgrees⟩ := hIff { KValue.zero with bool_ := true }
    obtain ⟨value', min', max', hx', -, -, hAgrees'⟩ := hIff { KValue.zero with bool_ := false }
    have hTrue := hAgrees.mp (h _)
    have hFalse := hAgrees'.mp (h _)
    rw [← hFalse, betweenValues, betweenValues, (value?_eq_string_iff.mp hx).1,
      (value?_eq_string_iff.mp hx').1] at hTrue
    cases hTrue

end Between

theorem five_between_three_and_seven :
    BetweenAgrees zeroed [0] emptySchema ⟨[.int32], [bytesOf "5"]⟩ (.int32, bytesOf "3")
      (.int32, bytesOf "7") KValue.zero :=
  (betweenAgrees_iff_not_string zeroed [0] emptySchema ⟨[.int32], [bytesOf "5"]⟩ (.int32, bytesOf "3")
    (.int32, bytesOf "7")
    (.number ⟨.int32, 5, 0⟩) (.number ⟨.int32, 3, 0⟩) (.number ⟨.int32, 7, 0⟩) (fun _ => ⟨_, rfl, rfl⟩)
    (fun _ => ⟨_, rfl, rfl⟩) (fun _ => ⟨_, rfl, rfl⟩) rfl rfl).mpr (by decide) KValue.zero

/-- The string "b" between "a" and "c", with the unset boolean false. -/
theorem string_not_between :
    ¬ BetweenAgrees zeroed [0] emptySchema ⟨[.string], [bytesOf "b"]⟩ (.string, bytesOf "a") (.string, bytesOf "c")
      KValue.zero := by
  rintro ⟨ge, le, hGe, hLe, hBetween⟩
  rw [show (compareGe KValue.zero zeroed ⟨⟨[.string], [bytesOf "b"]⟩, .ge, ⟨[.string], [bytesOf "a"]⟩⟩ [0]).run'
    emptySchema =
    some true by decide] at hGe
  rw [show (compareLe KValue.zero zeroed ⟨⟨[.string], [bytesOf "b"]⟩, .le, ⟨[.string], [bytesOf "c"]⟩⟩ [0]).run'
    emptySchema =
    some true by decide] at hLe
  cases hGe
  cases hLe
  revert hBetween
  decide

end CsdWorker.Filter
