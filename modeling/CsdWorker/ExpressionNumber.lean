import CsdWorker.PostfixValue
import CsdWorker.StoredDecimal
import CsdWorker.StoredInteger

/-! # The number of an expression

What the columns and the literals of an expression stand for, and what the expression is worth in integers of 32 and of
64 bits. A value of the evaluator has the member that its type selects; the other one was never set, and an operation
that reads it has no number.
-/

namespace CsdWorker

open Memory Endian Postfix RowLayout DecimalCodec

set_option autoImplicit false

namespace NumberKind

def width : NumberKind → Nat
  | int32 => 4
  | int64 | decimal => 8

def least : NumberKind → Int
  | int32 => -2 ^ 31
  | int64 | decimal => -2 ^ 63

theorem fits_iff (kind : NumberKind) (n : Int) : Fits kind.width n ↔ kind.least ≤ n ∧ n < -kind.least := by
  have hLeast : 2 * kind.least = -(256 ^ kind.width : Nat) := by
    cases kind <;> decide
  rw [Fits]
  omega

theorem width_eq_iff {a b : NumberKind} : a.width = b.width ↔ (a = int32 ↔ b = int32) := by
  cases a <;> cases b <;> decide

end NumberKind

def Number.InRange (x : Number) : Prop := Fits x.kind.width x.number

section Leaves

/-- What a column holds as a number. An integer of less than four bytes is read without its sign. -/
inductive ColumnNumber : Column → Number → Prop
  | integer {c : Column} {width : Nat} {n : Int} (stored : StoresInteger c width n) (sign : 4 ≤ width ∨ 0 ≤ n) :
    ColumnNumber c ⟨integerKind c.type, n, 0⟩
  | decimal {c : Column} {n : Int} (type : c.type = .newDecimal) (stored : c.payload = storedDecimal n)
    (digits : n.natAbs < 10 ^ 11) : ColumnNumber c ⟨.decimal, n, 1⟩

inductive Denotes (schemaInfo : SchemaInfo) (columns : List Column) (leaf : Leaf) (x : Number) : Prop
  | column {index : Nat} {c : Column} (type : leaf.type = .column)
    (name : schemaInfo.columnIndexMap.lookup leaf.text = some index) (entry : columns[index]? = some c)
    (number : ColumnNumber c x)
  | literal (text : literalValue? leaf.type leaf.text = some (.number x))

variable {schemaInfo : SchemaInfo} {columns : List Column} {row : Bytes} {offsets : List Int}

theorem length_storedDecimal (n : Int) (h : n.natAbs < 10 ^ 15) : (storedDecimal n).length = 7 := by
  obtain ⟨b5, b4, b3, b2, b1, b0, r, hBytes, -⟩ := digitGroups_eq n.natAbs h
  rw [storedDecimal, hBytes]
  split <;> rfl

theorem getColumnValue_storedDecimal (u : KValue) (hRow : SchemaRow schemaInfo columns row)
    (hOffsets : columnOffsetList row schemaInfo = some offsets) {name : Bytes} {columnIndex : Nat} {c : Column}
    {n : Int} (hName : schemaInfo.columnIndexMap.lookup name = some columnIndex)
    (hColumn : columns[columnIndex]? = some c) (hType : c.type = .newDecimal) (hStored : c.payload = storedDecimal n)
    (hDigits : n.natAbs < 10 ^ 11) :
    ∃ v, (getColumnValue u (ofBytes row) ⟨[.column], [name]⟩ offsets 0).run schemaInfo = some (v, schemaInfo) ∧
      v.number? = some ⟨.decimal, n, 1⟩ := by
  obtain rfl := Option.some_inj.mp (hRow.columnOffsetList_eq.symm.trans hOffsets)
  obtain ⟨before, after, rfl, rfl⟩ := exists_split_of_getElem? hColumn
  have hBound : n.natAbs < 10 ^ 15 := hDigits.trans (by decide)
  have hEncoded : c.encoded = storedDecimal n := by
    rw [Column.encoded, if_neg (by rw [hType]; decide), hStored]
  obtain ⟨hStart, hStop⟩ := columnStarts_at before after c
  have hRead := hRow.read_column (read_ofBytes row)
  rw [hEncoded, length_storedDecimal n hBound] at hStop hRead
  have hEntry := hRow.entry.1
  rw [hType] at hEntry
  have hDecimal : DecimalColumnAt schemaInfo ⟨[.column], [name]⟩ _ 0 (encodedLength before) :=
    ⟨name, before.length, rfl, hName, hEntry, hStart, hStop⟩
  refine ⟨_, getColumnValue_newDecimal u (ofBytes row) hDecimal, ?_⟩
  have hValue : newDecimalValue (ofBytes (storedDecimal n)) = n := by
    have hSmall := (groupsAsBinary_eq_iff n.natAbs).mpr hDigits
    rw [newDecimalValue_storedDecimal n hBound, hSmall]
    split <;> omega
  rw [hRead, hValue]
  rfl

theorem Denotes.value (u : KValue) (hRow : SchemaRow schemaInfo columns row)
    (hOffsets : columnOffsetList row schemaInfo = some offsets) {leaf : Leaf} {x : Number}
    (h : Denotes schemaInfo columns leaf x) :
    ∃ v, (leaf.value u (ofBytes row) offsets).run schemaInfo = some (v, schemaInfo) ∧ v.number? = some x := by
  rw [Leaf.value]
  cases h with
  | literal text =>
    obtain ⟨v, hRun, hValue⟩ := getLiteralValue_run u schemaInfo text
    rw [if_neg (ne_column_of_literalValue? text)]
    exact ⟨v, hRun, value?_eq_number_iff.mp hValue⟩
  | column type name entry number =>
    rw [if_pos type, type]
    cases number with
    | decimal type stored digits => exact getColumnValue_storedDecimal u hRow hOffsets name entry type stored digits
    | integer stored sign =>
      obtain ⟨hLe, hSame⟩ := integerWidth_le stored.width_eq
      have hValue := (zeroExtended_intLe_iff hLe stored.fits).mpr (sign.imp_left hSame.mpr)
      have hName : NamesColumn schemaInfo ⟨[.column], [leaf.text]⟩ 0 _ := ⟨leaf.text, rfl, name⟩
      obtain ⟨v, hRun, hNumber⟩ := getColumnValue_storedInteger u hRow entry stored hName hOffsets
      exact ⟨v, hRun, by rw [hNumber, hValue]⟩

theorem parseInteger_mem {low high n : Int} {text : Bytes} (h : parseInteger low high text = some n) :
    low ≤ n ∧ n ≤ high := by
  simp only [parseInteger, Option.ite_none_left_eq_some, Option.ite_none_right_eq_some, Option.some_inj] at h
  obtain ⟨-, hBounds, rfl⟩ := h
  exact hBounds

theorem memberWidth_eq (type : MySQLDataType) : memberWidth type = (integerKind type).width := by
  rw [memberWidth, integerKind]
  split <;> rfl

theorem Denotes.inRange {leaf : Leaf} {x : Number} (h : Denotes schemaInfo columns leaf x) : x.InRange := by
  rw [Number.InRange, NumberKind.fits_iff]
  cases h with
  | column type name entry number =>
    cases number with
    | decimal type stored digits =>
      dsimp only [NumberKind.least]
      omega
    | integer stored sign =>
      rw [← NumberKind.fits_iff, ← memberWidth_eq]
      exact fits_mono (integerWidth_le stored.width_eq).1 stored.fits
  | literal text =>
    obtain ⟨type, value, hType⟩ := leaf
    cases type with
    | int8 | int16 | int32 | date | int64 =>
      obtain ⟨n, hn, hx⟩ := Option.map_eq_some_iff.mp text
      cases hx
      exact (parseInteger_mem hn).imp_right Int.lt_of_le_sub_one
    | decimal =>
      obtain ⟨y, hy, hx⟩ := Option.map_eq_some_iff.mp text
      cases hx
      exact ⟨Int64.le_toInt _, Int64.toInt_lt _⟩
    | _ => cases text

end Leaves

section Operations
variable {x y z : Number} {lv rv : KValue}

/-- A sum or a difference. An `INT32` is rescaled to a decimal on its right. -/
def sumOf (op : Int → Int → Int) (x y : Number) : Option Number :=
  match x.kind, y.kind with
  | .int32, .int32 => some ⟨.int32, wrap 4 (op x.number y.number), 0⟩
  | .int32, .decimal => some ⟨.decimal, wrap 8 (op (wrap 4 (x.number * powBase y.real)) y.number), y.real⟩
  | .int32, .int64 | .int64, .int32 | .decimal, .int32 => none
  | .int64, .int64 | .int64, .decimal => some ⟨.int64, wrap 8 (op x.number y.number), 0⟩
  | .decimal, .int64 | .decimal, .decimal => some ⟨.decimal, wrap 8 (op x.number y.number), 0⟩

def productOf (x y : Number) : Option Number :=
  match x.kind, y.kind with
  | .int32, .int32 => some ⟨.int32, wrap 4 (x.number * y.number), 0⟩
  | .int64, .int64 | .int64, .decimal => some ⟨.int64, wrap 8 (x.number * y.number), 0⟩
  | .decimal, .int32 => some ⟨.decimal, wrap 8 (x.number * y.number), x.real⟩
  | .decimal, .int64 | .decimal, .decimal => some ⟨.decimal, wrap 8 (x.number * y.number), wrap 4 (x.real + y.real)⟩
  | .int32, .int64 | .int32, .decimal | .int64, .int32 => none

def quotientOf (x y : Number) : Option Number :=
  if x.kind.width = y.kind.width then some ⟨x.kind, x.number.tdiv y.number, 0⟩ else none

/-- The result of a comparison is no number. -/
def BinaryOperator.onNumbers : BinaryOperator → Number → Number → Option Number
  | plus, x, y => sumOf (· + ·) x y
  | minus, x, y => sumOf (· - ·) x y
  | multiple, x, y => productOf x y
  | divide, x, y => quotientOf x y
  | equal, _, _ | notEqual, _, _ => none

structure QuotientDefined (x y : Number) : Prop where
  divisor : y.number ≠ 0
  fits : ¬(x.number = x.kind.least ∧ y.number = -1)

theorem QuotientDefined.fits_tdiv (h : QuotientDefined x y) (hx : x.InRange) :
    Fits x.kind.width (x.number.tdiv y.number) := by
  rw [Number.InRange, NumberKind.fits_iff] at hx
  rw [NumberKind.fits_iff]
  obtain ⟨hDivisor, hFits⟩ := h
  have hBound : (x.number.tdiv y.number).natAbs = x.number.natAbs / y.number.natAbs := Int.natAbs_tdiv _ _
  by_cases hOne : y.number.natAbs = 1
  · obtain hOne | hOne := Int.natAbs_eq_iff.mp hOne
    · rw [show y.number = 1 from hOne, Int.tdiv_one]
      exact hx
    · rw [show y.number = -1 from hOne, Int.tdiv_neg, Int.tdiv_one]
      have : x.number ≠ x.kind.least := fun hLeast => hFits ⟨hLeast, hOne⟩
      omega
  · have hHalf : x.number.natAbs / y.number.natAbs ≤ x.number.natAbs / 2 :=
      Nat.div_le_div_left (by omega) (by decide)
    omega

theorem sumNumber_of_sumOf {op : Int → Int → Int} (hLeft : lv.number? = some x) (hRight : rv.number? = some y)
    (h : sumOf op x y = some z) : sumNumber op lv rv = some z ∧ z.InRange := by
  obtain ⟨hType, -, hMember⟩ := members_of_number? hLeft
  obtain ⟨hRightType, hReal, hRightMember⟩ := members_of_number? hRight
  rw [sumOf] at h
  rw [sumNumber]
  cases hx : x.kind <;> cases hy : y.kind
  all_goals
    rw [hx] at hType hMember
    rw [hy] at hRightType hRightMember
    rw [hx, hy] at h
    cases h
  all_goals
    simp only [NumberKind.type] at hType hRightType
    refine ⟨?_, fits_wrap _ _⟩
    simp only [hType, hRightType, reduceCtorEq, if_true, if_false, ← hMember, ← hRightMember, ← hReal]

theorem number?_multiple_of_productOf (u : KValue) (hLeft : lv.number? = some x) (hRight : rv.number? = some y)
    (h : productOf x y = some z) : (calculMultipleOperation u lv rv).number? = some z ∧ z.InRange := by
  obtain ⟨hType, hLeftReal, hMember⟩ := members_of_number? hLeft
  obtain ⟨hRightType, hReal, hRightMember⟩ := members_of_number? hRight
  rw [productOf] at h
  rw [calculMultipleOperation]
  cases hx : x.kind <;> cases hy : y.kind
  all_goals
    rw [hx] at hType hMember
    rw [hy] at hRightType hRightMember
    rw [hx, hy] at h
    cases h
  all_goals
    simp only [NumberKind.type] at hType hRightType
    refine ⟨?_, fits_wrap _ _⟩
    simp only [hType, hRightType, reduceCtorEq, if_true, if_false, ← hMember, ← hRightMember, ← hReal, ← hLeftReal]
    rfl

theorem calculDivideOperation_of_quotientOf (u : KValue) (hLeft : lv.number? = some x) (hRight : rv.number? = some y)
    (h : quotientOf x y = some z) (hx : x.InRange) (hDefined : QuotientDefined x y) :
    ∃ v, calculDivideOperation u lv rv = some v ∧ v.number? = some z ∧ z.InRange := by
  have hFits := hDefined.fits_tdiv hx
  have hQuotient : divideInt x.kind.width x.number y.number = some (x.number.tdiv y.number) :=
    if_neg (not_or.mpr ⟨hDefined.divisor, not_not.mpr (wrap_of_fits hFits)⟩)
  obtain ⟨hWidth, hz⟩ := Option.ite_none_right_eq_some.mp h
  cases hz
  rw [NumberKind.width_eq_iff] at hWidth
  cases hKind : x.kind with
  | int32 =>
    have hType : lv.type_ = .int32 := (type_eq_iff hLeft .int32).mpr hKind
    rw [hKind, NumberKind.width] at hQuotient
    rw [hKind] at hFits
    rw [calculDivideOperation, hType, int_of_number? hLeft hKind, int_of_number? hRight (hWidth.mp hKind), hQuotient]
    exact ⟨_, rfl, rfl, hFits⟩
  | int64 =>
    have hWide : x.kind ≠ .int32 := by rw [hKind]; decide
    have hType : lv.type_ = .int64 := (type_eq_iff hLeft .int64).mpr hKind
    rw [hKind, NumberKind.width] at hQuotient
    rw [hKind] at hFits
    rw [calculDivideOperation, hType, int64_of_number? hLeft hWide, int64_of_number? hRight (mt hWidth.mpr hWide),
      hQuotient]
    exact ⟨_, rfl, rfl, hFits⟩
  | decimal =>
    have hWide : x.kind ≠ .int32 := by rw [hKind]; decide
    have hType : lv.type_ = .decimal := (type_eq_iff hLeft .decimal).mpr hKind
    rw [hKind, NumberKind.width] at hQuotient
    rw [hKind] at hFits
    rw [calculDivideOperation, hType, int64_of_number? hLeft hWide, int64_of_number? hRight (mt hWidth.mpr hWide),
      hQuotient]
    exact ⟨_, rfl, rfl, hFits⟩

/-- What an operation on two values makes of their numbers. -/
theorem BinaryOperator.apply_number (u : KValue) {operator : BinaryOperator} (hLeft : lv.number? = some x)
    (hRight : rv.number? = some y) (hx : x.InRange) (h : operator.onNumbers x y = some z)
    (hDefined : operator = .divide → QuotientDefined x y) :
    ∃ v, operator.apply u lv rv = some v ∧ v.number? = some z ∧ z.InRange := by
  cases operator with
  | plus => exact ⟨_, rfl, by rw [number?_calculPlusOperation u rv hLeft]; exact sumNumber_of_sumOf hLeft hRight h⟩
  | minus => exact ⟨_, rfl, by rw [number?_calculMinusOperation u rv hLeft]; exact sumNumber_of_sumOf hLeft hRight h⟩
  | multiple => exact ⟨_, rfl, number?_multiple_of_productOf u hLeft hRight h⟩
  | divide => exact calculDivideOperation_of_quotientOf u hLeft hRight h hx (hDefined rfl)
  | equal => cases h
  | notEqual => cases h

theorem BinaryOperator.exists_apply (u : KValue) {operator : BinaryOperator} (h : operator ≠ .divide) (lv rv : KValue) :
    ∃ v, operator.apply u lv rv = some v := by
  cases operator with
  | divide => exact absurd rfl h
  | _ => exact ⟨_, rfl⟩

end Operations

section Expressions
variable (numbers : Leaf → Number)

def numberOf : Expression → Option Number
  | .leaf leaf => some (numbers leaf)
  | .node operator left right => do
    let x ← numberOf left
    let y ← numberOf right
    operator.onNumbers x y

/-- Every division has a number, defined or not: its operands are numbers of one width. -/
def DivisionsNumeric : Expression → Prop
  | .leaf _ => True
  | .node operator left right =>
    DivisionsNumeric left ∧ DivisionsNumeric right ∧
      (operator = .divide → (numberOf numbers (.node operator left right)).isSome)

/-- No divisor is zero, and no quotient is too large for its type. -/
def QuotientsDefined : Expression → Prop
  | .leaf _ => True
  | .node operator left right =>
    QuotientsDefined left ∧ QuotientsDefined right ∧
      (operator = .divide → ∀ x y, numberOf numbers left = some x → numberOf numbers right = some y →
        QuotientDefined x y)

end Expressions

section Evaluation
variable {numbers : Leaf → Number} {u : KValue} {row : Mem} {offsets : List Int} {s : SchemaInfo}

theorem numberOf_node_eq_some {operator : BinaryOperator} {left right : Expression} {z : Number}
    (h : numberOf numbers (.node operator left right) = some z) :
    ∃ x y, numberOf numbers left = some x ∧ numberOf numbers right = some y ∧ operator.onNumbers x y = some z := by
  obtain ⟨x, hx, hRest⟩ := Option.bind_eq_some_iff.mp h
  obtain ⟨y, hy, hz⟩ := Option.bind_eq_some_iff.mp hRest
  exact ⟨x, y, hx, hy, hz⟩

/-- The expression has a value, with the number `x` if there is one, and the schema is not changed. -/
def EvaluatesTo (u : KValue) (row : Mem) (offsets : List Int) (s : SchemaInfo) (e : Expression) (x : Option Number) :
    Prop :=
  ∃ v, (expressionValue u row offsets e).run s = some (v, s) ∧ ∀ n ∈ x, v.number? = some n ∧ n.InRange

theorem evaluatesTo_numberOf {e : Expression}
    (hLeaves : ∀ leaf, .leaf leaf ∈ e.tokens → EvaluatesTo u row offsets s (.leaf leaf) (some (numbers leaf)))
    (hNumeric : DivisionsNumeric numbers e) (hDefined : QuotientsDefined numbers e) :
    EvaluatesTo u row offsets s e (numberOf numbers e) := by
  induction e with
  | leaf leaf => exact hLeaves leaf (List.mem_singleton_self _)
  | node operator left right ihLeft ihRight =>
    obtain ⟨hNumericLeft, hNumericRight, hNumericHere⟩ := hNumeric
    obtain ⟨hDefinedLeft, hDefinedRight, hDefinedHere⟩ := hDefined
    simp only [Term.tokens, List.mem_append] at hLeaves
    obtain ⟨lv, hLeft, hLeftNumber⟩ := ihLeft (fun leaf h => hLeaves leaf (Or.inl h)) hNumericLeft hDefinedLeft
    obtain ⟨rv, hRight, hRightNumber⟩ :=
      ihRight (fun leaf h => hLeaves leaf (Or.inr (Or.inl h))) hNumericRight hDefinedRight
    have hApply : ∃ v, operator.apply u lv rv = some v ∧
        ∀ n ∈ numberOf numbers (.node operator left right), v.number? = some n ∧ n.InRange := by
      cases hNumber : numberOf numbers (.node operator left right) with
      | none =>
        rw [hNumber] at hNumericHere
        obtain ⟨v, hv⟩ := BinaryOperator.exists_apply u (fun hDivide => absurd (hNumericHere hDivide) (by decide)) lv rv
        exact ⟨v, hv, fun n hn => by cases hn⟩
      | some z =>
        obtain ⟨x, y, hx, hy, hz⟩ := numberOf_node_eq_some hNumber
        obtain ⟨hxValue, hxRange⟩ := hLeftNumber x hx
        obtain ⟨v, hv, hvNumber⟩ := BinaryOperator.apply_number u hxValue (hRightNumber y hy).1 hxRange hz
          fun hDivide => hDefinedHere hDivide x y hx hy
        exact ⟨v, hv, fun n hn => by cases hn; exact hvNumber⟩
    obtain ⟨v, hv, hvNumber⟩ := hApply
    refine ⟨v, eval_node_eq_some_iff.mpr ⟨lv, s, hLeft, rv, s, hRight, ?_⟩, hvNumber⟩
    rw [applyValue, hv]
    rfl

end Evaluation

end CsdWorker
