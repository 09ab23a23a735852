import CsdWorker.ExpressionNumber

/-! # Division in postfix expressions

`calcul_divide_operation` divides integers without a look at the divisor. A division by zero, and the one whose
quotient does not fit, end the process. Whether a row comes to such a division is decided by the numbers that the
columns and the literals of the expression stand for.
-/

namespace CsdWorker

open Memory Endian Postfix RowLayout

set_option autoImplicit false

/-- The type of the left value selects the members; a division of floating-point numbers is always defined. -/
def DividesBadly (lv rv : KValue) : Prop :=
  match lv.type_ with
  | .int32 => rv.int_ = 0 ∨ (lv.int_ = -2 ^ 31 ∧ rv.int_ = -1)
  | .int64 | .decimal => rv.int64_ = 0 ∨ (lv.int64_ = -2 ^ 63 ∧ rv.int64_ = -1)
  | _ => False

theorem divideInt_eq_none {width : Nat} {least a b : Int} (hLeast : wrap width (-least) ≠ -least)
    (h : b = 0 ∨ (a = least ∧ b = -1)) : divideInt width a b = none := by
  rw [divideInt]
  obtain hZero | ⟨rfl, rfl⟩ := h
  · exact if_pos (Or.inl hZero)
  · refine if_pos (Or.inr ?_)
    rwa [Int.tdiv_neg, Int.tdiv_one]

theorem calculDivideOperation_of_dividesBadly (u : KValue) {lv rv : KValue} (h : DividesBadly lv rv) :
    calculDivideOperation u lv rv = none := by
  rw [DividesBadly] at h
  rw [calculDivideOperation]
  cases hType : lv.type_ with
  | int32 =>
    rw [hType] at h
    rw [divideInt_eq_none (by decide) h]
    rfl
  | int64 | decimal =>
    rw [hType] at h
    rw [divideInt_eq_none (by decide) h]
    rfl
  | _ =>
    rw [hType] at h
    cases h

section Evaluation
variable (u : KValue) (row : Mem) (offsets : List Int)

/-- No division that the loop of `get_postfix_value` comes to is one that traps. -/
def DividesSafely (operand : Operand) (s : SchemaInfo) : Prop :=
  ∀ k lv rv rest s', operand.types[k]? = some .operator → operand.values[k]? = some (bytesOf "/") →
    (getPostfixValueFrom u row operand offsets k 0 []).run s = some (rv :: lv :: rest, s') → ¬DividesBadly lv rv

def ComesToDivide (e : Expression) (s : SchemaInfo) (lv rv : KValue) : Prop :=
  e.Applies (Leaf.value u row offsets) (applyValue u) s .divide lv rv

/-- A division that traps ends the evaluation of every expression around it. -/
theorem expressionValue_of_dividesBadly {e : Expression} {s : SchemaInfo} {lv rv : KValue}
    (hComes : ComesToDivide u row offsets e s lv rv) (hBad : DividesBadly lv rv) :
    (expressionValue u row offsets e).run s = none := by
  rw [Option.eq_none_iff_forall_ne_some]
  rintro ⟨v, t⟩ hEval
  induction e generalizing s v t with
  | leaf leaf => exact hComes
  | node operator left right ihLeft ihRight =>
    obtain ⟨lv', t', hLeft, rv', t'', hRight, hApply⟩ := eval_node_eq_some_iff.mp hEval
    obtain hInLeft | ⟨lv'', t₁, hLeft', hInRight | ⟨rv'', t₂, hRight', rfl, rfl, rfl⟩⟩ := hComes
    · exact ihLeft hInLeft lv' t' hLeft
    · obtain ⟨rfl, rfl⟩ := Prod.mk.inj (Option.some_inj.mp (hLeft.symm.trans hLeft'))
      exact ihRight hInRight rv' t'' hRight
    · obtain ⟨rfl, rfl⟩ := Prod.mk.inj (Option.some_inj.mp (hLeft.symm.trans hLeft'))
      obtain ⟨rfl, rfl⟩ := Prod.mk.inj (Option.some_inj.mp (hRight.symm.trans hRight'))
      rw [applyValue, BinaryOperator.apply, calculDivideOperation_of_dividesBadly u hBad] at hApply
      cases hApply

theorem divide_of_text {operator : BinaryOperator} (h : operator.text = bytesOf "/") : operator = .divide := by
  cases operator with
  | divide => rfl
  | _ => exact absurd h (by decide)

/-- The position in the operand where the machine applies a division. -/
theorem comesToDivide_iff (e : Expression) (s : SchemaInfo) (lv rv : KValue) :
    ComesToDivide u row offsets e s lv rv ↔
      ∃ k rest s', (postfixOperand e.tokens).types[k]? = some .operator ∧
        (postfixOperand e.tokens).values[k]? = some (bytesOf "/") ∧
        (getPostfixValueFrom u row (postfixOperand e.tokens) offsets k 0 []).run s = some (rv :: lv :: rest, s') := by
  have hMachine : Applies failure (Leaf.value u row offsets) (applyValue u) e.tokens [] s .divide lv rv ↔
      ComesToDivide u row offsets e s lv rv := applies_tokens_iff e
  rw [← hMachine]
  constructor
  · rintro ⟨before, after, rest, s', hTokens, hRun⟩
    have hPosition := getElem?_operandOf (before.map spell) (after.map spell) (spell (.operator .divide))
    rw [List.length_map, ← List.map_cons, ← List.map_append, ← hTokens] at hPosition
    refine ⟨before.length, rest, s', hPosition.1, hPosition.2, ?_⟩
    rw [hTokens, getPostfixValueFrom_before]
    exact hRun
  · rintro ⟨k, rest, s', hType, hValue, hRun⟩
    obtain ⟨operator, before, after, hTokens, rfl⟩ := split_of_operator hType
    have hPosition := getElem?_operandOf (before.map spell) (after.map spell) (spell (.operator operator))
    rw [List.length_map, ← List.map_cons, ← List.map_append, ← hTokens] at hPosition
    obtain rfl := divide_of_text (Option.some_inj.mp (hPosition.2.symm.trans hValue))
    rw [hTokens, getPostfixValueFrom_before] at hRun
    exact ⟨before, after, rest, s', hTokens, hRun⟩

/-- One division that traps, and the evaluation does not come to a value. -/
theorem getPostfixValue_of_not_dividesSafely {e : Expression} {s : SchemaInfo}
    (h : ¬DividesSafely u row offsets (postfixOperand e.tokens) s) :
    (getPostfixValue u row (postfixOperand e.tokens) offsets).run' s = none := by
  simp only [DividesSafely, not_forall, not_not] at h
  obtain ⟨k, lv, rv, rest, s', hType, hValue, hRun, hBad⟩ := h
  have hComes := (comesToDivide_iff u row offsets e s lv rv).mpr ⟨k, rest, s', hType, hValue, hRun⟩
  have hNone := expressionValue_of_dividesBadly u row offsets hComes hBad
  have hValue := getPostfixValue_expressions u row offsets [] e
  rw [List.flatMap_nil, List.nil_append, pushAll, pure_bind] at hValue
  rw [hValue, StateT.run'_eq, hNone]
  rfl

end Evaluation

section Numbers
variable {numbers : Leaf → Number} {u : KValue} {row : Mem} {offsets : List Int} {s : SchemaInfo}

theorem not_dividesBadly_iff {lv rv : KValue} {x y : Number} (hLeft : lv.number? = some x)
    (hRight : rv.number? = some y) (hWidth : x.kind.width = y.kind.width) :
    ¬DividesBadly lv rv ↔ QuotientDefined x y := by
  rw [NumberKind.width_eq_iff] at hWidth
  have hBad : DividesBadly lv rv ↔ y.number = 0 ∨ (x.number = x.kind.least ∧ y.number = -1) := by
    rw [DividesBadly, (members_of_number? hLeft).1]
    cases hKind : x.kind with
    | int32 => rw [← int_of_number? hLeft hKind, ← int_of_number? hRight (hWidth.mp hKind)]; rfl
    | int64 | decimal =>
      have hWide : x.kind ≠ .int32 := by rw [hKind]; decide
      rw [← int64_of_number? hLeft hWide, ← int64_of_number? hRight (mt hWidth.mpr hWide)]
      rfl
  rw [hBad, not_or]
  exact ⟨fun h => ⟨h.1, h.2⟩, fun h => ⟨h.divisor, h.fits⟩⟩

theorem not_dividesBadly_iff_of_numberOf {left right : Expression} {lv rv : KValue} {x y : Number}
    (hNumeric : (numberOf numbers (.node .divide left right)).isSome) (hx : numberOf numbers left = some x)
    (hy : numberOf numbers right = some y) (hLeft : lv.number? = some x) (hRight : rv.number? = some y) :
    ¬DividesBadly lv rv ↔ QuotientDefined x y := by
  obtain ⟨z, hz⟩ := Option.isSome_iff_exists.mp hNumeric
  obtain ⟨x', y', hx', hy', hz⟩ := numberOf_node_eq_some hz
  obtain rfl := Option.some_inj.mp (hx.symm.trans hx')
  obtain rfl := Option.some_inj.mp (hy.symm.trans hy')
  exact not_dividesBadly_iff hLeft hRight (Option.ite_none_right_eq_some.mp hz).1

/-- By induction on the expression: a part is evaluated if its own divisions are defined, and then has its number. -/
theorem forall_comesToDivide_iff {e : Expression}
    (hLeaves : ∀ leaf, .leaf leaf ∈ e.tokens → EvaluatesTo u row offsets s (.leaf leaf) (some (numbers leaf)))
    (hNumeric : DivisionsNumeric numbers e) :
    (∀ lv rv, ComesToDivide u row offsets e s lv rv → ¬DividesBadly lv rv) ↔ QuotientsDefined numbers e := by
  induction e with
  | leaf leaf => exact iff_of_true (fun lv rv h => h.elim) trivial
  | node operator left right ihLeft ihRight =>
    obtain ⟨hNumericLeft, hNumericRight, hNumericHere⟩ := hNumeric
    simp only [Term.tokens, List.mem_append] at hLeaves
    have hLeavesLeft := fun leaf h => hLeaves leaf (Or.inl h)
    have hLeavesRight := fun leaf h => hLeaves leaf (Or.inr (Or.inl h))
    have hEvalLeft := evaluatesTo_numberOf hLeavesLeft hNumericLeft
    have hEvalRight := evaluatesTo_numberOf hLeavesRight hNumericRight
    constructor
    · intro hSafe
      have hLeft := (ihLeft hLeavesLeft hNumericLeft).mp fun lv rv h => hSafe lv rv (Or.inl h)
      obtain ⟨lv, hRunLeft, hLeftNumber⟩ := hEvalLeft hLeft
      have hRight := (ihRight hLeavesRight hNumericRight).mp fun lv' rv h =>
        hSafe lv' rv (Or.inr ⟨lv, s, hRunLeft, Or.inl h⟩)
      obtain ⟨rv, hRunRight, hRightNumber⟩ := hEvalRight hRight
      refine ⟨hLeft, hRight, ?_⟩
      rintro rfl x y hx hy
      rw [← not_dividesBadly_iff_of_numberOf (hNumericHere rfl) hx hy (hLeftNumber x hx).1 (hRightNumber y hy).1]
      exact hSafe lv rv (Or.inr ⟨lv, s, hRunLeft, Or.inr ⟨rv, s, hRunRight, rfl, rfl, rfl⟩⟩)
    · rintro ⟨hLeft, hRight, hQuotient⟩ lv rv hComes
      obtain ⟨lv', hRunLeft, hLeftNumber⟩ := hEvalLeft hLeft
      obtain ⟨rv', hRunRight, hRightNumber⟩ := hEvalRight hRight
      obtain hInLeft | ⟨lv'', t, hRun, hRest⟩ := hComes
      · exact (ihLeft hLeavesLeft hNumericLeft).mpr hLeft lv rv hInLeft
      obtain ⟨rfl, rfl⟩ := Prod.mk.inj (Option.some_inj.mp (hRunLeft.symm.trans hRun))
      obtain hInRight | ⟨rv'', t, hRun', rfl, rfl, rfl⟩ := hRest
      · exact (ihRight hLeavesRight hNumericRight).mpr hRight lv rv hInRight
      obtain ⟨rfl, rfl⟩ := Prod.mk.inj (Option.some_inj.mp (hRunRight.symm.trans hRun'))
      obtain ⟨z, hz⟩ := Option.isSome_iff_exists.mp (hNumericHere rfl)
      obtain ⟨x, y, hx, hy, -⟩ := numberOf_node_eq_some hz
      rw [not_dividesBadly_iff_of_numberOf (hNumericHere rfl) hx hy (hLeftNumber x hx).1 (hRightNumber y hy).1]
      exact hQuotient rfl x y hx hy

end Numbers

def share : Expression := .node .divide (columnLeaf "quantity") (columnLeaf "discount")

def lineColumns (quantity discount : UInt8) : List Column :=
  [⟨.int32, 4, [quantity, 0, 0, 0]⟩, ⟨.int32, 4, [discount, 0, 0, 0]⟩]

theorem lineRow_laidOut (quantity discount : UInt8) :
    SchemaRow lineSchema (lineColumns quantity discount) (lineRow quantity discount) where
  names := rfl
  types := rfl
  lengths := rfl
  offsets := by
    intro i (hi : i < 2)
    obtain rfl | rfl : i = 0 ∨ i = 1 := by omega
    · rfl
    · rfl
  stored := by
    simp [lineColumns, Column.Stored]
  row := rfl
  flag := by
    simp [FlagSet, lineColumns]
  closing := rfl

def lineNumbers (quantity discount : Int) (leaf : Leaf) : Number :=
  ⟨.int32, if leaf.text = bytesOf "quantity" then quantity else discount, 0⟩

end CsdWorker
