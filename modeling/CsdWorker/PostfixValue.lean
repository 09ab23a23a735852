import CsdWorker.Lib.Postfix
import CsdWorker.Evaluation

/-! # Postfix expressions

`get_postfix_value` as the stack machine of postfix notation. An expression is a tree over columns and literals;
its operand is the sequence of its tokens.
-/

namespace CsdWorker

open Memory Postfix

set_option autoImplicit false

/-- A column or a literal. -/
structure Leaf where
  type : KetiValueType
  text : Bytes
  type_ne : type ≠ .operator

inductive BinaryOperator where
  | plus | minus | multiple | divide | equal | notEqual
  deriving DecidableEq, Repr

abbrev Expression := Term Leaf BinaryOperator

abbrev ExpressionToken := Token Leaf BinaryOperator

namespace BinaryOperator

def text : BinaryOperator → Bytes
  | plus => bytesOf "+"
  | minus => bytesOf "-"
  | multiple => bytesOf "*"
  | divide => bytesOf "/"
  | equal => bytesOf "="
  | notEqual => bytesOf "<>"

def apply (u : KValue) : BinaryOperator → KValue → KValue → Option KValue
  | plus, lv, rv => some (calculPlusOperation u lv rv)
  | minus, lv, rv => some (calculMinusOperation u lv rv)
  | multiple, lv, rv => some (calculMultipleOperation u lv rv)
  | divide, lv, rv => calculDivideOperation u lv rv
  | equal, lv, rv => some (calculEqualOperation u lv rv false)
  | notEqual, lv, rv => some (calculNotEqualOperation u lv rv)

theorem applyOperator_text (u : KValue) (operator : BinaryOperator) (lv rv : KValue) :
    applyOperator u operator.text lv rv = operator.apply u lv rv := by
  cases operator <;> rfl

end BinaryOperator

/-- An operand as its tokens, each a type and a text. -/
def operandOf (tokens : List (KetiValueType × Bytes)) : Operand := ⟨tokens.map Prod.fst, tokens.map Prod.snd⟩

def spell : ExpressionToken → KetiValueType × Bytes
  | .leaf leaf => (leaf.type, leaf.text)
  | .operator operator => (.operator, operator.text)

def postfixOperand (tokens : List ExpressionToken) : Operand := operandOf (tokens.map spell)

section Evaluation
variable (u : KValue) (row : Mem) (offsets : List Int)

def Leaf.value (leaf : Leaf) : Eval KValue :=
  if leaf.type = .column then getColumnValue u row ⟨[leaf.type], [leaf.text]⟩ offsets 0
  else getLiteralValue u ⟨[leaf.type], [leaf.text]⟩ 0

def applyValue (operator : BinaryOperator) (lv rv : KValue) : Eval KValue := liftM (operator.apply u lv rv)

/-- The value of an expression: that of its left part, that of its right part, and the operation on both. -/
def expressionValue (e : Expression) : Eval KValue := e.eval (Leaf.value u row offsets) (applyValue u)

def runTokens (tokens : List ExpressionToken) (stack : List KValue) : Eval (List KValue) :=
  Postfix.run failure (Leaf.value u row offsets) (applyValue u) tokens stack

theorem getElem?_operandOf (before after : List (KetiValueType × Bytes)) (token : KetiValueType × Bytes) :
    (operandOf (before ++ token :: after)).types[before.length]? = some token.1 ∧
      (operandOf (before ++ token :: after)).values[before.length]? = some token.2 := by
  simp [operandOf]

theorem token_value (leaf : Leaf) {operand : Operand} {index : Nat} (hType : operand.types[index]? = some leaf.type)
    (hValue : operand.values[index]? = some leaf.text) :
    (if leaf.type = .column then getColumnValue u row operand offsets index else getLiteralValue u operand index) =
      leaf.value u row offsets := by
  simp only [Leaf.value, getColumnValue, getLiteralValue, hType, hValue]
  rfl

/-- From any position on, the loop is the machine on the tokens that are left. -/
theorem getPostfixValueFrom_eq (before : List (KetiValueType × Bytes)) (tokens : List ExpressionToken)
    (after : List (KetiValueType × Bytes)) (stack : List KValue) :
    getPostfixValueFrom u row (operandOf (before ++ (tokens.map spell ++ after))) offsets tokens.length before.length
      stack =
      runTokens u row offsets tokens stack := by
  induction tokens generalizing before stack with
  | nil => rfl
  | cons token tokens ih =>
    have hNext := fun stack => ih (before ++ [spell token]) stack
    simp only [List.append_assoc, List.singleton_append, List.length_append, List.length_singleton] at hNext
    rw [List.map_cons, List.cons_append, List.length_cons, getPostfixValueFrom]
    obtain ⟨hType, hValue⟩ := getElem?_operandOf before (tokens.map spell ++ after) (spell token)
    rw [hType, hValue, lift_some_bind, lift_some_bind]
    cases token with
    | leaf leaf =>
      change (if leaf.type = .operator then _ else _ : Eval (List KValue)) = _
      rw [if_neg leaf.type_ne, runTokens, Postfix.run, ← token_value u row offsets leaf hType hValue]
      change (if leaf.type = .column then _ else _) = (if leaf.type = .column then _ else _) >>= _
      split
      · exact bind_congr fun median => hNext (median :: stack)
      · exact bind_congr fun median => hNext (median :: stack)
    | operator operator =>
      rw [if_pos (show (spell (.operator operator)).1 = .operator from rfl)]
      cases stack with
      | nil => rfl
      | cons rv stack =>
        cases stack with
        | nil => rfl
        | cons lv stack =>
          rw [runTokens, Postfix.run, applyValue, ← BinaryOperator.applyOperator_text]
          exact bind_congr fun median => hNext (median :: stack)

theorem getPostfixValue_eq (tokens : List ExpressionToken) :
    getPostfixValue u row (postfixOperand tokens) offsets = (do
      let stack ← runTokens u row offsets tokens []
      liftM stack.head?) := by
  have hLoop := getPostfixValueFrom_eq u row offsets [] tokens [] []
  rw [List.nil_append, List.append_nil] at hLoop
  rw [getPostfixValue, postfixOperand, operandOf, List.length_map, List.length_map, ← operandOf, ← hLoop]
  rfl

/-- The expressions in front are evaluated and left below on the stack. -/
theorem getPostfixValue_expressions (before : List Expression) (e : Expression) :
    getPostfixValue u row (postfixOperand (before.flatMap Term.tokens ++ e.tokens)) offsets = (do
      let _ ← pushAll (Leaf.value u row offsets) (applyValue u) before []
      expressionValue u row offsets e) := by
  rw [getPostfixValue_eq, runTokens, run_flatMap_tokens_append, bind_assoc]
  refine bind_congr fun below => ?_
  rw [run_tokens, bind_assoc]
  exact bind_pure (expressionValue u row offsets e)

/-- A sequence that begins with a column or a literal is evaluated on the stack, also if it is a single token. -/
theorem calculOperandValue_leaf_cons (leaf : Leaf) (tokens : List ExpressionToken) :
    calculOperandValue u row (postfixOperand (.leaf leaf :: tokens)) offsets none =
      getPostfixValue u row (postfixOperand (.leaf leaf :: tokens)) offsets := by
  change (if (postfixOperand (.leaf leaf :: tokens)).types.length = 1 then
    if leaf.type = .column then _ else _ else if leaf.type = .operator then _ else _ : Eval KValue) = _
  rw [if_neg leaf.type_ne]
  split
  · rename_i hOne
    obtain rfl : tokens = [] := by simpa [postfixOperand, operandOf] using hOne
    rw [token_value u row offsets leaf rfl rfl]
    exact (getPostfixValue_expressions u row offsets [] (.leaf leaf)).symm
  · rfl

theorem calculOperandValue_expressions (before : List Expression) (e : Expression) :
    calculOperandValue u row (postfixOperand (before.flatMap Term.tokens ++ e.tokens)) offsets none = (do
      let _ ← pushAll (Leaf.value u row offsets) (applyValue u) before []
      expressionValue u row offsets e) := by
  have hFirst : ∃ leaf rest, before.flatMap Term.tokens ++ e.tokens = .leaf leaf :: rest := by
    cases before with
    | nil => exact e.tokens_eq_leaf_cons
    | cons b before =>
      obtain ⟨leaf, rest, hb⟩ := b.tokens_eq_leaf_cons
      exact ⟨leaf, rest ++ before.flatMap Term.tokens ++ e.tokens, by rw [List.flatMap_cons, hb]; rfl⟩
  obtain ⟨leaf, rest, hTokens⟩ := hFirst
  rw [← getPostfixValue_expressions, hTokens]
  exact calculOperandValue_leaf_cons u row offsets leaf rest

theorem query_expressionValue (e : Expression) : Query (expressionValue u row offsets e) (LeavesUnset u) := by
  induction e with
  | leaf leaf => exact query_token u row _ offsets leaf.type 0
  | node operator left right ihLeft ihRight =>
    refine Query.bind ihLeft fun lv _ => ?_
    refine Query.bind ihRight fun rv _ => ?_
    refine Query.lift fun v hv => ?_
    rw [← BinaryOperator.applyOperator_text] at hv
    exact leavesUnset_applyOperator u lv rv hv

theorem query_pushAll_bind {m : Eval KValue} {P : KValue → Prop} (hm : Query m P) (before : List Expression)
    (stack : List KValue) :
    Query (do let _ ← pushAll (Leaf.value u row offsets) (applyValue u) before stack; m) P := by
  induction before generalizing stack with
  | nil => exact hm
  | cons b before ih =>
    rw [pushAll, bind_assoc]
    exact Query.bind (query_expressionValue u row offsets b) fun x _ => ih (x :: stack)

theorem run'_pushAll_bind {m : Eval KValue} {P : KValue → Prop} (hm : Query m P) {before : List Expression}
    {s : SchemaInfo} (h : ∀ b ∈ before, ((expressionValue u row offsets b).run' s).isSome) (stack : List KValue) :
    (do let _ ← pushAll (Leaf.value u row offsets) (applyValue u) before stack; m : Eval KValue).run' s = m.run' s := by
  induction before generalizing stack with
  | nil => rfl
  | cons b before ih =>
    obtain ⟨hFirst, hRest⟩ := List.forall_mem_cons.mp h
    obtain ⟨x, hx⟩ := Option.isSome_iff_exists.mp hFirst
    have hNext := query_pushAll_bind u row offsets hm before (x :: stack)
    rw [pushAll, bind_assoc]
    exact (Query.run'_bind_of_eq_some (query_expressionValue u row offsets b) (f := fun x => do
      let _ ← pushAll (Leaf.value u row offsets) (applyValue u) before (x :: stack)
      m) hNext hx).trans (ih hRest (x :: stack))

/-- Whenever the loop comes to an operator, there are two values on the stack. -/
def NeverUnderflows (operand : Operand) : Prop :=
  ∀ k stack s s', operand.types[k]? = some .operator →
    (getPostfixValueFrom u row operand offsets k 0 []).run s = some (stack, s') → 2 ≤ stack.length

/-- A position of type `OPERATOR` is that of an operator of the expression. -/
theorem split_of_operator {tokens : List ExpressionToken} {k : Nat}
    (h : (postfixOperand tokens).types[k]? = some .operator) :
    ∃ operator before after, tokens = before ++ .operator operator :: after ∧ before.length = k := by
  rw [postfixOperand, operandOf, List.getElem?_map, List.getElem?_map, Option.map_map] at h
  obtain ⟨token, hToken, hType⟩ := Option.map_eq_some_iff.mp h
  obtain ⟨before, after, hSplit, hLength⟩ := exists_split_of_getElem? hToken
  cases token with
  | leaf leaf => exact absurd hType leaf.type_ne
  | operator operator => exact ⟨operator, before, after, hSplit, hLength⟩

/-- The first tokens alone: the loop up to position `before.length`. -/
theorem getPostfixValueFrom_before (before after : List ExpressionToken) :
    getPostfixValueFrom u row (postfixOperand (before ++ after)) offsets before.length 0 [] =
      runTokens u row offsets before [] := by
  have hLoop := getPostfixValueFrom_eq u row offsets [] before (after.map spell) []
  rwa [List.nil_append, ← List.map_append] at hLoop

theorem neverUnderflows_expressions (expressions : List Expression) :
    NeverUnderflows u row offsets (postfixOperand (expressions.flatMap Term.tokens)) := by
  intro k stack s s' hType hRun
  obtain ⟨operator, before, after, hTokens, rfl⟩ := split_of_operator hType
  have hHeight := height_flatMap_tokens expressions 0
  rw [hTokens] at hHeight hRun
  obtain ⟨n, hBefore⟩ := height_before_operator hHeight
  rw [getPostfixValueFrom_before, runTokens] at hRun
  have hStart : height ([] : List KValue).length before = some (n + 2) := hBefore
  rw [height_of_run hStart hRun]
  omega

end Evaluation

/-- The operand of an expression has the value of the expression. Complete expressions in front of it change nothing as
long as they can be evaluated at all, and no operator is short of values. -/
theorem calculOperandValue_eq_expressionValue (u : KValue) (row : Mem) (offsets : List Int) (e : Expression) :
    calculOperandValue u row (postfixOperand e.tokens) offsets none = expressionValue u row offsets e ∧
      ∀ before : List Expression,
        NeverUnderflows u row offsets (postfixOperand (before.flatMap Term.tokens ++ e.tokens)) ∧
          ∀ s, (∀ b ∈ before, ((expressionValue u row offsets b).run' s).isSome) →
            (calculOperandValue u row (postfixOperand (before.flatMap Term.tokens ++ e.tokens)) offsets none).run' s =
              (expressionValue u row offsets e).run' s := by
  refine ⟨calculOperandValue_expressions u row offsets [] e, fun before => ⟨?_, ?_⟩⟩
  · have hAll := neverUnderflows_expressions u row offsets (before ++ [e])
    rwa [List.flatMap_append, List.flatMap_singleton] at hAll
  · intro s hBefore
    rw [calculOperandValue_expressions]
    exact run'_pushAll_bind u row offsets (query_expressionValue u row offsets e) hBefore []

/-- A line of an order: its quantity and its discount, both `INT32`. -/
def lineSchema : SchemaInfo :=
  { columnName := [bytesOf "quantity", bytesOf "discount"], columnOffset := [0, 4, 8], columnLength := [4, 4],
    columnType := [.int32, .int32], columnIndexMap := [(bytesOf "quantity", 0), (bytesOf "discount", 1)],
    pkColumn := [], tableIndexNumber := 0, hasVarChar := false }

def lineRow (quantity discount : UInt8) : Bytes := [quantity, 0, 0, 0, discount, 0, 0, 0]

theorem column_ne_operator : KetiValueType.column ≠ .operator := by decide

theorem int32_ne_operator : KetiValueType.int32 ≠ .operator := by decide

def columnLeaf (name : String) : Expression := .leaf ⟨.column, bytesOf name, column_ne_operator⟩

def intLeaf (text : String) : Expression := .leaf ⟨.int32, bytesOf text, int32_ne_operator⟩

def quantityIs (text : String) : Expression := .node .equal (columnLeaf "quantity") (intLeaf text)

def rebate : Expression := .node .multiple (columnLeaf "quantity") (.node .minus (intLeaf "10") (columnLeaf "discount"))

/-- `quantity * (10 - discount)` behind a comparison that is left over. -/
theorem rebate_behind_comparison :
    ((calculOperandValue KValue.zero (ofBytes (lineRow 5 3)) (postfixOperand
      ([quantityIs "7"].flatMap Term.tokens ++ rebate.tokens)) [0, 4, 8] none).run' lineSchema).map KValue.int_ =
        some 35 := by
  rw [((calculOperandValue_eq_expressionValue KValue.zero (ofBytes (lineRow 5 3)) [0, 4, 8] rebate).2
    [quantityIs "7"]).2 lineSchema
    (List.forall_mem_singleton.mpr (by decide))]
  decide

end CsdWorker
