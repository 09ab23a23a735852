import CsdWorker.Lib.Connective
import CsdWorker.PostfixValue

/-! # CASE

`calcul_case_operation` on the tokens of a CASE. A condition that fails leaves its tokens behind, and the conditions of
the next branch are evaluated with these in front.
-/

namespace CsdWorker

open Memory Postfix

set_option autoImplicit false

def keywords : List Bytes :=
  [bytesOf "CASE", bytesOf "WHEN", bytesOf "THEN", bytesOf "ELSE", bytesOf "END", bytesOf "AND", bytesOf "OR"]

def Connective.word : Connective → Bytes
  | and => bytesOf "AND"
  | or => bytesOf "OR"

def words (e : Expression) : List (KetiValueType × Bytes) := e.tokens.map spell

/-- `WHEN first AND … THEN result`. A keyword has some type, as the planner gives it, that is never looked at. -/
structure Branch where
  connective : Connective
  whenType : KetiValueType
  first : Expression
  rest : List (KetiValueType × Expression)
  thenType : KetiValueType
  result : Expression

structure CaseExpression where
  caseType : KetiValueType
  branches : List Branch
  elseType : KetiValueType
  otherwise : Expression
  endType : KetiValueType

def chainWords (c : Connective) (first : Expression) (rest : List (KetiValueType × Expression)) :
    List (KetiValueType × Bytes) :=
  words first ++ rest.flatMap fun link => (link.1, c.word) :: words link.2

namespace Branch

def conditions (b : Branch) : List Expression := b.first :: b.rest.map Prod.snd

def chain (b : Branch) : List (KetiValueType × Bytes) := chainWords b.connective b.first b.rest

def words (b : Branch) : List (KetiValueType × Bytes) :=
  (b.whenType, bytesOf "WHEN") :: (b.chain ++ (b.thenType, bytesOf "THEN") :: CsdWorker.words b.result)

end Branch

namespace CaseExpression

def ending (c : CaseExpression) : List (KetiValueType × Bytes) :=
  (c.elseType, bytesOf "ELSE") :: (CsdWorker.words c.otherwise ++ [(c.endType, bytesOf "END")])

def words (c : CaseExpression) : List (KetiValueType × Bytes) :=
  (c.caseType, bytesOf "CASE") :: (c.branches.flatMap Branch.words ++ c.ending)

end CaseExpression

/-- No column or literal of the expression is spelled like a keyword. -/
def Plain (e : Expression) : Prop := ∀ leaf, Token.leaf leaf ∈ e.tokens → leaf.text ∉ keywords

structure Branch.Plain (b : Branch) : Prop where
  conditions : ∀ e ∈ b.conditions, CsdWorker.Plain e
  result : CsdWorker.Plain b.result

structure CaseExpression.Plain (c : CaseExpression) : Prop where
  branches : ∀ b ∈ c.branches, b.Plain
  otherwise : CsdWorker.Plain c.otherwise

section Meaning
variable (u : KValue) (row : Mem) (offsets : List Int) (s : SchemaInfo)

def conditionResult (e : Expression) : Option Bool := ((expressionValue u row offsets e).run' s).map KValue.bool_

def Branch.condition (b : Branch) : Option Bool :=
  b.connective.join (b.conditions.map (conditionResult u row offsets s))

/-- The value of the first branch whose condition holds, or of the expression behind ELSE. -/
def caseValue (otherwise : Expression) : List Branch → Option KValue
  | [] => (expressionValue u row offsets otherwise).run' s
  | b :: branches => do
    let passed ← b.condition u row offsets s
    if passed then (expressionValue u row offsets b.result).run' s else caseValue otherwise branches

end Meaning

theorem not_keyword_of_mem_words {e : Expression} (h : Plain e) {token : KetiValueType × Bytes}
    (hMem : token ∈ words e) :
    token.2 ∉ keywords := by
  obtain ⟨t, ht, rfl⟩ := List.mem_map.mp hMem
  cases t with
  | leaf leaf => exact h leaf ht
  | operator operator => cases operator <;> decide

section Offsets

/-- The words that the first loop takes note of. -/
def marks : List Bytes := [bytesOf "WHEN", bytesOf "THEN", bytesOf "ELSE"]

theorem marks_subset_keywords {word : Bytes} (h : word ∈ marks) : word ∈ keywords := by
  revert word
  decide

theorem caseOffsetsFrom_skip {tokens : List (KetiValueType × Bytes)} (h : ∀ token ∈ tokens, token.2 ∉ marks)
    (rest : List (KetiValueType × Bytes)) (i : Nat) (found : CaseOffsets) :
    caseOffsetsFrom ((tokens ++ rest).map Prod.snd) i found =
      caseOffsetsFrom (rest.map Prod.snd) (i + tokens.length) found := by
  induction tokens generalizing i with
  | nil => rfl
  | cons token tokens ih =>
    obtain ⟨hFirst, hRest⟩ := List.forall_mem_cons.mp h
    simp only [marks, List.mem_cons, List.not_mem_nil, or_false, not_or] at hFirst
    obtain ⟨hWhen, hThen, hElse⟩ := hFirst
    rw [List.cons_append, List.map_cons, caseOffsetsFrom, if_neg hWhen, if_neg hThen, if_neg hElse, ih hRest,
      List.length_cons]
    congr 1
    omega

theorem not_mark_of_mem_words {e : Expression} (h : Plain e) : ∀ token ∈ words e, token.2 ∉ marks :=
  fun _ hMem hMark => not_keyword_of_mem_words h hMem (marks_subset_keywords hMark)

theorem word_not_mark (c : Connective) : c.word ∉ marks := by
  cases c <;> decide

theorem not_mark_of_mem_chain {b : Branch} (h : b.Plain) : ∀ token ∈ b.chain, token.2 ∉ marks := by
  obtain ⟨hFirst, hRest⟩ := List.forall_mem_cons.mp h.conditions
  intro token hMem
  obtain hMem | hMem := List.mem_append.mp hMem
  · exact not_mark_of_mem_words hFirst token hMem
  · obtain ⟨link, hLink, hMem⟩ := List.mem_flatMap.mp hMem
    obtain rfl | hMem := List.mem_cons.mp hMem
    · exact word_not_mark b.connective
    · exact not_mark_of_mem_words (hRest link.2 (List.mem_map_of_mem hLink)) token hMem

/-- Where the branches have their WHEN and THEN if the first one starts at `i`. -/
def branchPositions : Nat → List Branch → List (Nat × Nat)
  | _, [] => []
  | i, b :: branches => (i, i + 1 + b.chain.length) :: branchPositions (i + b.words.length) branches

theorem caseOffsetsFrom_branches {branches : List Branch} (h : ∀ b ∈ branches, b.Plain)
    (rest : List (KetiValueType × Bytes)) (i : Nat) (found : CaseOffsets) :
    ∃ whenOffset, caseOffsetsFrom ((branches.flatMap Branch.words ++ rest).map Prod.snd) i found =
      caseOffsetsFrom (rest.map Prod.snd) (i + (branches.flatMap Branch.words).length)
        ⟨found.whenThen ++ branchPositions i branches, found.elseOffset, whenOffset⟩ := by
  induction branches generalizing i found with
  | nil => exact ⟨found.whenOffset, by rw [branchPositions, List.append_nil]; rfl⟩
  | cons b branches ih =>
    obtain ⟨hFirst, hRest⟩ := List.forall_mem_cons.mp h
    obtain ⟨whenOffset, hBranches⟩ := ih hRest (i + b.words.length)
      ⟨found.whenThen ++ [(i, i + 1 + b.chain.length)], found.elseOffset, some i⟩
    have hLength : i + 1 + b.chain.length + 1 + (words b.result).length = i + b.words.length := by
      rw [Branch.words, List.length_cons, List.length_append, List.length_cons]
      omega
    refine ⟨whenOffset, ?_⟩
    rw [List.flatMap_cons, List.append_assoc, Branch.words, List.cons_append, List.map_cons, caseOffsetsFrom,
      if_pos rfl, List.append_assoc, caseOffsetsFrom_skip (not_mark_of_mem_chain hFirst), List.cons_append,
      List.map_cons, caseOffsetsFrom, if_neg (show bytesOf "THEN" ≠ bytesOf "WHEN" by decide), if_pos rfl]
    change caseOffsetsFrom _ _ ⟨found.whenThen ++ [(i, i + 1 + b.chain.length)], found.elseOffset, some i⟩ = _
    rw [caseOffsetsFrom_skip (not_mark_of_mem_words hFirst.result), hLength, hBranches, ← Branch.words,
      List.length_append, Nat.add_assoc, branchPositions, List.append_assoc]
    rfl

theorem caseOffsetsFrom_words {c : CaseExpression} (h : c.Plain) :
    ∃ whenOffset, caseOffsetsFrom (operandOf c.words).values 0 ⟨[], none, none⟩ =
      some ⟨branchPositions 1 c.branches, some (1 + (c.branches.flatMap Branch.words).length), whenOffset⟩ := by
  obtain ⟨whenOffset, hBranches⟩ := caseOffsetsFrom_branches h.branches c.ending 1 ⟨[], none, none⟩
  have hCase : ∀ token ∈ [(c.caseType, bytesOf "CASE")], token.2 ∉ marks :=
    List.forall_mem_singleton.mpr (show bytesOf "CASE" ∉ marks by decide)
  have hEnd : ∀ token ∈ words c.otherwise ++ [(c.endType, bytesOf "END")], token.2 ∉ marks :=
    List.forall_mem_append.mpr ⟨not_mark_of_mem_words h.otherwise,
      List.forall_mem_singleton.mpr (show bytesOf "END" ∉ marks by decide)⟩
  have hSkip := caseOffsetsFrom_skip hEnd [] (1 + (c.branches.flatMap Branch.words).length + 1)
    ⟨branchPositions 1 c.branches, some (1 + (c.branches.flatMap Branch.words).length), whenOffset⟩
  rw [List.append_nil] at hSkip
  refine ⟨whenOffset, ?_⟩
  rw [operandOf, CaseExpression.words, ← List.singleton_append, caseOffsetsFrom_skip hCase, List.length_singleton,
    Nat.zero_add, hBranches, CaseExpression.ending, List.map_cons, caseOffsetsFrom,
    if_neg (show bytesOf "ELSE" ≠ bytesOf "WHEN" by decide), if_neg (show bytesOf "ELSE" ≠ bytesOf "THEN" by decide),
    if_pos rfl]
  exact hSkip

end Offsets

section Evaluation
variable (u : KValue) (row : Mem) (offsets : List Int) (s : SchemaInfo)

/-- The expressions can be evaluated, so they may stand in front of others. -/
def Evaluable (expressions : List Expression) : Prop :=
  ∀ e ∈ expressions, ((expressionValue u row offsets e).run' s).isSome

/-- The operand that holds the tokens of the expressions, one behind the other. -/
def sliceOf (expressions : List Expression) : Operand := postfixOperand (expressions.flatMap Term.tokens)

theorem run'_getPostfixValue_sliceOf {left : List Expression} (h : Evaluable u row offsets s left) (e : Expression) :
    (getPostfixValue u row (sliceOf (left ++ [e])) offsets).run' s = (expressionValue u row offsets e).run' s := by
  rw [sliceOf, List.flatMap_append, List.flatMap_singleton, getPostfixValue_expressions]
  exact run'_pushAll_bind u row offsets (query_expressionValue u row offsets e) h []

theorem operandOf_concat (collected : List (KetiValueType × Bytes)) (token : KetiValueType × Bytes) :
    operandOf (collected ++ [token]) =
      ⟨(operandOf collected).types ++ [token.1], (operandOf collected).values ++ [token.2]⟩ := by
  simp [operandOf]

section Condition
variable {operand : Operand} {n index : Nat} {sliced : Operand} {passed : Bool}

theorem caseCondition_connective {c : Connective} (h : operand.values[index]? = some c.word) :
    caseCondition u row operand offsets (n + 1) index sliced passed = (do
      let value ← getPostfixValue u row sliced offsets
      if value.bool_ = c.decisive then pure (sliced, c.decisive)
      else caseCondition u row operand offsets n (index + 1) ⟨[], []⟩ passed) := by
  rw [caseCondition, h, lift_some_bind]
  cases c with
  | and =>
    rw [if_pos (show Connective.and.word = bytesOf "AND" from rfl)]
    refine bind_congr fun value => ?_
    cases value.bool_ <;> rfl
  | or =>
    rw [if_neg (by decide), if_pos (show Connective.or.word = bytesOf "OR" from rfl)]
    refine bind_congr fun value => ?_
    cases value.bool_ <;> rfl

theorem caseCondition_then (h : operand.values[index]? = some (bytesOf "THEN")) :
    caseCondition u row operand offsets (n + 1) index sliced passed = (do
      let value ← getPostfixValue u row sliced offsets
      caseCondition u row operand offsets n (index + 1) sliced value.bool_) := by
  rw [caseCondition, h, lift_some_bind, if_neg (by decide), if_neg (by decide), if_pos rfl]

theorem caseCondition_collect (before after : List (KetiValueType × Bytes)) {tokens : List (KetiValueType × Bytes)}
    (h : ∀ token ∈ tokens, token.2 ∉ keywords) (collected : List (KetiValueType × Bytes)) :
    caseCondition u row (operandOf (before ++ (tokens ++ after))) offsets (tokens.length + n) before.length
        (operandOf collected) passed =
      caseCondition u row (operandOf (before ++ (tokens ++ after))) offsets n (before.length + tokens.length)
        (operandOf (collected ++ tokens)) passed := by
  induction tokens generalizing before collected with
  | nil => rw [List.length_nil, Nat.zero_add, List.append_nil]; rfl
  | cons token tokens ih =>
    obtain ⟨hFirst, hRest⟩ := List.forall_mem_cons.mp h
    obtain ⟨hType, hValue⟩ := getElem?_operandOf before (tokens ++ after) token
    have hNext := ih (before ++ [token]) hRest (collected ++ [token])
    simp only [List.append_assoc, List.singleton_append, List.length_append, List.length_singleton] at hNext
    have hAnd : token.2 ≠ bytesOf "AND" := fun hEq => hFirst (hEq ▸ by decide)
    have hOr : token.2 ≠ bytesOf "OR" := fun hEq => hFirst (hEq ▸ by decide)
    have hThen : token.2 ≠ bytesOf "THEN" := fun hEq => hFirst (hEq ▸ by decide)
    rw [List.cons_append, List.length_cons, Nat.add_right_comm, caseCondition, hValue, lift_some_bind, if_neg hAnd,
      if_neg hOr, if_neg hThen, hType, lift_some_bind]
    rw [← operandOf_concat, hNext, Nat.add_assoc, Nat.add_comm 1]

/-- The condition is collected behind what is left over, up to the word that follows. -/
theorem caseCondition_sliceOf (before after : List (KetiValueType × Bytes)) {e : Expression} (h : Plain e)
    (left : List Expression) :
    caseCondition u row (operandOf (before ++ (words e ++ after))) offsets ((words e).length + n) before.length
        (sliceOf left) passed =
      caseCondition u row (operandOf (before ++ (words e ++ after))) offsets n (before.length + (words e).length)
        (sliceOf (left ++ [e])) passed := by
  have hSlice : sliceOf (left ++ [e]) = operandOf ((left.flatMap Term.tokens).map spell ++ words e) := by
    rw [sliceOf, List.flatMap_append, List.flatMap_singleton, postfixOperand, List.map_append, words]
  rw [hSlice]
  exact caseCondition_collect u row offsets before after (fun token => not_keyword_of_mem_words h) _

end Condition

theorem chainWords_nil (c : Connective) (first : Expression) : chainWords c first [] = words first := by
  rw [chainWords, List.flatMap_nil, List.append_nil]

theorem chainWords_cons (c : Connective) (first : Expression) (link : KetiValueType × Expression)
    (rest : List (KetiValueType × Expression)) :
    chainWords c first (link :: rest) = words first ++ (link.1, c.word) :: chainWords c link.2 rest := by
  rw [chainWords, List.flatMap_cons, List.cons_append, chainWords]

theorem evaluable_append {left : List Expression} {e : Expression} {v : KValue} (hLeft : Evaluable u row offsets s left)
    (h : (expressionValue u row offsets e).run' s = some v) : Evaluable u row offsets s (left ++ [e]) :=
  List.forall_mem_append.mpr ⟨hLeft, List.forall_mem_singleton.mpr (by rw [h]; rfl)⟩

/-- A chain of conditions: what it comes to, and that what it leaves over can be evaluated again. -/
theorem run'_caseCondition_chain (c : Connective) (thenType : KetiValueType) (after : List (KetiValueType × Bytes))
    {rest : List (KetiValueType × Expression)} {first : Expression} (hPlain : ∀ e ∈ first :: rest.map Prod.snd, Plain e)
    {left : List Expression} (hLeft : Evaluable u row offsets s left) (before : List (KetiValueType × Bytes))
    (passed : Bool) :
    ∃ left', Evaluable u row offsets s left' ∧
      (caseCondition u row (operandOf (before ++ (chainWords c first rest ++ (thenType, bytesOf "THEN") :: after)))
        offsets ((chainWords c first rest).length + 1) before.length (sliceOf left) passed).run' s =
          (c.join ((first :: rest.map Prod.snd).map (conditionResult u row offsets s))).map fun b =>
            (sliceOf left', b) := by
  induction rest generalizing first left before passed with
  | nil =>
    have hFirst := hPlain first List.mem_cons_self
    have hThen := (getElem?_operandOf (before ++ words first) after (thenType, bytesOf "THEN")).2
    rw [List.append_assoc, List.length_append] at hThen
    rw [chainWords_nil, caseCondition_sliceOf u row offsets before _ hFirst, caseCondition_then u row offsets hThen,
      Query.run'_bind (query_getPostfixValue u row _ offsets) fun value _ =>
        query_caseCondition u row _ offsets 0 _ _ _,
      run'_getPostfixValue_sliceOf u row offsets s hLeft, List.map_nil, List.map_singleton, Connective.join_singleton,
      conditionResult]
    cases hValue : (expressionValue u row offsets first).run' s with
    | none => exact ⟨left, hLeft, rfl⟩
    | some v => exact ⟨left ++ [first], evaluable_append u row offsets s hLeft hValue, rfl⟩
  | cons link rest ih =>
    obtain ⟨hFirst, hRest⟩ := List.forall_mem_cons.mp hPlain
    have hWord :=
      (getElem?_operandOf (before ++ words first) (chainWords c link.2 rest ++ (thenType, bytesOf "THEN") :: after)
      (link.1, c.word)).2
    rw [List.append_assoc, List.length_append] at hWord
    -- behind the connective the collection starts anew
    have hNone : Evaluable u row offsets s [] := fun e he => by cases he
    obtain ⟨left', hLeft', hNext⟩ := ih hRest hNone (before ++ words first ++ [(link.1, c.word)]) passed
    simp only [List.append_assoc, List.singleton_append, List.length_append, List.length_singleton] at hNext
    have hLength : (words first ++ (link.1, c.word) :: chainWords c link.2 rest).length + 1 =
        (words first).length + ((chainWords c link.2 rest).length + 1 + 1) := by
      rw [List.length_append, List.length_cons, Nat.add_assoc]
    rw [chainWords_cons, hLength, List.append_assoc, List.cons_append,
      caseCondition_sliceOf u row offsets before _ hFirst, caseCondition_connective u row offsets hWord,
      Query.run'_bind (Q := fun _ => True) (query_getPostfixValue u row _ offsets) fun value _ => by
        split
        · exact Query.pure trivial
        · exact query_caseCondition u row _ offsets _ _ _ _,
      run'_getPostfixValue_sliceOf u row offsets s hLeft, List.map_cons, conditionResult]
    cases hValue : (expressionValue u row offsets first).run' s with
    | none => exact ⟨left, hLeft, rfl⟩
    | some v =>
      rw [Option.bind_some, Option.map_some]
      by_cases hDecides : v.bool_ = c.decisive
      · rw [if_pos hDecides, hDecides, Connective.join_decisive]
        exact ⟨left ++ [first], evaluable_append u row offsets s hLeft hValue, rfl⟩
      · rw [if_neg hDecides, Bool.eq_not.mpr hDecides, Connective.join_not_decisive]
        exact ⟨left', hLeft', hNext⟩

theorem collectUntil_eq {stop : List Bytes} (before after : List (KetiValueType × Bytes))
    {tokens : List (KetiValueType × Bytes)} (h : ∀ token ∈ tokens, token.2 ∉ stop) {last : KetiValueType × Bytes}
    (hLast : last.2 ∈ stop) (collected : List (KetiValueType × Bytes)) {n : Nat} (hn : tokens.length < n) :
    collectUntil (operandOf (before ++ (tokens ++ last :: after))) stop n before.length (operandOf collected) =
      some (operandOf (collected ++ tokens)) := by
  induction tokens generalizing before collected n with
  | nil =>
    obtain ⟨n, rfl⟩ := Nat.exists_eq_add_of_lt hn
    rw [List.nil_append, collectUntil, (getElem?_operandOf before after last).2, Option.bind_eq_bind, Option.bind_some,
      if_pos hLast, List.append_nil]
  | cons token tokens ih =>
    obtain ⟨hFirst, hRest⟩ := List.forall_mem_cons.mp h
    obtain ⟨m, rfl⟩ := Nat.exists_eq_add_of_lt hn
    obtain ⟨hType, hValue⟩ := getElem?_operandOf before (tokens ++ last :: after) token
    have hNext := ih (before ++ [token]) hRest (collected ++ [token]) (n := tokens.length + 1 + m) (by omega)
    simp only [List.append_assoc, List.singleton_append, List.length_append, List.length_singleton] at hNext
    rw [List.cons_append, List.length_cons, collectUntil, hValue, Option.bind_eq_bind, Option.bind_some, if_neg hFirst,
      hType, Option.bind_eq_bind, Option.bind_some, ← operandOf_concat]
    exact hNext

/-- The expression between two keywords is collected and evaluated on its own. -/
theorem collectUntil_words {stop : List Bytes} (hStop : ∀ word ∈ stop, word ∈ keywords)
    (before after : List (KetiValueType × Bytes)) {e : Expression} (h : Plain e) (last : KetiValueType × Bytes)
    (hLast : last.2 ∈ stop) :
    collectUntil (operandOf (before ++ (words e ++ last :: after))) stop
        (operandOf (before ++ (words e ++ last :: after))).values.length before.length ⟨[], []⟩ =
      some (sliceOf [e]) := by
  have hLength : (words e).length < (operandOf (before ++ (words e ++ last :: after))).values.length := by
    simp only [operandOf, List.length_map, List.length_append, List.length_cons]
    omega
  have hCollect := collectUntil_eq before after
    (fun token hMem hIn => not_keyword_of_mem_words h hMem (hStop _ hIn)) hLast [] hLength
  rw [sliceOf, List.flatMap_singleton]
  exact hCollect

theorem run'_getPostfixValue_single (e : Expression) :
    (getPostfixValue u row (sliceOf [e]) offsets).run' s = (expressionValue u row offsets e).run' s := by
  have hNone : Evaluable u row offsets s [] := fun e he => by cases he
  exact run'_getPostfixValue_sliceOf u row offsets s hNone e

/-- What follows a branch begins with a keyword that ends its result. -/
theorem branches_ending_eq_cons (branches : List Branch) (c : CaseExpression) :
    ∃ last after, branches.flatMap Branch.words ++ c.ending = last :: after ∧
      last.2 ∈ [bytesOf "WHEN", bytesOf "ELSE", bytesOf "END"] := by
  cases branches with
  | nil => exact ⟨_, _, rfl, show bytesOf "ELSE" ∈ _ by decide⟩
  | cons b branches => exact ⟨_, _, rfl, show bytesOf "WHEN" ∈ _ by decide⟩

/-- One turn of the loop over the branches, once its condition has been evaluated and its result collected. -/
theorem run'_caseBranches_cons {operand : Operand} {whenOffset thenOffset : Nat} {sliced sliced' : Operand}
    {condition : Option Bool} {e : Expression} (elseOffset : Option Nat) (positions : List (Nat × Nat))
    (hCondition : (caseCondition u row operand offsets (thenOffset - whenOffset) (whenOffset + 1) sliced false).run' s =
      condition.map fun b => (sliced', b))
    (hResult : collectUntil operand [bytesOf "WHEN", bytesOf "ELSE", bytesOf "END"] operand.values.length
      (thenOffset + 1)
      ⟨[], []⟩ = some (sliceOf [e])) :
    (caseBranches u row operand offsets elseOffset ((whenOffset, thenOffset) :: positions) sliced false).run' s =
      condition.bind fun passed => if passed then (expressionValue u row offsets e).run' s
        else (caseBranches u row operand offsets elseOffset positions sliced' false).run' s := by
  rw [caseBranches, Query.run'_bind (Q := fun _ => True) (query_caseCondition u row operand offsets _ _ _ _)
    fun p _ => by
    dsimp only
    split
    · exact Query.lift_bind fun sliced _ => (query_getPostfixValue u row sliced offsets).mono fun _ _ => trivial
    · exact (query_caseBranches u row operand offsets _ _ _ _).mono fun _ _ => trivial]
  rw [hCondition, Option.bind_map]
  refine Option.bind_congr fun b _ => ?_
  cases b with
  | true =>
    change (liftM (collectUntil operand _ operand.values.length (thenOffset + 1) ⟨[], []⟩) >>= fun sliced =>
      getPostfixValue u row sliced offsets : Eval KValue).run' s = _
    rw [hResult, lift_some_bind]
    exact run'_getPostfixValue_single u row offsets s e
  | false => rfl

theorem run'_caseBranches (c : CaseExpression) (hOtherwise : Plain c.otherwise) {branches : List Branch}
    (h : ∀ b ∈ branches, b.Plain) {left : List Expression} (hLeft : Evaluable u row offsets s left)
    (before : List (KetiValueType × Bytes)) :
    (caseBranches u row (operandOf (before ++ (branches.flatMap Branch.words ++ c.ending))) offsets
        (some (before.length + (branches.flatMap Branch.words).length)) (branchPositions before.length branches)
        (sliceOf left) false).run' s = caseValue u row offsets s c.otherwise branches := by
  induction branches generalizing left before with
  | nil =>
    have hStop : ∀ word ∈ [bytesOf "END"], word ∈ keywords := by decide
    have hCollect := collectUntil_words hStop (before ++ [(c.elseType, bytesOf "ELSE")]) [] hOtherwise
      (c.endType, bytesOf "END") List.mem_cons_self
    rw [List.append_assoc, List.singleton_append, List.length_append, List.length_singleton] at hCollect
    rw [branchPositions, caseBranches, lift_some_bind, List.flatMap_nil, List.nil_append, List.length_nil, Nat.add_zero,
      CaseExpression.ending, hCollect, lift_some_bind]
    exact run'_getPostfixValue_single u row offsets s c.otherwise
  | cons b branches ih =>
    obtain ⟨hb, hRest⟩ := List.forall_mem_cons.mp h
    obtain ⟨left', hLeft', hChain⟩ := run'_caseCondition_chain u row offsets s b.connective b.thenType
      (words b.result ++ (branches.flatMap Branch.words ++ c.ending)) hb.conditions hLeft
      (before ++ [(b.whenType, bytesOf "WHEN")]) false
    obtain ⟨last, after, hAfter, hLast⟩ := branches_ending_eq_cons branches c
    have hStop : ∀ word ∈ [bytesOf "WHEN", bytesOf "ELSE", bytesOf "END"], word ∈ keywords := by decide
    have hCollect := collectUntil_words hStop
      (before ++ (b.whenType, bytesOf "WHEN") :: (b.chain ++ [(b.thenType, bytesOf "THEN")])) after hb.result last hLast
    have hNext := ih hRest hLeft' (before ++ b.words)
    rw [← hAfter] at hCollect
    -- the same tokens seen from the condition, from the result and from the next branch
    have hFromChain : before ++ ((b :: branches).flatMap Branch.words ++ c.ending) =
        before ++ [(b.whenType, bytesOf "WHEN")] ++ (b.chain ++ (b.thenType, bytesOf "THEN") ::
          (words b.result ++ (branches.flatMap Branch.words ++ c.ending))) := by simp [Branch.words]
    have hFromResult : before ++ ((b :: branches).flatMap Branch.words ++ c.ending) =
        before ++ (b.whenType, bytesOf "WHEN") :: (b.chain ++ [(b.thenType, bytesOf "THEN")]) ++
          (words b.result ++ (branches.flatMap Branch.words ++ c.ending)) := by simp [Branch.words]
    have hFromNext : before ++ ((b :: branches).flatMap Branch.words ++ c.ending) =
        before ++ b.words ++ (branches.flatMap Branch.words ++ c.ending) := by simp
    have hThen : (before ++ (b.whenType, bytesOf "WHEN") :: (b.chain ++ [(b.thenType, bytesOf "THEN")])).length =
        before.length + 1 + b.chain.length + 1 := by simp; omega
    have hFuel : before.length + 1 + b.chain.length - before.length = b.chain.length + 1 := by omega
    rw [← Branch.chain, ← hFromChain, ← hFuel, List.length_append, List.length_singleton] at hChain
    rw [← hFromResult, hThen] at hCollect
    rw [← hFromNext, List.length_append, Nat.add_assoc, ← List.length_append, ← List.flatMap_cons] at hNext
    rw [branchPositions, run'_caseBranches_cons u row offsets s _ _ hChain hCollect, hNext]
    rfl

end Evaluation

/-- A CASE has the value of the first branch whose conditions hold, or of its ELSE. -/
theorem calculCaseOperation_eq_caseValue (u : KValue) (row : Mem) (offsets : List Int) (s : SchemaInfo)
    (c : CaseExpression) (hPlain : c.Plain) :
    (calculCaseOperation u row (operandOf c.words) offsets).run' s =
      caseValue u row offsets s c.otherwise c.branches := by
  obtain ⟨whenOffset, hFound⟩ := caseOffsetsFrom_words hPlain
  have hNone : Evaluable u row offsets s [] := fun e he => by cases he
  rw [calculCaseOperation, hFound, lift_some_bind]
  exact run'_caseBranches u row offsets s c hPlain.otherwise hPlain.branches hNone [(c.caseType, bytesOf "CASE")]

def discountIs (text : String) : Expression := .node .equal (columnLeaf "discount") (intLeaf text)

/-- `CASE WHEN quantity = 7 AND discount = 3 THEN 1 WHEN quantity = 5 THEN 2 ELSE 0 END` -/
def quantityCase : CaseExpression :=
  { caseType := .operator
    branches :=
      [⟨.and, .operator, quantityIs "7", [(.operator, discountIs "3")], .operator, intLeaf "1"⟩,
        ⟨.or, .operator, quantityIs "5", [], .operator, intLeaf "2"⟩]
    elseType := .operator, otherwise := intLeaf "0", endType := .operator }

theorem plain_intLeaf {text : String} (h : bytesOf text ∉ keywords) : Plain (intLeaf text) := by
  intro leaf hMem
  obtain rfl := Token.leaf.inj (List.mem_singleton.mp hMem)
  exact h

theorem plain_equal {name text : String} (hName : bytesOf name ∉ keywords) (hText : bytesOf text ∉ keywords) :
    Plain (.node .equal (columnLeaf name) (intLeaf text)) := by
  intro leaf hMem
  obtain hMem | hMem := List.mem_cons.mp hMem
  · obtain rfl := Token.leaf.inj hMem
    exact hName
  · obtain hMem | hMem := List.mem_cons.mp hMem
    · obtain rfl := Token.leaf.inj hMem
      exact hText
    · cases List.mem_singleton.mp hMem

/-- The tokens of the first condition are still there when the second branch is looked at. -/
theorem quantityCase_second_branch :
    ((calculCaseOperation KValue.zero (ofBytes (lineRow 5 3)) (operandOf quantityCase.words) [0, 4, 8]).run'
      lineSchema).map
      KValue.int_ = some 2 := by
  have hPlain : quantityCase.Plain := by
    refine ⟨List.forall_mem_cons.mpr ⟨⟨?_, plain_intLeaf (by decide)⟩, List.forall_mem_singleton.mpr ⟨?_, ?_⟩⟩, ?_⟩
    · exact List.forall_mem_cons.mpr ⟨plain_equal (by decide) (by decide),
        List.forall_mem_singleton.mpr (plain_equal (by decide) (by decide))⟩
    · exact List.forall_mem_singleton.mpr (plain_equal (by decide) (by decide))
    · exact plain_intLeaf (by decide)
    · exact plain_intLeaf (by decide)
  rw [calculCaseOperation_eq_caseValue KValue.zero (ofBytes (lineRow 5 3)) [0, 4, 8] lineSchema quantityCase hPlain]
  decide

end CsdWorker
