import CsdWorker.Lib.Inserting
import CsdWorker.Evaluation

/-! # Names that are looked up

`column_index_map[name]` inserts a name that is not there, into the schema that all workers share. An evaluation leaves
the schema as it is exactly if every name that it looks up is in the map.
-/

namespace CsdWorker

open Memory

set_option autoImplicit false

def Known (s : SchemaInfo) (name : Bytes) : Prop := (s.columnIndexMap.lookup name).isSome

instance (s : SchemaInfo) (name : Bytes) : Decidable (Known s name) := inferInstanceAs (Decidable (_ = true))

def NameKnown (s : SchemaInfo) (operand : Operand) (index : Nat) : Prop :=
  ∀ name, operand.values[index]? = some name → Known s name

def ColumnKnown (s : SchemaInfo) (operand : Operand) (index : Nat) : Prop :=
  operand.types[index]? = some .column → NameKnown s operand index

/-- The columns among the tokens are known. -/
def TokensKnown (s : SchemaInfo) (operand : Operand) : Prop := ∀ index, ColumnKnown s operand index

section Reached
variable (u : KValue) (row : Mem) (offsets : List Int) (s : SchemaInfo) (operand : Operand)

/-- The columns are known in the parts of a condition that the row reaches: `AND` goes on after a part that holds, `OR`
after one that does not. -/
def ConditionKnown : Nat → Nat → Operand → Prop
  | 0, _, _ => True
  | n + 1, index, sliced => ∀ token, operand.values[index]? = some token →
    if token = bytesOf "AND" then
      TokensKnown s sliced ∧ ∀ value, (getPostfixValue u row sliced offsets).run' s = some value →
        value.bool_ = true → ConditionKnown n (index + 1) ⟨[], []⟩
    else if token = bytesOf "OR" then
      TokensKnown s sliced ∧ ∀ value, (getPostfixValue u row sliced offsets).run' s = some value →
        value.bool_ = false → ConditionKnown n (index + 1) ⟨[], []⟩
    else if token = bytesOf "THEN" then TokensKnown s sliced ∧ ConditionKnown n (index + 1) sliced
    else ∀ type, operand.types[index]? = some type →
      ConditionKnown n (index + 1) ⟨sliced.types ++ [type], sliced.values ++ [token]⟩

/-- The columns are known in what stands from `start` to one of the words. -/
def ResultKnown (stop : List Bytes) (start : Nat) : Prop :=
  ∀ sliced, collectUntil operand stop operand.values.length start ⟨[], []⟩ = some sliced → TokensKnown s sliced

/-- The conditions are reached up to the first that holds, and then its result. -/
def BranchesKnown (elseOffset : Option Nat) : List (Nat × Nat) → Operand → Bool → Prop
  | [], _, _ => ∀ offset, elseOffset = some offset → ResultKnown s operand [bytesOf "END"] (offset + 1)
  | (whenOffset, thenOffset) :: branches, sliced, passed =>
    ConditionKnown u row offsets s operand (thenOffset - whenOffset) (whenOffset + 1) sliced ∧
      ∀ condition : Operand × Bool,
        (caseCondition u row operand offsets (thenOffset - whenOffset) (whenOffset + 1) sliced passed).run' s =
          some condition →
          if condition.2 then ResultKnown s operand [bytesOf "WHEN", bytesOf "ELSE", bytesOf "END"] (thenOffset + 1)
          else BranchesKnown elseOffset branches condition.1 condition.2

def CaseKnown : Prop :=
  ∀ found, caseOffsetsFrom operand.values 0 ⟨[], none, none⟩ = some found →
    BranchesKnown u row offsets s operand found.elseOffset found.whenThen ⟨[], []⟩ false

/-- `SUBSTRING` and `EXTRACT` do not look at the type of their column. -/
def FunctionKnown (lowerOperator : Bytes) : Prop :=
  if lowerOperator = bytesOf "substring" ∨ lowerOperator = bytesOf "substr" then NameKnown s operand 1
  else if lowerOperator = bytesOf "case" then CaseKnown u row offsets s operand
  else if lowerOperator = bytesOf "extract" then NameKnown s operand 2
  else True

def OperandKnown : Option Nat → Prop
  | some index => ColumnKnown s operand index
  | none =>
    if operand.types.length = 1 then ColumnKnown s operand 0
    else if operand.types[0]? = some .operator then
      ∀ text, operand.values[0]? = some text → FunctionKnown u row offsets s operand (convertToLowercase text)
    else TokensKnown s operand

/-- The projection takes an operand of one element for a column, whatever its type. -/
def ProjectionKnown : Prop :=
  if operand.types.length = 1 then NameKnown s operand 0 else OperandKnown u row offsets s operand none

end Reached

/-- What the lookup of a name that is not there makes of the schema. -/
def SchemaInfo.insertName (s : SchemaInfo) (name : Bytes) : SchemaInfo :=
  { s with columnIndexMap := (name, 0) :: s.columnIndexMap }

/-- The number of names in the map. -/
def SchemaInfo.mapSize (s : SchemaInfo) : Nat := s.columnIndexMap.length

theorem mapSize_insertName (s : SchemaInfo) (name : Bytes) : s.mapSize < (s.insertName name).mapSize :=
  Nat.lt_succ_self _

theorem columnIndexAt_absent {s : SchemaInfo} {name : Bytes} (h : ¬ Known s name) :
    (columnIndexAt name).run s = some (0, s.insertName name) :=
  columnIndexAt_of_none (Option.not_isSome_iff_eq_none.mp h)

section Evaluation
variable {s : SchemaInfo} (u : KValue) (row : Mem) (offsets : List Int)

theorem keepsIff_columnIndexAt (name : Bytes) : KeepsIff SchemaInfo.mapSize s (columnIndexAt name) (Known s name) := by
  -- the answer is the state it was asked in, or one with one more name
  have hCases : ∀ t index t', (columnIndexAt name).run t = some (index, t') →
      Known t name ∧ t' = t ∨ ¬ Known t name ∧ t.mapSize < t'.mapSize := by
    intro t index t' hRun
    by_cases hKnown : Known t name
    · obtain ⟨found, hLookup⟩ := Option.isSome_iff_exists.mp hKnown
      rw [columnIndexAt_of_some hLookup] at hRun
      cases hRun
      exact Or.inl ⟨hKnown, rfl⟩
    · rw [columnIndexAt_absent hKnown] at hRun
      cases hRun
      exact Or.inr ⟨hKnown, mapSize_insertName t name⟩
  refine ⟨fun t index t' hRun => (hCases t index t' hRun).imp And.right And.right, fun index s' hRun => ?_⟩
  obtain ⟨hKnown, hSame⟩ | ⟨hAbsent, hLarger⟩ := hCases s index s' hRun
  · exact iff_of_true hSame hKnown
  · exact iff_of_false (fun hSame => hLarger.ne' (congrArg _ hSame)) hAbsent

theorem keepsIff_getColumnValue (operand : Operand) (index : Nat) :
    KeepsIff SchemaInfo.mapSize s (getColumnValue u row operand offsets index) (NameKnown s operand index) := by
  rw [getColumnValue]
  refine KeepsIff.lift_bind_of_some fun columnName _ => ?_
  refine (keepsIff_columnIndexAt columnName).bind_left fun columnIndex => ?_
  refine KeepsIff.get_bind fun schemaInfo => ?_
  refine KeepsIff.lift_bind fun columnType _ => ?_
  refine KeepsIff.lift_bind fun startOffset _ => ?_
  refine KeepsIff.lift_bind fun endOffset _ => ?_
  cases columnType with
  | byte | int16 | int32 | date | int64 | newDecimal | string | varString =>
    exact KeepsIff.lift_bind fun _ _ => KeepsIff.pure _
  | _ => exact KeepsIff.pure _

theorem keepsIff_getLiteralValue (operand : Operand) (index : Nat) :
    KeepsIff SchemaInfo.mapSize s (getLiteralValue u operand index) True := by
  rw [getLiteralValue]
  refine KeepsIff.lift_bind fun type _ => ?_
  refine KeepsIff.lift_bind fun value _ => ?_
  cases type with
  | int8 | int16 | int32 | date | int64 | float32 | double | decimal =>
    exact KeepsIff.lift_bind fun _ _ => KeepsIff.pure _
  | _ => exact KeepsIff.pure _

section Tokens
variable {operand : Operand}

theorem columnKnown_of_ne {type : KetiValueType} {index : Nat} (hType : operand.types[index]? = some type)
    (hColumn : type ≠ .column) : ColumnKnown s operand index :=
  fun h => absurd (Option.some_inj.mp (hType.symm.trans h)) hColumn

theorem keepsIff_column {index : Nat} (hType : operand.types[index]? = some .column) :
    KeepsIff SchemaInfo.mapSize s (getColumnValue u row operand offsets index) (ColumnKnown s operand index) :=
  (keepsIff_getColumnValue u row offsets operand index).of_iff (imp_iff_right hType).symm

theorem keepsIff_literal {type : KetiValueType} {index : Nat} (hType : operand.types[index]? = some type)
    (hColumn : type ≠ .column) :
    KeepsIff SchemaInfo.mapSize s (getLiteralValue u operand index) (ColumnKnown s operand index) :=
  (keepsIff_getLiteralValue u operand index).of_iff (iff_of_true trivial (columnKnown_of_ne hType hColumn))

theorem keepsIff_token {type : KetiValueType} {index : Nat} (hType : operand.types[index]? = some type) :
    KeepsIff SchemaInfo.mapSize s
      (if type = .column then getColumnValue u row operand offsets index else getLiteralValue u operand index)
      (ColumnKnown s operand index) := by
  split
  · rename_i hColumn
    exact keepsIff_column u row offsets (hColumn ▸ hType)
  · rename_i hColumn
    exact keepsIff_literal u hType hColumn

theorem forall_between_succ {P : Nat → Prop} {i n : Nat} :
    (∀ j, i ≤ j → j < i + (n + 1) → P j) ↔ P i ∧ ∀ j, i + 1 ≤ j → j < i + 1 + n → P j := by
  constructor
  · intro h
    exact ⟨h i le_rfl (by omega), fun j hLow hHigh => h j (by omega) (by omega)⟩
  · rintro ⟨hFirst, hRest⟩ j hLow hHigh
    obtain rfl | hLess := Nat.eq_or_lt_of_le hLow
    · exact hFirst
    · exact hRest j hLess (by omega)

theorem keepsIff_getPostfixValueFrom (n i : Nat) (operStack : List KValue) :
    KeepsIff SchemaInfo.mapSize s (getPostfixValueFrom u row operand offsets n i operStack)
      (∀ j, i ≤ j → j < i + n → ColumnKnown s operand j) := by
  induction n generalizing i operStack with
  | zero => exact (KeepsIff.pure operStack).of_iff (iff_of_true trivial fun j hLow hHigh => by omega)
  | succ n ih =>
    rw [getPostfixValueFrom, forall_between_succ]
    refine KeepsIff.lift_bind fun type hType => ?_
    refine KeepsIff.lift_bind fun value _ => ?_
    split
    · rename_i hOperator
      have hKnown : ColumnKnown s operand i := columnKnown_of_ne hType (by rw [hOperator]; decide)
      split
      · exact KeepsIff.lift_bind fun median _ => (ih (i + 1) _).of_iff (and_iff_right hKnown).symm
      · exact KeepsIff.failure
    · dsimp only
      split
      · rename_i hColumn
        exact (keepsIff_column u row offsets (hColumn ▸ hType)).bind fun median => ih (i + 1) _
      · rename_i hColumn
        exact (keepsIff_literal u hType hColumn).bind fun median => ih (i + 1) _

theorem keepsIff_getPostfixValue :
    KeepsIff SchemaInfo.mapSize s (getPostfixValue u row operand offsets) (TokensKnown s operand) := by
  rw [getPostfixValue]
  refine ((keepsIff_getPostfixValueFrom u row offsets _ 0 []).bind_left fun stack => KeepsIff.lift _).of_iff ?_
  refine ⟨fun h index hType => ?_, fun h j _ _ => h j⟩
  have hIndex : index < operand.types.length := (List.getElem?_eq_some_iff.mp hType).1
  exact h index (Nat.zero_le index) (by omega) hType

theorem keepsIff_calculSubstringOperation :
    KeepsIff SchemaInfo.mapSize s (calculSubstringOperation u row operand offsets) (NameKnown s operand 1) := by
  rw [calculSubstringOperation]
  refine KeepsIff.lift_bind_of_some fun columnName _ => ?_
  refine (keepsIff_columnIndexAt columnName).bind_left fun columnIndex => ?_
  refine KeepsIff.lift_bind fun startOffset _ => ?_
  refine KeepsIff.lift_bind fun fromText _ => ?_
  refine KeepsIff.lift_bind fun fromPos _ => ?_
  refine KeepsIff.lift_bind fun toText _ => ?_
  refine KeepsIff.lift_bind fun toPos _ => ?_
  exact KeepsIff.lift_bind fun _ _ => KeepsIff.pure _

theorem keepsIff_calculExtractOperation :
    KeepsIff SchemaInfo.mapSize s (calculExtractOperation u row operand offsets) (NameKnown s operand 2) := by
  rw [calculExtractOperation]
  refine KeepsIff.lift_bind fun unitText _ => ?_
  refine (keepsIff_getColumnValue u row offsets operand 2).bind_left fun columnValue => ?_
  dsimp only
  split_ifs <;> exact KeepsIff.pure _

theorem keepsIff_caseCondition (n index : Nat) (sliced : Operand) (passed : Bool) :
    KeepsIff SchemaInfo.mapSize s (caseCondition u row operand offsets n index sliced passed)
      (ConditionKnown u row offsets s operand n index sliced) := by
  induction n generalizing index sliced passed with
  | zero => exact KeepsIff.pure _
  | succ n ih =>
    have hPostfix : KeepsIff SchemaInfo.mapSize s (getPostfixValue u row sliced offsets) (TokensKnown s sliced) :=
      keepsIff_getPostfixValue u row offsets
    rw [caseCondition, ConditionKnown]
    refine KeepsIff.lift_bind_of_some fun token _ => ?_
    split
    · refine hPostfix.bind_of_answer fun value => ?_
      split
      · rename_i hHolds
        exact (ih _ _ _).of_iff (imp_iff_right hHolds).symm
      · rename_i hHolds
        exact (KeepsIff.pure _).of_iff (iff_of_true trivial fun h => absurd h hHolds)
    · split
      · refine hPostfix.bind_of_answer fun value => ?_
        split
        · rename_i hHolds
          exact (KeepsIff.pure _).of_iff (iff_of_true trivial fun h => by rw [hHolds] at h; cases h)
        · rename_i hHolds
          exact (ih _ _ _).of_iff (imp_iff_right (Bool.eq_false_of_not_eq_true hHolds)).symm
      · split
        · exact hPostfix.bind fun value => ih _ _ _
        · exact KeepsIff.lift_bind_of_some fun type _ => ih _ _ _

theorem keepsIff_caseBranches (elseOffset : Option Nat) (branches : List (Nat × Nat)) (sliced : Operand)
    (passed : Bool) :
    KeepsIff SchemaInfo.mapSize s (caseBranches u row operand offsets elseOffset branches sliced passed)
      (BranchesKnown u row offsets s operand elseOffset branches sliced passed) := by
  induction branches generalizing sliced passed with
  | nil =>
    rw [caseBranches, BranchesKnown]
    refine KeepsIff.lift_bind_of_some fun offset _ => ?_
    exact KeepsIff.lift_bind_of_some fun result _ => keepsIff_getPostfixValue u row offsets
  | cons branch branches ih =>
    rw [caseBranches, BranchesKnown]
    refine (keepsIff_caseCondition u row offsets _ _ sliced passed).bind_of_answer fun condition => ?_
    dsimp only
    split
    · exact KeepsIff.lift_bind_of_some fun result _ => keepsIff_getPostfixValue u row offsets
    · exact ih _ _

theorem keepsIff_calculCaseOperation :
    KeepsIff SchemaInfo.mapSize s (calculCaseOperation u row operand offsets) (CaseKnown u row offsets s operand) := by
  rw [calculCaseOperation]
  exact KeepsIff.lift_bind_of_some fun found _ => keepsIff_caseBranches u row offsets _ _ _ _

theorem keepsIff_getDerivedValue :
    KeepsIff SchemaInfo.mapSize s (getDerivedValue u row operand offsets)
      (∀ text, operand.values[0]? = some text → FunctionKnown u row offsets s operand (convertToLowercase text)) := by
  rw [getDerivedValue]
  refine KeepsIff.lift_bind_of_some fun operatorText _ => ?_
  rw [FunctionKnown]
  dsimp only
  split_ifs
  · exact keepsIff_calculSubstringOperation u row offsets
  · exact keepsIff_calculCaseOperation u row offsets
  · exact keepsIff_calculExtractOperation u row offsets
  · exact KeepsIff.pure _

theorem keepsIff_calculOperandValue (index : Option Nat) :
    KeepsIff SchemaInfo.mapSize s (calculOperandValue u row operand offsets index)
      (OperandKnown u row offsets s operand index) := by
  cases index with
  | some index =>
    rw [calculOperandValue]
    exact KeepsIff.lift_bind fun type hType => keepsIff_token u row offsets hType
  | none =>
    rw [calculOperandValue, OperandKnown]
    refine KeepsIff.lift_bind fun first hFirst => ?_
    by_cases hLength : operand.types.length = 1
    · rw [if_pos hLength, if_pos hLength]
      exact keepsIff_token u row offsets hFirst
    · rw [if_neg hLength, if_neg hLength]
      by_cases hOperator : first = .operator
      · rw [if_pos hOperator, if_pos (hOperator ▸ hFirst)]
        exact keepsIff_getDerivedValue u row offsets
      · rw [if_neg hOperator, if_neg fun h => hOperator (Option.some_inj.mp (hFirst.symm.trans h))]
        exact keepsIff_getPostfixValue u row offsets

theorem keepsIff_projectionRawData (dest : Mem) (currentRowLength : Nat) :
    KeepsIff SchemaInfo.mapSize s (projectionRawData u row operand offsets dest currentRowLength)
      (ProjectionKnown u row offsets s operand) := by
  rw [projectionRawData, ProjectionKnown]
  split
  · refine KeepsIff.lift_bind_of_some fun columnName _ => ?_
    refine (keepsIff_columnIndexAt columnName).bind_left fun columnIndex => ?_
    refine KeepsIff.lift_bind fun startOffset _ => ?_
    refine KeepsIff.lift_bind fun endOffset _ => ?_
    exact KeepsIff.lift_bind fun column _ => KeepsIff.pure _
  · exact (keepsIff_calculOperandValue u row offsets none).bind_left fun value => KeepsIff.lift _

end Tokens

end Evaluation

section Static
variable {s : SchemaInfo} (u : KValue) (row : Mem) (offsets : List Int) {operand : Operand}

/-- An operand cut out of another one, token by token. -/
structure Sliced (s : SchemaInfo) (sliced : Operand) : Prop where
  paired : sliced.types.length = sliced.values.length
  known : TokensKnown s sliced

theorem sliced_nil (s : SchemaInfo) : Sliced s ⟨[], []⟩ := ⟨rfl, fun _ hType => by cases hType⟩

theorem Sliced.push {sliced : Operand} (h : Sliced s sliced) (hTokens : TokensKnown s operand) {index : Nat}
    {type : KetiValueType} {token : Bytes} (hType : operand.types[index]? = some type)
    (hToken : operand.values[index]? = some token) : Sliced s ⟨sliced.types ++ [type], sliced.values ++ [token]⟩ where
  paired := by simp [h.paired]
  known := by
    intro i hColumn name hName
    dsimp only at hColumn hName
    obtain hBefore | hAfter := Nat.lt_or_ge i sliced.types.length
    · rw [List.getElem?_append_left hBefore] at hColumn
      rw [List.getElem?_append_left (h.paired ▸ hBefore)] at hName
      exact h.known i hColumn name hName
    · rw [List.getElem?_append_right hAfter, List.getElem?_singleton, Option.ite_none_right_eq_some] at hColumn
      rw [List.getElem?_append_right (h.paired ▸ hAfter), List.getElem?_singleton,
        Option.ite_none_right_eq_some] at hName
      obtain ⟨-, hColumn⟩ := hColumn
      obtain ⟨-, hName⟩ := hName
      exact hTokens index (hColumn ▸ hType) name (hName ▸ hToken)

theorem sliced_of_collectUntil (hTokens : TokensKnown s operand) {stop : List Bytes} {n index : Nat}
    {sliced result : Operand} (h : Sliced s sliced)
    (hCollect : collectUntil operand stop n index sliced = some result) : Sliced s result := by
  induction n generalizing index sliced with
  | zero => cases hCollect
  | succ n ih =>
    rw [collectUntil] at hCollect
    obtain ⟨token, hToken, hRest⟩ := Option.bind_eq_some_iff.mp hCollect
    split at hRest
    · obtain rfl := Option.some_inj.mp hRest
      exact h
    · obtain ⟨type, hType, hRest⟩ := Option.bind_eq_some_iff.mp hRest
      exact ih (h.push hTokens hType hToken) hRest

theorem resultKnown_of_tokensKnown (hTokens : TokensKnown s operand) (stop : List Bytes) (start : Nat) :
    ResultKnown s operand stop start :=
  fun _ hCollect => (sliced_of_collectUntil hTokens (sliced_nil s) hCollect).known

theorem conditionKnown_of_tokensKnown (hTokens : TokensKnown s operand) (n index : Nat) {sliced : Operand}
    (h : Sliced s sliced) :
    ConditionKnown u row offsets s operand n index sliced := by
  induction n generalizing index sliced with
  | zero => trivial
  | succ n ih =>
    intro token hToken
    split_ifs
    · exact ⟨h.known, fun _ _ _ => ih _ (sliced_nil s)⟩
    · exact ⟨h.known, fun _ _ _ => ih _ (sliced_nil s)⟩
    · exact ⟨h.known, ih _ h⟩
    · exact fun type hType => ih _ (h.push hTokens hType hToken)

theorem branchesKnown_of_tokensKnown (hTokens : TokensKnown s operand) (elseOffset : Option Nat)
    (branches : List (Nat × Nat)) {sliced : Operand} (h : Sliced s sliced) (passed : Bool) :
    BranchesKnown u row offsets s operand elseOffset branches sliced passed := by
  induction branches generalizing sliced passed with
  | nil => exact fun _ _ => resultKnown_of_tokensKnown hTokens _ _
  | cons branch branches ih =>
    refine ⟨conditionKnown_of_tokensKnown u row offsets hTokens _ _ h, fun condition hCondition => ?_⟩
    have hSliced := (query_caseCondition_slice u row operand offsets (sliced_nil s)
      (fun hSlice hType hToken => hSlice.push hTokens hType hToken) _ _ h passed).answer_run' hCondition
    split_ifs
    · exact resultKnown_of_tokensKnown hTokens _ _
    · exact ih hSliced _

end Static

/-- An evaluation leaves the schema as it is exactly if the names that it looks up are known. For a `CASE` it is enough
that all of its columns are. A name that is not known is inserted, and its column is read as column 0. -/
theorem evaluation_keeps_schema (u : KValue) (row : Mem) (offsets : List Int) (s : SchemaInfo) :
    (∀ (operand : Operand) (index : Option Nat) (v : KValue) (s' : SchemaInfo),
      (calculOperandValue u row operand offsets index).run s = some (v, s') →
        (s' = s ↔ OperandKnown u row offsets s operand index)) ∧
      (∀ (operand : Operand) (dest : Mem) (currentRowLength : Nat) (result : Nat × Mem) (s' : SchemaInfo),
        (projectionRawData u row operand offsets dest currentRowLength).run s = some (result, s') →
          (s' = s ↔ ProjectionKnown u row offsets s operand)) ∧
      (∀ operand, TokensKnown s operand → CaseKnown u row offsets s operand) ∧
      ∀ name, ¬ Known s name → (columnIndexAt name).run s = some (0, s.insertName name) := by
  refine ⟨fun operand index v s' hRun => ?_, fun operand dest length result s' hRun => ?_, fun operand hTokens => ?_,
    fun name hAbsent => ?_⟩
  · exact (keepsIff_calculOperandValue u row offsets index).keeps v s' hRun
  · exact (keepsIff_projectionRawData u row offsets dest length).keeps result s' hRun
  · exact fun found _ => branchesKnown_of_tokensKnown u row offsets hTokens _ _ (sliced_nil s) _
  · exact columnIndexAt_absent hAbsent

/-- Two integer columns of one table. -/
def partSchema : SchemaInfo :=
  { columnName := [bytesOf "partkey", bytesOf "size"], columnOffset := [0, 4, 8], columnLength := [4, 4],
    columnType := [.int32, .int32], columnIndexMap := [(bytesOf "partkey", 0), (bytesOf "size", 1)], pkColumn := [],
    tableIndexNumber := 0, hasVarChar := false }

def partRow : Bytes := [7, 0, 0, 0, 15, 0, 0, 0]

def evaluatePart (name : String) : Option (KValue × SchemaInfo) :=
  (calculOperandValue KValue.zero (ofBytes partRow) ⟨[.column], [bytesOf name]⟩ [0, 4, 8] none).run partSchema

theorem size_keeps_schema : ∃ v, evaluatePart "size" = some (v, partSchema) := by
  obtain ⟨⟨v, s'⟩, hRun⟩ := Option.isSome_iff_exists.mp (show (evaluatePart "size").isSome by decide)
  have hKeeps := (evaluation_keeps_schema KValue.zero (ofBytes partRow) [0, 4, 8] partSchema).1 _ none v s' hRun
  obtain rfl := hKeeps.mpr (by
    intro _ name hName
    cases hName
    decide)
  exact ⟨v, hRun⟩

/-- A column of another table is read as the part key, and its name is now in the map. -/
theorem color_read_as_partkey :
    ¬ Known partSchema (bytesOf "color") ∧
      (evaluatePart "color").map (fun result => (result.1.int_, result.2)) =
        some (7, partSchema.insertName (bytesOf "color")) ∧
      partSchema.insertName (bytesOf "color") ≠ partSchema := by
  refine ⟨by decide, by decide, by decide⟩

end CsdWorker
