import CsdWorker.Lib.Query
import CsdWorker.RawDataHandler

/-! # What the evaluator reads and what it leaves unset

`column_index_map[name]` inserts a missing name with index 0, so the map a computation leaves behind reads as the
one it found. A value that is returned holds the indeterminate content in the integer member its type does not
select.
-/

namespace CsdWorker

open Memory Endian

set_option autoImplicit false

def SchemaInfo.withoutMap (s : SchemaInfo) : SchemaInfo := { s with columnIndexMap := [] }

/-- Schemas that the evaluator cannot tell apart: their maps read the same. -/
instance : Setoid SchemaInfo where
  r s t := s.withoutMap = t.withoutMap ∧
    ∀ name, (s.columnIndexMap.lookup name).getD 0 = (t.columnIndexMap.lookup name).getD 0
  iseqv :=
    { refl := fun _ => ⟨rfl, fun _ => rfl⟩
      symm := fun h => ⟨h.1.symm, fun name => (h.2 name).symm⟩
      trans := fun h h' => ⟨h.1.trans h'.1, fun name => (h.2 name).trans (h'.2 name)⟩ }

theorem columnType_eq_of_equiv {s t : SchemaInfo} (h : s ≈ t) : s.columnType = t.columnType := by
  have hType := congrArg SchemaInfo.columnType h.1
  exact hType

structure LeavesUnset (u v : KValue) : Prop where
  int64_ : v.type_ = .int32 → v.int64_ = u.int64_
  int_ : v.type_ = .int64 ∨ v.type_ = .decimal → v.int_ = u.int_

/-- The name reads as index 0 before and after it is inserted. -/
theorem columnIndexAt_run (name : Bytes) (s : SchemaInfo) :
    ∃ s', (columnIndexAt name).run s = some ((s.columnIndexMap.lookup name).getD 0, s') ∧ s ≈ s' := by
  cases hLookup : s.columnIndexMap.lookup name with
  | some index => exact ⟨s, columnIndexAt_of_some hLookup, Setoid.refl s⟩
  | none =>
    refine ⟨_, columnIndexAt_of_none hLookup, rfl, fun other => ?_⟩
    by_cases hOther : other = name
    · subst hOther
      simp [hLookup]
    · simp [List.lookup_cons, beq_eq_false_iff_ne.mpr hOther]

theorem query_columnIndexAt (name : Bytes) : Query (columnIndexAt name) fun _ => True where
  same {s t} h := by
    obtain ⟨s', hs, -⟩ := columnIndexAt_run name s
    obtain ⟨t', ht, -⟩ := columnIndexAt_run name t
    rw [StateT.run'_eq, StateT.run'_eq, hs, ht, h.2 name]
    rfl
  keeps {s _ _} hRun := by
    obtain ⟨s', hs, hEquiv⟩ := columnIndexAt_run name s
    rw [hs, Option.some_inj, Prod.mk.injEq] at hRun
    exact hRun.2 ▸ hEquiv
  answer _ := trivial

section Values
variable {u v : KValue}

theorem leavesUnset_fresh (u : KValue) : LeavesUnset u u.fresh := ⟨fun _ => rfl, fun _ => rfl⟩

theorem leavesUnset_of_int32 (hType : v.type_ = .int32) (h : v.int64_ = u.int64_) : LeavesUnset u v := by
  refine ⟨fun _ => h, ?_⟩
  rw [hType]
  rintro (hWide | hWide) <;> cases hWide

theorem leavesUnset_of_ne (hType : v.type_ ≠ .int32) (h : v.int_ = u.int_) : LeavesUnset u v :=
  ⟨fun hInt32 => absurd hInt32 hType, fun _ => h⟩

variable (u) (lv rv : KValue)

theorem leavesUnset_plus : LeavesUnset u (calculPlusOperation u lv rv) := by
  rw [calculPlusOperation]
  cases hType : lv.type_ with
  | int32 =>
    dsimp only
    split
    · exact leavesUnset_of_ne (by simp) rfl
    · exact leavesUnset_of_int32 rfl rfl
  | int64 => exact leavesUnset_of_ne (by simp) rfl
  | decimal => exact leavesUnset_of_ne (by simp) rfl
  | float32 => exact leavesUnset_of_ne (by simp) rfl
  | double => exact leavesUnset_of_ne (by simp) rfl
  | _ => exact leavesUnset_fresh u

theorem leavesUnset_minus : LeavesUnset u (calculMinusOperation u lv rv) := by
  rw [calculMinusOperation]
  cases hType : lv.type_ with
  | int32 =>
    dsimp only
    split
    · exact leavesUnset_of_ne (by simp) rfl
    · exact leavesUnset_of_int32 rfl rfl
  | int64 => exact leavesUnset_of_ne (by simp) rfl
  | decimal => exact leavesUnset_of_ne (by simp) rfl
  | float32 => exact leavesUnset_of_ne (by simp) rfl
  | double => exact leavesUnset_of_ne (by simp) rfl
  | _ => exact leavesUnset_fresh u

theorem leavesUnset_multiple : LeavesUnset u (calculMultipleOperation u lv rv) := by
  rw [calculMultipleOperation]
  cases hType : lv.type_ with
  | int32 => exact leavesUnset_of_int32 rfl rfl
  | decimal =>
    dsimp only
    split
    · exact leavesUnset_of_ne (by simp) rfl
    · exact leavesUnset_of_ne (by simp) rfl
  | _ => exact leavesUnset_of_ne (by simp) rfl

theorem leavesUnset_divide {v : KValue} (h : calculDivideOperation u lv rv = some v) : LeavesUnset u v := by
  rw [calculDivideOperation] at h
  cases hType : lv.type_ with
  | int32 =>
    rw [hType] at h
    obtain ⟨quotient, -, hValue⟩ := Option.bind_eq_some_iff.mp h
    cases hValue
    exact leavesUnset_of_int32 rfl rfl
  | int64 =>
    rw [hType] at h
    obtain ⟨quotient, -, hValue⟩ := Option.bind_eq_some_iff.mp h
    cases hValue
    exact leavesUnset_of_ne (by simp) rfl
  | decimal =>
    rw [hType] at h
    obtain ⟨quotient, -, hValue⟩ := Option.bind_eq_some_iff.mp h
    cases hValue
    exact leavesUnset_of_ne (by simp) rfl
  | _ =>
    rw [hType] at h
    cases h
    exact leavesUnset_of_ne (by simp) rfl

theorem leavesUnset_equal (notFlag : Bool) : LeavesUnset u (calculEqualOperation u lv rv notFlag) :=
  leavesUnset_of_ne (by simp [calculEqualOperation]) rfl

theorem leavesUnset_applyOperator {operator : Bytes} {v : KValue} (h : applyOperator u operator lv rv = some v) :
    LeavesUnset u v := by
  rw [applyOperator] at h
  split_ifs at h
  · cases h
    exact leavesUnset_plus u lv rv
  · cases h
    exact leavesUnset_minus u lv rv
  · cases h
    exact leavesUnset_multiple u lv rv
  · exact leavesUnset_divide u lv rv h
  · cases h
    exact leavesUnset_equal u lv rv false
  · cases h
    exact leavesUnset_equal u lv rv true
  · cases h
    exact leavesUnset_fresh u

end Values

section Evaluation
variable (u : KValue) (row : Mem) (operand : Operand) (offsets : List Int)

theorem query_getColumnValue (index : Nat) : Query (getColumnValue u row operand offsets index) (LeavesUnset u) := by
  rw [getColumnValue]
  refine Query.lift_bind fun columnName _ => ?_
  refine Query.bind (query_columnIndexAt columnName) fun columnIndex _ => ?_
  refine Query.get_bind (fun s => ?_) fun s t h => by rw [columnType_eq_of_equiv h]
  refine Query.lift_bind fun columnType _ => ?_
  refine Query.lift_bind fun startOffset _ => ?_
  refine Query.lift_bind fun endOffset _ => ?_
  cases columnType with
  | byte | int16 | int32 | date => exact Query.lift_bind fun _ _ => Query.pure (leavesUnset_of_int32 rfl rfl)
  | int64 | newDecimal | string | varString =>
    exact Query.lift_bind fun _ _ => Query.pure (leavesUnset_of_ne (by simp) rfl)
  | _ => exact Query.pure (leavesUnset_fresh u)

theorem query_getLiteralValue (index : Nat) : Query (getLiteralValue u operand index) (LeavesUnset u) := by
  rw [getLiteralValue]
  refine Query.lift_bind fun type _ => ?_
  refine Query.lift_bind fun value _ => ?_
  cases type with
  | int8 | int16 | int32 | date => exact Query.lift_bind fun _ _ => Query.pure (leavesUnset_of_int32 rfl rfl)
  | int64 | float32 | double | decimal => exact Query.lift_bind fun _ _ => Query.pure (leavesUnset_of_ne (by simp) rfl)
  | string => exact Query.pure (leavesUnset_of_ne (by simp) rfl)
  | _ => exact Query.pure (leavesUnset_fresh u)

theorem query_token (type : KetiValueType) (index : Nat) :
    Query (if type = .column then getColumnValue u row operand offsets index else getLiteralValue u operand index)
      (LeavesUnset u) := by
  split
  · exact query_getColumnValue u row operand offsets index
  · exact query_getLiteralValue u operand index

theorem query_getPostfixValueFrom (n i : Nat) (operStack : List KValue) (h : ∀ v ∈ operStack, LeavesUnset u v) :
    Query (getPostfixValueFrom u row operand offsets n i operStack) fun stack => ∀ v ∈ stack, LeavesUnset u v := by
  induction n generalizing i operStack with
  | zero => exact Query.pure h
  | succ n ih =>
    rw [getPostfixValueFrom]
    refine Query.lift_bind fun type _ => ?_
    refine Query.lift_bind fun value _ => ?_
    split
    · split
      · rename_i rv lv rest
        have hRest : ∀ v ∈ rest, LeavesUnset u v := (List.forall_mem_cons.mp (List.forall_mem_cons.mp h).2).2
        refine Query.lift_bind fun median hMedian => ih (i + 1) _ ?_
        exact List.forall_mem_cons.mpr ⟨leavesUnset_applyOperator u lv rv hMedian, hRest⟩
      · exact Query.failure
    · have hPush : ∀ median, LeavesUnset u median → ∀ v ∈ median :: operStack, LeavesUnset u v :=
        fun median hMedian => List.forall_mem_cons.mpr ⟨hMedian, h⟩
      dsimp only
      split
      · exact Query.bind (query_getColumnValue u row operand offsets i) fun median hMedian =>
          ih (i + 1) _ (hPush median hMedian)
      · exact Query.bind (query_getLiteralValue u operand i) fun median hMedian => ih (i + 1) _ (hPush median hMedian)

theorem query_getPostfixValue : Query (getPostfixValue u row operand offsets) (LeavesUnset u) := by
  rw [getPostfixValue]
  refine Query.bind (query_getPostfixValueFrom u row operand offsets _ 0 [] (by simp)) fun stack hStack => ?_
  exact Query.lift fun v hv => hStack v (List.mem_of_mem_head? hv)

theorem query_calculSubstringOperation : Query (calculSubstringOperation u row operand offsets) (LeavesUnset u) := by
  rw [calculSubstringOperation]
  refine Query.lift_bind fun columnName _ => ?_
  refine Query.bind (query_columnIndexAt columnName) fun columnIndex _ => ?_
  refine Query.lift_bind fun startOffset _ => ?_
  refine Query.lift_bind fun fromText _ => ?_
  refine Query.lift_bind fun fromPos _ => ?_
  refine Query.lift_bind fun toText _ => ?_
  refine Query.lift_bind fun toPos _ => ?_
  exact Query.lift_bind fun _ _ => Query.pure (leavesUnset_of_ne (by simp) rfl)

/-- What holds of the empty slice and is kept by each token holds of the slice that a condition leaves. -/
theorem query_caseCondition_slice {P : Operand → Prop} (hNil : P ⟨[], []⟩)
    (hPush : ∀ {sliced : Operand} {index : Nat} {type : KetiValueType} {token : Bytes}, P sliced →
      operand.types[index]? = some type → operand.values[index]? = some token →
        P ⟨sliced.types ++ [type], sliced.values ++ [token]⟩)
    (n index : Nat) {sliced : Operand} (h : P sliced) (passed : Bool) :
    Query (caseCondition u row operand offsets n index sliced passed) fun result => P result.1 := by
  induction n generalizing index sliced passed with
  | zero => exact Query.pure h
  | succ n ih =>
    rw [caseCondition]
    refine Query.lift_bind fun token hToken => ?_
    split
    · refine Query.bind (query_getPostfixValue u row sliced offsets) fun value _ => ?_
      split
      · exact ih _ hNil _
      · exact Query.pure h
    · split
      · refine Query.bind (query_getPostfixValue u row sliced offsets) fun value _ => ?_
        split
        · exact Query.pure h
        · exact ih _ hNil _
      · split
        · exact Query.bind (query_getPostfixValue u row sliced offsets) fun value _ => ih _ h _
        · exact Query.lift_bind fun type hType => ih _ (hPush h hType hToken) _

theorem query_caseCondition (n index : Nat) (sliced : Operand) (passed : Bool) :
    Query (caseCondition u row operand offsets n index sliced passed) fun _ => True :=
  query_caseCondition_slice u row operand offsets (P := fun _ => True) trivial
    (fun _ _ _ => trivial) n index trivial passed

theorem query_caseBranches (elseOffset : Option Nat) (branches : List (Nat × Nat)) (sliced : Operand) (passed : Bool) :
    Query (caseBranches u row operand offsets elseOffset branches sliced passed) (LeavesUnset u) := by
  induction branches generalizing sliced passed with
  | nil =>
    rw [caseBranches]
    refine Query.lift_bind fun elseOffset _ => ?_
    exact Query.lift_bind fun sliced _ => query_getPostfixValue u row sliced offsets
  | cons branch branches ih =>
    rw [caseBranches]
    refine Query.bind (query_caseCondition u row operand offsets _ _ sliced passed) fun condition _ => ?_
    dsimp only
    split
    · exact Query.lift_bind fun sliced _ => query_getPostfixValue u row sliced offsets
    · exact ih _ _

theorem query_calculCaseOperation : Query (calculCaseOperation u row operand offsets) (LeavesUnset u) := by
  rw [calculCaseOperation]
  exact Query.lift_bind fun found _ => query_caseBranches u row operand offsets _ _ _ _

theorem query_calculExtractOperation : Query (calculExtractOperation u row operand offsets) (LeavesUnset u) := by
  rw [calculExtractOperation]
  refine Query.lift_bind fun unitText _ => ?_
  refine Query.bind (query_getColumnValue u row operand offsets 2) fun columnValue _ => ?_
  dsimp only
  split_ifs <;> exact Query.pure (leavesUnset_of_int32 rfl rfl)

theorem query_getDerivedValue : Query (getDerivedValue u row operand offsets) (LeavesUnset u) := by
  rw [getDerivedValue]
  refine Query.lift_bind fun operatorText _ => ?_
  dsimp only
  split_ifs
  · exact query_calculSubstringOperation u row operand offsets
  · exact query_calculCaseOperation u row operand offsets
  · exact query_calculExtractOperation u row operand offsets
  · exact Query.pure (leavesUnset_fresh u)

theorem query_calculOperandValue (index : Option Nat) :
    Query (calculOperandValue u row operand offsets index) (LeavesUnset u) := by
  cases index with
  | none =>
    rw [calculOperandValue]
    refine Query.lift_bind fun first _ => ?_
    split
    · exact query_token u row operand offsets first 0
    · split
      · exact query_getDerivedValue u row operand offsets
      · exact query_getPostfixValue u row operand offsets
  | some index =>
    rw [calculOperandValue]
    exact Query.lift_bind fun type _ => query_token u row operand offsets type index

end Evaluation

end CsdWorker
