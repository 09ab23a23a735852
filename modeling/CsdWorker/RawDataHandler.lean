import CsdWorker.Utils

/-! # Evaluation of operands on one row

`raw_data_handler.h`. `none` is an exception, a crash or an access outside a vector. The schema
is state, because `column_index_map[name]` inserts a missing name. A declared `kValue` leaves all
members but `string_` and `real_` indeterminate; they are those of the parameter `u`.
-/

namespace CsdWorker

open Memory Endian

set_option autoImplicit false

structure KValue where
  type_ : KetiValueType
  string_ : Bytes
  int_ : Int
  int64_ : Int
  float_ : Float32
  double_ : Float
  bool_ : Bool
  real_ : Int

abbrev Eval := StateT SchemaInfo Option

/-- Zeros everywhere, one possible content of an indeterminate value. -/
def KValue.zero : KValue :=
  { type_ := .int32, string_ := [], int_ := 0, int64_ := 0, float_ := 0, double_ := 0, bool_ := false,
    real_ := 0 }

def KValue.fresh (u : KValue) : KValue := { u with string_ := [], real_ := 0 }

/-- `static_cast<int>(pow(100, real))`, exact while the power fits an `int`. -/
def powBase (real : Int) : Int := if real < 0 then 0 else 100 ^ real.toNat

section Operations
variable (u : KValue)

def calculPlusOperation (lv rv : KValue) : KValue :=
  match lv.type_ with
  | .int32 =>
    if rv.type_ = .decimal then
      { u.fresh with
        int64_ := wrap 8 (wrap 4 (lv.int_ * powBase rv.real_) + rv.int64_)
        real_ := rv.real_
        type_ := .decimal }
    else { u.fresh with int_ := wrap 4 (lv.int_ + rv.int_), type_ := lv.type_ }
  | .int64 | .decimal => { u.fresh with int64_ := wrap 8 (lv.int64_ + rv.int64_), type_ := lv.type_ }
  | .float32 => { u.fresh with float_ := lv.float_ + rv.float_, type_ := lv.type_ }
  | .double => { u.fresh with double_ := lv.double_ + rv.double_, type_ := lv.type_ }
  | _ => u.fresh

def calculMinusOperation (lv rv : KValue) : KValue :=
  match lv.type_ with
  | .int32 =>
    if rv.type_ = .decimal then
      { u.fresh with
        int64_ := wrap 8 (wrap 4 (lv.int_ * powBase rv.real_) - rv.int64_)
        real_ := rv.real_
        type_ := .decimal }
    else { u.fresh with int_ := wrap 4 (lv.int_ - rv.int_), type_ := lv.type_ }
  | .int64 | .decimal => { u.fresh with int64_ := wrap 8 (lv.int64_ - rv.int64_), type_ := lv.type_ }
  | .float32 => { u.fresh with float_ := lv.float_ - rv.float_, type_ := lv.type_ }
  | .double => { u.fresh with double_ := lv.double_ - rv.double_, type_ := lv.type_ }
  | _ => u.fresh

def calculMultipleOperation (lv rv : KValue) : KValue :=
  match lv.type_ with
  | .int32 => { u.fresh with int_ := wrap 4 (lv.int_ * rv.int_), type_ := lv.type_ }
  | .int64 => { u.fresh with int64_ := wrap 8 (lv.int64_ * rv.int64_), type_ := lv.type_ }
  | .decimal =>
    if rv.type_ = .int32 then
      { u.fresh with int64_ := wrap 8 (lv.int64_ * rv.int_), real_ := lv.real_, type_ := lv.type_ }
    else
      { u.fresh with
        int64_ := wrap 8 (lv.int64_ * rv.int64_)
        real_ := wrap 4 (lv.real_ + rv.real_)
        type_ := lv.type_ }
  | .float32 => { u.fresh with float_ := lv.float_ * rv.float_, type_ := lv.type_ }
  | .double => { u.fresh with double_ := lv.double_ * rv.double_, type_ := lv.type_ }
  | _ => { u.fresh with type_ := lv.type_ }

/-- Integer division traps on a zero divisor and on the one quotient that does not fit. -/
def divideInt (width : Nat) (a b : Int) : Option Int :=
  if b = 0 ∨ wrap width (a.tdiv b) ≠ a.tdiv b then none else some (a.tdiv b)

def calculDivideOperation (lv rv : KValue) : Option KValue :=
  match lv.type_ with
  | .int32 => do
    let quotient ← divideInt 4 lv.int_ rv.int_
    pure { u.fresh with int_ := quotient, type_ := lv.type_ }
  | .int64 | .decimal => do
    let quotient ← divideInt 8 lv.int64_ rv.int64_
    pure { u.fresh with int64_ := quotient, type_ := lv.type_ }
  | .float32 => some { u.fresh with float_ := lv.float_ / rv.float_, type_ := lv.type_ }
  | .double => some { u.fresh with double_ := lv.double_ / rv.double_, type_ := lv.type_ }
  | _ => some { u.fresh with type_ := lv.type_ }

def calculEqualOperation (lv rv : KValue) (notFlag : Bool) : KValue :=
  let equal : Bool := match lv.type_ with
    | .int32 => lv.int_ == rv.int_
    | .int64 | .decimal => lv.int64_ == rv.int64_
    | .float32 => lv.float_ == rv.float_
    | .double => lv.double_ == rv.double_
    | .string => lv.string_ == rv.string_
    | _ => u.bool_
  { u.fresh with type_ := .boolean, bool_ := if notFlag then !equal else equal }

def calculNotEqualOperation (lv rv : KValue) : KValue := calculEqualOperation u lv rv true

end Operations

/-- `column_index_map[name]`: a name that is not there is inserted with index 0. -/
def columnIndexAt (name : Bytes) : Eval Nat := do
  let schemaInfo ← get
  match schemaInfo.columnIndexMap.lookup name with
  | some index => pure index
  | none =>
    set { schemaInfo with columnIndexMap := (name, 0) :: schemaInfo.columnIndexMap }
    pure 0

theorem columnIndexAt_of_some {name : Bytes} {s : SchemaInfo} {index : Nat}
    (h : s.columnIndexMap.lookup name = some index) :
    (columnIndexAt name).run s = some (index, s) := by
  simp [columnIndexAt, h, StateT.run_bind]

theorem columnIndexAt_of_none {name : Bytes} {s : SchemaInfo} (h : s.columnIndexMap.lookup name = none) :
    (columnIndexAt name).run s = some (0, { s with columnIndexMap := (name, 0) :: s.columnIndexMap }) := by
  simp [columnIndexAt, h, StateT.run_bind]

/-- `char buffer[width] = {0}` filled by `memcpy`, read back as an integer. -/
def zeroExtended (width : Nat) (bytes : Bytes) : Int :=
  leInt ((bytes ++ List.replicate width 0).take width)

/-- The `MySQL_NEWDECIMAL` branch of `get_column_value`. -/
def newDecimalValue (columnData : Mem) : Int :=
  let isNegative : Bool := (columnData 0).toNat < 128
  let complemented : Mem := fun i => if isNegative && i < 7 then ~~~columnData i else columnData i
  let byte : Mem := fun i => if i = 0 then complemented i ^^^ 0x80 else complemented i
  let ivalue := leInt [byte 5, byte 4, byte 3, byte 2, byte 1, byte 0, 0, 0]
  let rvalue := leInt [byte 6]
  let decimalToInt := wrap 8 (ivalue * 100 + rvalue)
  if isNegative then wrap 8 (decimalToInt * -1) else decimalToInt

section Evaluation
variable (u : KValue) (row : Mem)

def getColumnValue (operand : Operand) (offsets : List Int) (index : Nat) : Eval KValue := do
  let columnName ← operand.values[index]?
  let columnIndex ← columnIndexAt columnName
  let schemaInfo ← get
  let columnType ← schemaInfo.columnType[columnIndex]?
  let startOffset ← offsets[columnIndex]?
  let endOffset ← offsets[columnIndex + 1]?
  let columnLength := endOffset - startOffset
  let stringValue (tune : Int) : Eval KValue := do
    let rawValue ← slice row (startOffset + tune) (columnLength - tune)
    pure { u.fresh with string_ := trim rawValue, type_ := .string }
  match columnType with
  | .byte | .int16 | .int32 | .date => do
    let columnData ← slice row startOffset columnLength
    pure { u.fresh with int_ := zeroExtended 4 columnData, type_ := .int32 }
  | .int64 => do
    let columnData ← slice row startOffset columnLength
    pure { u.fresh with int64_ := zeroExtended 8 columnData, type_ := .int64 }
  | .newDecimal => do
    let columnData ← slice row startOffset columnLength
    pure { u.fresh with
      int64_ := newDecimalValue (ofBytes columnData)
      real_ := 1
      type_ := .decimal }
  | .string => stringValue 0
  | .varString => stringValue (if columnLength < 255 then 1 else 2)
  | .float32 | .double | .timestamp | .undefined _ => pure u.fresh

def getLiteralValue (operand : Operand) (index : Nat) : Eval KValue := do
  let type ← operand.types[index]?
  let value ← operand.values[index]?
  match type with
  | .int8 | .int16 | .int32 | .date => do
    let n ← stoi value
    pure { u.fresh with int_ := n, type_ := .int32 }
  | .int64 => do
    let n ← stoll value
    pure { u.fresh with int64_ := n, type_ := .int64 }
  | .float32 => do
    let x ← stof value
    pure { u.fresh with double_ := x.toFloat, type_ := .float32 }
  | .double => do
    let x ← stod value
    pure { u.fresh with double_ := x, type_ := .double }
  | .decimal => do
    let x ← stod value
    pure { u.fresh with double_ := x, int64_ := (x * 100).toInt64.toInt, real_ := 1, type_ := .decimal }
  | .string => pure { u.fresh with string_ := value, type_ := .string }
  | .timestamp | .column | .operator | .boolean | .undefined _ => pure u.fresh

def applyOperator (value : Bytes) (lv rv : KValue) : Option KValue :=
  if value = bytesOf "+" then some (calculPlusOperation u lv rv)
  else if value = bytesOf "-" then some (calculMinusOperation u lv rv)
  else if value = bytesOf "*" then some (calculMultipleOperation u lv rv)
  else if value = bytesOf "/" then calculDivideOperation u lv rv
  else if value = bytesOf "=" then some (calculEqualOperation u lv rv false)
  else if value = bytesOf "<>" then some (calculNotEqualOperation u lv rv)
  else some u.fresh

def getPostfixValueFrom (operand : Operand) (offsets : List Int) :
    Nat → Nat → List KValue → Eval (List KValue)
  | 0, _, operStack => pure operStack
  | n + 1, i, operStack => do
    let type ← operand.types[i]?
    let value ← operand.values[i]?
    if type = .operator then
      match operStack with
      | rv :: lv :: rest => do
        let median ← applyOperator u value lv rv
        getPostfixValueFrom operand offsets n (i + 1) (median :: rest)
      | _ => failure
    else do
      let median ←
        if type = .column then getColumnValue u row operand offsets i else getLiteralValue u operand i
      getPostfixValueFrom operand offsets n (i + 1) (median :: operStack)

def getPostfixValue (operand : Operand) (offsets : List Int) : Eval KValue := do
  let operStack ← getPostfixValueFrom u row operand offsets operand.types.length 0 []
  operStack.head?

/-- `["SUBSTRING", column, from, length]`. -/
def calculSubstringOperation (operand : Operand) (offsets : List Int) : Eval KValue := do
  let columnName ← operand.values[1]?
  let columnIndex ← columnIndexAt columnName
  let startOffset ← offsets[columnIndex]?
  let fromText ← operand.values[2]?
  let fromPos ← stoi fromText
  let toText ← operand.values[3]?
  let toPos ← stoi toText
  let columnData ← slice row (startOffset + (fromPos - 1)) toPos
  pure { u.fresh with string_ := columnData, type_ := .string }

structure CaseOffsets where
  whenThen : List (Nat × Nat)
  elseOffset : Option Nat
  whenOffset : Option Nat

def caseOffsetsFrom : List Bytes → Nat → CaseOffsets → Option CaseOffsets
  | [], _, found => some found
  | value :: values, i, found =>
    if value = bytesOf "WHEN" then caseOffsetsFrom values (i + 1) { found with whenOffset := some i }
    else if value = bytesOf "THEN" then do
      let whenOffset ← found.whenOffset
      caseOffsetsFrom values (i + 1) { found with whenThen := found.whenThen ++ [(whenOffset, i)] }
    else if value = bytesOf "ELSE" then caseOffsetsFrom values (i + 1) { found with elseOffset := some i }
    else caseOffsetsFrom values (i + 1) found

/-- The loop over one WHEN condition. The sliced operand is handed on because a condition that
is left early does not clear it. -/
def caseCondition (operand : Operand) (offsets : List Int) :
    Nat → Nat → Operand → Bool → Eval (Operand × Bool)
  | 0, _, sliced, passed => pure (sliced, passed)
  | n + 1, index, sliced, passed => do
    let token ← operand.values[index]?
    if token = bytesOf "AND" then do
      let value ← getPostfixValue u row sliced offsets
      if value.bool_ then caseCondition operand offsets n (index + 1) ⟨[], []⟩ passed
      else pure (sliced, false)
    else if token = bytesOf "OR" then do
      let value ← getPostfixValue u row sliced offsets
      if value.bool_ then pure (sliced, true)
      else caseCondition operand offsets n (index + 1) ⟨[], []⟩ passed
    else if token = bytesOf "THEN" then do
      let value ← getPostfixValue u row sliced offsets
      caseCondition operand offsets n (index + 1) sliced value.bool_
    else do
      let type ← operand.types[index]?
      caseCondition operand offsets n (index + 1)
        ⟨sliced.types ++ [type], sliced.values ++ [token]⟩ passed

def collectUntil (operand : Operand) (stop : List Bytes) : Nat → Nat → Operand → Option Operand
  | 0, _, _ => none
  | n + 1, index, sliced => do
    let token ← operand.values[index]?
    if token ∈ stop then some sliced
    else do
      let type ← operand.types[index]?
      collectUntil operand stop n (index + 1) ⟨sliced.types ++ [type], sliced.values ++ [token]⟩

def caseBranches (operand : Operand) (offsets : List Int) (elseOffset : Option Nat) :
    List (Nat × Nat) → Operand → Bool → Eval KValue
  | [], _, _ => do
    let elseOffset ← elseOffset
    let sliced ← collectUntil operand [bytesOf "END"] operand.values.length (elseOffset + 1) ⟨[], []⟩
    getPostfixValue u row sliced offsets
  | (whenOffset, thenOffset) :: branches, sliced, passed => do
    let (sliced, passed) ←
      caseCondition u row operand offsets (thenOffset - whenOffset) (whenOffset + 1) sliced passed
    if passed then do
      let sliced ← collectUntil operand [bytesOf "WHEN", bytesOf "ELSE", bytesOf "END"]
        operand.values.length (thenOffset + 1) ⟨[], []⟩
      getPostfixValue u row sliced offsets
    else caseBranches operand offsets elseOffset branches sliced passed

def calculCaseOperation (operand : Operand) (offsets : List Int) : Eval KValue := do
  let found ← caseOffsetsFrom operand.values 0 ⟨[], none, none⟩
  caseBranches u row operand offsets found.elseOffset found.whenThen ⟨[], []⟩ false

/-- `["EXTRACT", unit, column]`. -/
def calculExtractOperation (operand : Operand) (offsets : List Int) : Eval KValue := do
  let unitText ← operand.values[1]?
  let unit := convertToLowercase unitText
  let columnValue ← getColumnValue u row operand offsets 2
  let date := columnValue.int_
  let result := { u.fresh with type_ := KetiValueType.int32 }
  if unit = bytesOf "year" then pure { result with int_ := date.tdiv 512 }
  else if unit = bytesOf "month" then pure { result with int_ := (date.tmod 512).tdiv 32 }
  else if unit = bytesOf "day" then pure { result with int_ := (date.tmod 512).tmod 32 }
  else pure result

def getDerivedValue (operand : Operand) (offsets : List Int) : Eval KValue := do
  let operatorText ← operand.values[0]?
  let lowerOperator := convertToLowercase operatorText
  if lowerOperator = bytesOf "substring" ∨ lowerOperator = bytesOf "substr" then
    calculSubstringOperation u row operand offsets
  else if lowerOperator = bytesOf "case" then calculCaseOperation u row operand offsets
  else if lowerOperator = bytesOf "extract" then calculExtractOperation u row operand offsets
  else pure u.fresh

/-- The default index `-1` is `none`. -/
def calculOperandValue (operand : Operand) (offsets : List Int) (index : Option Nat) : Eval KValue :=
  match index with
  | none => do
    let first ← operand.types[0]?
    if operand.types.length = 1 then
      if first = .column then getColumnValue u row operand offsets 0 else getLiteralValue u operand 0
    else if first = .operator then getDerivedValue u row operand offsets
    else getPostfixValue u row operand offsets
  | some index => do
    let type ← operand.types[index]?
    if type = .column then getColumnValue u row operand offsets index else getLiteralValue u operand index

end Evaluation

/-- `strcpy` into a local array, which held `unset` before, stops behind the first NUL. -/
def stringChars (unset : Mem) (src : Bytes) : Bytes :=
  read (write unset 0 (src.takeWhile (· ≠ 0) ++ [0])) 0 src.length

/-- The bytes of the local array are those of the indeterminate value's string, which no evaluation reads. -/
def convertValueToChar (u : KValue) (dest : Mem) (value : KValue) (offset : Nat) : Option (Nat × Mem) :=
  match value.type_ with
  | .int32 => some (4, write dest offset (intLe 4 value.int_))
  | .int64 => some (8, write dest offset (intLe 8 value.int64_))
  | .decimal =>
    let isNegative : Bool := value.int64_ < 0
    let magnitude := if isNegative then wrap 8 (value.int64_ * -1) else value.int64_
    let base := powBase value.real_
    let integer := magnitude.tdiv base
    let real := wrap 4 (magnitude.tmod base)
    let reversedIntegerChar := ((intLe 8 integer).take 6).reverse
    let reversedIntegerChar := reversedIntegerChar.modifyHead (· ^^^ 0x80)
    let dest : Mem := if isNegative then fun i => if i < 7 then ~~~dest i else dest i else dest
    if base = 0 then none
    else some (6 + value.real_.toNat,
      write (write dest offset reversedIntegerChar) (offset + 6)
        ((intLe 4 real).take value.real_.toNat))
  | .string => some (value.string_.length, write dest offset (stringChars (ofBytes u.string_) value.string_))
  | _ => some (0, dest)

def projectionRawData (u : KValue) (row : Mem) (operand : Operand) (offsets : List Int) (dest : Mem)
    (currentRowLength : Nat) : Eval (Nat × Mem) := do
  if operand.types.length = 1 then
    let columnName ← operand.values[0]?
    let columnIndex ← columnIndexAt columnName
    let startOffset ← offsets[columnIndex]?
    let endOffset ← offsets[columnIndex + 1]?
    let column ← slice row startOffset (endOffset - startOffset)
    pure (column.length, write dest currentRowLength column)
  else
    let value ← calculOperandValue u row operand offsets none
    convertValueToChar u dest value currentRowLength

end CsdWorker
