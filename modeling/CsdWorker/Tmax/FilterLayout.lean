import CsdWorker.Lib.Layout
import CsdWorker.Tmax.Ex

/-! # The layout of a filter description

`deserialize_filter_info`. The server sends the description of a filter as a string of bytes: four arrays
whose lengths come before them, with elements of different sizes, and constants that carry their own length.
-/

namespace CsdWorker.Tmax

open Memory Endian Layout

set_option autoImplicit false

def ExpOpType.ofCode (code : Int) : ExpOpType :=
  if code = 0 then .none
  else if code = 1 then .or
  else if code = 2 then .and
  else if code = 3 then .not
  else if code = 4 then .equal
  else if code = 5 then .ne
  else if code = 6 then .gt
  else if code = 7 then .lt
  else if code = 8 then .ge
  else if code = 9 then .le
  else if code = 10 then .max
  else .undefined code

section Model

def bools (n : Int) : Reader (Nat → Bool) := array 1 n false fun bytes => leNat bytes ≠ 0

def opTypeArray (n : Int) : Reader (Nat → ExpOpType) := array 4 n .none fun bytes => .ofCode (leInt bytes)

def int16s (n : Int) : Reader (Nat → Int) := array 2 n 0 leInt

/-- A column copied to a buffer of its own. -/
def column : Reader Mem := fun m pos =>
  let rpLen := rpcolGetLen (shift m pos)
  some (ofBytes (read m pos rpLen), pos + rpLen)

def constantList (constValsCnt : Int) : Reader (List Mem) :=
  if constValsCnt ≠ 0 then many column constValsCnt.toNat else pure []

def deserializeFilterInfo : Reader FilterInfo := do
  let expCnt ← int 4
  let colCnt ← int 4
  let useCols ← bools colCnt
  let useColCnt ← int 4
  let allMaxColno ← int 4
  let whereMaxColno ← int 4
  let isCharType ← bools expCnt
  let opTypes ← opTypeArray expCnt
  let expLNos ← int16s expCnt
  let expRNos ← int16s expCnt
  let constValsCnt ← int 4
  let constVals ← constantList constValsCnt
  pure
    { expCnt, colCnt, useCols := some useCols, useColCnt, allMaxColno, whereMaxColno, isCharType, opTypes
      expLNos, expRNos, constValsCnt, constVals := fun k => constVals[k]? }

end Model

structure Expression where
  isCharType : Bool
  opType : Int32
  left : Int16
  right : Int16

/-- A constant with its length in front, in one byte or in three. -/
structure Constant where
  bytes : Bytes
  length_eq : rpcolGetLen (ofBytes bytes) = bytes.length

structure FilterDescription where
  useCols : List Bool
  useColCnt : Int32
  allMaxColno : Int32
  whereMaxColno : Int32
  expressions : List Expression
  constants : List Constant
  expCnt_lt : expressions.length < 2 ^ 31
  colCnt_lt : useCols.length < 2 ^ 31
  constValsCnt_lt : constants.length < 2 ^ 31

namespace FilterDescription

variable (d : FilterDescription)

def boolByte (b : Bool) : Bytes := [if b then 1 else 0]

def layout : Bytes :=
  intLe 4 d.expressions.length ++ (intLe 4 d.useCols.length ++ (d.useCols.flatMap boolByte ++
    (intLe 4 d.useColCnt.toInt ++ (intLe 4 d.allMaxColno.toInt ++ (intLe 4 d.whereMaxColno.toInt ++
      (d.expressions.flatMap (fun e => boolByte e.isCharType) ++
        (d.expressions.flatMap (fun e => intLe 4 e.opType.toInt) ++
          (d.expressions.flatMap (fun e => intLe 2 e.left.toInt) ++
            (d.expressions.flatMap (fun e => intLe 2 e.right.toInt) ++
              (intLe 4 d.constants.length ++ d.constants.flatMap Constant.bytes))))))))))

/-- The description in memory. The arrays have no elements behind those of the lists. -/
def toFilterInfo : FilterInfo :=
  { expCnt := d.expressions.length
    colCnt := d.useCols.length
    useCols := some fun i => d.useCols.getD i false
    useColCnt := d.useColCnt.toInt
    allMaxColno := d.allMaxColno.toInt
    whereMaxColno := d.whereMaxColno.toInt
    isCharType := fun i => (d.expressions.map Expression.isCharType).getD i false
    opTypes := fun i => (d.expressions.map fun e => .ofCode e.opType.toInt).getD i .none
    expLNos := fun i => (d.expressions.map fun e => e.left.toInt).getD i 0
    expRNos := fun i => (d.expressions.map fun e => e.right.toInt).getD i 0
    constValsCnt := d.constants.length
    constVals := fun k => (d.constants.map fun c => ofBytes c.bytes)[k]? }

end FilterDescription

section Fields
open FilterDescription

theorem leInt_int32 (x : Int32) : leInt (intLe 4 x.toInt) = x.toInt := by
  have hLow := x.le_toInt
  have hHigh := x.toInt_lt
  exact leInt_intLe (by omega) (by omega)

theorem leInt_int16 (x : Int16) : leInt (intLe 2 x.toInt) = x.toInt := by
  have hLow := x.le_toInt
  have hHigh := x.toInt_lt
  exact leInt_intLe (by omega) (by omega)

theorem reads_int32 (x : Int32) : Reads (int 4) (intLe 4 x.toInt) x.toInt := by
  have hLow := x.le_toInt
  have hHigh := x.toInt_lt
  exact reads_int (by omega) (by omega)

theorem reads_count {n : Nat} (h : n < 2 ^ 31) : Reads (int 4) (intLe 4 n) n := reads_int (by omega) (by omega)

theorem reads_bools {β : Type} (f : β → Bool) (xs : List β) :
    Reads (bools xs.length) (xs.flatMap fun x => boolByte (f x)) fun i => (xs.map f).getD i false :=
  reads_array (fun x => boolByte (f x)) _ f (fun _ => rfl) (fun x => by cases f x <;> rfl) false xs

theorem reads_opTypes (xs : List Expression) :
    Reads (opTypeArray xs.length) (xs.flatMap fun e => intLe 4 e.opType.toInt)
      fun i => (xs.map fun e => .ofCode e.opType.toInt).getD i .none :=
  reads_array (fun e : Expression => intLe 4 e.opType.toInt) (fun bytes => ExpOpType.ofCode (leInt bytes))
    (fun e => ExpOpType.ofCode e.opType.toInt) (fun _ => length_intLe _ _)
    (fun e => congrArg ExpOpType.ofCode (leInt_int32 e.opType)) ExpOpType.none xs

theorem reads_int16s {β : Type} (f : β → Int16) (xs : List β) :
    Reads (int16s xs.length) (xs.flatMap fun x => intLe 2 (f x).toInt) fun i =>
      (xs.map fun x => (f x).toInt).getD i 0 :=
  reads_array (fun x => intLe 2 (f x).toInt) leInt (fun x => (f x).toInt) (fun _ => length_intLe _ _)
    (fun x => leInt_int16 (f x)) 0 xs

theorem reads_column (c : Constant) : Reads column c.bytes (ofBytes c.bytes) := by
  intro m pos h
  have hSame : ∀ k < rpcolGetLen (ofBytes c.bytes), shift m pos k = ofBytes c.bytes k := by
    intro k hk
    rw [c.length_eq] at hk
    have hByte := getElem?_read m pos c.bytes.length k
    rw [h, if_pos hk, List.getElem?_eq_getElem hk, Option.some_inj] at hByte
    rw [shift_apply, ← hByte, ofBytes, List.getD_eq_getElem _ _ hk]
  have hLen : rpcolGetLen (shift m pos) = c.bytes.length := (column_congr hSame).1.trans c.length_eq
  rw [column]
  simp only [hLen, h]

theorem reads_constantList (constants : List Constant) :
    Reads (constantList constants.length) (constants.flatMap Constant.bytes)
      (constants.map fun c => ofBytes c.bytes) := by
  rw [constantList]
  cases constants with
  | nil => exact reads_pure []
  | cons c constants =>
    rw [if_pos (by rw [List.length_cons]; omega), Int.toNat_natCast]
    exact reads_many reads_column (c :: constants)

end Fields

/-- The layout of a description, wherever it lies and whatever follows it, is read as that description. -/
theorem deserializeFilterInfo_layout (d : FilterDescription) (data : Mem) (pos : Nat)
    (hLayout : read data pos d.layout.length = d.layout) :
    deserializeFilterInfo data pos = some (d.toFilterInfo, pos + d.layout.length) := by
  have hUseCols := reads_bools id d.useCols
  rw [List.map_id] at hUseCols
  have hReads : Reads deserializeFilterInfo d.layout d.toFilterInfo := by
    apply (reads_count d.expCnt_lt).bind
    apply (reads_count d.colCnt_lt).bind
    apply hUseCols.bind
    apply (reads_int32 d.useColCnt).bind
    apply (reads_int32 d.allMaxColno).bind
    apply (reads_int32 d.whereMaxColno).bind
    apply (reads_bools Expression.isCharType d.expressions).bind
    apply (reads_opTypes d.expressions).bind
    apply (reads_int16s Expression.left d.expressions).bind
    apply (reads_int16s Expression.right d.expressions).bind
    apply (reads_count d.constValsCnt_lt).bind
    exact (reads_constantList d.constants).bind_pure
  exact hReads data pos hLayout

/-- The filter `column 0 = 'A'` on a table of two columns. -/
def equalADescription : FilterDescription :=
  { useCols := [true, false], useColCnt := 1, allMaxColno := 0, whereMaxColno := 0
    expressions := [⟨true, 4, 0, -1⟩], constants := [⟨[1, 65], rfl⟩]
    expCnt_lt := by decide, colCnt_lt := by decide, constValsCnt_lt := by decide }

theorem equalADescription_deserialized :
    read (ofBytes (equalADescription.layout ++ [7])) 0 37 = equalADescription.layout ∧
      deserializeFilterInfo (ofBytes (equalADescription.layout ++ [7])) 0 = some (equalADescription.toFilterInfo, 37) :=
  ⟨by decide, deserializeFilterInfo_layout equalADescription _ 0 (by decide)⟩

end CsdWorker.Tmax
