import CsdWorker.Tmax.DataBlk

/-! # Filtering the rows of a table block

`ex.cc`. The arrays of `filter_info_t` and `exp_ctx_t` are functions of the index, as seen from their
first element. `none` is a null pointer where a pointer is stored, and a failed run where one is followed.
-/

namespace CsdWorker.Tmax

open Memory

set_option autoImplicit false

inductive ExpOpType where
  | none | or | and | not | equal | ne | gt | lt | ge | le | max | undefined (code : Int)
  deriving DecidableEq, Repr

structure FilterInfo where
  expCnt : Int
  colCnt : Int
  useCols : Option (Nat → Bool)
  useColCnt : Int
  allMaxColno : Int
  whereMaxColno : Int
  isCharType : Nat → Bool
  opTypes : Nat → ExpOpType
  expLNos : Nat → Int
  expRNos : Nat → Int
  constValsCnt : Int
  constVals : Nat → Option Mem

structure ExpCtx where
  columnVals : Nat → Option Mem
  columnValLens : Nat → UInt16

def resChunkSize : Nat := 65536 - 3

structure Chunk where
  buf : Mem
  used : Nat

structure ChunkList where
  resChunk : List Chunk
  chainedChunk : List Chunk

/-- `NULL_COLUMN`; of its four zero bytes only the first is a column. -/
def nullColumn : Mem := zeroed

section Columns

def setColumn (ctx : ExpCtx) (i : Nat) (rpData : Mem) : ExpCtx :=
  { columnVals := Function.update ctx.columnVals i (some rpData)
    columnValLens := Function.update ctx.columnValLens i (rpcolGetLen rpData).toUInt16 }

def buildAll : Nat → Nat → ExpCtx → Mem → ExpCtx
  | _, 0, ctx, _ => ctx
  | i, n + 1, ctx, rpData => buildAll (i + 1) n (setColumn ctx i rpData) (shift rpData (rpcolGetLen rpData))

def setNull : Nat → Nat → ExpCtx → ExpCtx
  | _, 0, ctx => ctx
  | i, n + 1, ctx =>
    setNull (i + 1) n
      { columnVals := Function.update ctx.columnVals i none
        columnValLens := Function.update ctx.columnValLens i 1 }

/-- The loop over the `n` columns from `i` on. It ends with the last used column, and the pointer stays
on the last column of the row piece. -/
def buildUsed (usecols : Nat → Bool) (rpColCnt : Int) : Nat → Nat → ExpCtx → Mem → Int → ExpCtx
  | _, 0, ctx, _, _ => ctx
  | i, n + 1, ctx, rpData, remainedColCnt =>
    let ctx := if usecols i then setColumn ctx i rpData else ctx
    let remainedColCnt := if usecols i then remainedColCnt - 1 else remainedColCnt
    if remainedColCnt ≤ 0 then ctx
    else
      buildUsed usecols rpColCnt (i + 1) n ctx
        (if (i : Int) < rpColCnt - 1 then shift rpData (rpcolGetLen rpData) else rpData) remainedColCnt

def buildData (ctx : ExpCtx) (rpData : Mem) (colCnt rpColCnt : Int) (usecols : Option (Nat → Bool))
    (usecolCnt : Int) : ExpCtx :=
  match usecols with
  | none =>
    let minColCnt := if colCnt > rpColCnt then rpColCnt else colCnt
    setNull minColCnt.toNat (colCnt.toNat - minColCnt.toNat) (buildAll 0 minColCnt.toNat ctx rpData)
  | some usecols => buildUsed usecols rpColCnt 0 colCnt.toNat ctx rpData usecolCnt

end Columns

section Expressions

/-- `memcmp` of the `n` bytes from `i` on; its callers use the sign only. -/
def memcmp (a b : Mem) : Nat → Nat → Int
  | _, 0 => 0
  | i, n + 1 => if a i = b i then memcmp a b (i + 1) n else (a i).toNat - (b i).toNat

def hasNonBlank (str : Mem) : Nat → Nat → Bool
  | _, 0 => false
  | i, n + 1 => str i ≠ 32 || hasNonBlank str (i + 1) n

def compareVals (valsL valsR : Mem) (isCharType : Bool) : Int :=
  let lSize := rpcolGetSize valsL
  let rSize := rpcolGetSize valsR
  let prefixCmp := memcmp (rpcolGetData valsL) (rpcolGetData valsR) 0 (if lSize ≤ rSize then lSize else rSize)
  if !isCharType then
    if prefixCmp ≠ 0 then prefixCmp else lSize - rSize
  else if prefixCmp = 0 then
    if lSize < rSize then
      if hasNonBlank (rpcolGetData valsR) lSize (rSize - lSize) then -1 else 0
    else if lSize > rSize then
      if hasNonBlank (rpcolGetData valsL) rSize (lSize - rSize) then 1 else 0
    else 0
  else prefixCmp

def expEvalCondition (valsL valsR : Mem) (opType : ExpOpType) (isCharType : Bool) : Bool :=
  let lSize := rpcolGetSize valsL
  let rSize := rpcolGetSize valsR
  if (if lSize ≤ rSize then lSize else rSize) = 0 then false
  else
    let cmp := compareVals valsL valsR isCharType
    match opType with
    | .equal => cmp = 0
    | .ne => cmp ≠ 0
    | .gt => cmp > 0
    | .lt => cmp < 0
    | .ge => !decide (cmp < 0)
    | .le => !decide (cmp > 0)
    | _ => false

variable (filterInfo : FilterInfo) (ctx : ExpCtx)

def operandVal (expNos : Int) (constIdx : Nat) : Option Mem × Nat :=
  if expNos ≠ -1 then (if 0 ≤ expNos then ctx.columnVals expNos.toNat else none, constIdx)
  else (filterInfo.constVals constIdx, constIdx + 1)

def expLoop : Nat → Nat → Nat → Option Bool
  | _, 0, _ => some true
  | i, n + 1, constIdx => do
    let left := operandVal filterInfo ctx (filterInfo.expLNos i) constIdx
    let right := operandVal filterInfo ctx (filterInfo.expRNos i) left.2
    let valsL ← left.1
    let valsR ← right.1
    if rpcolGetSize valsL = 0 ∨ rpcolGetSize valsR = 0 then some false
    else if expEvalCondition valsL valsR (filterInfo.opTypes i) (filterInfo.isCharType i) then
      expLoop (i + 1) n right.2
    else some false

def expEvalAndCheckTrue : Option Bool := expLoop filterInfo ctx 0 filterInfo.expCnt.toNat 0

/-- The test at the call sites: a row that is not evaluated is kept. -/
def checkRow (evaluated : Bool) : Option Bool :=
  if evaluated then expEvalAndCheckTrue filterInfo ctx else some true

end Expressions

section Output

/-- The loops of `set_col_out` differ in which columns are kept. -/
def setColOutFrom (kept : Nat → Bool) : Nat → Nat → ExpCtx → Nat → Option (Nat × ExpCtx)
  | _, 0, ctx, totalLen => some (totalLen, ctx)
  | i, n + 1, ctx, totalLen =>
    if kept i then do
      let col ← ctx.columnVals i
      let len := (rpcolGetLen col).toUInt16
      setColOutFrom kept (i + 1) n { ctx with columnValLens := Function.update ctx.columnValLens i len }
        (totalLen + len.toNat)
    else
      setColOutFrom kept (i + 1) n
        { columnVals := Function.update ctx.columnVals i (some nullColumn)
          columnValLens := Function.update ctx.columnValLens i 1 }
        (totalLen + 1)

/-- Without `usecols` no column is needed if `usecol_cnt` is 0, and every column otherwise. -/
def setColOut (ctx : ExpCtx) (colCnt : Int) (usecols : Option (Nat → Bool)) (usecolCnt : Int) :
    Option (Nat × ExpCtx) :=
  setColOutFrom (usecols.getD fun _ => usecolCnt ≠ 0) 0 colCnt.toNat ctx 0

/-- `malloc` leaves in the buffer what it finds there. -/
def createChunk (garbage : Mem) : Chunk := ⟨garbage, 0⟩

/-- The chunks before the current one, and the current one: a new one if there is none or the row does
not fit. `heap k` is what `malloc` finds for the `k`-th chunk of a list. -/
def openChunk (heap : Nat → Mem) (chunks : List Chunk) (totalLen : Nat) : List Chunk × Chunk :=
  match chunks.getLast? with
  | none => (chunks, createChunk (heap chunks.length))
  | some chunk =>
    if chunk.used + totalLen > resChunkSize then (chunks, createChunk (heap chunks.length))
    else (chunks.dropLast, chunk)

/-- `memcpy` of a column into the `RES_CHUNK_SIZE` bytes of a chunk. A copy that leaves them is a failed run. -/
def copyColumn (chunk : Chunk) (offset : Nat) (col : Mem) (colLen : Nat) : Option Chunk :=
  if offset + colLen ≤ resChunkSize then
    some ⟨write chunk.buf offset (read col 0 colLen), chunk.used + colLen⟩
  else none

def copyColumns (ctx : ExpCtx) : Nat → Nat → Chunk → Option Chunk
  | _, 0, chunk => some chunk
  | i, n + 1, chunk => do
    let col ← ctx.columnVals i
    let chunk ← copyColumn chunk chunk.used col (rpcolGetLen col)
    copyColumns ctx (i + 1) n chunk

def serializeRpcolsToChunk (heap : Nat → Mem) (ctx : ExpCtx) (colCnt : Int) (chunkList : ChunkList)
    (totalLen : Nat) : Option ChunkList := do
  let opened := openChunk heap chunkList.resChunk totalLen
  let chunk ← copyColumns ctx 0 colCnt.toNat opened.2
  pure { chunkList with resChunk := opened.1 ++ [chunk] }

/-- Every column is copied to the start of the buffer. -/
def copyChainedColumns (ctx : ExpCtx) : Nat → Nat → Chunk → Option Chunk
  | _, 0, chunk => some chunk
  | i, n + 1, chunk => do
    let col ← ctx.columnVals i
    let chunk ← copyColumn chunk 0 col (ctx.columnValLens i).toNat
    copyChainedColumns ctx (i + 1) n chunk

def serializeRpcolsToChainedChunk (heap : Nat → Mem) (ctx : ExpCtx) (colCnt : Int) (chunkList : ChunkList)
    (totalLen : Nat) : Option ChunkList := do
  let opened := openChunk heap chunkList.chainedChunk totalLen
  let chunk ← copyChainedColumns ctx 0 colCnt.toNat opened.2
  pure { chunkList with chainedChunk := opened.1 ++ [chunk] }

end Output

/-- The answer says whether the row piece is dealt with. -/
def processChainedRow (heap : Nat → Mem) (ctx : ExpCtx) (rp : Mem) (chunkList : ChunkList)
    (filterInfo : FilterInfo) : Option (Bool × ExpCtx × ChunkList) :=
  let rpColCnt : Int := colcnt rp
  let normalColCnt := if hasFlag rp lastcolContRowPiece then rpColCnt - 1 else rpColCnt
  if filterInfo.allMaxColno < normalColCnt then some (false, ctx, chunkList)
  else do
    let ctx := buildData ctx (rpGetData rp) rpColCnt rpColCnt filterInfo.useCols
      (if rpColCnt > filterInfo.useColCnt then filterInfo.useColCnt else rpColCnt)
    let passed ← checkRow filterInfo ctx (filterInfo.expCnt > 0 ∧ filterInfo.whereMaxColno < normalColCnt)
    if passed then do
      let (totalLen, ctx) ← setColOut ctx rpColCnt filterInfo.useCols filterInfo.useColCnt
      let chunkList ← serializeRpcolsToChainedChunk heap ctx rpColCnt chunkList totalLen
      pure (true, ctx, chunkList)
    else pure (true, ctx, chunkList)

section Block
variable (filterInfo : FilterInfo) (heap : Nat → Mem)

def processRow (ctx : ExpCtx) (rp : Mem) (chunkList : ChunkList) : Option (ExpCtx × ChunkList) := do
  let ctx := buildData ctx (rpGetData rp) filterInfo.colCnt (colcnt rp) filterInfo.useCols filterInfo.useColCnt
  let passed ← checkRow filterInfo ctx (filterInfo.expCnt > 0)
  if passed then do
    let (totalLen, ctx) ← setColOut ctx filterInfo.colCnt filterInfo.useCols filterInfo.useColCnt
    let chunkList ← serializeRpcolsToChunk heap ctx filterInfo.colCnt chunkList totalLen
    pure (ctx, chunkList)
  else pure (ctx, chunkList)

def rowStep (blk : Mem) (s : ExpCtx × ChunkList) (rowno : Nat) : Option (ExpCtx × ChunkList) :=
  match tableBlockGetRowPiece blk rowno with
  | none => some s
  | some rp =>
    if !hasFlag rp firstpieceRowPiece || !hasFlag rp lastpieceRowPiece then do
      let (dealt, ctx, chunkList) ← processChainedRow heap s.1 rp s.2 filterInfo
      if dealt then pure (ctx, chunkList) else processRow filterInfo heap ctx rp chunkList
    else processRow filterInfo heap s.1 rp s.2

/-- `ctx` is what `malloc` finds for the two arrays of `exp_ctx`. -/
def csdFilterAndEvalOut (blk : Mem) (ctx : ExpCtx) (chunkList : ChunkList) : Option ChunkList := do
  let s ← (List.range (rowcnt (dblkGetDl blk))).foldlM (rowStep filterInfo heap blk) (ctx, chunkList)
  pure s.2

end Block

def createChunkList : ChunkList := ⟨[], []⟩

end CsdWorker.Tmax
