import CsdWorker.Tmax.ColumnOut

/-! # What the filter of a table block puts out

A row piece that is kept goes out with its used columns as they are stored and one byte for every other
column. The context that all rows of a block share does not carry anything from one row to the next.
-/

namespace CsdWorker.Tmax

open Memory Packing

set_option autoImplicit false

namespace FilterInfo

variable (fi : FilterInfo)

def uses (i : Nat) : Bool := fi.useCols.getD (fun _ => false) i

def constCount : Nat → Nat
  | 0 => 0
  | i + 1 => constCount i + (if fi.expLNos i = -1 then 1 else 0) + (if fi.expRNos i = -1 then 1 else 0)

def Refers (expNos : Int) : Prop :=
  expNos = -1 ∨ 0 ≤ expNos ∧ expNos < fi.colCnt ∧ fi.uses expNos.toNat = true

structure WellFormed : Prop where
  useCols : fi.useCols.isSome
  useColCnt : fi.useColCnt = (List.range fi.colCnt.toNat).countP fi.uses
  allMaxColno : ∀ i < fi.colCnt.toNat, fi.uses i = true → (i : Int) ≤ fi.allMaxColno
  left : ∀ i < fi.expCnt.toNat, fi.Refers (fi.expLNos i)
  right : ∀ i < fi.expCnt.toNat, fi.Refers (fi.expRNos i)
  constValsCnt : fi.constValsCnt = fi.constCount fi.expCnt.toNat
  constVals : ∀ k < fi.constValsCnt.toNat, (fi.constVals k).isSome

def outColumn (rp : Mem) (i : Nat) : Mem := if fi.uses i then columnAt (rpGetData rp) i else nullColumn

def rowOutput (rp : Mem) : Bytes := (List.range fi.colCnt.toNat).flatMap fun i => columnBytes (fi.outColumn rp i)

def operand (rp : Mem) (expNos : Int) (constIdx : Nat) : Option Mem :=
  if expNos = -1 then fi.constVals constIdx else some (columnAt (rpGetData rp) expNos.toNat)

/-- Constants are numbered from left to right through all expressions; an empty operand makes the
expression false. -/
def holds (rp : Mem) (i : Nat) : Bool :=
  let left := fi.operand rp (fi.expLNos i) (fi.constCount i)
  let right := fi.operand rp (fi.expRNos i) (fi.constCount i + if fi.expLNos i = -1 then 1 else 0)
  match left, right with
  | some valsL, some valsR =>
    rpcolGetSize valsL ≠ 0 && rpcolGetSize valsR ≠ 0 &&
      expEvalCondition valsL valsR (fi.opTypes i) (fi.isCharType i)
  | _, _ => false

def passes (rp : Mem) : Bool := (List.range fi.expCnt.toNat).all (fi.holds rp)

structure Fitting (rp : Mem) : Prop where
  first : hasFlag rp firstpieceRowPiece = true
  last : hasFlag rp lastpieceRowPiece = true
  stored : fi.allMaxColno < colcnt rp
  length_le : (fi.rowOutput rp).length ≤ resChunkSize

end FilterInfo

def isLive (rp : Mem) : Bool := hasFlag rp headRowPiece && !hasFlag rp deletedRowPiece

def livePieces (blk : Mem) : List Mem :=
  let dl := dblkGetDl blk
  (((List.range (rowcnt dl)).filter fun rowno => rowdir dl rowno ≠ 0).map fun rowno =>
    shift blk (rowdir dl rowno)).filter isLive

def survivors (fi : FilterInfo) (blk : Mem) : List Bytes := ((livePieces blk).filter fi.passes).map fi.rowOutput

def Built (fi : FilterInfo) (rp : Mem) (ctx : ExpCtx) : Prop :=
  ∀ j < fi.colCnt.toNat, fi.uses j = true → ctx.columnVals j = some (columnAt (rpGetData rp) j)

theorem buildData_built {fi : FilterInfo} (hFilter : fi.WellFormed) {rp : Mem} (hStored : fi.allMaxColno < colcnt rp)
    (ctx : ExpCtx) :
    Built fi rp (buildData ctx (rpGetData rp) fi.colCnt (colcnt rp) fi.useCols fi.useColCnt) := by
  obtain ⟨usecols, hUse⟩ := Option.isSome_iff_exists.mp hFilter.useCols
  have hUses : fi.uses = usecols := by
    funext i
    rw [FilterInfo.uses, hUse, Option.getD_some]
  have hCount := hFilter.useColCnt
  rw [hUses] at hCount
  intro j hj hUsed
  have hMax := hFilter.allMaxColno j hj hUsed
  rw [hUses] at hUsed
  rw [hUse, (buildData_used ctx (rpGetData rp) fi.colCnt (colcnt rp) hCount.ge hj hUsed).1, reached_of_lt _ (by omega)]

section Expressions
variable {fi : FilterInfo} {rp : Mem} {ctx : ExpCtx}

theorem constCount_mono (fi : FilterInfo) {i n : Nat} (h : i ≤ n) : fi.constCount i ≤ fi.constCount n := by
  induction n, h using Nat.le_induction with
  | base => exact le_rfl
  | succ n _ ih =>
    rw [FilterInfo.constCount]
    omega

theorem operandVal_eq (hFilter : fi.WellFormed) (hBuilt : Built fi rp ctx) {expNos : Int} (hRefers : fi.Refers expNos)
    (constIdx : Nat) (hConst : expNos = -1 → constIdx < fi.constCount fi.expCnt.toNat) :
    ∃ vals, operandVal fi ctx expNos constIdx = (some vals, constIdx + if expNos = -1 then 1 else 0) ∧
      fi.operand rp expNos constIdx = some vals := by
  rcases eq_or_ne expNos (-1) with rfl | hne
  · have hSome := hFilter.constVals constIdx (by rw [hFilter.constValsCnt]; simpa using hConst rfl)
    obtain ⟨vals, hVals⟩ := Option.isSome_iff_exists.mp hSome
    exact ⟨vals, by simp [operandVal, hVals], by simp [FilterInfo.operand, hVals]⟩
  · obtain ⟨hNonneg, hLt, hUsed⟩ := hRefers.resolve_left hne
    have hColumn := hBuilt expNos.toNat (by omega) hUsed
    exact ⟨columnAt (rpGetData rp) expNos.toNat, by simp [operandVal, hne, hNonneg, hColumn],
      by simp [FilterInfo.operand, hne]⟩

theorem expLoop_eq (hFilter : fi.WellFormed) (hBuilt : Built fi rp ctx) (n i : Nat) (hn : i + n = fi.expCnt.toNat) :
    expLoop fi ctx i n (fi.constCount i) = some ((List.range' i n).all (fi.holds rp)) := by
  induction n generalizing i with
  | zero => rfl
  | succ n ih =>
    have hCount : fi.constCount (i + 1) =
        fi.constCount i + (if fi.expLNos i = -1 then 1 else 0) + (if fi.expRNos i = -1 then 1 else 0) := rfl
    have hMono := constCount_mono fi (show i + 1 ≤ fi.expCnt.toNat by omega)
    obtain ⟨valsL, hValL, hLeft⟩ := operandVal_eq hFilter hBuilt (hFilter.left i (by omega))
      (fi.constCount i) fun h => by rw [if_pos h] at hCount; omega
    obtain ⟨valsR, hValR, hRight⟩ := operandVal_eq hFilter hBuilt (hFilter.right i (by omega))
      (fi.constCount i + if fi.expLNos i = -1 then 1 else 0) fun h => by rw [if_pos h] at hCount; omega
    have hHolds : fi.holds rp i = (rpcolGetSize valsL ≠ 0 && rpcolGetSize valsR ≠ 0 &&
        expEvalCondition valsL valsR (fi.opTypes i) (fi.isCharType i)) := by
      rw [FilterInfo.holds, hLeft, hRight]
    rw [List.range'_succ, List.all_cons, hHolds, expLoop, hValL]
    simp only [hValR]
    rw [← hCount, ih (i + 1) (by omega)]
    change (if _ then _ else _) = _
    rcases em (rpcolGetSize valsL = 0 ∨ rpcolGetSize valsR = 0) with hEmpty | hEmpty
    · rw [if_pos hEmpty]
      rcases hEmpty with hEmpty | hEmpty <;> simp [hEmpty]
    · rw [if_neg hEmpty]
      obtain ⟨hL, hR⟩ := not_or.mp hEmpty
      cases hCond : expEvalCondition valsL valsR (fi.opTypes i) (fi.isCharType i) with
      | true => simp [hL, hR]
      | false => simp

theorem checkRow_eq (hFilter : fi.WellFormed) (hBuilt : Built fi rp ctx) :
    checkRow fi ctx (fi.expCnt > 0) = some (fi.passes rp) := by
  rcases le_or_gt fi.expCnt 0 with hNone | hSome
  · have hZero : fi.expCnt.toNat = 0 := by omega
    rw [checkRow, if_neg (by simpa using hNone), FilterInfo.passes, hZero]
    rfl
  · have hLoop := expLoop_eq hFilter hBuilt fi.expCnt.toNat 0 (Nat.zero_add _)
    rw [checkRow, if_pos (by simpa using hSome), FilterInfo.passes, List.range_eq_range']
    exact hLoop

end Expressions

section Output
variable {fi : FilterInfo} {rp : Mem}

theorem setColOut_outColumn (hUse : fi.useCols.isSome) {ctx : ExpCtx} (hBuilt : Built fi rp ctx) :
    ∃ ctx', setColOut ctx fi.colCnt fi.useCols fi.useColCnt =
        some (total storedLen (slice (fi.outColumn rp) 0 fi.colCnt.toNat), ctx') ∧
      ∀ j < fi.colCnt.toNat, Stores ctx' j (fi.outColumn rp j) := by
  have hKept : (fi.useCols.getD fun _ => fi.useColCnt ≠ 0) = fi.uses := by
    obtain ⟨usecols, hUse⟩ := Option.isSome_iff_exists.mp hUse
    funext i
    rw [FilterInfo.uses, hUse, Option.getD_some, Option.getD_some]
  apply setColOut_stores
  · intro j hj hUsed
    rw [hKept] at hUsed
    rw [hBuilt j hj hUsed, FilterInfo.outColumn, if_pos hUsed]
  · intro j hUnused
    rw [hKept] at hUnused
    rw [FilterInfo.outColumn, hUnused]
    rfl

end Output

section Chunks
variable {heap : Nat → Mem}

/-- The chunks are the groups of the greedy packing; without a row there is no chunk. -/
def Packed (rows : List Bytes) (chunks : List Chunk) : Prop :=
  rows = [] ∧ chunks = [] ∨ rows ≠ [] ∧ chunks.map Chunk.content =
    (groups (pack List.length resChunkSize empty rows)).map List.flatten

theorem packed_append {rows : List Bytes} {chunks : List Chunk} {row : Bytes} {chunk : Chunk}
    (h : Packed rows chunks) (hRow : row.length ≤ resChunkSize)
    (hContent : chunk.content = (openChunk heap chunks row.length).2.content ++ row) :
    Packed (rows ++ [row]) ((openChunk heap chunks row.length).1 ++ [chunk]) := by
  refine Or.inr ⟨by simp, ?_⟩
  rw [pack_append, pack_cons, pack_nil]
  rcases h with ⟨rfl, rfl⟩ | ⟨-, hChunks⟩
  · have hNew : chunk.content = row := hContent
    rw [pack_nil, add_of_fits _ _ (by simpa [empty] using hRow)]
    simp [openChunk, groups, empty, hNew]
  · generalize pack List.length resChunkSize empty rows = p at hChunks ⊢
    rw [groups, List.map_append] at hChunks
    obtain ⟨before, lasts, rfl, hBefore, hLasts⟩ := List.map_eq_append_iff.mp hChunks
    obtain ⟨last, rfl, hLast⟩ := List.map_eq_singleton_iff.mp hLasts
    have hUsed : last.used = total List.length p.opened := by
      rw [← length_content, hLast, total_length]
    rw [openChunk_last] at hContent ⊢
    rcases Nat.lt_or_ge resChunkSize (last.used + row.length) with hFull | hFits
    · rw [if_pos hFull] at hContent ⊢
      have hNew : chunk.content = row := hContent
      rw [add_of_overflow _ _ (by rw [← hUsed]; exact hFull)]
      simp [groups, hBefore, hLast, hNew]
    · rw [if_neg (not_lt.mpr hFits)] at hContent ⊢
      rw [add_of_fits _ _ (by rw [← hUsed]; exact hFits)]
      simp [groups, hBefore, hContent, hLast]

end Chunks

section Rows
variable {fi : FilterInfo} {rp : Mem} {heap : Nat → Mem}

theorem rowOutput_eq (fi : FilterInfo) (rp : Mem) :
    fi.rowOutput rp = (slice (fi.outColumn rp) 0 fi.colCnt.toNat).flatMap columnBytes := by
  rw [FilterInfo.rowOutput, List.range_eq_range', slice, List.flatMap_map]

/-- What one row piece adds to the output, whatever the context holds from the row before. -/
theorem processRow_packed (hFilter : fi.WellFormed) (hFitting : fi.Fitting rp) (ctx : ExpCtx) {chunkList : ChunkList}
    {rows : List Bytes} (hPacked : Packed rows chunkList.resChunk) :
    ∃ s, processRow fi heap ctx rp chunkList = some s ∧ s.2.chainedChunk = chunkList.chainedChunk ∧
      Packed (rows ++ if fi.passes rp then [fi.rowOutput rp] else []) s.2.resChunk := by
  have hBuilt := buildData_built hFilter hFitting.stored ctx
  have hCheck := checkRow_eq hFilter hBuilt
  simp only [processRow, hCheck]
  cases hPasses : fi.passes rp with
  | false => exact ⟨(_, chunkList), rfl, rfl, by simpa using hPacked⟩
  | true =>
    have hLength := hFitting.length_le
    obtain ⟨ctx', hSet, hStores⟩ := setColOut_outColumn hFilter.useCols hBuilt
    rw [rowOutput_eq] at hLength
    rw [total_storedLen hLength, byteLen, ← rowOutput_eq] at hSet
    have hRoom := openChunk_room heap chunkList.resChunk hFitting.length_le
    obtain ⟨chunk, hSerialize, hContent⟩ := serializeRpcolsToChunk_content heap fi.colCnt (fun j hj => (hStores j hj).1)
      chunkList (by rwa [byteLen, ← rowOutput_eq])
    refine ⟨(ctx', { chunkList with
      resChunk := (openChunk heap chunkList.resChunk (fi.rowOutput rp).length).1 ++ [chunk] }), ?_, rfl, ?_⟩
    · simp [hSet, hSerialize]
    · rw [← rowOutput_eq] at hContent
      exact packed_append hPacked hFitting.length_le hContent

theorem tableBlockGetRowPiece_of_ne {blk : Mem} {rowno : Nat} (h : rowdir (dblkGetDl blk) rowno ≠ 0) :
    tableBlockGetRowPiece blk rowno =
      if isLive (shift blk (rowdir (dblkGetDl blk) rowno)) then some (shift blk (rowdir (dblkGetDl blk) rowno))
      else none := by
  rw [tableBlockGetRowPiece, isLive]
  simp only [if_neg h]
  cases hasFlag (shift blk (rowdir (dblkGetDl blk) rowno)) headRowPiece with
  | false => rfl
  | true =>
    cases hasFlag (shift blk (rowdir (dblkGetDl blk) rowno)) deletedRowPiece with
    | false => rfl
    | true => rfl

theorem livePieces_eq (blk : Mem) :
    livePieces blk = (List.range (rowcnt (dblkGetDl blk))).filterMap (tableBlockGetRowPiece blk) := by
  rw [livePieces]
  induction List.range (rowcnt (dblkGetDl blk)) with
  | nil => rfl
  | cons rowno rownos ih =>
    rcases eq_or_ne (rowdir (dblkGetDl blk) rowno) 0 with hZero | hne
    · have hNull : tableBlockGetRowPiece blk rowno = none := if_pos hZero
      rw [List.filterMap_cons_none hNull, List.filter_cons_of_neg (by simpa using hZero)]
      exact ih
    · rw [List.filter_cons_of_pos (by simpa using hne), List.map_cons]
      have hPiece := tableBlockGetRowPiece_of_ne hne
      cases hLive : isLive (shift blk (rowdir (dblkGetDl blk) rowno)) with
      | true =>
        rw [hLive, if_pos rfl] at hPiece
        rw [List.filterMap_cons_some hPiece, List.filter_cons_of_pos hLive]
        exact congrArg _ ih
      | false =>
        rw [hLive, if_neg Bool.false_ne_true] at hPiece
        rw [List.filterMap_cons_none hPiece, List.filter_cons_of_neg (by simp [hLive])]
        exact ih

theorem rowStep_packed (hFilter : fi.WellFormed) {blk : Mem} {rowno : Nat}
    (hPiece : ∀ rp ∈ tableBlockGetRowPiece blk rowno, fi.Fitting rp) (s : ExpCtx × ChunkList) {rows : List Bytes}
    (hPacked : Packed rows s.2.resChunk) :
    ∃ s', rowStep fi heap blk s rowno = some s' ∧ s'.2.chainedChunk = s.2.chainedChunk ∧
      Packed (rows ++ ((tableBlockGetRowPiece blk rowno).toList.filter fi.passes).map fi.rowOutput) s'.2.resChunk := by
  cases hGet : tableBlockGetRowPiece blk rowno with
  | none => exact ⟨s, by rw [rowStep, hGet], rfl, by simpa using hPacked⟩
  | some rp =>
    have hFitting := hPiece rp hGet
    obtain ⟨s', hOk, hChained, hRows⟩ := processRow_packed hFilter hFitting s.1 hPacked
    refine ⟨s', ?_, hChained, ?_⟩
    · rw [rowStep, hGet]
      simp only [hFitting.first, hFitting.last, Bool.not_true, Bool.or_self, Bool.false_eq_true, if_false]
      exact hOk
    · cases hPasses : fi.passes rp with
      | true => simpa [hPasses] using hRows
      | false => simpa [hPasses] using hRows

theorem rows_packed (heap : Nat → Mem) (hFilter : fi.WellFormed) {blk : Mem} (rownos : List Nat)
    (hPieces : ∀ rp ∈ rownos.filterMap (tableBlockGetRowPiece blk), fi.Fitting rp) (s : ExpCtx × ChunkList)
    {rows : List Bytes} (hPacked : Packed rows s.2.resChunk) :
    ∃ s', rownos.foldlM (rowStep fi heap blk) s = some s' ∧ s'.2.chainedChunk = s.2.chainedChunk ∧
      Packed (rows ++ ((rownos.filterMap (tableBlockGetRowPiece blk)).filter fi.passes).map fi.rowOutput)
        s'.2.resChunk := by
  induction rownos generalizing s rows with
  | nil => exact ⟨s, rfl, rfl, by simpa using hPacked⟩
  | cons rowno rownos ih =>
    have hSplit : (rowno :: rownos).filterMap (tableBlockGetRowPiece blk) =
        (tableBlockGetRowPiece blk rowno).toList ++ rownos.filterMap (tableBlockGetRowPiece blk) := by
      cases hGet : tableBlockGetRowPiece blk rowno with
      | none => rw [List.filterMap_cons_none hGet]; rfl
      | some rp => rw [List.filterMap_cons_some hGet]; rfl
    rw [hSplit] at hPieces ⊢
    obtain ⟨hFirst, hRest⟩ := List.forall_mem_append.mp hPieces
    obtain ⟨t, hStep, hChained, hRows⟩ :=
      rowStep_packed hFilter (fun rp hrp => hFirst rp (by simpa using hrp)) s hPacked
    obtain ⟨s', hFold, hChained', hRows'⟩ := ih hRest t hRows
    refine ⟨s', ?_, hChained'.trans hChained, ?_⟩
    · rw [List.foldlM_cons, hStep]
      exact hFold
    · rwa [List.filter_append, List.map_append, ← List.append_assoc]

end Rows

section Congruence

theorem memcmp_congr {a b a' b' : Mem} (n i : Nat) (ha : ∀ k < i + n, a' k = a k) (hb : ∀ k < i + n, b' k = b k) :
    memcmp a' b' i n = memcmp a b i n := by
  induction n generalizing i with
  | zero => rfl
  | succ n ih =>
    have hRest := ih (i + 1) (fun k hk => ha k (by omega)) fun k hk => hb k (by omega)
    rw [memcmp, memcmp, hRest, ha i (by omega), hb i (by omega)]

theorem hasNonBlank_congr {a a' : Mem} (n i : Nat) (ha : ∀ k < i + n, a' k = a k) :
    hasNonBlank a' i n = hasNonBlank a i n := by
  induction n generalizing i with
  | zero => rfl
  | succ n ih => rw [hasNonBlank, hasNonBlank, ih (i + 1) fun k hk => ha k (by omega), ha i (by omega)]

theorem expEvalCondition_congr {l r l' r' : Mem} (hl : ∀ k < rpcolGetLen l, l' k = l k)
    (hr : ∀ k < rpcolGetLen r, r' k = r k) (opType : ExpOpType) (isCharType : Bool) :
    expEvalCondition l' r' opType isCharType = expEvalCondition l r opType isCharType := by
  obtain ⟨-, hSizeL, hDataL⟩ := column_congr hl
  obtain ⟨-, hSizeR, hDataR⟩ := column_congr hr
  have hCompare : compareVals l' r' isCharType = compareVals l r isCharType := by
    rw [compareVals, compareVals, hSizeL, hSizeR]
    rcases Nat.lt_trichotomy (rpcolGetSize l) (rpcolGetSize r) with hlt | heq | hgt
    · rw [if_pos hlt.le, memcmp_congr _ 0 (fun k hk => hDataL k (by omega)) (fun k hk => hDataR k (by omega)),
        hasNonBlank_congr (rpcolGetSize r - rpcolGetSize l) (rpcolGetSize l) fun k hk => hDataR k (by omega)]
      simp only [hlt, hlt.not_gt, if_true, if_false]
    · rw [if_pos heq.le, memcmp_congr _ 0 (fun k hk => hDataL k (by omega)) (fun k hk => hDataR k (by omega))]
      simp only [heq, lt_irrefl, if_false]
    · rw [if_neg (not_le.mpr hgt), memcmp_congr _ 0 (fun k hk => hDataL k (by omega)) (fun k hk => hDataR k (by omega)),
        hasNonBlank_congr (rpcolGetSize l - rpcolGetSize r) (rpcolGetSize r) fun k hk => hDataL k (by omega)]
      simp only [hgt, hgt.not_gt, if_true, if_false]
  rw [expEvalCondition, expEvalCondition, hCompare, hSizeL, hSizeR]

def SameColumn (col' col : Mem) : Prop := ∀ k < rpcolGetLen col, col' k = col k

variable {fi : FilterInfo} {rp rp' : Mem}

theorem used_lt_colcnt (hFilter : fi.WellFormed) (hFitting : fi.Fitting rp) {i : Nat} (hi : i < fi.colCnt.toNat)
    (hUsed : fi.uses i = true) : i < colcnt rp := by
  have hMax := hFilter.allMaxColno i hi hUsed
  have hStored := hFitting.stored
  omega

theorem columnAt_same (hFitting : fi.Fitting rp) (h : ∀ k < pieceLength rp, rp' k = rp k) {i : Nat}
    (hi : i < colcnt rp) : SameColumn (columnAt (rpGetData rp') i) (columnAt (rpGetData rp) i) := by
  have hFlags : flags rp' = flags rp := h 0 (by rw [pieceLength]; omega)
  have hData : rpGetData rp = shift rp 3 := by rw [rpGetData, if_pos hFitting.last]
  have hData' : rpGetData rp' = shift rp' 3 := by
    rw [rpGetData, hasFlag, hFlags, ← hasFlag, if_pos hFitting.last]
  refine columnAt_congr (fun k hk => ?_) i hi
  rw [hData, hData']
  exact h (3 + k) (by rw [pieceLength]; omega)

theorem operand_same (hFilter : fi.WellFormed) (hFitting : fi.Fitting rp) (h : ∀ k < pieceLength rp, rp' k = rp k)
    {expNos : Int} (hRefers : fi.Refers expNos) (constIdx : Nat) :
    Option.Rel SameColumn (fi.operand rp' expNos constIdx) (fi.operand rp expNos constIdx) := by
  rcases eq_or_ne expNos (-1) with rfl | hne
  · change Option.Rel SameColumn (fi.constVals constIdx) (fi.constVals constIdx)
    cases fi.constVals constIdx with
    | none => exact .none
    | some vals => exact .some fun k _ => rfl
  · obtain ⟨hNonneg, hLt, hUsed⟩ := hRefers.resolve_left hne
    rw [FilterInfo.operand, FilterInfo.operand, if_neg hne, if_neg hne]
    exact .some (columnAt_same hFitting h (used_lt_colcnt hFilter hFitting (by omega) hUsed))

theorem holds_same (hFilter : fi.WellFormed) (hFitting : fi.Fitting rp) (h : ∀ k < pieceLength rp, rp' k = rp k)
    {i : Nat} (hi : i < fi.expCnt.toNat) : fi.holds rp' i = fi.holds rp i := by
  have hLeft := operand_same hFilter hFitting h (hFilter.left i hi) (fi.constCount i)
  have hRight := operand_same hFilter hFitting h (hFilter.right i hi)
    (fi.constCount i + if fi.expLNos i = -1 then 1 else 0)
  rw [FilterInfo.holds, FilterInfo.holds]
  generalize fi.operand rp' (fi.expLNos i) (fi.constCount i) = l', fi.operand rp (fi.expLNos i) (fi.constCount i) = l,
    fi.operand rp' (fi.expRNos i) (fi.constCount i + if fi.expLNos i = -1 then 1 else 0) = r',
    fi.operand rp (fi.expRNos i) (fi.constCount i + if fi.expLNos i = -1 then 1 else 0) = r at hLeft hRight ⊢
  cases hLeft with
  | none => rfl
  | some hl =>
    cases hRight with
    | none => rfl
    | some hr =>
      simp only [(column_congr hl).2.1, (column_congr hr).2.1, expEvalCondition_congr hl hr]

theorem row_same (hFilter : fi.WellFormed) (hFitting : fi.Fitting rp) (h : ∀ k < pieceLength rp, rp' k = rp k) :
    fi.passes rp' = fi.passes rp ∧ fi.rowOutput rp' = fi.rowOutput rp := by
  constructor
  · rw [FilterInfo.passes, FilterInfo.passes]
    rw [Bool.eq_iff_iff, List.all_eq_true, List.all_eq_true]
    apply forall₂_congr
    intro i hi
    rw [holds_same hFilter hFitting h (List.mem_range.mp hi)]
  · rw [FilterInfo.rowOutput, FilterInfo.rowOutput]
    apply List.flatMap_congr
    intro i hi
    rw [FilterInfo.outColumn, FilterInfo.outColumn]
    cases hUsed : fi.uses i with
    | false => rfl
    | true =>
      have hSame := columnAt_same hFitting h (used_lt_colcnt hFilter hFitting (List.mem_range.mp hi) hUsed)
      rw [if_pos rfl, if_pos rfl, columnBytes, columnBytes, (column_congr hSame).1]
      exact read_congr fun k hk => by simpa using hSame k hk

end Congruence

structure Output (fi : FilterInfo) (blk : Mem) (out : ChunkList) : Prop where
  bytes : out.resChunk.flatMap Chunk.content = (survivors fi blk).flatten
  whole : ∃ rows : List (List Bytes), rows.flatten = survivors fi blk ∧
    out.resChunk.map Chunk.content = rows.map List.flatten
  used : ∀ chunk ∈ out.resChunk, chunk.used ≤ resChunkSize
  chained : out.chainedChunk = []

theorem output_of_packed {fi : FilterInfo} {blk : Mem} {out : ChunkList}
    (hFit : ∀ row ∈ survivors fi blk, row.length ≤ resChunkSize) (hPacked : Packed (survivors fi blk) out.resChunk)
    (hChained : out.chainedChunk = []) : Output fi blk out := by
  have hWhole : ∃ rows : List (List Bytes), rows.flatten = survivors fi blk ∧
      out.resChunk.map Chunk.content = rows.map List.flatten ∧ ∀ row ∈ rows, total List.length row ≤ resChunkSize := by
    rcases hPacked with ⟨hNil, hChunks⟩ | ⟨-, hChunks⟩
    · exact ⟨[], hNil.symm, by rw [hChunks]; rfl, fun row hRow => (nomatch hRow)⟩
    · exact ⟨_, groups_pack_flatten _ _ _ _, hChunks, fits_pack _ _ (fits_empty _ _) hFit⟩
  obtain ⟨rows, hRows, hContents, hTotal⟩ := hWhole
  refine ⟨?_, ⟨rows, hRows, hContents⟩, fun chunk hChunk => ?_, hChained⟩
  · rw [List.flatMap_def, hContents, ← hRows, List.flatten_flatten]
  · have hMem : chunk.content ∈ rows.map List.flatten := hContents ▸ List.mem_map_of_mem hChunk
    obtain ⟨row, hRow, hEq⟩ := List.mem_map.mp hMem
    have hLength := hTotal row hRow
    rw [total_length, hEq, length_content] at hLength
    exact hLength

/-- The filter of a block puts out the rows that pass, whatever the arrays of the context hold at the
start, and a row is decided by its own bytes. -/
theorem csdFilterAndEvalOut_output (fi : FilterInfo) (heap : Nat → Mem) (blk : Mem) (ctx : ExpCtx)
    (hFilter : fi.WellFormed) (hPieces : ∀ rp ∈ livePieces blk, fi.Fitting rp) :
    (∃ out, csdFilterAndEvalOut fi heap blk ctx createChunkList = some out ∧ Output fi blk out) ∧
      ∀ rp ∈ livePieces blk, ∀ rp', (∀ k < pieceLength rp, rp' k = rp k) →
        fi.passes rp' = fi.passes rp ∧ fi.rowOutput rp' = fi.rowOutput rp := by
  refine ⟨?_, fun rp hrp rp' h => row_same hFilter (hPieces rp hrp) h⟩
  have hFit : ∀ row ∈ survivors fi blk, row.length ≤ resChunkSize := by
    intro row hRow
    obtain ⟨rp, hrp, rfl⟩ := List.mem_map.mp hRow
    exact (hPieces rp (List.mem_of_mem_filter hrp)).length_le
  have hLive := livePieces_eq blk
  obtain ⟨s, hFold, hChained, hPacked⟩ := rows_packed heap hFilter (List.range (rowcnt (dblkGetDl blk)))
    (fun rp hrp => hPieces rp (hLive ▸ hrp)) (ctx, createChunkList) (Or.inl ⟨rfl, rfl⟩)
  rw [List.nil_append, ← hLive] at hPacked
  refine ⟨s.2, ?_, output_of_packed hFit hPacked hChained⟩
  rw [csdFilterAndEvalOut, hFold]
  rfl

def twoRowBlock : Mem :=
  let dl := write (write zeroed 40 [2, 0]) 44 [100, 0, 120, 0]
  write (write dl 100 [0x2c, 0, 2, 1, 65, 2, 66, 67]) 120 [0x2c, 0, 2, 1, 90, 1, 91]

def firstColumnFilter : FilterInfo :=
  { expCnt := 1, colCnt := 2, useCols := some (· == 0), useColCnt := 1, allMaxColno := 0, whereMaxColno := 0
    isCharType := fun _ => true, opTypes := fun _ => .equal, expLNos := fun _ => 0, expRNos := fun _ => -1
    constValsCnt := 1, constVals := fun k => if k = 0 then some (ofBytes [1, 65]) else none }

theorem firstColumnFilter_wellFormed : firstColumnFilter.WellFormed where
  useCols := rfl
  useColCnt := rfl
  allMaxColno := by decide
  left _ _ := Or.inr (by decide : (0 : Int) ≤ 0 ∧ (0 : Int) < 2 ∧ firstColumnFilter.uses 0 = true)
  right _ _ := Or.inl rfl
  constValsCnt := rfl
  constVals := by decide

theorem twoRowBlock_pieces : livePieces twoRowBlock = [shift twoRowBlock 100, shift twoRowBlock 120] := rfl

theorem twoRowBlock_output :
    ∃ out, csdFilterAndEvalOut firstColumnFilter (fun _ => zeroed) twoRowBlock
      ⟨fun _ => none, fun _ => 0⟩ createChunkList = some out ∧
      out.resChunk.flatMap Chunk.content = [1, 65, 0] := by
  have hPieces : ∀ rp ∈ livePieces twoRowBlock, firstColumnFilter.Fitting rp := by
    intro rp hrp
    rw [twoRowBlock_pieces] at hrp
    rcases List.mem_pair.mp hrp with rfl | rfl
    · exact ⟨by decide, by decide, by decide, by decide⟩
    · exact ⟨by decide, by decide, by decide, by decide⟩
  obtain ⟨⟨out, hOut, hOutput⟩, -⟩ := csdFilterAndEvalOut_output firstColumnFilter (fun _ => zeroed) twoRowBlock
    ⟨fun _ => none, fun _ => 0⟩ firstColumnFilter_wellFormed hPieces
  refine ⟨out, hOut, hOutput.bytes.trans ?_⟩
  rw [survivors, twoRowBlock_pieces]
  decide

end CsdWorker.Tmax
