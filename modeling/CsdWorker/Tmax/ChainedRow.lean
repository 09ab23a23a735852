import CsdWorker.Tmax.ColumnOut

/-! # Row pieces of chained rows

A chained row lies in several pieces, and the last column of a piece can go on in the next one. The filter
is decided on the head piece if the columns it reads are complete there; the piece goes to a `res` chunk if
all used columns are, and to a chained chunk otherwise.
-/

namespace CsdWorker.Tmax

open Memory Packing

set_option autoImplicit false

/-- The number of columns that the row piece stores completely. -/
def completeCols (rp : Mem) : Int := if hasFlag rp lastcolContRowPiece then (colcnt rp : Int) - 1 else colcnt rp

/-- The complete columns of a row piece, and no others. -/
def completeCtx (rp : Mem) : ExpCtx :=
  { columnVals := fun i => if (i : Int) < completeCols rp then some (columnAt (rpGetData rp) i) else none
    columnValLens := fun _ => 0 }

namespace FilterInfo

variable (fi : FilterInfo) (rp : Mem)

/-- The columns that `set_col_out` keeps. -/
def keeps : Nat → Bool := fi.useCols.getD fun _ => fi.useColCnt ≠ 0

def IsUsed (colno : Int) : Prop := 0 ≤ colno ∧ colno < fi.colCnt ∧ fi.keeps colno.toNat = true

def IsWhere (colno : Int) : Prop := colno ≠ -1 ∧ ∃ i < fi.expCnt.toNat, colno = fi.expLNos i ∨ colno = fi.expRNos i

structure Numbered : Prop where
  where_used : ∀ colno, fi.IsWhere colno → fi.IsUsed colno
  whereMaxColno : ∀ colno, fi.IsWhere colno → colno ≤ fi.whereMaxColno
  allMaxColno : IsGreatest {colno | fi.IsUsed colno} fi.allMaxColno
  useColCnt : fi.useColCnt = (List.range fi.colCnt.toNat).countP fi.keeps

def Complete : Prop := ∀ colno, fi.IsUsed colno → colno < completeCols rp

def sentColumn (i : Nat) : Mem := if fi.keeps i then columnAt (rpGetData rp) i else nullColumn

def sentColumns (n : Nat) : List Mem := slice (fi.sentColumn rp) 0 n

/-- The filter on the complete columns, where it is decided on this row piece. -/
def verdict : Option Bool :=
  if fi.expCnt > 0 ∧ (fi.whereMaxColno < completeCols rp ∨ fi.allMaxColno < completeCols rp) then
    expEvalAndCheckTrue fi (completeCtx rp)
  else some true

end FilterInfo

section Expressions
variable {fi : FilterInfo} {ctx ctx' : ExpCtx}

theorem operandVal_congr {expNos : Int} (constIdx : Nat)
    (h : expNos ≠ -1 → 0 ≤ expNos → ctx.columnVals expNos.toNat = ctx'.columnVals expNos.toNat) :
    operandVal fi ctx expNos constIdx = operandVal fi ctx' expNos constIdx := by
  rw [operandVal, operandVal]
  split
  · rename_i hne
    split
    · rename_i hNonneg
      rw [h hne hNonneg]
    · rfl
  · rfl

theorem expLoop_congr (n i constIdx : Nat)
    (h : ∀ k, i ≤ k → k < i + n → ∀ colno, colno ≠ -1 → (colno = fi.expLNos k ∨ colno = fi.expRNos k) → 0 ≤ colno →
      ctx.columnVals colno.toNat = ctx'.columnVals colno.toNat) :
    expLoop fi ctx i n constIdx = expLoop fi ctx' i n constIdx := by
  induction n generalizing i constIdx with
  | zero => rfl
  | succ n ih =>
    have hRest := fun c => ih (i + 1) c fun k hk hk' => h k (by omega) (by omega)
    rw [expLoop, expLoop, operandVal_congr constIdx fun hne => h i le_rfl (by omega) _ hne (Or.inl rfl)]
    simp only [hRest, operandVal_congr (operandVal fi ctx' (fi.expLNos i) constIdx).2
      fun hne => h i le_rfl (by omega) _ hne (Or.inr rfl)]

theorem expEvalAndCheckTrue_congr
    (h : ∀ colno, fi.IsWhere colno → 0 ≤ colno → ctx.columnVals colno.toNat = ctx'.columnVals colno.toNat) :
    expEvalAndCheckTrue fi ctx = expEvalAndCheckTrue fi ctx' :=
  expLoop_congr _ _ _ fun k _ hk colno hne hNos => h colno ⟨hne, k, by omega, hNos⟩

end Expressions

section Build
variable {fi : FilterInfo} {rp : Mem}

theorem columnVals_completeCtx {i : Nat} (h : (i : Int) < completeCols rp) :
    (completeCtx rp).columnVals i = some (columnAt (rpGetData rp) i) := if_pos h

theorem completeCols_le (rp : Mem) : completeCols rp ≤ colcnt rp := by
  rw [completeCols]
  split <;> omega

/-- The first `n` columns are as the row piece stores them, as far as they are used and stored. -/
def Kept (fi : FilterInfo) (rp : Mem) (n : Nat) (ctx : ExpCtx) : Prop :=
  ∀ i < n, i < colcnt rp → fi.keeps i = true → ctx.columnVals i = some (columnAt (rpGetData rp) i)

theorem buildData_kept (ctx : ExpCtx) (colCnt usecolCnt : Int)
    (hCount : ((List.range colCnt.toNat).countP fi.keeps : Int) ≤ usecolCnt) :
    Kept fi rp colCnt.toNat (buildData ctx (rpGetData rp) colCnt (colcnt rp) fi.useCols usecolCnt) := by
  intro i hi hStored hKeeps
  rw [FilterInfo.keeps] at hCount hKeeps
  cases hUse : fi.useCols with
  | none => rw [buildData_all ctx (rpGetData rp) colCnt (colcnt rp) usecolCnt hi, if_pos hStored]
  | some usecols =>
    rw [hUse, Option.getD_some] at hCount hKeeps
    rw [(buildData_used ctx (rpGetData rp) colCnt (colcnt rp) hCount hi hKeeps).1, reached_of_lt _ hStored]

theorem setColOut_kept {colCnt : Int} {ctx : ExpCtx} (hKept : Kept fi rp colCnt.toNat ctx)
    (hStored : ∀ i < colCnt.toNat, fi.keeps i = true → i < colcnt rp) :
    ∃ ctx', setColOut ctx colCnt fi.useCols fi.useColCnt =
        some (total storedLen (fi.sentColumns rp colCnt.toNat), ctx') ∧
      ∀ i < colCnt.toNat, Stores ctx' i (fi.sentColumn rp i) := by
  apply setColOut_stores
  · intro i hi hKeeps
    rw [hKept i hi (hStored i hi hKeeps) hKeeps, FilterInfo.sentColumn]
    exact congrArg some (if_pos hKeeps).symm
  · intro i hUnused
    exact if_neg (by rw [FilterInfo.keeps, hUnused]; exact Bool.false_ne_true)

theorem complete_iff (hFilter : fi.Numbered) : fi.Complete rp ↔ fi.allMaxColno < completeCols rp := by
  constructor
  · intro hComplete
    exact hComplete _ hFilter.allMaxColno.1
  · intro hlt colno hUsed
    exact (hFilter.allMaxColno.2 hUsed).trans_lt hlt

/-- Where the filter is decided, it reads complete columns only. -/
theorem where_complete (hFilter : fi.Numbered)
    (hMax : fi.whereMaxColno < completeCols rp ∨ fi.allMaxColno < completeCols rp) {colno : Int}
    (hWhere : fi.IsWhere colno) : colno < completeCols rp := by
  rcases hMax with hMax | hMax
  · exact (hFilter.whereMaxColno colno hWhere).trans_lt hMax
  · exact (complete_iff hFilter).mpr hMax colno (hFilter.where_used colno hWhere)

theorem checkRow_verdict (hFilter : fi.Numbered) {n : Nat} {ctx : ExpCtx} (hKept : Kept fi rp n ctx)
    (hn : ∀ colno, fi.IsUsed colno → colno < completeCols rp → colno < n) (evaluated : Bool)
    (hEvaluated : evaluated = true ↔
      fi.expCnt > 0 ∧ (fi.whereMaxColno < completeCols rp ∨ fi.allMaxColno < completeCols rp)) :
    checkRow fi ctx evaluated = fi.verdict rp := by
  rw [checkRow, FilterInfo.verdict]
  by_cases hBoth : fi.expCnt > 0 ∧ (fi.whereMaxColno < completeCols rp ∨ fi.allMaxColno < completeCols rp)
  · rw [if_pos (hEvaluated.mpr hBoth), if_pos hBoth]
    apply expEvalAndCheckTrue_congr
    intro colno hWhere hNonneg
    have hUsed := hFilter.where_used colno hWhere
    have hComplete := where_complete hFilter hBoth.2 hWhere
    have hLe := completeCols_le rp
    have hLt := hn colno hUsed hComplete
    rw [hKept colno.toNat (by omega) (by omega) hUsed.2.2, columnVals_completeCtx (by omega)]
  · rw [if_neg (mt hEvaluated.mp hBoth), if_neg hBoth]

end Build

/-- The row is in a `res` chunk, behind what there was. -/
structure SentToRes (fi : FilterInfo) (rp : Mem) (before after : ChunkList) : Prop where
  bytes : after.resChunk.flatMap Chunk.content =
    before.resChunk.flatMap Chunk.content ++ (fi.sentColumns rp fi.colCnt.toNat).flatMap columnBytes
  chained : after.chainedChunk = before.chainedChunk

/-- The row piece is in a chained chunk, behind what there was. -/
structure SentToChained (fi : FilterInfo) (rp : Mem) (before after : ChunkList) : Prop where
  bytes : after.chainedChunk.flatMap Chunk.content =
    before.chainedChunk.flatMap Chunk.content ++ (fi.sentColumns rp (colcnt rp)).flatMap columnBytes
  res : after.resChunk = before.resChunk

/-- What becomes of a row piece, by the verdict on it. -/
structure Decided (fi : FilterInfo) (rp : Mem) (before : ChunkList) (after : Option ChunkList) : Prop where
  undecidable : fi.verdict rp = none → after = none
  dropped : fi.verdict rp = some false → after = some before
  res : fi.verdict rp = some true → fi.Complete rp → ∃ out, after = some out ∧ SentToRes fi rp before out
  chained : fi.verdict rp = some true → ¬fi.Complete rp → ∃ out, after = some out ∧ SentToChained fi rp before out

/-- The chunks hold the same bytes; behind these their buffers may differ. -/
structure SameContents (before before' : ChunkList) : Prop where
  res : before.resChunk.map Chunk.content = before'.resChunk.map Chunk.content
  chained : before.chainedChunk.map Chunk.content = before'.chainedChunk.map Chunk.content

/-- Columns of this length go to a chunk that is empty. -/
def OpensNew (chunks : List Chunk) (length : Nat) : Prop :=
  ∀ chunk ∈ chunks.getLast?, chunk.used = 0 ∨ resChunkSize < chunk.used + length

/-- The row piece fits into a chunk; if it is a chained chunk, it has a single column and gets the chunk alone. -/
structure FilterInfo.Emittable (fi : FilterInfo) (rp : Mem) (chunkList : ChunkList) : Prop where
  res : fi.Complete rp → byteLen (fi.sentColumns rp fi.colCnt.toNat) ≤ resChunkSize
  chained : ¬fi.Complete rp → colcnt rp = 0 ∨ colcnt rp = 1 ∧ byteLen (fi.sentColumns rp (colcnt rp)) ≤ resChunkSize ∧
    OpensNew chunkList.chainedChunk (byteLen (fi.sentColumns rp (colcnt rp)))

section Append

/-- Copying the columns over the start of the chunk leaves them behind what it held. -/
def Appends (heap : Nat → Mem) (chunks : List Chunk) (columns : List Mem) : Prop :=
  let opened := (openChunk heap chunks (total storedLen columns)).2
  (∀ col ∈ columns, storedLen col ≤ resChunkSize) ∧
    Chunk.content ⟨overwrite opened.buf columns, opened.used + total storedLen columns⟩ =
      opened.content ++ columns.flatMap columnBytes

/-- The chunk with `x` in all bytes that it does not use. -/
def fill (x : UInt8) (chunk : Chunk) : Chunk := ⟨fun i => if i < chunk.used then chunk.buf i else x, chunk.used⟩

theorem content_fill (x : UInt8) (chunk : Chunk) : (fill x chunk).content = chunk.content :=
  read_congr fun i hi => if_pos ((Nat.zero_add i).trans_lt hi)

theorem openChunk_fill (x : UInt8) (chunks : List Chunk) (n : Nat) :
    (openChunk (fun _ _ => x) (chunks.map (fill x)) n).2 = fill x (openChunk (fun _ _ => x) chunks n).2 := by
  have hNew : createChunk (fun _ => x) = fill x (createChunk fun _ => x) :=
    congrArg (Chunk.mk · 0) (funext fun i => (ite_self x).symm)
  rcases List.eq_nil_or_concat' chunks with rfl | ⟨before, last, rfl⟩
  · exact hNew
  · rw [List.map_append, List.map_singleton, openChunk_last, openChunk_last]
    change (if last.used + n > resChunkSize then _ else _ : List Chunk × Chunk).2 = _
    split
    · exact hNew
    · rfl

theorem openChunk_used_eq_zero_iff (heap : Nat → Mem) (chunks : List Chunk) (n : Nat) :
    (openChunk heap chunks n).2.used = 0 ↔ OpensNew chunks n := by
  rcases List.eq_nil_or_concat' chunks with rfl | ⟨before, last, rfl⟩
  · exact iff_of_true rfl fun chunk hChunk => absurd hChunk (by simp)
  · rw [openChunk_last, OpensNew, List.getLast?_concat]
    simp only [Option.mem_some_iff, forall_eq']
    split
    · rename_i hFull
      exact iff_of_true rfl (Or.inr hFull)
    · rename_i hFits
      exact (or_iff_left hFits).symm

theorem opensNew_congr {chunks chunks' : List Chunk} (h : chunks.map Chunk.content = chunks'.map Chunk.content)
    (n : Nat) : OpensNew chunks n ↔ OpensNew chunks' n := by
  have hUsed : chunks.getLast?.map Chunk.used = chunks'.getLast?.map Chunk.used := by
    have hLength : Chunk.used = List.length ∘ Chunk.content := funext fun chunk => (length_content chunk).symm
    rw [← List.getLast?_map, ← List.getLast?_map, hLength, ← List.map_map, ← List.map_map, h]
  have hForall : ∀ chunks : List Chunk,
      OpensNew chunks n ↔ ∀ used ∈ chunks.getLast?.map Chunk.used, used = 0 ∨ resChunkSize < used + n := by
    intro chunks
    rw [OpensNew]
    simp
  rw [hForall, hForall, hUsed]

theorem Appends.storedLen_eq {heap : Nat → Mem} {chunks : List Chunk} {columns : List Mem}
    (h : Appends heap chunks columns) : ∀ col ∈ columns, storedLen col = rpcolGetLen col := by
  have hLength := congrArg List.length h.2
  rw [length_content, List.length_append, length_content] at hLength
  exact eq_of_total_eq storedLen_le ((Nat.add_left_cancel hLength).trans (byteLen_eq columns))

/-- If the columns are not alone in a chunk, the byte behind the last copy is one that the buffer held. -/
theorem getLast_of_appends {chunk : Chunk} {columns : List Mem} {x : UInt8}
    (hContent : Chunk.content ⟨overwrite chunk.buf columns, chunk.used + total storedLen columns⟩ =
      chunk.content ++ columns.flatMap columnBytes)
    (hPos : ∀ col ∈ columns, 0 < storedLen col) (hMore : 1 < columns.length ∨ columns ≠ [] ∧ 0 < chunk.used)
    (hFilled : ∀ i, chunk.used ≤ i → chunk.buf i = x) :
    (columns.flatMap columnBytes)[total storedLen columns - 1]? = some x := by
  have hTotal : 0 < total storedLen columns := by
    obtain ⟨col, hCol⟩ := List.exists_mem_of_ne_nil columns <| by
      rcases hMore with hMany | ⟨hSome, -⟩
      · exact List.ne_nil_of_length_pos (Nat.zero_lt_of_lt hMany)
      · exact hSome
    exact (hPos col hCol).trans_le (List.single_le_sum (by simp) _ (List.mem_map_of_mem hCol))
  have hLast := content_last hPos hMore chunk.buf
  rwa [hContent, List.getElem?_append_right (by rw [length_content]; omega), length_content, Nat.add_sub_assoc hTotal,
    Nat.add_sub_cancel_left, hFilled _ (Nat.le_add_right _ _)] at hLast

theorem Appends.alone {chunks : List Chunk} {columns : List Mem} (hSome : columns ≠ [])
    (h : ∀ x, Appends (fun _ _ => x) (chunks.map (fill x)) columns) :
    columns.length = 1 ∧ OpensNew chunks (total storedLen columns) := by
  have hPos : ∀ col ∈ columns, 0 < storedLen col := by
    intro col hCol
    rw [(h 0).storedLen_eq col hCol]
    exact rpcolGetLen_pos col
  by_contra hNot
  have hMore : ∀ x : UInt8, 1 < columns.length ∨
      columns ≠ [] ∧ 0 < (openChunk (fun _ _ => x) chunks (total storedLen columns)).2.used := by
    intro x
    have hPositive := List.length_pos_iff.mpr hSome
    by_contra hFew
    obtain ⟨hOne, hUsed⟩ := not_or.mp hFew
    have hZero := Nat.eq_zero_of_not_pos fun hUsed' => hUsed ⟨hSome, hUsed'⟩
    exact hNot ⟨by omega, (openChunk_used_eq_zero_iff _ _ _).mp hZero⟩
  have hLast : ∀ x : UInt8, (columns.flatMap columnBytes)[total storedLen columns - 1]? = some x := by
    intro x
    have hContent := (h x).2
    simp only [openChunk_fill] at hContent
    exact getLast_of_appends hContent hPos (hMore x) fun i hi => if_neg (not_lt.mpr hi)
  exact absurd ((hLast 0).symm.trans (hLast 1)) (by decide)

theorem appends_of_alone (heap : Nat → Mem) {chunks : List Chunk} {columns : List Mem} (hLength : columns.length = 1)
    (hLe : byteLen columns ≤ resChunkSize) (hNew : OpensNew chunks (byteLen columns)) :
    Appends heap chunks columns := by
  have hStored : ∀ col ∈ columns, storedLen col = rpcolGetLen col :=
    eq_of_total_eq storedLen_le ((total_storedLen hLe).trans (byteLen_eq columns))
  rw [← total_storedLen hLe, ← openChunk_used_eq_zero_iff heap] at hNew
  refine ⟨fun col hCol => ?_, ?_⟩
  · rw [← total_storedLen hLe] at hLe
    exact (List.single_le_sum (by simp) _ (List.mem_map_of_mem hCol)).trans hLe
  · have hEmpty : (openChunk heap chunks (total storedLen columns)).2.content = [] :=
      List.length_eq_zero_iff.mp ((length_content _).trans hNew)
    rw [hNew, Nat.zero_add, hEmpty, List.nil_append]
    exact content_of_le_one hStored hLength.le _

/-- The columns are appended whatever the buffers held exactly when there is nothing to overwrite. -/
theorem appends_iff (chunks : List Chunk) (columns : List Mem) :
    (∀ heap chunks', chunks'.map Chunk.content = chunks.map Chunk.content → Appends heap chunks' columns) ↔
      columns = [] ∨ columns.length = 1 ∧ byteLen columns ≤ resChunkSize ∧ OpensNew chunks (byteLen columns) := by
  constructor
  · intro hAll
    rcases eq_or_ne columns [] with hNone | hSome
    · exact Or.inl hNone
    · right
      have hFilled : ∀ x, Appends (fun _ _ => x) (chunks.map (fill x)) columns := by
        intro x
        refine hAll _ _ ?_
        rw [List.map_map]
        exact List.map_congr_left fun chunk _ => content_fill x chunk
      have hBytes : byteLen columns = total storedLen columns :=
        (byteLen_eq columns).trans (total_congr (hFilled 0).storedLen_eq).symm
      obtain ⟨hOne, hNew⟩ := Appends.alone hSome hFilled
      obtain ⟨col, rfl⟩ := List.length_eq_one_iff.mp hOne
      rw [hBytes]
      exact ⟨rfl, (hFilled 0).1 col List.mem_cons_self, hNew⟩
  · rintro (rfl | ⟨hOne, hLe, hNew⟩) heap chunks' hSame
    · exact ⟨List.forall_mem_nil _, (List.append_nil _).symm⟩
    · exact appends_of_alone heap hOne hLe ((opensNew_congr hSame _).mpr hNew)

end Append

section Serialize
variable {fi : FilterInfo} (heap : Nat → Mem) {rp : Mem} {ctx : ExpCtx}

theorem sentToRes_iff (hStores : ∀ i < fi.colCnt.toNat, Stores ctx i (fi.sentColumn rp i)) (chunkList : ChunkList) :
    (∃ out, serializeRpcolsToChunk heap ctx fi.colCnt chunkList
        (total storedLen (fi.sentColumns rp fi.colCnt.toNat)) = some out ∧ SentToRes fi rp chunkList out) ↔
      byteLen (fi.sentColumns rp fi.colCnt.toNat) ≤ resChunkSize := by
  have hColumns : ∀ i < fi.colCnt.toNat, ctx.columnVals i = some (fi.sentColumn rp i) := fun i hi => (hStores i hi).1
  constructor
  · rintro ⟨out, hOut, -⟩
    exact byteLen_le_of_serialize heap fi.colCnt hColumns hOut
  · intro hLe
    rw [total_storedLen hLe]
    obtain ⟨chunk, hSerialize, hContent⟩ := serializeRpcolsToChunk_content heap fi.colCnt hColumns chunkList
      (openChunk_room heap chunkList.resChunk hLe)
    refine ⟨_, hSerialize, ?_, rfl⟩
    rw [List.flatMap_append, List.flatMap_singleton, hContent, ← List.append_assoc, openChunk_content,
      FilterInfo.sentColumns]

theorem sentToChained_iff (hStores : ∀ i < colcnt rp, Stores ctx i (fi.sentColumn rp i)) (chunkList : ChunkList) :
    (∃ out, serializeRpcolsToChainedChunk heap ctx (colcnt rp) chunkList
        (total storedLen (fi.sentColumns rp (colcnt rp))) = some out ∧ SentToChained fi rp chunkList out) ↔
      Appends heap chunkList.chainedChunk (fi.sentColumns rp (colcnt rp)) := by
  constructor
  · rintro ⟨out, hOut, hSent⟩
    obtain ⟨hFits, rfl⟩ := (serializeRpcolsToChainedChunk_eq_some_iff heap (colcnt rp) hStores).mp hOut
    have hBytes := hSent.bytes
    rw [List.flatMap_append, List.flatMap_singleton, ← openChunk_content heap chunkList.chainedChunk
      (total storedLen (fi.sentColumns rp (colcnt rp))), List.append_assoc] at hBytes
    exact ⟨hFits, List.append_cancel_left hBytes⟩
  · rintro ⟨hFits, hContent⟩
    refine ⟨_, (serializeRpcolsToChainedChunk_eq_some_iff heap (colcnt rp) hStores).mpr ⟨hFits, rfl⟩, ?_, rfl⟩
    rw [List.flatMap_append, List.flatMap_singleton, ← openChunk_content heap chunkList.chainedChunk
      (total storedLen (fi.sentColumns rp (colcnt rp))), List.append_assoc]
    exact congrArg _ hContent

end Serialize

section Row
variable {fi : FilterInfo} {heap : Nat → Mem} {rp : Mem}

/-- Where the verdict is settled, what is left is how the row piece is put out. -/
theorem decided_iff {before : ChunkList} {after emitted : Option ChunkList}
    (hAfter : after = (fi.verdict rp).bind fun passed => if passed then emitted else some before) :
    Decided fi rp before after ↔ (fi.verdict rp = some true →
      (fi.Complete rp → ∃ out, emitted = some out ∧ SentToRes fi rp before out) ∧
        (¬fi.Complete rp → ∃ out, emitted = some out ∧ SentToChained fi rp before out)) := by
  subst hAfter
  constructor
  · intro hDecided hTrue
    have hRes := hDecided.res hTrue
    have hChained := hDecided.chained hTrue
    rw [hTrue] at hRes hChained
    exact ⟨hRes, hChained⟩
  · intro hEmitted
    constructor
    · intro hNone
      rw [hNone]
      rfl
    · intro hFalse
      rw [hFalse]
      rfl
    · intro hTrue
      have hRes := (hEmitted hTrue).1
      rw [hTrue]
      exact hRes
    · intro hTrue
      have hChained := (hEmitted hTrue).2
      rw [hTrue]
      exact hChained

theorem processRow_verdict (heap : Nat → Mem) (hFilter : fi.Numbered) (hMax : fi.allMaxColno < completeCols rp)
    (ctx : ExpCtx) (chunkList : ChunkList) :
    ∃ built, (∀ i < fi.colCnt.toNat, Stores built i (fi.sentColumn rp i)) ∧
      (processRow fi heap ctx rp chunkList).map Prod.snd = (fi.verdict rp).bind fun passed =>
        if passed then serializeRpcolsToChunk heap built fi.colCnt chunkList
          (total storedLen (fi.sentColumns rp fi.colCnt.toNat))
        else some chunkList := by
  have hKept : Kept fi rp fi.colCnt.toNat
      (buildData ctx (rpGetData rp) fi.colCnt (colcnt rp) fi.useCols fi.useColCnt) :=
    buildData_kept ctx fi.colCnt fi.useColCnt hFilter.useColCnt.ge
  have hCheck := checkRow_verdict hFilter hKept (fun colno hUsed _ => by have := hUsed.1; have := hUsed.2.1; omega)
    (fi.expCnt > 0) (by simp [hMax])
  have hStored : ∀ i < fi.colCnt.toNat, fi.keeps i = true → i < colcnt rp := by
    intro i hi hKeeps
    have hUsed : fi.IsUsed i := ⟨by omega, by omega, hKeeps⟩
    have hLt := (complete_iff hFilter).mpr hMax i hUsed
    have hLe := completeCols_le rp
    omega
  obtain ⟨built, hSet, hStores⟩ := setColOut_kept hKept hStored
  refine ⟨built, hStores, ?_⟩
  rw [processRow]
  simp only [hCheck]
  cases fi.verdict rp with
  | none => rfl
  | some passed =>
    cases passed with
    | false => rfl
    | true =>
      simp only [Option.bind_eq_bind, Option.bind_some, if_true, hSet]
      cases serializeRpcolsToChunk heap built fi.colCnt chunkList
        (total storedLen (fi.sentColumns rp fi.colCnt.toNat)) with
      | none => rfl
      | some out => rfl

theorem countP_keeps_le (hFilter : fi.Numbered) (hWidth : (colcnt rp : Int) ≤ fi.colCnt) :
    ((List.range (colcnt rp : Int).toNat).countP fi.keeps : Int) ≤
      if (colcnt rp : Int) > fi.useColCnt then fi.useColCnt else colcnt rp := by
  have hUse : (List.range (colcnt rp)).countP fi.keeps ≤ (List.range fi.colCnt.toNat).countP fi.keeps :=
    List.Sublist.countP_le (List.range_sublist.mpr (by omega))
  have hAll : (List.range (colcnt rp)).countP fi.keeps ≤ colcnt rp := by
    simpa using List.countP_le_length (p := fi.keeps) (l := List.range (colcnt rp))
  rw [Int.toNat_natCast]
  split
  · rw [hFilter.useColCnt]
    exact_mod_cast hUse
  · exact_mod_cast hAll

/-- The context when the columns of a chained row piece are set. -/
def chainedBuilt (fi : FilterInfo) (ctx : ExpCtx) (rp : Mem) : ExpCtx :=
  buildData ctx (rpGetData rp) (colcnt rp) (colcnt rp) fi.useCols
    (if (colcnt rp : Int) > fi.useColCnt then fi.useColCnt else colcnt rp)

theorem processChainedRow_eq (heap : Nat → Mem) (ctx : ExpCtx) (chunkList : ChunkList)
    (hMax : ¬fi.allMaxColno < completeCols rp) :
    processChainedRow heap ctx rp chunkList fi =
      (checkRow fi (chainedBuilt fi ctx rp) (fi.expCnt > 0 ∧ fi.whereMaxColno < completeCols rp)).bind fun passed =>
        if passed then
          (setColOut (chainedBuilt fi ctx rp) (colcnt rp) fi.useCols fi.useColCnt).bind fun out =>
            (serializeRpcolsToChainedChunk heap out.2 (colcnt rp) chunkList out.1).bind fun chunkList =>
              some (true, out.2, chunkList)
        else some (true, chainedBuilt fi ctx rp, chunkList) :=
  if_neg hMax

theorem processChainedRow_verdict (heap : Nat → Mem) (hFilter : fi.Numbered) (hWidth : (colcnt rp : Int) ≤ fi.colCnt)
    (hMax : ¬fi.allMaxColno < completeCols rp) (ctx : ExpCtx) (chunkList : ChunkList) :
    ∃ built, (∀ i < colcnt rp, Stores built i (fi.sentColumn rp i)) ∧
      processChainedRow heap ctx rp chunkList fi = (fi.verdict rp).bind fun passed =>
        if passed then (serializeRpcolsToChainedChunk heap built (colcnt rp) chunkList
          (total storedLen (fi.sentColumns rp (colcnt rp)))).map fun out => (true, built, out)
        else some (true, chainedBuilt fi ctx rp, chunkList) := by
  have hKept : Kept fi rp (colcnt rp : Int).toNat (chainedBuilt fi ctx rp) :=
    buildData_kept ctx (colcnt rp) _ (countP_keeps_le hFilter hWidth)
  have hLe := completeCols_le rp
  have hCheck := checkRow_verdict hFilter hKept (fun colno _ hComplete => by simpa using hComplete.trans_le hLe)
    (fi.expCnt > 0 ∧ fi.whereMaxColno < completeCols rp) (by simp [hMax])
  obtain ⟨built, hSet, hStores⟩ := setColOut_kept hKept fun i hi _ => by simpa using hi
  refine ⟨built, hStores, ?_⟩
  rw [processChainedRow_eq heap ctx chunkList hMax, hCheck]
  cases fi.verdict rp with
  | none => rfl
  | some passed =>
    cases passed with
    | false => rfl
    | true =>
      rw [hSet]
      exact Option.map_eq_bind.symm

variable (fi) in
theorem rowStep_of_chained (heap : Nat → Mem) (s : ExpCtx × ChunkList) {blk : Mem} {rowno : Nat}
    (hPiece : tableBlockGetRowPiece blk rowno = some rp)
    (hChained : hasFlag rp firstpieceRowPiece = false ∨ hasFlag rp lastpieceRowPiece = false) :
    rowStep fi heap blk s rowno = (processChainedRow heap s.1 rp s.2 fi).bind fun r =>
      if r.1 then some r.2 else processRow fi heap r.2.1 rp r.2.2 := by
  have hFlags : (!hasFlag rp firstpieceRowPiece || !hasFlag rp lastpieceRowPiece) = true := by
    rcases hChained with h | h <;> simp [h]
  rw [rowStep, hPiece]
  simp only [hFlags, if_true]
  rfl

theorem rowStep_decided_iff (heap : Nat → Mem) (s : ExpCtx × ChunkList) {blk : Mem} {rowno : Nat}
    (hPiece : tableBlockGetRowPiece blk rowno = some rp)
    (hChained : hasFlag rp firstpieceRowPiece = false ∨ hasFlag rp lastpieceRowPiece = false)
    (hWidth : (colcnt rp : Int) ≤ fi.colCnt) (hFilter : fi.Numbered) :
    Decided fi rp s.2 ((rowStep fi heap blk s rowno).map Prod.snd) ↔ (fi.verdict rp = some true →
      (fi.Complete rp → byteLen (fi.sentColumns rp fi.colCnt.toNat) ≤ resChunkSize) ∧
        (¬fi.Complete rp → Appends heap s.2.chainedChunk (fi.sentColumns rp (colcnt rp)))) := by
  have hStep := rowStep_of_chained fi heap s hPiece hChained
  by_cases hMax : fi.allMaxColno < completeCols rp
  · have hNot : processChainedRow heap s.1 rp s.2 fi = some (false, s.1, s.2) := if_pos hMax
    obtain ⟨built, hStores, hRow⟩ := processRow_verdict heap hFilter hMax s.1 s.2
    rw [hStep, hNot]
    refine (decided_iff hRow).trans (imp_congr_right fun _ => and_congr (imp_congr_right fun _ => ?_) ?_)
    · exact sentToRes_iff heap hStores s.2
    · exact iff_of_true (absurd ((complete_iff hFilter).mpr hMax)) (absurd ((complete_iff hFilter).mpr hMax))
  · obtain ⟨built, hStores, hRow⟩ := processChainedRow_verdict heap hFilter hWidth hMax s.1 s.2
    have hAfter : (rowStep fi heap blk s rowno).map Prod.snd = (fi.verdict rp).bind fun passed =>
        if passed then serializeRpcolsToChainedChunk heap built (colcnt rp) s.2
          (total storedLen (fi.sentColumns rp (colcnt rp)))
        else some s.2 := by
      rw [hStep, hRow]
      cases fi.verdict rp with
      | none => rfl
      | some passed =>
        cases passed with
        | false => rfl
        | true =>
          change Option.map Prod.snd (Option.bind (Option.map _ (serializeRpcolsToChainedChunk _ _ _ _ _)) _) =
            serializeRpcolsToChainedChunk _ _ _ _ _
          cases serializeRpcolsToChainedChunk heap built (colcnt rp) s.2
            (total storedLen (fi.sentColumns rp (colcnt rp))) with
          | none => rfl
          | some out => rfl
    have hIncomplete : ¬fi.Complete rp := fun hComplete => hMax ((complete_iff hFilter).mp hComplete)
    refine (decided_iff hAfter).trans (imp_congr_right fun _ => and_congr ?_ (imp_congr_right fun _ => ?_))
    · exact iff_of_true (fun hComplete => absurd hComplete hIncomplete) fun hComplete => absurd hComplete hIncomplete
    · exact sentToChained_iff heap hStores s.2

theorem length_sentColumns (fi : FilterInfo) (rp : Mem) (n : Nat) : (fi.sentColumns rp n).length = n := by
  rw [FilterInfo.sentColumns, slice, List.length_map, List.length_range']

end Row

/-- A head row piece of a chained row is dropped only by a filter that is false on its complete columns, and put out
once otherwise, whatever the chunks hold behind their bytes, exactly when it fits into its chunk and a chained chunk
gets it alone and as a single column. -/
theorem rowStep_chained_iff (fi : FilterInfo) (blk : Mem) (s : ExpCtx × ChunkList) (rowno : Nat) (rp : Mem)
    (hPiece : tableBlockGetRowPiece blk rowno = some rp)
    (hChained : hasFlag rp firstpieceRowPiece = false ∨ hasFlag rp lastpieceRowPiece = false)
    (hWidth : (colcnt rp : Int) ≤ fi.colCnt) (hFilter : fi.Numbered) :
    (∀ heap before, SameContents before s.2 →
        Decided fi rp before ((rowStep fi heap blk (s.1, before) rowno).map Prod.snd)) ↔
      (fi.verdict rp = some true → fi.Emittable rp s.2) := by
  have hDecided := fun heap before => rowStep_decided_iff heap (s.1, before) hPiece hChained hWidth hFilter
  simp only [hDecided]
  constructor
  · intro hAll hTrue
    constructor
    · intro hComplete
      exact (hAll (fun _ => zeroed) s.2 ⟨rfl, rfl⟩ hTrue).1 hComplete
    · intro hNot
      have hAppends : ∀ heap chunks', chunks'.map Chunk.content = s.2.chainedChunk.map Chunk.content →
          Appends heap chunks' (fi.sentColumns rp (colcnt rp)) := fun heap chunks' hSame =>
        (hAll heap ⟨s.2.resChunk, chunks'⟩ ⟨rfl, hSame⟩ hTrue).2 hNot
      rw [appends_iff, ← List.length_eq_zero_iff, length_sentColumns] at hAppends
      exact hAppends
  · intro hCondition heap before hSame hTrue
    have hEmittable := hCondition hTrue
    refine ⟨hEmittable.res, fun hNot => ?_⟩
    refine (appends_iff s.2.chainedChunk _).mpr ?_ heap before.chainedChunk hSame.chained
    rw [← List.length_eq_zero_iff, length_sentColumns]
    exact hEmittable.chained hNot

/-- One head row piece with the columns `A` and `B`, the second one continued in the next piece. -/
def continuedBlock : Mem :=
  write (write (write zeroed 40 [1, 0]) 44 [100, 0]) 100 [0x29, 0, 2, 0, 0, 0, 0, 0, 0, 1, 65, 1, 66]

def outerColumnsFilter : FilterInfo :=
  { expCnt := 1, colCnt := 3, useCols := some (· != 1), useColCnt := 2, allMaxColno := 2, whereMaxColno := 0
    isCharType := fun _ => true, opTypes := fun _ => .equal, expLNos := fun _ => 0, expRNos := fun _ => -1
    constValsCnt := 1, constVals := fun k => if k = 0 then some (ofBytes [1, 65]) else none }

theorem outerColumnsFilter_numbered : outerColumnsFilter.Numbered where
  where_used colno hWhere := by
    obtain ⟨hne, i, -, hNos⟩ := hWhere
    obtain rfl : colno = 0 := hNos.resolve_right hne
    exact ⟨by decide, by decide, by decide⟩
  whereMaxColno colno hWhere := by
    obtain ⟨hne, i, -, hNos⟩ := hWhere
    exact (hNos.resolve_right hne).le
  allMaxColno := ⟨⟨by decide, by decide, by decide⟩, fun colno hUsed => Int.le_of_lt_add_one hUsed.2.1⟩
  useColCnt := rfl

theorem outerColumnsFilter_incomplete {rp : Mem} (h : completeCols rp ≤ 2) : ¬outerColumnsFilter.Complete rp :=
  fun hComplete => absurd ((complete_iff outerColumnsFilter_numbered).mp hComplete) (not_lt.mpr h)

/-- One head row piece with the column `A` alone. -/
def singleBlock : Mem :=
  write (write (write zeroed 40 [1, 0]) 44 [100, 0]) 100 [0x28, 0, 1, 0, 0, 0, 0, 0, 0, 1, 65]

theorem singleBlock_sent :
    ∃ out, (rowStep outerColumnsFilter (fun _ => zeroed) singleBlock (anyCtx, createChunkList) 0).map Prod.snd =
        some out ∧ out.chainedChunk.flatMap Chunk.content = [1, 65] := by
  have hNot : ¬outerColumnsFilter.Complete (shift singleBlock 100) := outerColumnsFilter_incomplete (by decide)
  have hDecided := (rowStep_chained_iff outerColumnsFilter singleBlock (anyCtx, createChunkList) 0
    (shift singleBlock 100) rfl (Or.inr (by decide)) (by decide) outerColumnsFilter_numbered).mpr
      (fun _ => ⟨fun hComplete => absurd hComplete hNot, fun _ =>
        Or.inr ⟨rfl, by decide, by simp [OpensNew, createChunkList]⟩⟩)
      (fun _ => zeroed) createChunkList ⟨rfl, rfl⟩
  obtain ⟨out, hOut, hSent⟩ := hDecided.chained (by decide) hNot
  exact ⟨out, hOut, hSent.bytes.trans (by decide)⟩

/-- The second column is put out as one zero byte, which is copied over the length of the first. -/
theorem continuedBlock_overwritten :
    ¬Decided outerColumnsFilter (shift continuedBlock 100) createChunkList
      ((rowStep outerColumnsFilter (fun _ => zeroed) continuedBlock (anyCtx, createChunkList) 0).map Prod.snd) := by
  intro hDecided
  obtain ⟨out, hOut, hSent⟩ := hDecided.chained (by decide) (outerColumnsFilter_incomplete (by decide))
  have hRead : ((rowStep outerColumnsFilter (fun _ => zeroed) continuedBlock (anyCtx, createChunkList) 0).map
      Prod.snd).map (fun out => out.chainedChunk.flatMap Chunk.content) = some [0, 65, 0] := by decide
  rw [hOut, Option.map_some, Option.some_inj, hSent.bytes] at hRead
  exact absurd hRead (by decide)

end CsdWorker.Tmax
