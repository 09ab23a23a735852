import CsdWorker.Lib.Packing
import CsdWorker.Tmax.BuildData

/-! # Putting columns out

`set_col_out` settles the columns of a row piece that are put out, and their lengths. One serializer copies
them behind what the chunk holds, the other one copies each of them to the start of the chunk.
-/

namespace CsdWorker.Tmax

open Memory Packing

set_option autoImplicit false

def Chunk.content (chunk : Chunk) : Bytes := read chunk.buf 0 chunk.used

@[simp] theorem length_content (chunk : Chunk) : chunk.content.length = chunk.used := length_read _ _ _

/-- The length of a column as `column_val_lens` keeps it. -/
def storedLen (col : Mem) : Nat := (rpcolGetLen col).toUInt16.toNat

theorem storedLen_le (col : Mem) : storedLen col ≤ rpcolGetLen col := Nat.mod_le _ _

theorem storedLen_of_lt {col : Mem} (h : rpcolGetLen col < 65536) : storedLen col = rpcolGetLen col :=
  Nat.mod_eq_of_lt h

def slice (cols : Nat → Mem) (i n : Nat) : List Mem := (List.range' i n).map cols

theorem slice_succ (cols : Nat → Mem) (i n : Nat) : slice cols i (n + 1) = cols i :: slice cols (i + 1) n := by
  rw [slice, List.range'_succ, List.map_cons, ← slice]

section SetColOut
variable {kept : Nat → Bool} {cols : Nat → Mem}

theorem setColOutFrom_succ (i n : Nat) (ctx : ExpCtx) (totalLen : Nat)
    (hKept : kept i = true → ctx.columnVals i = some (cols i)) (hNull : kept i = false → cols i = nullColumn) :
    ∃ next, setColOutFrom kept i (n + 1) ctx totalLen =
      setColOutFrom kept (i + 1) n next (totalLen + storedLen (cols i)) ∧
      Stores next i (cols i) ∧ ∀ j, j ≠ i → SameAt next ctx j := by
  cases hi : kept i with
  | true =>
    let next : ExpCtx :=
      { ctx with columnValLens := Function.update ctx.columnValLens i (rpcolGetLen (cols i)).toUInt16 }
    refine ⟨next, ?_, ⟨hKept hi, Function.update_self _ _ _⟩, fun j hj => ⟨rfl, Function.update_of_ne hj _ _⟩⟩
    rw [setColOutFrom, if_pos hi, hKept hi]
    rfl
  | false =>
    let next : ExpCtx :=
      { columnVals := Function.update ctx.columnVals i (some nullColumn)
        columnValLens := Function.update ctx.columnValLens i 1 }
    rw [hNull hi, setColOutFrom, if_neg (by simp [hi])]
    exact ⟨next, rfl, ⟨Function.update_self _ _ _, Function.update_self _ _ _⟩,
      fun j hj => ⟨Function.update_of_ne hj _ _, Function.update_of_ne hj _ _⟩⟩

/-- `set_col_out` leaves the columns to be put out with their lengths, and returns the sum of these. -/
theorem setColOutFrom_stores (n i : Nat) (ctx : ExpCtx) (totalLen : Nat)
    (hKept : ∀ j, i ≤ j → j < i + n → kept j = true → ctx.columnVals j = some (cols j))
    (hNull : ∀ j, kept j = false → cols j = nullColumn) :
    ∃ ctx', setColOutFrom kept i n ctx totalLen = some (totalLen + total storedLen (slice cols i n), ctx') ∧
      (∀ j, i ≤ j → j < i + n → Stores ctx' j (cols j)) ∧ ∀ j < i, SameAt ctx' ctx j := by
  induction n generalizing i ctx totalLen with
  | zero => exact ⟨ctx, rfl, fun j hij hj => absurd hj (by omega), fun j _ => ⟨rfl, rfl⟩⟩
  | succ n ih =>
    obtain ⟨next, hStep, hStores, hOther⟩ := setColOutFrom_succ i n ctx totalLen (hKept i le_rfl (by omega)) (hNull i)
    obtain ⟨ctx', hOk, hLater, hEarlier⟩ := ih (i + 1) next (totalLen + storedLen (cols i)) fun j hij hj hj' =>
      (hOther j (by omega)).1.trans (hKept j (by omega) (by omega) hj')
    refine ⟨ctx', ?_, fun j hij hj => ?_, fun j hj => (hEarlier j (by omega)).trans (hOther j (by omega))⟩
    · rw [hStep, hOk, slice_succ, total_cons, Nat.add_assoc]
    · rcases Nat.eq_or_lt_of_le hij with rfl | hlt
      · exact hStores.of_same (hEarlier i (by omega))
      · exact hLater j hlt (by omega)

theorem setColOut_stores {ctx : ExpCtx} {colCnt usecolCnt : Int} {usecols : Option (Nat → Bool)}
    (hKept : ∀ j < colCnt.toNat, usecols.getD (fun _ => usecolCnt ≠ 0) j = true → ctx.columnVals j = some (cols j))
    (hNull : ∀ j, usecols.getD (fun _ => usecolCnt ≠ 0) j = false → cols j = nullColumn) :
    ∃ ctx', setColOut ctx colCnt usecols usecolCnt = some (total storedLen (slice cols 0 colCnt.toNat), ctx') ∧
      ∀ j < colCnt.toNat, Stores ctx' j (cols j) := by
  obtain ⟨ctx', hSet, hStores, -⟩ := setColOutFrom_stores colCnt.toNat 0 ctx 0 (fun j _ hj => hKept j (by omega)) hNull
  refine ⟨ctx', ?_, fun j hj => hStores j (Nat.zero_le j) (by omega)⟩
  rw [setColOut, hSet, Nat.zero_add]

end SetColOut

section Copy
variable {ctx : ExpCtx} {cols : Nat → Mem}

abbrev byteLen (columns : List Mem) : Nat := (columns.flatMap columnBytes).length

theorem byteLen_eq (columns : List Mem) : byteLen columns = total rpcolGetLen columns := by
  rw [byteLen, List.length_flatMap, total]
  simp only [length_columnBytes]

theorem byteLen_slice_succ (cols : Nat → Mem) (i n : Nat) :
    byteLen (slice cols i (n + 1)) = rpcolGetLen (cols i) + byteLen (slice cols (i + 1) n) := by
  rw [byteLen_eq, byteLen_eq, slice_succ, total_cons]

/-- The lengths are kept in 16 bits, which is enough for a row that fits into a chunk. -/
theorem total_storedLen {columns : List Mem} (hLength : byteLen columns ≤ resChunkSize) :
    total storedLen columns = byteLen columns := by
  rw [byteLen_eq] at hLength ⊢
  apply total_congr
  intro col hCol
  have hLe : rpcolGetLen col ≤ total rpcolGetLen columns := List.single_le_sum (by simp) _ (List.mem_map_of_mem hCol)
  exact storedLen_of_lt ((hLe.trans hLength).trans_lt (by decide))

theorem copyColumn_eq_some_iff {chunk chunk' : Chunk} {offset : Nat} {col : Mem} {colLen : Nat} :
    copyColumn chunk offset col colLen = some chunk' ↔
      offset + colLen ≤ resChunkSize ∧ chunk' = ⟨write chunk.buf offset (read col 0 colLen), chunk.used + colLen⟩ := by
  rw [copyColumn, Option.ite_none_right_eq_some, Option.some_inj]
  exact and_congr_right fun _ => eq_comm

theorem content_copyColumn (chunk : Chunk) (col : Mem) :
    Chunk.content ⟨write chunk.buf chunk.used (read col 0 (rpcolGetLen col)), chunk.used + rpcolGetLen col⟩ =
      chunk.content ++ columnBytes col := by
  have hAppend := read_write_append chunk.buf chunk.used (columnBytes col)
  rw [length_columnBytes] at hAppend
  exact hAppend

theorem copyColumns_succ {n i : Nat} {chunk : Chunk} {col : Mem} (h : ctx.columnVals i = some col) :
    copyColumns ctx i (n + 1) chunk =
      (copyColumn chunk chunk.used col (rpcolGetLen col)).bind (copyColumns ctx (i + 1) n) := by
  rw [copyColumns, h]
  rfl

theorem copyColumns_content (n i : Nat) (chunk : Chunk)
    (hColumns : ∀ j, i ≤ j → j < i + n → ctx.columnVals j = some (cols j))
    (hRoom : chunk.used + byteLen (slice cols i n) ≤ resChunkSize) :
    ∃ chunk', copyColumns ctx i n chunk = some chunk' ∧
      chunk'.content = chunk.content ++ (slice cols i n).flatMap columnBytes := by
  induction n generalizing i chunk with
  | zero => exact ⟨chunk, rfl, (List.append_nil _).symm⟩
  | succ n ih =>
    rw [byteLen_slice_succ] at hRoom
    let next : Chunk :=
      ⟨write chunk.buf chunk.used (read (cols i) 0 (rpcolGetLen (cols i))), chunk.used + rpcolGetLen (cols i)⟩
    have hCopy : copyColumn chunk chunk.used (cols i) (rpcolGetLen (cols i)) = some next :=
      copyColumn_eq_some_iff.mpr ⟨by omega, rfl⟩
    have hNext : next.used + byteLen (slice cols (i + 1) n) ≤ resChunkSize := by
      change chunk.used + rpcolGetLen (cols i) + _ ≤ _
      omega
    obtain ⟨chunk', hOk, hContent⟩ := ih (i + 1) next (fun j hij hj => hColumns j (by omega) (by omega)) hNext
    refine ⟨chunk', ?_, ?_⟩
    · rw [copyColumns_succ (hColumns i le_rfl (by omega)), hCopy]
      exact hOk
    · rw [hContent, content_copyColumn, slice_succ, List.flatMap_cons, List.append_assoc]

/-- The columns that have been copied were inside the chunk. -/
theorem room_of_copyColumns {n i : Nat} {chunk chunk' : Chunk}
    (hColumns : ∀ j, i ≤ j → j < i + n → ctx.columnVals j = some (cols j)) (hUsed : chunk.used ≤ resChunkSize)
    (h : copyColumns ctx i n chunk = some chunk') : chunk.used + byteLen (slice cols i n) ≤ resChunkSize := by
  induction n generalizing i chunk with
  | zero => exact hUsed
  | succ n ih =>
    rw [copyColumns_succ (hColumns i le_rfl (by omega))] at h
    obtain ⟨next, hCopy, hRest⟩ := Option.bind_eq_some_iff.mp h
    obtain ⟨hFits, rfl⟩ := copyColumn_eq_some_iff.mp hCopy
    have hRoom := ih (fun j hij hj => hColumns j (by omega) (by omega)) hFits hRest
    rw [byteLen_slice_succ]
    change chunk.used + rpcolGetLen (cols i) + _ ≤ _ at hRoom
    omega

/-- What is left in a buffer when all columns have been copied to its start. -/
def overwrite (buf : Mem) (columns : List Mem) : Mem :=
  columns.foldl (fun buf col => write buf 0 (read col 0 (storedLen col))) buf

/-- Each column has to fit into the buffer by itself; nothing asks for the room of all. -/
theorem copyChainedColumns_eq_some_iff (n i : Nat) (chunk chunk' : Chunk)
    (hColumns : ∀ j, i ≤ j → j < i + n → Stores ctx j (cols j)) :
    copyChainedColumns ctx i n chunk = some chunk' ↔
      (∀ col ∈ slice cols i n, storedLen col ≤ resChunkSize) ∧
        chunk' = ⟨overwrite chunk.buf (slice cols i n), chunk.used + total storedLen (slice cols i n)⟩ := by
  induction n generalizing i chunk with
  | zero => simp [copyChainedColumns, slice, overwrite, eq_comm]
  | succ n ih =>
    have hRest := fun next => ih (i + 1) next fun j hij hj => hColumns j (by omega) (by omega)
    obtain ⟨hVal, hLen⟩ := hColumns i le_rfl (by omega)
    have hSucc : copyChainedColumns ctx i (n + 1) chunk =
        (copyColumn chunk 0 (cols i) (storedLen (cols i))).bind (copyChainedColumns ctx (i + 1) n) := by
      rw [copyChainedColumns, hVal, hLen]
      rfl
    rw [hSucc, Option.bind_eq_some_iff, slice_succ, List.forall_mem_cons, total_cons, ← Nat.add_assoc]
    simp only [copyColumn_eq_some_iff, Nat.zero_add, hRest]
    constructor
    · rintro ⟨next, ⟨hFirst, rfl⟩, hOthers, rfl⟩
      exact ⟨⟨hFirst, hOthers⟩, rfl⟩
    · rintro ⟨⟨hFirst, hOthers⟩, rfl⟩
      exact ⟨_, ⟨hFirst, rfl⟩, hOthers, rfl⟩

end Copy

section Overwrite

theorem overwrite_outside (buf : Mem) (columns : List Mem) {i : Nat} (h : ∀ col ∈ columns, storedLen col ≤ i) :
    overwrite buf columns i = buf i := by
  induction columns generalizing buf with
  | nil => rfl
  | cons col columns ih =>
    obtain ⟨hCol, hColumns⟩ := List.forall_mem_cons.mp h
    refine (ih _ hColumns).trans (write_outside _ _ _ (Or.inr ?_))
    rw [length_read]
    omega

/-- With two columns or more, or with bytes before them, the last byte of a chunk is what `malloc` found there. -/
theorem content_last {columns : List Mem} (hPos : ∀ col ∈ columns, 0 < storedLen col) {used : Nat}
    (hMore : 1 < columns.length ∨ columns ≠ [] ∧ 0 < used) (buf : Mem) :
    (Chunk.content ⟨overwrite buf columns, used + total storedLen columns⟩)[used + total storedLen columns - 1]? =
      some (buf (used + total storedLen columns - 1)) := by
  have hLt : ∀ col ∈ columns, storedLen col < used + total storedLen columns := by
    intro col hCol
    rcases hMore with hMany | ⟨-, hUsed⟩
    · exact (lt_total hPos hMany hCol).trans_le (Nat.le_add_left _ _)
    · have hLe : storedLen col ≤ total storedLen columns := List.single_le_sum (by simp) _ (List.mem_map_of_mem hCol)
      omega
  have hNonempty : columns ≠ [] := by
    rcases hMore with hMany | ⟨hSome, -⟩
    · exact List.ne_nil_of_length_pos (Nat.zero_lt_of_lt hMany)
    · exact hSome
  obtain ⟨col, hCol⟩ := List.exists_mem_of_ne_nil columns hNonempty
  have hEnd := hLt col hCol
  change (read (overwrite buf columns) 0 (used + total storedLen columns))[used + total storedLen columns - 1]? = _
  rw [getElem?_read, if_pos (by omega), Nat.zero_add,
    overwrite_outside buf columns fun col hCol => Nat.le_sub_one_of_lt (hLt col hCol)]

theorem content_of_le_one {columns : List Mem} (hLen : ∀ col ∈ columns, storedLen col = rpcolGetLen col)
    (hLength : columns.length ≤ 1) (buf : Mem) :
    Chunk.content ⟨overwrite buf columns, total storedLen columns⟩ = columns.flatMap columnBytes := by
  cases columns with
  | nil => rfl
  | cons col rest =>
    obtain rfl : rest = [] := List.length_eq_zero_iff.mp (by simpa using hLength)
    have hCol := hLen col List.mem_cons_self
    have hSelf := read_write_self buf 0 (read col 0 (storedLen col))
    rw [length_read] at hSelf
    rw [List.flatMap_singleton, columnBytes, ← hCol]
    exact hSelf

end Overwrite

section Chunks
variable (heap : Nat → Mem)

theorem openChunk_last (chunks : List Chunk) (chunk : Chunk) (totalLen : Nat) :
    openChunk heap (chunks ++ [chunk]) totalLen =
      if chunk.used + totalLen > resChunkSize then (chunks ++ [chunk], createChunk (heap (chunks ++ [chunk]).length))
      else (chunks, chunk) := by
  rw [openChunk, List.getLast?_concat, List.dropLast_concat]

/-- Opening a chunk adds no bytes. -/
theorem openChunk_content (chunks : List Chunk) (totalLen : Nat) :
    (openChunk heap chunks totalLen).1.flatMap Chunk.content ++ (openChunk heap chunks totalLen).2.content =
      chunks.flatMap Chunk.content := by
  have hNew : ∀ garbage, (createChunk garbage).content = [] := fun _ => rfl
  rcases List.eq_nil_or_concat' chunks with rfl | ⟨before, last, rfl⟩
  · rfl
  · rw [openChunk_last]
    split
    · rw [hNew, List.append_nil]
    · rw [List.flatMap_append, List.flatMap_singleton]

/-- A row that fits into a chunk fits into the one that is opened for it. -/
theorem openChunk_room (chunks : List Chunk) {totalLen : Nat} (h : totalLen ≤ resChunkSize) :
    (openChunk heap chunks totalLen).2.used + totalLen ≤ resChunkSize := by
  rcases List.eq_nil_or_concat' chunks with rfl | ⟨before, last, rfl⟩
  · exact (Nat.zero_add _).trans_le h
  · rw [openChunk_last]
    split
    · exact (Nat.zero_add _).trans_le h
    · rename_i hFits
      exact not_lt.mp hFits

theorem openChunk_used_le (chunks : List Chunk) (totalLen : Nat) :
    (openChunk heap chunks totalLen).2.used ≤ resChunkSize := by
  rcases List.eq_nil_or_concat' chunks with rfl | ⟨before, last, rfl⟩
  · exact Nat.zero_le _
  · rw [openChunk_last]
    split
    · exact Nat.zero_le _
    · rename_i hFits
      exact (Nat.le_add_right _ _).trans (not_lt.mp hFits)

end Chunks

section Serialize
variable (heap : Nat → Mem) (colCnt : Int) {ctx : ExpCtx} {cols : Nat → Mem}

theorem serializeRpcolsToChunk_content (hColumns : ∀ j < colCnt.toNat, ctx.columnVals j = some (cols j))
    (chunkList : ChunkList) {totalLen : Nat}
    (hRoom : (openChunk heap chunkList.resChunk totalLen).2.used + byteLen (slice cols 0 colCnt.toNat) ≤ resChunkSize) :
    ∃ chunk, serializeRpcolsToChunk heap ctx colCnt chunkList totalLen =
        some { chunkList with resChunk := (openChunk heap chunkList.resChunk totalLen).1 ++ [chunk] } ∧
      chunk.content = (openChunk heap chunkList.resChunk totalLen).2.content ++
        (slice cols 0 colCnt.toNat).flatMap columnBytes := by
  obtain ⟨chunk, hCopy, hContent⟩ := copyColumns_content colCnt.toNat 0 (openChunk heap chunkList.resChunk totalLen).2
    (fun j _ hj => hColumns j (by omega)) hRoom
  refine ⟨chunk, ?_, hContent⟩
  rw [serializeRpcolsToChunk]
  simp only [hCopy]
  rfl

theorem byteLen_le_of_serialize (hColumns : ∀ j < colCnt.toNat, ctx.columnVals j = some (cols j))
    {chunkList out : ChunkList} {totalLen : Nat}
    (h : serializeRpcolsToChunk heap ctx colCnt chunkList totalLen = some out) :
    byteLen (slice cols 0 colCnt.toNat) ≤ resChunkSize := by
  obtain ⟨chunk, hCopy, -⟩ := Option.bind_eq_some_iff.mp h
  have hRoom := room_of_copyColumns (fun j _ hj => hColumns j (by omega)) (openChunk_used_le heap _ _) hCopy
  omega

theorem serializeRpcolsToChainedChunk_eq_some_iff (hStores : ∀ j < colCnt.toNat, Stores ctx j (cols j))
    {chunkList out : ChunkList} {totalLen : Nat} :
    serializeRpcolsToChainedChunk heap ctx colCnt chunkList totalLen = some out ↔
      (∀ col ∈ slice cols 0 colCnt.toNat, storedLen col ≤ resChunkSize) ∧
        out = { chunkList with
          chainedChunk := (openChunk heap chunkList.chainedChunk totalLen).1 ++
            [⟨overwrite (openChunk heap chunkList.chainedChunk totalLen).2.buf (slice cols 0 colCnt.toNat),
              (openChunk heap chunkList.chainedChunk totalLen).2.used +
                total storedLen (slice cols 0 colCnt.toNat)⟩] } := by
  have hCopy := fun chunk => copyChainedColumns_eq_some_iff colCnt.toNat 0
    (openChunk heap chunkList.chainedChunk totalLen).2 chunk fun j _ hj => hStores j (by omega)
  constructor
  · intro h
    obtain ⟨chunk, hChunk, hOut⟩ := Option.bind_eq_some_iff.mp h
    obtain ⟨hFits, rfl⟩ := (hCopy chunk).mp hChunk
    exact ⟨hFits, (Option.some_inj.mp hOut).symm⟩
  · rintro ⟨hFits, rfl⟩
    rw [serializeRpcolsToChainedChunk]
    simp only [(hCopy _).mpr ⟨hFits, rfl⟩]
    rfl

end Serialize

end CsdWorker.Tmax
