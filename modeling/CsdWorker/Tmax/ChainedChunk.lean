import CsdWorker.Tmax.ChainedRow

/-! # The chained chunks of a block

The row pieces that `process_chained_row` accepts are grouped into chunks by their lengths, as rows are. But
every column of a chunk is copied to the start of its buffer, so that only the last columns are left there.
-/

namespace CsdWorker.Tmax

open Memory Packing

set_option autoImplicit false

/-- A call of `process_chained_row` that puts its row piece out. -/
structure Accepted (fi : FilterInfo) where
  ctx : ExpCtx
  rp : Mem
  beyond : ¬fi.allMaxColno < completeCols rp
  passed : checkRow fi (chainedBuilt fi ctx rp) (fi.expCnt > 0 ∧ fi.whereMaxColno < completeCols rp) = some true
  built : ∀ i < colcnt rp, fi.keeps i = true → ((chainedBuilt fi ctx rp).columnVals i).isSome

namespace Accepted

variable {fi : FilterInfo} (piece : Accepted fi)

def column (i : Nat) : Mem :=
  if fi.keeps i then ((chainedBuilt fi piece.ctx piece.rp).columnVals i).getD nullColumn else nullColumn

def columns : List Mem := slice piece.column 0 (colcnt piece.rp)

def bytes : Bytes := piece.columns.flatMap columnBytes

end Accepted

def putChained (fi : FilterInfo) (heap : Nat → Mem) (chunkList : ChunkList) (piece : Accepted fi) : Option ChunkList :=
  (processChainedRow heap piece.ctx piece.rp chunkList fi).map fun r => r.2.2

def putAllChained (fi : FilterInfo) (heap : Nat → Mem) (pieces : List (Accepted fi)) : Option ChunkList :=
  pieces.foldlM (putChained fi heap) createChunkList

/-- The chunks hold the columns of the row pieces one after the other, within their buffers. -/
structure Appended {fi : FilterInfo} (pieces : List (Accepted fi)) (out : ChunkList) : Prop where
  bytes : out.chainedChunk.flatMap Chunk.content = pieces.flatMap Accepted.bytes
  used : ∀ chunk ∈ out.chainedChunk, chunk.used ≤ resChunkSize

section Model
variable (heap : Nat → Mem)

/-- Chunk `k` after the columns of `group`. -/
def chunkOf (k : Nat) (group : List (List Mem)) : Chunk :=
  ⟨overwrite (heap k) group.flatten, total storedLen group.flatten⟩

def chunksOf (groups : List (List (List Mem))) : List Chunk := groups.mapIdx (chunkOf heap)

theorem chunksOf_concat (groups : List (List (List Mem))) (group : List (List Mem)) :
    chunksOf heap (groups ++ [group]) = chunksOf heap groups ++ [chunkOf heap groups.length group] :=
  List.mapIdx_concat

theorem chunkOf_concat (k : Nat) (group : List (List Mem)) (columns : List Mem) :
    chunkOf heap k (group ++ [columns]) =
      ⟨overwrite (chunkOf heap k group).buf columns, (chunkOf heap k group).used + total storedLen columns⟩ := by
  rw [chunkOf, List.flatten_append, List.flatten_singleton, total_append, overwrite, List.foldl_append]
  rfl

/-- One row piece joins the chunk that the grouping puts it into. -/
theorem chunksOf_put (groups : List (List (List Mem))) (columns : List Mem) :
    (openChunk heap (chunksOf heap groups) (total storedLen columns)).1 ++
      [⟨overwrite (openChunk heap (chunksOf heap groups) (total storedLen columns)).2.buf columns,
        (openChunk heap (chunksOf heap groups) (total storedLen columns)).2.used + total storedLen columns⟩] =
      chunksOf heap (put (total storedLen) resChunkSize groups columns) := by
  have hNew :
    ∀ k, (⟨overwrite (createChunk (heap k)).buf columns, (createChunk (heap k)).used + total storedLen columns⟩ :
      Chunk) = chunkOf heap k [columns] := fun k => (chunkOf_concat heap k [] columns).symm
  rcases List.eq_nil_or_concat' groups with rfl | ⟨before, last, rfl⟩
  · exact congrArg (fun chunk => [chunk]) (hNew 0)
  · have hUsed : (chunkOf heap before.length last).used = total (total storedLen) last := (total_flatten _ _).symm
    rw [chunksOf_concat, openChunk_last, put_last, hUsed]
    split
    · rw [hNew, chunksOf_concat, chunksOf_concat, List.length_append, List.length_append, List.length_singleton,
        List.length_singleton, chunksOf, List.length_mapIdx]
    · rw [chunksOf_concat, chunkOf_concat]

variable {fi : FilterInfo}

theorem setColOut_accepted (piece : Accepted fi) :
    ∃ ctx', setColOut (chainedBuilt fi piece.ctx piece.rp) (colcnt piece.rp) fi.useCols fi.useColCnt =
        some (total storedLen piece.columns, ctx') ∧ ∀ i < colcnt piece.rp, Stores ctx' i (piece.column i) := by
  apply setColOut_stores
  · intro i hi hKeeps
    obtain ⟨col, hCol⟩ := Option.isSome_iff_exists.mp (piece.built i hi hKeeps)
    rw [Accepted.column, hCol, Option.getD_some]
    exact congrArg some (if_pos hKeeps).symm
  · intro i hUnused
    exact if_neg (by rw [FilterInfo.keeps, hUnused]; exact Bool.false_ne_true)

theorem putChained_eq_some_iff (piece : Accepted fi) (resChunk : List Chunk) (groups : List (List (List Mem)))
    {out : ChunkList} :
    putChained fi heap ⟨resChunk, chunksOf heap groups⟩ piece = some out ↔
      (∀ col ∈ piece.columns, storedLen col ≤ resChunkSize) ∧
        out = ⟨resChunk, chunksOf heap (put (total storedLen) resChunkSize groups piece.columns)⟩ := by
  obtain ⟨ctx', hSet, hStores⟩ := setColOut_accepted piece
  have hPut : putChained fi heap ⟨resChunk, chunksOf heap groups⟩ piece =
      serializeRpcolsToChainedChunk heap ctx' (colcnt piece.rp) ⟨resChunk, chunksOf heap groups⟩
        (total storedLen piece.columns) := by
    rw [putChained, processChainedRow_eq heap piece.ctx _ piece.beyond, piece.passed]
    simp only [Option.bind_some, if_true, hSet]
    cases serializeRpcolsToChainedChunk heap ctx' (colcnt piece.rp) ⟨resChunk, chunksOf heap groups⟩
      (total storedLen piece.columns) with
    | none => rfl
    | some out => rfl
  rw [hPut, ← chunksOf_put]
  exact serializeRpcolsToChainedChunk_eq_some_iff heap (colcnt piece.rp) hStores

theorem putAllChained_eq_some_iff (pieces : List (Accepted fi)) {out : ChunkList} :
    putAllChained fi heap pieces = some out ↔
      (∀ piece ∈ pieces, ∀ col ∈ piece.columns, storedLen col ≤ resChunkSize) ∧
        out = ⟨[], chunksOf heap (greedy (total storedLen) resChunkSize (pieces.map Accepted.columns))⟩ := by
  induction pieces using List.reverseRecOn generalizing out with
  | nil => exact ⟨fun h => ⟨List.forall_mem_nil _, (Option.some_inj.mp h).symm⟩, fun h => h.2 ▸ rfl⟩
  | append_singleton pieces piece ih =>
    have hConcat : putAllChained fi heap (pieces ++ [piece]) =
        (putAllChained fi heap pieces).bind fun chunkList => putChained fi heap chunkList piece := by
      rw [putAllChained, List.foldlM_append, putAllChained]
      simp
    rw [hConcat, Option.bind_eq_some_iff, List.map_append, List.map_singleton, greedy_concat, List.forall_mem_append]
    constructor
    · rintro ⟨before, hBefore, hPut⟩
      obtain ⟨hPieces, rfl⟩ := ih.mp hBefore
      obtain ⟨hPiece, rfl⟩ := (putChained_eq_some_iff heap piece [] _).mp hPut
      exact ⟨⟨hPieces, by simpa using hPiece⟩, rfl⟩
    · rintro ⟨⟨hPieces, hPiece⟩, rfl⟩
      exact ⟨_, ih.mpr ⟨hPieces, rfl⟩,
        (putChained_eq_some_iff heap piece [] _).mpr ⟨hPiece piece List.mem_cons_self, rfl⟩⟩

end Model

section Correct
variable {pieces : List (List Mem)}

/-- The chunks hold the columns of all row pieces, whatever `malloc` finds. -/
def Faithful (pieces : List (List Mem)) : Prop :=
  ∀ heap, (chunksOf heap (greedy (total storedLen) resChunkSize pieces)).flatMap Chunk.content =
      pieces.flatten.flatMap columnBytes ∧
    ∀ chunk ∈ chunksOf heap (greedy (total storedLen) resChunkSize pieces), chunk.used ≤ resChunkSize

def Single (pieces : List (List Mem)) : Prop :=
  (∀ columns ∈ pieces, byteLen columns ≤ resChunkSize) ∧
    ∀ group ∈ greedy byteLen resChunkSize pieces, group.flatten.length ≤ 1

theorem length_chunksOf (heap : Nat → Mem) (groups : List (List (List Mem))) :
    ((chunksOf heap groups).flatMap Chunk.content).length = total storedLen groups.flatten.flatten := by
  induction groups using List.reverseRecOn with
  | nil => rfl
  | append_singleton groups group ih =>
    rw [chunksOf_concat, List.flatMap_append, List.length_append, ih, List.flatMap_singleton, length_content,
      List.flatten_append, List.flatten_append, List.flatten_singleton, total_append]
    rfl

theorem Faithful.storedLen_eq (h : Faithful pieces) : ∀ col ∈ pieces.flatten, storedLen col = rpcolGetLen col := by
  have hLength := congrArg List.length (h fun _ => zeroed).1
  rw [length_chunksOf, flatten_greedy] at hLength
  exact eq_of_total_eq storedLen_le (hLength.trans (byteLen_eq pieces.flatten))

theorem byteLen_of_stored {columns : List Mem} (h : ∀ col ∈ columns, storedLen col = rpcolGetLen col) :
    byteLen columns = total storedLen columns :=
  (byteLen_eq columns).trans (total_congr h).symm

theorem mem_chunksOf (heap : Nat → Mem) {groups : List (List (List Mem))} {group : List (List Mem)}
    (h : group ∈ groups) :
    ∃ chunk ∈ chunksOf heap groups, chunk.used = total storedLen group.flatten := by
  obtain ⟨k, hk, rfl⟩ := List.mem_iff_getElem.mp h
  exact ⟨chunkOf heap k groups[k], List.mem_mapIdx.mpr ⟨k, hk, rfl⟩, rfl⟩

theorem Faithful.byteLen_le (h : Faithful pieces) : ∀ columns ∈ pieces, byteLen columns ≤ resChunkSize := by
  intro columns hColumns
  have hMem := hColumns
  rw [← flatten_greedy (total storedLen) resChunkSize pieces] at hMem
  obtain ⟨group, hGroup, hIn⟩ := List.mem_flatten.mp hMem
  obtain ⟨chunk, hChunk, hUsed⟩ := mem_chunksOf (fun _ => zeroed) hGroup
  have hTotal : total storedLen columns ≤ total (total storedLen) group :=
    List.single_le_sum (by simp) _ (List.mem_map_of_mem hIn)
  rw [byteLen_of_stored fun col hCol => h.storedLen_eq col (List.mem_flatten.mpr ⟨columns, hColumns, hCol⟩)]
  rw [total_flatten, ← hUsed] at hTotal
  exact hTotal.trans ((h fun _ => zeroed).2 chunk hChunk)

theorem greedy_byteLen (h : ∀ col ∈ pieces.flatten, storedLen col = rpcolGetLen col) :
    greedy byteLen resChunkSize pieces = greedy (total storedLen) resChunkSize pieces :=
  greedy_congr _ fun columns hColumns =>
    byteLen_of_stored fun col hCol => h col (List.mem_flatten.mpr ⟨columns, hColumns, hCol⟩)

theorem column_mem {size : List Mem → Nat} {group : List (List Mem)} (hGroup : group ∈ greedy size resChunkSize pieces)
    {col : Mem} (hCol : col ∈ group.flatten) : col ∈ pieces.flatten := by
  obtain ⟨columns, hColumns, hIn⟩ := List.mem_flatten.mp hCol
  rw [← flatten_greedy size resChunkSize pieces]
  exact List.mem_flatten.mpr ⟨columns, List.mem_flatten.mpr ⟨group, hGroup, hColumns⟩, hIn⟩

/-- The chunk of one group can be told apart from the others by the lengths. -/
theorem content_eq_of_flatMap_eq {heap heap' : Nat → Mem} {before after : List (List (List Mem))}
    {group : List (List Mem)}
    (h : (chunksOf heap (before ++ group :: after)).flatMap Chunk.content =
      (chunksOf heap' (before ++ group :: after)).flatMap Chunk.content) :
    (chunkOf heap before.length group).content = (chunkOf heap' before.length group).content := by
  have hSplit : ∀ m : Nat → Mem, (chunksOf m (before ++ group :: after)).flatMap Chunk.content =
      (chunksOf m (before ++ [group])).flatMap Chunk.content ++
        (after.mapIdx fun i => chunkOf m (i + (before ++ [group]).length)).flatMap Chunk.content := by
    intro m
    rw [← List.singleton_append, ← List.append_assoc, chunksOf, List.mapIdx_append, List.flatMap_append, ← chunksOf]
  rw [hSplit, hSplit] at h
  have hFirst := (List.append_inj h (by rw [length_chunksOf, length_chunksOf])).1
  rw [chunksOf_concat, chunksOf_concat, List.flatMap_append, List.flatMap_append] at hFirst
  have hLast := (List.append_inj hFirst (by rw [length_chunksOf, length_chunksOf])).2
  rwa [List.flatMap_singleton, List.flatMap_singleton] at hLast

theorem Faithful.single (h : Faithful pieces) : Single pieces := by
  refine ⟨h.byteLen_le, ?_⟩
  rw [greedy_byteLen h.storedLen_eq]
  intro group hGroup
  by_contra hMany
  obtain ⟨before, after, hSplit⟩ := List.append_of_mem hGroup
  have hPos : ∀ col ∈ group.flatten, 0 < storedLen col := by
    intro col hCol
    rw [h.storedLen_eq col (column_mem hGroup hCol)]
    exact rpcolGetLen_pos col
  -- two fillings of the memory that differ everywhere give the same bytes
  have hSame := (h fun _ _ => 0).1.trans (h fun _ _ => 1).1.symm
  rw [hSplit] at hSame
  have hContent := content_eq_of_flatMap_eq hSame
  have hLast : ∀ x : UInt8, (chunkOf (fun _ _ => x) before.length group).content[total storedLen group.flatten - 1]? =
      some x := by
    intro x
    have hEnd := content_last hPos (Or.inl (by omega) : _ ∨ _ ∧ 0 < 0) fun _ => x
    rwa [Nat.zero_add] at hEnd
  have hDiffer := hLast 0
  rw [hContent, hLast 1] at hDiffer
  exact absurd hDiffer (by decide)

theorem flatMap_chunksOf (heap : Nat → Mem) {groups : List (List (List Mem))}
    (h : ∀ group ∈ groups, ∀ k, (chunkOf heap k group).content = group.flatten.flatMap columnBytes) :
    (chunksOf heap groups).flatMap Chunk.content = groups.flatten.flatten.flatMap columnBytes := by
  induction groups using List.reverseRecOn with
  | nil => rfl
  | append_singleton groups group ih =>
    obtain ⟨hGroups, hGroup⟩ := List.forall_mem_append.mp h
    rw [chunksOf_concat, List.flatMap_append, ih hGroups, List.flatMap_singleton, hGroup group List.mem_cons_self,
      List.flatten_append, List.flatten_append, List.flatten_singleton, List.flatMap_append]

theorem Single.rpcolGetLen_le (h : Single pieces) : ∀ col ∈ pieces.flatten, rpcolGetLen col ≤ resChunkSize := by
  intro col hCol
  obtain ⟨columns, hColumns, hIn⟩ := List.mem_flatten.mp hCol
  have hLe := h.1 columns hColumns
  rw [byteLen_eq] at hLe
  exact (List.single_le_sum (by simp) _ (List.mem_map_of_mem hIn)).trans hLe

theorem Single.faithful (h : Single pieces) : Faithful pieces := by
  have hStored : ∀ col ∈ pieces.flatten, storedLen col = rpcolGetLen col := fun col hCol =>
    storedLen_of_lt ((h.rpcolGetLen_le col hCol).trans_lt (by decide))
  have hSingle := h.2
  have hFlatten := flatten_greedy (total storedLen) resChunkSize pieces
  rw [greedy_byteLen hStored] at hSingle
  intro heap
  constructor
  · rw [flatMap_chunksOf heap fun group hGroup k =>
      content_of_le_one (fun col hCol => hStored col (column_mem hGroup hCol)) (hSingle group hGroup) (heap k),
      hFlatten]
  · intro chunk hChunk
    obtain ⟨k, hk, rfl⟩ := List.mem_mapIdx.mp hChunk
    have hGroup := List.getElem_mem hk
    have hOne := hSingle _ hGroup
    have hIn : ∀ col ∈ (greedy (total storedLen) resChunkSize pieces)[k].flatten, col ∈ pieces.flatten :=
      fun col hCol => column_mem hGroup hCol
    change total storedLen (greedy (total storedLen) resChunkSize pieces)[k].flatten ≤ resChunkSize
    generalize (greedy (total storedLen) resChunkSize pieces)[k].flatten = columns at hOne hIn ⊢
    cases columns with
    | nil => exact Nat.zero_le _
    | cons col rest =>
      obtain rfl : rest = [] := List.length_eq_zero_iff.mp (by simpa using hOne)
      rw [total_cons, total_nil, Nat.add_zero, hStored col (hIn col List.mem_cons_self)]
      exact h.rpcolGetLen_le col (hIn col List.mem_cons_self)

end Correct

/-- The chained chunks hold what was put out, in order, exactly when the row pieces fit into chunks and no
chunk gets more than one column. -/
theorem putAllChained_appended_iff (fi : FilterInfo) (pieces : List (Accepted fi)) :
    (∀ heap, ∃ out, putAllChained fi heap pieces = some out ∧ Appended pieces out) ↔
      Single (pieces.map Accepted.columns) := by
  have hBytes : pieces.flatMap Accepted.bytes = (pieces.map Accepted.columns).flatten.flatMap columnBytes := by
    rw [← List.flatMap_def, List.flatMap_assoc]
    rfl
  constructor
  · intro hAll
    apply Faithful.single
    intro heap
    obtain ⟨out, hRun, hAppended⟩ := hAll heap
    obtain ⟨-, rfl⟩ := (putAllChained_eq_some_iff heap pieces).mp hRun
    exact ⟨hAppended.bytes.trans hBytes, hAppended.used⟩
  · intro hSingle heap
    obtain ⟨hContent, hUsed⟩ := hSingle.faithful heap
    have hFits : ∀ piece ∈ pieces, ∀ col ∈ piece.columns, storedLen col ≤ resChunkSize := fun piece hPiece col hCol =>
      (storedLen_le col).trans
        (hSingle.rpcolGetLen_le col (List.mem_flatten.mpr ⟨_, List.mem_map_of_mem hPiece, hCol⟩))
    exact ⟨_, (putAllChained_eq_some_iff heap pieces).mpr ⟨hFits, rfl⟩, hContent.trans hBytes.symm, hUsed⟩

def allColumnsFilter : FilterInfo :=
  { expCnt := 0, colCnt := 3, useCols := some fun _ => true, useColCnt := 3, allMaxColno := 2, whereMaxColno := -1
    isCharType := fun _ => false, opTypes := fun _ => .none, expLNos := fun _ => -1, expRNos := fun _ => -1
    constValsCnt := 0, constVals := fun _ => none }

def oneColumnPiece : Accepted allColumnsFilter :=
  { ctx := anyCtx, rp := ofBytes [0x28, 0, 1, 0, 0, 0, 0, 0, 0, 1, 65]
    beyond := by decide, passed := rfl, built := by decide }

theorem one_column_appended :
    ∀ heap, ∃ out, putAllChained allColumnsFilter heap [oneColumnPiece] = some out ∧ Appended [oneColumnPiece] out :=
  (putAllChained_appended_iff allColumnsFilter [oneColumnPiece]).mpr ⟨by decide, by decide⟩

/-- The columns `A` and `B`. -/
def twoColumnPiece : Accepted allColumnsFilter :=
  { ctx := anyCtx, rp := ofBytes [0x28, 0, 2, 0, 0, 0, 0, 0, 0, 1, 65, 1, 66]
    beyond := by decide, passed := rfl, built := by decide }

/-- From a zeroed buffer the chunk holds `B` and two zero bytes. -/
theorem first_column_overwritten :
    ¬∀ heap, ∃ out, putAllChained allColumnsFilter heap [twoColumnPiece] = some out ∧
      Appended [twoColumnPiece] out := by
  intro hAll
  obtain ⟨out, hRun, hAppended⟩ := hAll fun _ => zeroed
  obtain ⟨-, rfl⟩ := (putAllChained_eq_some_iff _ _).mp hRun
  have hBytes : ([1, 66, 0, 0] : Bytes) = [1, 65, 1, 66] := hAppended.bytes
  exact absurd hBytes (by decide)

end CsdWorker.Tmax
