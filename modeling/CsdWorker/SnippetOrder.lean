import CsdWorker.SnippetDocument

/-! # A snippet from the storage engine to the scan queue

What a storage engine has to say about a snippet, the document that says it and the snippet that the module makes of it.
Any text will do that the reader takes for the document. It arrives over a socket in pieces, and the snippet that is
enqueued does not depend on them.
-/

namespace CsdWorker.Input

open Memory Endian Json
open Scan (Request SnippetType)
open Tmax (FileChunk)

set_option autoImplicit false

section Order

structure OrderFilter where
  operator : CInt
  lv : List (CInt × CText)
  rv : List (CInt × CText)

structure OrderProjection where
  selectType : CInt
  expression : List (CInt × CText)

structure OrderColumn where
  name : CText
  type : CInt
  length : CInt
  primary : Bool
  index : Bool

/-- An offset does not fit an `int` and is sent as a text. -/
structure OrderOffset where
  text : CText
  val : Nat
  reads : stoull text.val = some val

structure OrderBlock where
  offset : List OrderOffset
  length : List CInt

inductive OrderSource where
  | blocks (list : List OrderBlock)
  | files (list : List CText)

structure OrderWal where
  deleted : List CText
  inserted : List (CText × CText)

structure OrderResult where
  tableAlias : CText
  columns : List (CText × CInt × CInt)
  totalBlockCount : CInt
  csdBlockCount : CInt

structure Order where
  type : CInt
  scans : SnippetType.ofCode type.val ≠ .tmaxSnippet
  queryId : CInt
  workId : CInt
  tableName : CText
  filtering : List OrderFilter
  projection : List OrderProjection
  columns : List OrderColumn
  tableIndexNumber : CInt
  partition : CText
  source : OrderSource
  walInfo : Option OrderWal
  result : OrderResult

structure TmaxOrder where
  id : CInt
  blockSize : CInt
  bufferSize : CInt
  filterInfo : CText
  fileName : CText
  chunks : List (CLong × CLong)

/-- What the storage engine sends. -/
inductive Sent where
  | scan (order : Order)
  | tmax (order : TmaxOrder)

end Order

section Writing

def listTree {α : Type} (write : α → Tree) (xs : List α) : Tree := .arr (xs.map write)

def operandTree (operand : List (CInt × CText)) : Tree :=
  .obj [(ascii "type", listTree (fun e => .int e.1) operand), (ascii "value", listTree (fun e => .str e.2) operand)]

def OrderFilter.tree (f : OrderFilter) : Tree :=
  .obj [(ascii "lv", operandTree f.lv), (ascii "operator", .int f.operator), (ascii "rv", operandTree f.rv)]

def OrderProjection.tree (p : OrderProjection) : Tree :=
  .obj [(ascii "select_type", .int p.selectType), (ascii "value", listTree (fun e => .str e.2) p.expression),
    (ascii "value_type", listTree (fun e => .int e.1) p.expression)]

def OrderColumn.tree (c : OrderColumn) : Tree :=
  .obj [(ascii "name", .str c.name), (ascii "type", .int c.type), (ascii "length", .int c.length),
    (ascii "primary", .bool c.primary), (ascii "index", .bool c.index)]

def OrderBlock.tree (b : OrderBlock) : Tree :=
  .obj [(ascii "offset", listTree (fun o => .str o.text) b.offset), (ascii "length", listTree .int b.length)]

def OrderSource.member : OrderSource → Bytes × Tree
  | .blocks list => (ascii "block", listTree OrderBlock.tree list)
  | .files list => (ascii "sst_list", listTree .str list)

def OrderWal.tree (w : OrderWal) : Tree :=
  .obj [(ascii "deleted_key", listTree .str w.deleted), (ascii "inserted_key", listTree (fun e => .str e.1) w.inserted),
    (ascii "inserted_value", listTree (fun e => .str e.2) w.inserted)]

def OrderResult.tree (r : OrderResult) : Tree :=
  .obj [(ascii "table_alias", .str r.tableAlias), (ascii "column_alias", listTree (fun c => .str c.1) r.columns),
    (ascii "return_column_type", listTree (fun c => .int c.2.1) r.columns),
    (ascii "return_column_length", listTree (fun c => .int c.2.2) r.columns),
    (ascii "total_block_count", .int r.totalBlockCount), (ascii "csd_block_count", .int r.csdBlockCount)]

def Order.queryTree (o : Order) : Tree :=
  .obj [(ascii "table_name", listTree .str [o.tableName]), (ascii "filtering", listTree OrderFilter.tree o.filtering),
    (ascii "projection", listTree OrderProjection.tree o.projection)]

def Order.schemaTree (o : Order) : Tree :=
  .obj [(ascii "column_list", listTree OrderColumn.tree o.columns),
    (ascii "table_index_number", .int o.tableIndexNumber)]

def Order.blockTree (o : Order) : Tree := .obj [(ascii "partition", .str o.partition), o.source.member]

def Order.document (o : Order) : Tree :=
  .obj ([(ascii "type", .int o.type), (ascii "query_id", .int o.queryId), (ascii "work_id", .int o.workId),
    (ascii "query_info", o.queryTree), (ascii "schema_info", o.schemaTree), (ascii "block_info", o.blockTree),
    (ascii "result_info", o.result.tree)] ++ o.walInfo.toList.map fun w => (ascii "wal_info", w.tree))

def chunkTree (chunk : CLong × CLong) : Tree :=
  .obj [(ascii "offset", .long chunk.1), (ascii "length", .long chunk.2)]

/-- `TMAX_SNIPPET`. -/
def tmaxType : CInt := ⟨15, by decide⟩

def TmaxOrder.document (t : TmaxOrder) : Tree :=
  .obj [(ascii "type", .int tmaxType), (ascii "id", .int t.id), (ascii "block_size", .int t.blockSize),
    (ascii "buffer_size", .int t.bufferSize), (ascii "filter_info", .str t.filterInfo),
    (ascii "file_name", .str t.fileName), (ascii "chunk_list", listTree chunkTree t.chunks)]

def Sent.document : Sent → Tree
  | .scan order => order.document
  | .tmax order => order.document

end Writing

section Meaning

def operandOf (operand : List (CInt × CText)) : Operand :=
  { types := operand.map fun e => .ofCode e.1.val, values := operand.map fun e => e.2.val }

/-- The operands of a connective are not read. -/
def OrderFilter.filtering (f : OrderFilter) : Filtering :=
  match KetiOperType.ofCode f.operator.val with
  | .and => { lv := ⟨[], []⟩, operator := .and, rv := ⟨[], []⟩ }
  | .or => { lv := ⟨[], []⟩, operator := .or, rv := ⟨[], []⟩ }
  | operator => { lv := operandOf f.lv, operator, rv := operandOf f.rv }

def OrderProjection.projectioning (p : OrderProjection) : Projectioning :=
  { selectType := .ofCode p.selectType.val, expression := operandOf p.expression }

def OrderColumn.entry (c : OrderColumn) : ColumnEntry :=
  { name := c.name.val, type := .ofCode c.type.val, length := c.length.val, primary := c.primary }

def OrderBlock.block (b : OrderBlock) : Block :=
  { offset := b.offset.map OrderOffset.val, length := b.length.map fun l => unsign 8 l.val }

def OrderSource.blockInfo : OrderSource → BlockInfo
  | .blocks list => { sstList := [], blockList := list.map OrderBlock.block }
  | .files list => { sstList := list.map CText.val, blockList := [] }

def Order.scanType (o : Order) : SnippetType :=
  match o.source with
  | .blocks _ => .ofCode o.type.val
  | .files _ => .sstFileScan

def OrderWal.walInfo (w : OrderWal) : WalInfo :=
  { deletedKey := w.deleted.map CText.val, insertedKey := w.inserted.map fun e => e.1.val,
    insertedValue := w.inserted.map fun e => e.2.val }

def OrderResult.resultInfo (r : OrderResult) : ResultInfo :=
  { tableAlias := r.tableAlias.val, columnAlias := r.columns.map fun c => c.1.val,
    returnColumnType := r.columns.map fun c => c.2.1.val, returnColumnLength := r.columns.map fun c => c.2.2.val,
    totalBlockCount := r.totalBlockCount.val, csdBlockCount := r.csdBlockCount.val }

def Order.snippet (o : Order) : Snippet :=
  { queryId := o.queryId.val
    workId := o.workId.val
    queryInfo :=
      { filtering := o.filtering.map OrderFilter.filtering,
        projection := o.projection.map OrderProjection.projectioning }
    schemaInfo := parseSchemaInfo (o.columns.map OrderColumn.entry) o.tableIndexNumber.val
    blockInfo := o.source.blockInfo
    resultInfo := o.result.resultInfo }

def Order.request (o : Order) : Request :=
  { type := o.scanType, partition := o.partition.val, seekKey := [], snippet := o.snippet }

/-- What the module should make of the order. -/
def Order.parsed (o : Order) : ParsedSnippet :=
  { request := o.request
    tableName := o.tableName.val
    indexColumn := (o.columns.filter OrderColumn.index).map fun c => c.name.val
    walInfo := (o.walInfo.map OrderWal.walInfo).getD ⟨[], [], []⟩ }

def chunkOf (chunk : CLong × CLong) : FileChunk :=
  ⟨unsign 8 chunk.1.val, unsign 8 chunk.2.val, unsign_lt _, unsign_lt _⟩

def TmaxOrder.tSnippet (t : TmaxOrder) : TSnippet :=
  { id := t.id.val, blockSize := t.blockSize.val, bufferSize := t.bufferSize.val, chunks := t.chunks.map chunkOf,
    filterInfo := t.filterInfo.val, fileName := t.fileName.val }

def Sent.parsed : Sent → Parsed
  | .scan order => .scan order.parsed
  | .tmax order => .tmax order.tSnippet

end Meaning

section Reading
variable {Value : Type} {reader : Reader Value} {x : Value}

/-- The element of a shown list at an index, read as a text or a number. -/
theorem getString_element {α : Type} {write : α → CText} {xs : List α}
    (h : Shows reader x (listTree (fun e => .str (write e)) xs)) {j : Nat} {e : α} (hj : xs[j]? = some e) :
    (reader.element x j).bind reader.getString = some (write e) := by
  obtain ⟨w, hElement, hw⟩ := h.element hj
  rw [hElement, Option.bind_some, hw.getString]

theorem getInt_element {α : Type} {write : α → CInt} {xs : List α}
    (h : Shows reader x (listTree (fun e => .int (write e)) xs)) {j : Nat} {e : α} (hj : xs[j]? = some e) :
    (reader.element x j).bind reader.getInt = some (write e) := by
  obtain ⟨w, hElement, hw⟩ := h.element hj
  rw [hElement, Option.bind_some, hw.getInt]

theorem parseOperand_tree {operand : List (CInt × CText)} (h : Shows reader x (operandTree operand)) :
    parseOperand reader x = some (operandOf operand) := by
  obtain ⟨types, hTypes, hShown⟩ := h.memberOf "type" rfl
  obtain ⟨values, hValues, hShownValues⟩ := h.memberOf "value" rfl
  rw [parseOperand, hTypes, Option.bind_eq_bind, Option.bind_some,
    hShown.forIndices (fun e => (KetiValueType.ofCode e.1.val, e.2.val)) fun j e hj => ?_]
  · simp [operandOf, Function.comp_def]
  · rw [getInt_element hShown hj, hValues, Option.bind_eq_bind, Option.bind_some, Option.bind_eq_bind, Option.bind_some,
      getString_element hShownValues hj]
    rfl

theorem parseFiltering_tree {f : OrderFilter} (h : Shows reader x f.tree) :
    parseFiltering reader x = some f.filtering := by
  obtain ⟨lv, hLv, hLeft⟩ := h.memberOf "lv" rfl
  obtain ⟨rv, hRv, hRight⟩ := h.memberOf "rv" rfl
  rw [parseFiltering, h.intOf "operator" rfl, hLv, hRv, OrderFilter.filtering]
  simp only [Option.bind_eq_bind, Option.bind_some, parseOperand_tree hLeft, parseOperand_tree hRight]
  cases KetiOperType.ofCode f.operator.val <;> rfl

theorem parseProjectioning_tree {p : OrderProjection} (h : Shows reader x p.tree) :
    parseProjectioning reader x = some p.projectioning := by
  obtain ⟨values, hValues, hShown⟩ := h.memberOf "value" rfl
  obtain ⟨types, hTypes, hShownTypes⟩ := h.memberOf "value_type" rfl
  rw [parseProjectioning, h.intOf "select_type" rfl, hValues, hTypes]
  simp only [Option.bind_eq_bind, Option.bind_some]
  rw [hShown.forIndices (fun e => (KetiValueType.ofCode e.1.val, e.2.val)) fun j e hj => ?_]
  · simp [OrderProjection.projectioning, operandOf, Function.comp_def]
  · rw [getString_element hShown hj, getInt_element hShownTypes hj]
    rfl

theorem parseQueryInfo_tree {o : Order} (h : Shows reader x o.queryTree) :
    parseQueryInfo reader x = some (o.tableName.val, o.snippet.queryInfo) := by
  obtain ⟨names, hNames, hShownNames⟩ := h.memberOf "table_name" rfl
  obtain ⟨filters, hFilters, hShownFilters⟩ := h.memberOf "filtering" rfl
  obtain ⟨projections, hProjections, hShownProjections⟩ := h.memberOf "projection" rfl
  have hName : (reader.element names 0).bind reader.getString = some o.tableName := getString_element hShownNames rfl
  rw [parseQueryInfo, hNames, hFilters, hProjections]
  simp only [Option.bind_eq_bind, Option.bind_some, hName,
    hShownFilters.forElements OrderFilter.filtering fun f w hf => parseFiltering_tree hf,
    hShownProjections.forElements OrderProjection.projectioning fun p w hp => parseProjectioning_tree hp]
  rfl

theorem parseColumn_tree {c : OrderColumn} (h : Shows reader x c.tree) :
    parseColumn reader x = some (c.entry, c.index) := by
  rw [parseColumn, h.boolOf "primary" rfl, h.stringOf "name" rfl, h.intOf "length" rfl, h.intOf "type" rfl,
    h.boolOf "index" rfl]
  rfl

theorem parseSchema_tree {o : Order} (h : Shows reader x o.schemaTree) :
    parseSchema reader x = some (o.snippet.schemaInfo, o.parsed.indexColumn) := by
  obtain ⟨columns, hColumns, hShown⟩ := h.memberOf "column_list" rfl
  have hEntries : (o.columns.map fun c => (c.entry, c.index)).map Prod.fst = o.columns.map OrderColumn.entry := by
    rw [List.map_map]
    rfl
  have hIndex : ((o.columns.map fun c => (c.entry, c.index)).filter Prod.snd).map (fun column => column.1.name) =
      o.parsed.indexColumn := by
    rw [List.filter_map, List.map_map]
    rfl
  rw [parseSchema, hColumns, h.intOf "table_index_number" rfl]
  simp only [Option.bind_eq_bind, Option.bind_some,
    hShown.forElements (fun c => (c.entry, c.index)) fun c w hc => parseColumn_tree hc, hEntries, hIndex]
  rfl

theorem parseBlock_tree {b : OrderBlock} (h : Shows reader x b.tree) : parseBlock reader x = some b.block := by
  obtain ⟨offsets, hOffsets, hShownOffsets⟩ := h.memberOf "offset" rfl
  obtain ⟨lengths, hLengths, hShownLengths⟩ := h.memberOf "length" rfl
  rw [parseBlock, hOffsets, hLengths]
  simp only [Option.bind_eq_bind, Option.bind_some]
  rw [hShownOffsets.forElements OrderOffset.val fun o w hw => by rw [hw.getString, Option.bind_some, o.reads],
    hShownLengths.forElements id fun l w hw => hw.getInt]
  simp [OrderBlock.block]

theorem parseBlockInfo_tree {o : Order} (h : Shows reader x o.blockTree) :
    parseBlockInfo reader (.ofCode o.type.val) x = some (o.partition.val, o.scanType, o.snippet.blockInfo) := by
  rw [parseBlockInfo, h.stringOf "partition" rfl, h.hasMember, Order.scanType, Order.snippet]
  cases hSource : o.source with
  | blocks list =>
    rw [Order.blockTree, hSource] at h
    obtain ⟨blocks, hBlocks, hShown⟩ := h.memberOf "block" rfl
    rw [hBlocks]
    simp only [Option.bind_eq_bind, Option.bind_some,
      hShown.forElements OrderBlock.block fun b w hb => parseBlock_tree hb]
    rfl
  | files list =>
    rw [Order.blockTree, hSource] at h
    obtain ⟨files, hFiles, hShown⟩ := h.memberOf "sst_list" rfl
    rw [hFiles]
    simp only [Option.bind_eq_bind, Option.bind_some, hShown.forElements id fun s w hs => hs.getString, List.map_id]
    rfl

theorem hasMember_walInfo {o : Order} (h : Shows reader x o.document) :
    reader.hasMember x (ascii "wal_info") = some o.walInfo.isSome := by
  rw [h.hasMember]
  cases o.walInfo with
  | none => rfl
  | some w => rfl

theorem parseWalInfo_tree {o : Order} (h : Shows reader x o.document) :
    parseWalInfo reader x = some o.parsed.walInfo := by
  rw [parseWalInfo, hasMember_walInfo h, Order.parsed]
  cases hWal : o.walInfo with
  | none => rfl
  | some w =>
    rw [Order.document, hWal] at h
    obtain ⟨walInfo, hMember, hShownWal⟩ := h.memberOf "wal_info" rfl
    obtain ⟨deleted, hDeleted, hShownDeleted⟩ := hShownWal.memberOf "deleted_key" rfl
    obtain ⟨keys, hKeys, hShownKeys⟩ := hShownWal.memberOf "inserted_key" rfl
    obtain ⟨values, hValues, hShownValues⟩ := hShownWal.memberOf "inserted_value" rfl
    rw [hMember]
    simp only [Option.bind_eq_bind, Option.bind_some, Option.isSome_some, if_true, hDeleted, hKeys, hValues,
      hShownDeleted.forElements id fun s w hs => hs.getString, List.map_id]
    rw [hShownKeys.forIndices (fun e => (e.1.val, e.2.val)) fun j e hj => ?_]
    · simp [OrderWal.walInfo, Function.comp_def]
    · rw [getString_element hShownKeys hj, getString_element hShownValues hj]
      rfl

theorem parseResultInfo_tree {r : OrderResult} (h : Shows reader x r.tree) :
    parseResultInfo reader x = some r.resultInfo := by
  obtain ⟨names, hNames, hShownNames⟩ := h.memberOf "column_alias" rfl
  obtain ⟨types, hTypes, hShownTypes⟩ := h.memberOf "return_column_type" rfl
  obtain ⟨lengths, hLengths, hShownLengths⟩ := h.memberOf "return_column_length" rfl
  rw [parseResultInfo, h.stringOf "table_alias" rfl, hNames, hTypes, hLengths, h.intOf "total_block_count" rfl,
    h.intOf "csd_block_count" rfl]
  simp only [Option.bind_eq_bind, Option.bind_some]
  rw [hShownNames.forIndices (fun c => (c.1.val, c.2.1.val, c.2.2.val)) fun j c hj => ?_]
  · simp [OrderResult.resultInfo, Function.comp_def]
  · rw [getString_element hShownNames hj, getInt_element hShownTypes hj, getInt_element hShownLengths hj]
    rfl

theorem parseScan_document {o : Order} (h : Shows reader x o.document) :
    parseScan reader (.ofCode o.type.val) x = some o.parsed := by
  obtain ⟨query, hQuery, hShownQuery⟩ := h.memberOf "query_info" rfl
  obtain ⟨schema, hSchema, hShownSchema⟩ := h.memberOf "schema_info" rfl
  obtain ⟨blocks, hBlocks, hShownBlocks⟩ := h.memberOf "block_info" rfl
  obtain ⟨result, hResult, hShownResult⟩ := h.memberOf "result_info" rfl
  rw [parseScan, h.intOf "query_id" rfl, h.intOf "work_id" rfl, hQuery, hSchema, hBlocks, hResult, parseWalInfo_tree h]
  simp only [Option.bind_eq_bind, Option.bind_some, parseQueryInfo_tree hShownQuery, parseSchema_tree hShownSchema,
    parseBlockInfo_tree hShownBlocks, parseResultInfo_tree hShownResult]
  rfl

theorem parseChunk_tree {chunk : CLong × CLong} (h : Shows reader x (chunkTree chunk)) :
    parseChunk reader x = some (chunkOf chunk) := by
  rw [parseChunk, h.longOf "offset" rfl, h.longOf "length" rfl]
  rfl

theorem parseTmax_document {t : TmaxOrder} (h : Shows reader x t.document) : parseTmax reader x = some t.tSnippet := by
  obtain ⟨chunks, hChunks, hShown⟩ := h.memberOf "chunk_list" rfl
  rw [parseTmax, h.intOf "id" rfl, h.intOf "block_size" rfl, h.intOf "buffer_size" rfl, h.stringOf "filter_info" rfl,
    h.stringOf "file_name" rfl, hChunks]
  simp only [Option.bind_eq_bind, Option.bind_some, hShown.forElements chunkOf fun c w hc => parseChunk_tree hc]
  rfl

theorem parseSnippet_text {s : Sent} {text : Bytes} (hZero : 0 ∉ text) (h : Reads reader text s.document) :
    parseSnippet reader text = some s.parsed := by
  obtain ⟨x, hParse, hShown⟩ := h
  rw [parseSnippet, takeWhile_of_noZero hZero, hParse]
  cases s with
  | scan order =>
    have hScans := order.scans
    simp only [Option.bind_eq_bind, Option.bind_some, hShown.intOf "type" rfl]
    rw [parseScan_document hShown, Option.map_some]
    rfl
  | tmax order =>
    simp only [Option.bind_eq_bind, Option.bind_some, hShown.intOf "type" rfl]
    rw [show SnippetType.ofCode tmaxType.val = .tmaxSnippet from rfl]
    simp only [parseTmax_document hShown]
    rfl

end Reading

/-- A connection that carries the text, in pieces, and perhaps more behind it. -/
structure Carried (turns : Nat) (connection : List Arrival) (text : Bytes) : Prop where
  nonempty : text ≠ []
  noZero : 0 ∉ text
  short : text.length < 2 ^ 64
  pieces : ∃ pieces rest, Pieces text pieces ∧ pieces.length ≤ turns ∧
    connection = .data (natLe 8 text.length) :: (pieces.map .data ++ rest)

theorem Carried.receive {turns : Nat} {connection : List Arrival} {text : Bytes} (h : Carried turns connection text)
    (indeterminate : Mem) : ∃ rest, Input.receive turns indeterminate connection = some (.passed text rest) := by
  obtain ⟨hText, hZero, hLength, pieces, rest, hPieces, hTurns, rfl⟩ := h
  refine ⟨rest, ?_⟩
  rw [receive_header turns indeterminate hLength, receiveLoop_pieces hPieces hText hZero hLength hTurns,
    List.nil_append]

/-- A text that arrives in two reads. -/
theorem carried_two (first second : Bytes) (hFirst : first ≠ []) (hSecond : second ≠ []) (hZero : 0 ∉ first ++ second)
    (hShort : (first ++ second).length ≤ 1000) :
    Carried 2 [.data (natLe 8 (first ++ second).length), .data first, .data second] (first ++ second) := by
  have hBuffer : 1000 ≤ bufferSize - 1 := by decide
  have hLength : (first ++ second).length = first.length + second.length := List.length_append
  refine ⟨by simp [hFirst], hZero, by omega, [first, second], [], ⟨by simp, ?_⟩, le_rfl, rfl⟩
  refine List.forall_mem_cons.mpr ⟨⟨List.length_pos_iff.mpr hFirst, by omega⟩, ?_⟩
  exact List.forall_mem_singleton.mpr ⟨List.length_pos_iff.mpr hSecond, by omega⟩

/-- The keys of `orders` from 1 on, out of one file. -/
def keysOrder : Order :=
  let key : CText := ⟨bytesOf "o_orderkey", by decide⟩
  { type := ⟨0, by decide⟩
    scans := by decide
    queryId := ⟨1, by decide⟩
    workId := ⟨0, by decide⟩
    tableName := ⟨bytesOf "orders", by decide⟩
    filtering := [{ operator := ⟨0, by decide⟩, lv := [(⟨10, by decide⟩, key)],
                    rv := [(⟨2, by decide⟩, ⟨bytesOf "1", by decide⟩)] }]
    projection := [{ selectType := ⟨0, by decide⟩, expression := [(⟨10, by decide⟩, key)] }]
    columns := [{ name := key, type := ⟨3, by decide⟩, length := ⟨4, by decide⟩, primary := true, index := false }]
    tableIndexNumber := ⟨256, by decide⟩
    partition := ⟨[], by decide⟩
    source := .files [⟨bytesOf "1.sst", by decide⟩]
    walInfo := none
    result := { tableAlias := ⟨bytesOf "orders", by decide⟩, columns := [(key, ⟨3, by decide⟩, ⟨4, by decide⟩)],
                totalBlockCount := ⟨3, by decide⟩, csdBlockCount := ⟨3, by decide⟩ } }

/-- A reader that knows the texts of some orders. -/
def knownTexts (known : List (Bytes × Sent)) : Reader Tree :=
  treeReader fun text => (known.lookup text).map Sent.document

theorem reads_knownTexts {known : List (Bytes × Sent)} {text : Bytes} {s : Sent} (h : known.lookup text = some s) :
    Reads (knownTexts known) text s.document := reads_treeReader (by rw [h, Option.map_some])

def keysText : Bytes := bytesOf "keys " ++ bytesOf "of orders"

def keysConnection : List Arrival :=
  [.data (natLe 8 keysText.length), .data (bytesOf "keys "), .data (bytesOf "of orders")]

theorem keysConnection_carried : Carried 2 keysConnection keysText :=
  carried_two (bytesOf "keys ") (bytesOf "of orders") (by decide) (by decide) (by decide) (by decide)

end CsdWorker.Input
