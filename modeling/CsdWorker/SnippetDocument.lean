import CsdWorker.Lib.Json
import CsdWorker.InputWorker
import CsdWorker.ParseSnippet
import CsdWorker.ScanRequest
import CsdWorker.Tmax.BlockReads

/-! # The document of a snippet

`parse_snippet` in `input.cc`, over any reader of JSON. A call of the reader that does not return ends the module, and
so does a number that `stoull` refuses: all of it is `none`.
-/

namespace CsdWorker

set_option autoImplicit false

section Codes

def MySQLDataType.ofCode : Int → MySQLDataType
  | 1 => .byte
  | 2 => .int16
  | 3 => .int32
  | 8 => .int64
  | 4 => .float32
  | 5 => .double
  | 246 => .newDecimal
  | 14 => .date
  | 7 => .timestamp
  | 254 => .string
  | 15 => .varString
  | code => .undefined code

def KetiSelectType.ofCode : Int → KetiSelectType
  | 0 => .colName
  | 1 => .sum
  | 2 => .avg
  | 3 => .count
  | 4 => .countStar
  | 5 => .countDistinct
  | 6 => .top
  | 7 => .min
  | 8 => .max
  | code => .undefined code

def KetiValueType.ofCode : Int → KetiValueType
  | 0 => .int8
  | 1 => .int16
  | 2 => .int32
  | 3 => .int64
  | 4 => .float32
  | 5 => .double
  | 6 => .decimal
  | 7 => .date
  | 8 => .timestamp
  | 9 => .string
  | 10 => .column
  | 11 => .operator
  | 12 => .boolean
  | code => .undefined code

def KetiOperType.ofCode : Int → KetiOperType
  | 0 => .ge
  | 1 => .le
  | 2 => .gt
  | 3 => .lt
  | 4 => .eq
  | 5 => .ne
  | 6 => .like
  | 7 => .notLike
  | 8 => .between
  | 9 => .inList
  | 10 => .notIn
  | 11 => .is
  | 12 => .isNot
  | 13 => .and
  | 14 => .or
  | code => .undefined code

def Scan.SnippetType.ofCode : Int → Scan.SnippetType
  | 0 => .fullScan
  | 1 => .indexScan
  | 2 => .indexTableScan
  | 15 => .tmaxSnippet
  | 16 => .sstFileScan
  | code => .undefined code

end Codes

namespace Input

open Memory Endian Json
open Scan (Request SnippetType)
open Tmax (FileChunk)

structure WalInfo where
  deletedKey : List Bytes
  insertedKey : List Bytes
  insertedValue : List Bytes
  deriving DecidableEq, Repr

/-- A `Snippet` of the source: what the scan and the layers behind it read, and beside it what no layer reads. -/
structure ParsedSnippet where
  request : Request
  tableName : Bytes
  indexColumn : List Bytes
  walInfo : WalInfo
  deriving DecidableEq, Repr

structure TSnippet where
  id : Int
  blockSize : Int
  bufferSize : Int
  chunks : List FileChunk
  filterInfo : Bytes
  fileName : Bytes

/-- `enqueue_worker` or `enqueue_scan`. -/
inductive Parsed where
  | tmax (tSnippet : TSnippet)
  | scan (parsedSnippet : ParsedSnippet)

/-- `strtoull` in base ten. A number behind a minus sign is negated modulo `2 ^ 64`. -/
def stoull (s : Bytes) : Option Nat :=
  let (negative, s) := takeSign (s.dropWhile isTrimmed)
  let ds := s.takeWhile isDigitByte
  if ds.isEmpty ∨ 2 ^ 64 ≤ digitsValue ds then none
  else some (if negative then unsign 8 (-(digitsValue ds : Int)) else digitsValue ds)

theorem unsign_lt (x : Int) : unsign 8 x < 2 ^ 64 := by
  have hLt := Int.emod_lt_of_pos x (show (0 : Int) < (256 ^ 8 : Nat) by decide)
  rw [unsign]
  omega

section Parsing
variable {Value : Type} (reader : Reader Value)

/-- The values are looked for only where there are types. -/
def parseOperand (x : Value) : Option Operand := do
  let types ← memberOf reader "type" x
  let entries ← forIndices reader types fun j => do
    let type ← (reader.element types j).bind reader.getInt
    let values ← memberOf reader "value" x
    let value ← (reader.element values j).bind reader.getString
    pure (KetiValueType.ofCode type.val, value.val)
  pure { types := entries.map Prod.fst, values := entries.map Prod.snd }

def parseFiltering (x : Value) : Option Filtering := do
  let operator ← intOf reader "operator" x
  match KetiOperType.ofCode operator.val with
  | .and => pure { lv := ⟨[], []⟩, operator := .and, rv := ⟨[], []⟩ }
  | .or => pure { lv := ⟨[], []⟩, operator := .or, rv := ⟨[], []⟩ }
  | operator => do
    let lv ← memberOf reader "lv" x
    let rv ← memberOf reader "rv" x
    let lv ← parseOperand reader lv
    let rv ← parseOperand reader rv
    pure { lv, operator, rv }

def parseProjectioning (x : Value) : Option Projectioning := do
  let selectType ← intOf reader "select_type" x
  let values ← memberOf reader "value" x
  let valueType ← memberOf reader "value_type" x
  let entries ← forIndices reader values fun j => do
    let value ← (reader.element values j).bind reader.getString
    let type ← (reader.element valueType j).bind reader.getInt
    pure (KetiValueType.ofCode type.val, value.val)
  pure { selectType := .ofCode selectType.val, expression := ⟨entries.map Prod.fst, entries.map Prod.snd⟩ }

def parseQueryInfo (x : Value) : Option (Bytes × QueryInfo) := do
  let tableNames ← memberOf reader "table_name" x
  let tableName ← (reader.element tableNames 0).bind reader.getString
  let filters ← memberOf reader "filtering" x
  let filtering ← forElements reader filters (parseFiltering reader)
  let projections ← memberOf reader "projection" x
  let projection ← forElements reader projections (parseProjectioning reader)
  pure (tableName.val, { filtering, projection })

/-- The two loops read all of this of every column. -/
def parseColumn (x : Value) : Option (ColumnEntry × Bool) := do
  let primary ← boolOf reader "primary" x
  let name ← stringOf reader "name" x
  let length ← intOf reader "length" x
  let type ← intOf reader "type" x
  let index ← boolOf reader "index" x
  pure ({ name := name.val, type := .ofCode type.val, length := length.val, primary }, index)

def parseSchema (x : Value) : Option (SchemaInfo × List Bytes) := do
  let columnList ← memberOf reader "column_list" x
  let columns ← forElements reader columnList (parseColumn reader)
  let tableIndexNumber ← intOf reader "table_index_number" x
  pure (parseSchemaInfo (columns.map Prod.fst) tableIndexNumber.val,
    (columns.filter Prod.snd).map fun column => column.1.name)

def parseBlock (x : Value) : Option Block := do
  let offsets ← memberOf reader "offset" x
  let offset ← forElements reader offsets fun o => do
    let text ← reader.getString o
    stoull text.val
  let lengths ← memberOf reader "length" x
  let length ← forElements reader lengths reader.getInt
  pure { offset, length := length.map fun l => unsign 8 l.val }

/-- Without blocks the files are scanned, whatever the type. -/
def parseBlockInfo (type : SnippetType) (x : Value) : Option (Bytes × SnippetType × BlockInfo) := do
  let partition ← stringOf reader "partition" x
  if ← reader.hasMember x (ascii "block") then
    let blocks ← memberOf reader "block" x
    let blockList ← forElements reader blocks (parseBlock reader)
    pure (partition.val, type, { sstList := [], blockList })
  else
    let files ← memberOf reader "sst_list" x
    let sstList ← forElements reader files reader.getString
    pure (partition.val, .sstFileScan, { sstList := sstList.map CText.val, blockList := [] })

def parseWalInfo (document : Value) : Option WalInfo := do
  if ← reader.hasMember document (ascii "wal_info") then
    let walInfo ← memberOf reader "wal_info" document
    let deletedKeys ← memberOf reader "deleted_key" walInfo
    let deletedKey ← forElements reader deletedKeys reader.getString
    let insertedKey ← memberOf reader "inserted_key" walInfo
    let insertedValue ← memberOf reader "inserted_value" walInfo
    let inserted ← forIndices reader insertedKey fun i => do
      let key ← (reader.element insertedKey i).bind reader.getString
      let value ← (reader.element insertedValue i).bind reader.getString
      pure (key.val, value.val)
    pure { deletedKey := deletedKey.map CText.val, insertedKey := inserted.map Prod.fst,
           insertedValue := inserted.map Prod.snd }
  else pure { deletedKey := [], insertedKey := [], insertedValue := [] }

def parseResultInfo (x : Value) : Option ResultInfo := do
  let tableAlias ← stringOf reader "table_alias" x
  let columnAlias ← memberOf reader "column_alias" x
  let columns ← forIndices reader columnAlias fun i => do
    let name ← (reader.element columnAlias i).bind reader.getString
    let types ← memberOf reader "return_column_type" x
    let type ← (reader.element types i).bind reader.getInt
    let lengths ← memberOf reader "return_column_length" x
    let length ← (reader.element lengths i).bind reader.getInt
    pure (name.val, type.val, length.val)
  let totalBlockCount ← intOf reader "total_block_count" x
  let csdBlockCount ← intOf reader "csd_block_count" x
  pure { tableAlias := tableAlias.val, columnAlias := columns.map fun c => c.1,
         returnColumnType := columns.map fun c => c.2.1, returnColumnLength := columns.map fun c => c.2.2,
         totalBlockCount := totalBlockCount.val, csdBlockCount := csdBlockCount.val }

/-- `seek_key` is not in the document and stays empty. -/
def parseScan (type : SnippetType) (document : Value) : Option ParsedSnippet := do
  let queryId ← intOf reader "query_id" document
  let workId ← intOf reader "work_id" document
  let (tableName, queryInfo) ← (memberOf reader "query_info" document).bind (parseQueryInfo reader)
  let (schemaInfo, indexColumn) ← (memberOf reader "schema_info" document).bind (parseSchema reader)
  let (partition, type, blockInfo) ← (memberOf reader "block_info" document).bind (parseBlockInfo reader type)
  let walInfo ← parseWalInfo reader document
  let resultInfo ← (memberOf reader "result_info" document).bind (parseResultInfo reader)
  let snippet := { queryId := queryId.val, workId := workId.val, queryInfo, schemaInfo, blockInfo, resultInfo }
  pure { request := { type, partition, seekKey := [], snippet }, tableName, indexColumn, walInfo }

def parseChunk (x : Value) : Option FileChunk := do
  let offset ← longOf reader "offset" x
  let length ← longOf reader "length" x
  pure ⟨unsign 8 offset.val, unsign 8 length.val, unsign_lt offset.val, unsign_lt length.val⟩

def parseTmax (document : Value) : Option TSnippet := do
  let id ← intOf reader "id" document
  let blockSize ← intOf reader "block_size" document
  let bufferSize ← intOf reader "buffer_size" document
  let filterInfo ← stringOf reader "filter_info" document
  let fileName ← stringOf reader "file_name" document
  let chunkList ← memberOf reader "chunk_list" document
  let chunks ← forElements reader chunkList (parseChunk reader)
  pure { id := id.val, blockSize := blockSize.val, bufferSize := bufferSize.val, chunks, filterInfo := filterInfo.val,
         fileName := fileName.val }

def parseSnippet (json : Bytes) : Option Parsed := do
  let document ← reader.parse (json.takeWhile (· ≠ 0))
  let type ← intOf reader "type" document
  match SnippetType.ofCode type.val with
  | .tmaxSnippet => (parseTmax reader document).map .tmax
  | type => (parseScan reader type document).map .scan

end Parsing

section Accepted

/-- The columns stand side by side, at the sums of the lengths as an `int` holds them, and a name is that of the first
column that has it. -/
structure SchemaOk (s : SchemaInfo) : Prop where
  columnLength : s.columnLength.length = s.columnName.length
  columnType : s.columnType.length = s.columnName.length
  columnOffset : s.columnOffset = (startsOf s.columnLength ++ [s.columnLength.sum]).map (wrap 4)
  columnIndexMap : ∀ name, s.columnIndexMap.lookup name = s.columnName.idxOf? name
  pkColumn : s.pkColumn <+: s.columnName

def Paired (operand : Operand) : Prop := operand.types.length = operand.values.length

/-- A connective has no operands. -/
structure FilteringOk (f : Filtering) : Prop where
  lv : Paired f.lv
  rv : Paired f.rv
  connective : f.operator = .and ∨ f.operator = .or → f.lv = ⟨[], []⟩ ∧ f.rv = ⟨[], []⟩

/-- There are blocks or files to be scanned, not both, and files only for a scan of files. -/
structure BlockInfoOk (type : SnippetType) (b : BlockInfo) : Prop where
  source : b.sstList = [] ∨ b.blockList = [] ∧ type = .sstFileScan
  range : ∀ block ∈ b.blockList, (∀ o ∈ block.offset, o < 2 ^ 64) ∧ ∀ l ∈ block.length, l < 2 ^ 64

/-- There are as many types and lengths as columns, and the counts are those of an `int`. -/
structure ResultInfoOk (r : ResultInfo) : Prop where
  types : r.returnColumnType.length = r.columnAlias.length
  lengths : r.returnColumnLength.length = r.columnAlias.length
  counts : Fits 4 r.totalBlockCount ∧ Fits 4 r.csdBlockCount

/-- What every layer may rely on for a snippet that comes from a document. -/
structure Accepted (p : ParsedSnippet) : Prop where
  ids : Fits 4 p.request.snippet.queryId ∧ Fits 4 p.request.snippet.workId
  type : p.request.type ≠ .tmaxSnippet
  seekKey : p.request.seekKey = []
  filtering : ∀ f ∈ p.request.snippet.queryInfo.filtering, FilteringOk f
  projection : ∀ e ∈ p.request.snippet.queryInfo.projection, Paired e.expression
  schemaInfo : SchemaOk p.request.snippet.schemaInfo
  blockInfo : BlockInfoOk p.request.type p.request.snippet.blockInfo
  walInfo : p.walInfo.insertedKey.length = p.walInfo.insertedValue.length
  resultInfo : ResultInfoOk p.request.snippet.resultInfo

theorem lookup_foldl_insertIndex (names : List Bytes) (columnIndexMap : List (Bytes × Nat)) (start : Nat)
    (name : Bytes) :
    ((names.zipIdx start).foldl insertIndex columnIndexMap).lookup name =
      (columnIndexMap.lookup name).or ((names.idxOf? name).map (· + start)) := by
  induction names generalizing columnIndexMap start with
  | nil => simp
  | cons first names ih =>
    have hRest : (names.idxOf? name).map (· + (start + 1)) = ((names.idxOf? name).map (· + 1)).map (· + start) := by
      rw [Option.map_map]
      exact congrArg (Option.map · _) (funext fun i => by simp only [Function.comp_apply]; omega)
    rw [List.zipIdx_cons, List.foldl_cons, ih, insertIndex, hRest, List.idxOf?_cons]
    obtain rfl | hne := eq_or_ne first name
    · cases hLookup : columnIndexMap.lookup first with
      | none => simp [hLookup, List.lookup_append]
      | some i => simp [hLookup]
    · have hOther : ([(first, start)] : List (Bytes × Nat)).lookup name = none := by simp [hne.symm]
      cases hLookup : columnIndexMap.lookup first with
      | none => simp [List.lookup_append, hOther, hne]
      | some i => simp [hne]

theorem parseSchemaInfo_ok (columnList : List ColumnEntry) (tableIndexNumber : Int) :
    SchemaOk (parseSchemaInfo columnList tableIndexNumber) := by
  have hListed := listed_insertColumns columnList
  obtain ⟨hPk, -⟩ := insertColumns_key columnList
  refine
    { columnLength := ?_
      columnType := ?_
      columnOffset := ?_
      columnIndexMap := fun name => ?_
      pkColumn := ⟨_, (congrArg (· ++ _) hPk).trans (List.map_append.symm.trans hListed.columnName.symm)⟩ }
  · change (insertColumns columnList).schemaInfo.columnLength.length =
      (insertColumns columnList).schemaInfo.columnName.length
    rw [hListed.columnLength, hListed.columnName, List.length_map, List.length_map]
  · change (insertColumns columnList).schemaInfo.columnType.length =
      (insertColumns columnList).schemaInfo.columnName.length
    rw [hListed.columnType, hListed.columnName, List.length_map, List.length_map]
  · change (parseSchemaInfo columnList tableIndexNumber).columnOffset =
      (startsOf (insertColumns columnList).schemaInfo.columnLength ++
        [(insertColumns columnList).schemaInfo.columnLength.sum]).map (wrap 4)
    rw [hListed.columnLength, columnOffset_parseSchemaInfo, lengthsOf]
  · have hLookup := lookup_foldl_insertIndex (insertColumns columnList).schemaInfo.columnName [] 0 name
    rw [List.lookup_nil, Option.none_or] at hLookup
    exact hLookup.trans Option.map_id'

variable {Value : Type} {reader : Reader Value} {x : Value}

theorem parseOperand_paired {operand : Operand} (h : parseOperand reader x = some operand) : Paired operand := by
  obtain ⟨types, -, hBody⟩ := Option.bind_eq_some_iff.mp h
  obtain ⟨entries, -, hEnd⟩ := Option.bind_eq_some_iff.mp hBody
  obtain rfl := Option.some_inj.mp hEnd
  rw [Paired, List.length_map, List.length_map]

theorem parseFiltering_ok {f : Filtering} (h : parseFiltering reader x = some f) : FilteringOk f := by
  obtain ⟨operator, -, hBody⟩ := Option.bind_eq_some_iff.mp h
  split at hBody
  · obtain rfl := Option.some_inj.mp hBody
    exact ⟨rfl, rfl, fun _ => ⟨rfl, rfl⟩⟩
  · obtain rfl := Option.some_inj.mp hBody
    exact ⟨rfl, rfl, fun _ => ⟨rfl, rfl⟩⟩
  · rename_i hAnd hOr
    obtain ⟨left, -, hBody⟩ := Option.bind_eq_some_iff.mp hBody
    obtain ⟨right, -, hBody⟩ := Option.bind_eq_some_iff.mp hBody
    obtain ⟨lv, hLv, hBody⟩ := Option.bind_eq_some_iff.mp hBody
    obtain ⟨rv, hRv, hEnd⟩ := Option.bind_eq_some_iff.mp hBody
    obtain rfl := Option.some_inj.mp hEnd
    exact ⟨parseOperand_paired hLv, parseOperand_paired hRv, fun hConnective => (hConnective.elim hAnd hOr).elim⟩

theorem parseProjectioning_paired {e : Projectioning} (h : parseProjectioning reader x = some e) :
    Paired e.expression := by
  obtain ⟨selectType, -, hBody⟩ := Option.bind_eq_some_iff.mp h
  obtain ⟨values, -, hBody⟩ := Option.bind_eq_some_iff.mp hBody
  obtain ⟨valueType, -, hBody⟩ := Option.bind_eq_some_iff.mp hBody
  obtain ⟨entries, -, hEnd⟩ := Option.bind_eq_some_iff.mp hBody
  obtain rfl := Option.some_inj.mp hEnd
  rw [Paired, List.length_map, List.length_map]

theorem parseQueryInfo_ok {tableName : Bytes} {q : QueryInfo} (h : parseQueryInfo reader x = some (tableName, q)) :
    (∀ f ∈ q.filtering, FilteringOk f) ∧ ∀ e ∈ q.projection, Paired e.expression := by
  obtain ⟨names, -, hBody⟩ := Option.bind_eq_some_iff.mp h
  obtain ⟨name, -, hBody⟩ := Option.bind_eq_some_iff.mp hBody
  obtain ⟨filters, -, hBody⟩ := Option.bind_eq_some_iff.mp hBody
  obtain ⟨filtering, hFiltering, hBody⟩ := Option.bind_eq_some_iff.mp hBody
  obtain ⟨projections, -, hBody⟩ := Option.bind_eq_some_iff.mp hBody
  obtain ⟨projection, hProjection, hEnd⟩ := Option.bind_eq_some_iff.mp hBody
  cases Option.some_inj.mp hEnd
  refine ⟨fun f hf => ?_, fun e he => ?_⟩
  · obtain ⟨y, hy⟩ := exists_of_forElements hFiltering f hf
    exact parseFiltering_ok hy
  · obtain ⟨y, hy⟩ := exists_of_forElements hProjection e he
    exact parseProjectioning_paired hy

theorem parseSchema_ok {s : SchemaInfo} {indexColumn : List Bytes} (h : parseSchema reader x = some (s, indexColumn)) :
    SchemaOk s := by
  obtain ⟨columnList, -, hBody⟩ := Option.bind_eq_some_iff.mp h
  obtain ⟨columns, -, hBody⟩ := Option.bind_eq_some_iff.mp hBody
  obtain ⟨tableIndexNumber, -, hEnd⟩ := Option.bind_eq_some_iff.mp hBody
  cases Option.some_inj.mp hEnd
  exact parseSchemaInfo_ok _ _

theorem stoull_lt {s : Bytes} {n : Nat} (h : stoull s = some n) : n < 2 ^ 64 := by
  simp only [stoull] at h
  split at h
  · cases h
  · rename_i hRange
    obtain rfl := Option.some_inj.mp h
    split
    · exact unsign_lt _
    · exact not_le.mp fun hLe => hRange (Or.inr hLe)

theorem parseBlock_range {block : Block} (h : parseBlock reader x = some block) :
    (∀ o ∈ block.offset, o < 2 ^ 64) ∧ ∀ l ∈ block.length, l < 2 ^ 64 := by
  obtain ⟨offsets, -, hBody⟩ := Option.bind_eq_some_iff.mp h
  obtain ⟨offset, hOffset, hBody⟩ := Option.bind_eq_some_iff.mp hBody
  obtain ⟨lengths, -, hBody⟩ := Option.bind_eq_some_iff.mp hBody
  obtain ⟨length, -, hEnd⟩ := Option.bind_eq_some_iff.mp hBody
  obtain rfl := Option.some_inj.mp hEnd
  refine ⟨fun o ho => ?_, fun l hl => ?_⟩
  · obtain ⟨y, hy⟩ := exists_of_forElements hOffset o ho
    obtain ⟨s, -, hs⟩ := Option.bind_eq_some_iff.mp hy
    exact stoull_lt hs
  · obtain ⟨n, -, rfl⟩ := List.mem_map.mp hl
    exact unsign_lt n.val

theorem parseBlockInfo_ok {given type : SnippetType} {partition : Bytes} {b : BlockInfo}
    (h : parseBlockInfo reader given x = some (partition, type, b)) :
    BlockInfoOk type b ∧ (type = given ∨ type = .sstFileScan) := by
  obtain ⟨name, -, hBody⟩ := Option.bind_eq_some_iff.mp h
  obtain ⟨has, -, hBody⟩ := Option.bind_eq_some_iff.mp hBody
  split at hBody
  · obtain ⟨blocks, -, hBody⟩ := Option.bind_eq_some_iff.mp hBody
    obtain ⟨blockList, hBlocks, hEnd⟩ := Option.bind_eq_some_iff.mp hBody
    cases Option.some_inj.mp hEnd
    refine ⟨⟨Or.inl rfl, fun block hBlock => ?_⟩, Or.inl rfl⟩
    obtain ⟨y, hy⟩ := exists_of_forElements hBlocks block hBlock
    exact parseBlock_range hy
  · obtain ⟨files, -, hBody⟩ := Option.bind_eq_some_iff.mp hBody
    obtain ⟨sstList, -, hEnd⟩ := Option.bind_eq_some_iff.mp hBody
    cases Option.some_inj.mp hEnd
    exact ⟨⟨Or.inr ⟨rfl, rfl⟩, by simp⟩, Or.inr rfl⟩

theorem parseWalInfo_ok {w : WalInfo} (h : parseWalInfo reader x = some w) :
    w.insertedKey.length = w.insertedValue.length := by
  obtain ⟨has, -, hBody⟩ := Option.bind_eq_some_iff.mp h
  split at hBody
  · obtain ⟨walInfo, -, hBody⟩ := Option.bind_eq_some_iff.mp hBody
    obtain ⟨deletedKeys, -, hBody⟩ := Option.bind_eq_some_iff.mp hBody
    obtain ⟨deletedKey, -, hBody⟩ := Option.bind_eq_some_iff.mp hBody
    obtain ⟨insertedKey, -, hBody⟩ := Option.bind_eq_some_iff.mp hBody
    obtain ⟨insertedValue, -, hBody⟩ := Option.bind_eq_some_iff.mp hBody
    obtain ⟨inserted, -, hEnd⟩ := Option.bind_eq_some_iff.mp hBody
    obtain rfl := Option.some_inj.mp hEnd
    rw [List.length_map, List.length_map]
  · obtain rfl := Option.some_inj.mp hBody
    rfl

theorem parseResultInfo_ok {r : ResultInfo} (h : parseResultInfo reader x = some r) : ResultInfoOk r := by
  obtain ⟨tableAlias, -, hBody⟩ := Option.bind_eq_some_iff.mp h
  obtain ⟨columnAlias, -, hBody⟩ := Option.bind_eq_some_iff.mp hBody
  obtain ⟨columns, -, hBody⟩ := Option.bind_eq_some_iff.mp hBody
  obtain ⟨total, -, hBody⟩ := Option.bind_eq_some_iff.mp hBody
  obtain ⟨csd, -, hEnd⟩ := Option.bind_eq_some_iff.mp hBody
  obtain rfl := Option.some_inj.mp hEnd
  exact ⟨by rw [List.length_map, List.length_map], by rw [List.length_map, List.length_map], total.fits, csd.fits⟩

theorem parseScan_accepted {type : SnippetType} {p : ParsedSnippet} (hType : type ≠ .tmaxSnippet)
    (h : parseScan reader type x = some p) : Accepted p := by
  obtain ⟨queryId, -, hBody⟩ := Option.bind_eq_some_iff.mp h
  obtain ⟨workId, -, hBody⟩ := Option.bind_eq_some_iff.mp hBody
  obtain ⟨⟨tableName, queryInfo⟩, hQuery, hBody⟩ := Option.bind_eq_some_iff.mp hBody
  obtain ⟨⟨schemaInfo, indexColumn⟩, hSchema, hBody⟩ := Option.bind_eq_some_iff.mp hBody
  obtain ⟨⟨partition, type, blockInfo⟩, hBlocks, hBody⟩ := Option.bind_eq_some_iff.mp hBody
  obtain ⟨walInfo, hWal, hBody⟩ := Option.bind_eq_some_iff.mp hBody
  obtain ⟨resultInfo, hResult, hEnd⟩ := Option.bind_eq_some_iff.mp hBody
  obtain rfl := Option.some_inj.mp hEnd
  obtain ⟨query, -, hQuery⟩ := Option.bind_eq_some_iff.mp hQuery
  obtain ⟨schema, -, hSchema⟩ := Option.bind_eq_some_iff.mp hSchema
  obtain ⟨blocks, -, hBlocks⟩ := Option.bind_eq_some_iff.mp hBlocks
  obtain ⟨result, -, hResult⟩ := Option.bind_eq_some_iff.mp hResult
  obtain ⟨hFiltering, hProjection⟩ := parseQueryInfo_ok hQuery
  obtain ⟨hBlockInfo, hKept⟩ := parseBlockInfo_ok hBlocks
  refine ⟨⟨queryId.fits, workId.fits⟩, ?_, rfl, hFiltering, hProjection, parseSchema_ok hSchema, hBlockInfo,
    parseWalInfo_ok hWal, parseResultInfo_ok hResult⟩
  rintro rfl
  exact hKept.elim (fun hGiven => hType hGiven.symm) nofun

/-- Every text that is taken for a snippet of the scan gives one that is well formed. -/
theorem parseSnippet_accepted {json : Bytes} {p : ParsedSnippet} (h : parseSnippet reader json = some (.scan p)) :
    Accepted p := by
  obtain ⟨document, -, hBody⟩ := Option.bind_eq_some_iff.mp h
  obtain ⟨type, -, hBody⟩ := Option.bind_eq_some_iff.mp hBody
  split at hBody
  · obtain ⟨tSnippet, -, hEnd⟩ := Option.map_eq_some_iff.mp hBody
    cases hEnd
  · rename_i hType
    obtain ⟨q, hScan, hEnd⟩ := Option.map_eq_some_iff.mp hBody
    cases hEnd
    exact parseScan_accepted hType hScan

end Accepted

end Input

end CsdWorker
