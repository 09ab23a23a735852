import CsdWorker.Scan

/-! # The schema of a snippet

The loops of `parse_snippet` in `input.cc` over the column list. `column_offset` is an `int` and wraps.
-/

namespace CsdWorker.Input

open Memory Endian

set_option autoImplicit false

/-- An element of `column_list`. -/
structure ColumnEntry where
  name : Bytes
  type : MySQLDataType
  length : Int
  primary : Bool
  deriving DecidableEq, Repr

structure ParseState where
  schemaInfo : SchemaInfo
  columnOffset : Int

/-- What both loops push back for a column. -/
def pushColumn (s : ParseState) (column : ColumnEntry) : ParseState :=
  { schemaInfo :=
      { s.schemaInfo with
        columnOffset := s.schemaInfo.columnOffset ++ [s.columnOffset]
        columnName := s.schemaInfo.columnName ++ [column.name]
        columnLength := s.schemaInfo.columnLength ++ [column.length]
        columnType := s.schemaInfo.columnType ++ [column.type] }
    columnOffset := wrap 4 (s.columnOffset + column.length) }

def insertPrimary (s : ParseState) (column : ColumnEntry) : ParseState :=
  if column.primary = true then
    let s := pushColumn s column
    { s with schemaInfo := { s.schemaInfo with pkColumn := s.schemaInfo.pkColumn ++ [column.name] } }
  else s

def insertOther (s : ParseState) (column : ColumnEntry) : ParseState :=
  let s := if column.primary = false then pushColumn s column else s
  if column.type = .varString then { s with schemaInfo := { s.schemaInfo with hasVarChar := true } } else s

/-- `insert` leaves an entry that is there as it is. -/
def insertIndex (columnIndexMap : List (Bytes × Nat)) (entry : Bytes × Nat) : List (Bytes × Nat) :=
  if (columnIndexMap.lookup entry.1).isSome then columnIndexMap else columnIndexMap ++ [entry]

/-- `make_shared` sets the members to zero. -/
def zeroSchema : SchemaInfo :=
  { columnName := [], columnOffset := [], columnLength := [], columnType := [], columnIndexMap := [], pkColumn := [],
    tableIndexNumber := 0, hasVarChar := false }

/-- The two loops over the column list. -/
def insertColumns (columnList : List ColumnEntry) : ParseState :=
  columnList.foldl insertOther (columnList.foldl insertPrimary ⟨zeroSchema, 0⟩)

def parseSchemaInfo (columnList : List ColumnEntry) (tableIndexNumber : Int) : SchemaInfo :=
  let s := insertColumns columnList
  { s.schemaInfo with
    columnOffset := s.schemaInfo.columnOffset ++ [s.columnOffset]
    columnIndexMap := s.schemaInfo.columnName.zipIdx.foldl insertIndex []
    tableIndexNumber := tableIndexNumber }

def primaryColumns (columnList : List ColumnEntry) : List ColumnEntry := columnList.filter ColumnEntry.primary

/-- The primary-key columns in front of the others. -/
def keyFirst (columnList : List ColumnEntry) : List ColumnEntry :=
  primaryColumns columnList ++ columnList.filter fun column => !column.primary

/-- Where the columns start, and behind them where the last one ends. -/
def startsOf (lengths : List Int) : List Int := (List.range lengths.length).map fun i => (lengths.take i).sum

theorem startsOf_concat (lengths : List Int) (length : Int) :
    startsOf (lengths ++ [length]) = startsOf lengths ++ [lengths.sum] := by
  rw [startsOf, List.length_append, List.length_singleton, List.range_succ, List.map_append, List.map_singleton,
    List.take_left, startsOf]
  congr 1
  apply List.map_congr_left
  intro i hi
  rw [List.take_append_of_le_length (List.mem_range.mp hi).le]

/-- The vectors hold `columns`. -/
structure Listed (s : ParseState) (columns : List ColumnEntry) : Prop where
  columnName : s.schemaInfo.columnName = columns.map ColumnEntry.name
  columnLength : s.schemaInfo.columnLength = columns.map ColumnEntry.length
  columnType : s.schemaInfo.columnType = columns.map ColumnEntry.type
  offsets : s.schemaInfo.columnOffset = (startsOf (columns.map ColumnEntry.length)).map (wrap 4)
  next : s.columnOffset = wrap 4 (columns.map ColumnEntry.length).sum

section Loops
variable {s : ParseState} {columns : List ColumnEntry}

theorem Listed.pushColumn (h : Listed s columns) (column : ColumnEntry) :
    Listed (pushColumn s column) (columns ++ [column]) where
  columnName := by simp [Input.pushColumn, h.columnName]
  columnLength := by simp [Input.pushColumn, h.columnLength]
  columnType := by simp [Input.pushColumn, h.columnType]
  offsets := by
    rw [List.map_append, List.map_singleton, startsOf_concat, List.map_append, List.map_singleton, ← h.next,
      ← h.offsets]
    rfl
  next := by
    rw [List.map_append, List.map_singleton, List.sum_append, List.sum_singleton, Input.pushColumn, h.next]
    exact wrap_wrap_add 4 _ _

theorem Listed.foldl_insertPrimary (h : Listed s columns) (columnList : List ColumnEntry) :
    Listed (columnList.foldl insertPrimary s) (columns ++ primaryColumns columnList) := by
  induction columnList generalizing s columns with
  | nil => simpa [primaryColumns] using h
  | cons column columnList ih =>
    rw [List.foldl_cons, insertPrimary, primaryColumns]
    by_cases hPrimary : column.primary = true
    · have hPush := h.pushColumn column
      rw [if_pos hPrimary, List.filter_cons_of_pos hPrimary, List.append_cons]
      exact ih ⟨hPush.columnName, hPush.columnLength, hPush.columnType, hPush.offsets, hPush.next⟩
    · rw [if_neg hPrimary, List.filter_cons_of_neg hPrimary]
      exact ih h

theorem Listed.foldl_insertOther (h : Listed s columns) (columnList : List ColumnEntry) :
    Listed (columnList.foldl insertOther s) (columns ++ columnList.filter fun column => !column.primary) := by
  have hFlag : ∀ {s columns} (column : ColumnEntry), Listed s columns →
      Listed (if column.type = .varString then { s with schemaInfo := { s.schemaInfo with hasVarChar := true } } else s)
        columns := by
    intro s columns column h
    split
    · exact ⟨h.columnName, h.columnLength, h.columnType, h.offsets, h.next⟩
    · exact h
  induction columnList generalizing s columns with
  | nil => simpa using h
  | cons column columnList ih =>
    rw [List.foldl_cons, insertOther]
    cases hPrimary : column.primary with
    | true =>
      rw [List.filter_cons_of_neg (by simp [hPrimary])]
      exact ih (hFlag column h)
    | false =>
      rw [List.filter_cons_of_pos (by simp [hPrimary]), List.append_cons]
      exact ih (hFlag column (h.pushColumn column))

theorem foldl_insertPrimary_key (columnList : List ColumnEntry) (s : ParseState) :
    (columnList.foldl insertPrimary s).schemaInfo.pkColumn =
        s.schemaInfo.pkColumn ++ (primaryColumns columnList).map ColumnEntry.name ∧
      (columnList.foldl insertPrimary s).schemaInfo.hasVarChar = s.schemaInfo.hasVarChar := by
  induction columnList generalizing s with
  | nil => simp [primaryColumns]
  | cons column columnList ih =>
    obtain ⟨hKey, hFlag⟩ := ih (insertPrimary s column)
    rw [List.foldl_cons, hKey, hFlag, insertPrimary, primaryColumns, primaryColumns]
    by_cases hPrimary : column.primary = true
    · rw [if_pos hPrimary, List.filter_cons_of_pos hPrimary, List.map_cons, List.append_cons]
      exact ⟨rfl, rfl⟩
    · rw [if_neg hPrimary, List.filter_cons_of_neg hPrimary]
      exact ⟨rfl, rfl⟩

theorem foldl_insertOther_key (columnList : List ColumnEntry) (s : ParseState) :
    (columnList.foldl insertOther s).schemaInfo.pkColumn = s.schemaInfo.pkColumn ∧
      (columnList.foldl insertOther s).schemaInfo.hasVarChar =
        (s.schemaInfo.hasVarChar || columnList.any fun column => column.type = .varString) := by
  induction columnList generalizing s with
  | nil => simp
  | cons column columnList ih =>
    obtain ⟨hKey, hFlag⟩ := ih (insertOther s column)
    have hPush : ∀ s' : ParseState, s' = (if column.primary = false then pushColumn s column else s) →
        s'.schemaInfo.pkColumn = s.schemaInfo.pkColumn ∧ s'.schemaInfo.hasVarChar = s.schemaInfo.hasVarChar := by
      rintro s' rfl
      split
      · exact ⟨rfl, rfl⟩
      · exact ⟨rfl, rfl⟩
    obtain ⟨hPushKey, hPushFlag⟩ := hPush _ rfl
    rw [List.foldl_cons, hKey, hFlag, List.any_cons, insertOther]
    by_cases hType : column.type = .varString
    · simp [hType, hPushKey]
    · simp [hType, hPushKey, hPushFlag]

end Loops

section Index
variable {names : List Bytes}

theorem foldl_insertIndex {columnIndexMap : List (Bytes × Nat)} {start : Nat}
    (hNodup : (columnIndexMap.map Prod.fst ++ names).Nodup) :
    (names.zipIdx start).foldl insertIndex columnIndexMap = columnIndexMap ++ names.zipIdx start := by
  induction names generalizing columnIndexMap start with
  | nil => simp
  | cons name names ih =>
    have hNew : columnIndexMap.lookup name = none := by
      refine List.lookup_eq_none_iff.mpr fun entry hEntry => bne_iff_ne.mpr ?_
      rintro rfl
      exact (List.nodup_append.mp hNodup).2.2 _ (List.mem_map_of_mem hEntry) _ List.mem_cons_self rfl
    rw [List.zipIdx_cons, List.foldl_cons, insertIndex, if_neg (by simp [hNew]), ih (by simpa using hNodup),
      List.append_assoc, List.singleton_append]

theorem lookup_zipIdx_iff (hNodup : names.Nodup) (name : Bytes) (i : Nat) :
    names.zipIdx.lookup name = some i ↔ names[i]? = some name := by
  have hMem : ∀ {j}, names.zipIdx.lookup name = some j → names[j]? = some name := by
    intro j hLookup
    obtain ⟨front, behind, hSplit, -⟩ := List.lookup_eq_some_iff.mp hLookup
    have hIn : (name, j) ∈ names.zipIdx := by simp [hSplit]
    exact List.mem_zipIdx_iff_getElem?.mp hIn
  constructor
  · exact hMem
  · intro hName
    obtain ⟨hi, -⟩ := List.getElem?_eq_some_iff.mp hName
    have hSome : (names.zipIdx.lookup name).isSome :=
      List.lookup_isSome_iff.mpr ⟨(name, i), List.mem_zipIdx_iff_getElem?.mpr hName, beq_self_eq_true name⟩
    obtain ⟨j, hLookup⟩ := Option.isSome_iff_exists.mp hSome
    rw [hLookup, (List.getElem?_inj hi hNodup).mp (hName.trans (hMem hLookup).symm)]

end Index

/-- The lengths of the columns in the order of the schema. -/
def lengthsOf (columnList : List ColumnEntry) : List Int := (keyFirst columnList).map ColumnEntry.length

/-- No sum of the lengths overflows. -/
def OffsetsFit (columnList : List ColumnEntry) : Prop :=
  ∀ offset ∈ startsOf (lengthsOf columnList) ++ [(lengthsOf columnList).sum], Fits 4 offset

instance (columnList : List ColumnEntry) : Decidable (OffsetsFit columnList) :=
  inferInstanceAs (Decidable (∀ _ ∈ _, _))

/-- What the other layers rely on. -/
structure ParsedSchema (columnList : List ColumnEntry) (schemaInfo : SchemaInfo) : Prop where
  columnName : schemaInfo.columnName = (keyFirst columnList).map ColumnEntry.name
  columnLength : schemaInfo.columnLength = (keyFirst columnList).map ColumnEntry.length
  columnType : schemaInfo.columnType = (keyFirst columnList).map ColumnEntry.type
  columnOffset : schemaInfo.columnOffset = startsOf schemaInfo.columnLength ++ [schemaInfo.columnLength.sum]
  columnIndexMap : ∀ name i, schemaInfo.columnIndexMap.lookup name = some i ↔ schemaInfo.columnName[i]? = some name
  pkColumn : schemaInfo.pkColumn = (primaryColumns columnList).map ColumnEntry.name
  initial : schemaInfo.pkColumn <+: schemaInfo.columnName
  hasVarChar : schemaInfo.hasVarChar = true ↔ ∃ column ∈ columnList, column.type = .varString

theorem keyFirst_perm (columnList : List ColumnEntry) : (keyFirst columnList).Perm columnList :=
  List.filter_append_perm ColumnEntry.primary columnList

theorem listed_insertColumns (columnList : List ColumnEntry) :
    Listed (insertColumns columnList) (keyFirst columnList) := by
  have hStart : Listed ⟨zeroSchema, 0⟩ [] := ⟨rfl, rfl, rfl, rfl, rfl⟩
  exact (hStart.foldl_insertPrimary columnList).foldl_insertOther columnList

theorem insertColumns_key (columnList : List ColumnEntry) :
    (insertColumns columnList).schemaInfo.pkColumn = (primaryColumns columnList).map ColumnEntry.name ∧
      (insertColumns columnList).schemaInfo.hasVarChar = columnList.any fun column => column.type = .varString := by
  obtain ⟨hKey, hFlag⟩ := foldl_insertPrimary_key columnList ⟨zeroSchema, 0⟩
  obtain ⟨hKey', hFlag'⟩ := foldl_insertOther_key columnList (columnList.foldl insertPrimary ⟨zeroSchema, 0⟩)
  exact ⟨hKey'.trans hKey, by rw [insertColumns, hFlag', hFlag]; rfl⟩

/-- The offsets are the sums as an `int` holds them. -/
theorem columnOffset_parseSchemaInfo (columnList : List ColumnEntry) (tableIndexNumber : Int) :
    (parseSchemaInfo columnList tableIndexNumber).columnOffset =
      (startsOf (lengthsOf columnList) ++ [(lengthsOf columnList).sum]).map (wrap 4) := by
  have hListed := listed_insertColumns columnList
  rw [List.map_append, List.map_singleton, lengthsOf, ← hListed.offsets, ← hListed.next]
  rfl

theorem map_wrap_eq_self_iff (offsets : List Int) :
    offsets.map (wrap 4) = offsets ↔ ∀ offset ∈ offsets, Fits 4 offset := by
  constructor
  · intro h offset hOffset
    have hSame : wrap 4 offset = offset := List.map_inj_left.mp (h.trans (List.map_id _).symm) offset hOffset
    rw [← hSame]
    exact fits_wrap 4 offset
  · intro h
    exact (List.map_congr_left fun offset hOffset => wrap_of_fits (h offset hOffset)).trans (List.map_id _)

theorem parsedSchema (columnList : List ColumnEntry) (tableIndexNumber : Int)
    (hNames : (columnList.map ColumnEntry.name).Nodup) (hFit : OffsetsFit columnList) :
    ParsedSchema columnList (parseSchemaInfo columnList tableIndexNumber) := by
  have hListed := listed_insertColumns columnList
  have hName : (parseSchemaInfo columnList tableIndexNumber).columnName = (keyFirst columnList).map ColumnEntry.name :=
    hListed.columnName
  have hLength :
    (parseSchemaInfo columnList tableIndexNumber).columnLength = (keyFirst columnList).map ColumnEntry.length :=
    hListed.columnLength
  have hNodup : ((keyFirst columnList).map ColumnEntry.name).Nodup :=
    ((keyFirst_perm columnList).map ColumnEntry.name).nodup_iff.mpr hNames
  obtain ⟨hPk, hFlag⟩ := insertColumns_key columnList
  refine
    { columnName := hName
      columnLength := hLength
      columnType := hListed.columnType
      columnOffset := ?_
      columnIndexMap := fun name i => ?_
      pkColumn := hPk
      initial := ⟨_, (congrArg (· ++ _) hPk).trans (List.map_append.symm.trans hListed.columnName.symm)⟩
      hasVarChar := ?_ }
  · rw [hLength, columnOffset_parseSchemaInfo]
    exact (map_wrap_eq_self_iff _).mpr hFit
  · rw [hName, parseSchemaInfo, hListed.columnName, foldl_insertIndex (by simpa using hNodup), List.nil_append]
    exact lookup_zipIdx_iff hNodup name i
  · rw [parseSchemaInfo, hFlag]
    simp

/-- An integer of a key: big-endian, the sign bit flipped. -/
def keyForm (width : Nat) (value : Int) : Bytes := (intLe width value).reverse.modifyHead (· ^^^ 0x80)

@[simp] theorem length_keyForm (width : Nat) (value : Int) : (keyForm width value).length = width := by
  simp [keyForm]

theorem reverse_modifyHead_keyForm (width : Nat) (value : Int) :
    ((keyForm width value).modifyHead (· ^^^ 0x80)).reverse = intLe width value := by
  have hTwice : ((· ^^^ 0x80) ∘ (· ^^^ 0x80) : UInt8 → UInt8) = id := by
    funext b
    simp
  rw [keyForm, List.modifyHead_modifyHead, hTwice, List.modifyHead_id, id, List.reverse_reverse]

section Key
variable {schemaInfo : SchemaInfo} {columnList : List ColumnEntry}

def keyBytes (keyed : List (ColumnEntry × Int)) : Bytes := keyed.flatMap fun k => keyForm k.1.length.toNat k.2

def valueBytes (keyed : List (ColumnEntry × Int)) : List Bytes := keyed.map fun k => intLe k.1.length.toNat k.2

theorem ParsedSchema.entry (h : ParsedSchema columnList schemaInfo) {column : ColumnEntry}
    (hIn : column ∈ keyFirst columnList) :
    ∃ i, schemaInfo.columnIndexMap.lookup column.name = some i ∧ schemaInfo.columnLength[i]? = some column.length ∧
      schemaInfo.columnType[i]? = some column.type := by
  obtain ⟨i, hColumn⟩ := List.mem_iff_getElem?.mp hIn
  refine ⟨i, (h.columnIndexMap _ _).mpr ?_, ?_, ?_⟩
  · rw [h.columnName, List.getElem?_map, hColumn, Option.map_some]
  · rw [h.columnLength, List.getElem?_map, hColumn, Option.map_some]
  · rw [h.columnType, List.getElem?_map, hColumn, Option.map_some]

theorem getSlicedKey_keyForm {length : Int} (hLength : 0 < length) (front behind : Bytes) (value : Int) :
    Scan.getSlicedKey (front ++ (keyForm length.toNat value ++ behind)) front.length length =
      some (keyForm length.toNat value) := by
  rw [Scan.getSlicedKey, if_pos, List.drop_left, List.take_left' (length_keyForm _ _)]
  refine ⟨hLength, ?_⟩
  rw [List.length_append, List.length_append, length_keyForm]
  omega

theorem convertKeyToValueFrom_keyBytes (h : ParsedSchema columnList schemaInfo) {keyed : List (ColumnEntry × Int)}
    (hKeyed : ∀ k ∈ keyed, k.1 ∈ keyFirst columnList ∧ k.1.type = .int32 ∧ 0 < k.1.length) (front behind : Bytes) :
    Scan.convertKeyToValueFrom (front ++ (keyBytes keyed ++ behind)) schemaInfo
      (keyed.map fun k => k.1.name) front.length =
      some (valueBytes keyed).flatten := by
  -- what has been converted moves to the front of the key
  induction keyed generalizing front with
  | nil => rfl
  | cons k keyed ih =>
    obtain ⟨⟨hIn, hType, hLength⟩, hKeyed⟩ := List.forall_mem_cons.mp hKeyed
    obtain ⟨i, hIndex, hColumnLength, hColumnType⟩ := h.entry hIn
    have hRest := ih hKeyed (front ++ keyForm k.1.length.toNat k.2)
    rw [List.length_append, length_keyForm, List.append_assoc] at hRest
    rw [List.map_cons, Scan.convertKeyToValueFrom, hIndex, Option.getD_some, hColumnLength, hColumnType, hType,
      keyBytes, List.flatMap_cons, List.append_assoc, ← keyBytes]
    simp only [Option.bind_eq_bind, Option.bind_some, getSlicedKey_keyForm hLength, hRest, Option.pure_def,
      reverse_modifyHead_keyForm]
    rfl

theorem sum_lengths_keyed {keyed : List (ColumnEntry × Int)} (hKeyed : ∀ k ∈ keyed, 0 < k.1.length) :
    (keyed.map fun k => k.1.length).sum = ((valueBytes keyed).flatten.length : Int) := by
  induction keyed with
  | nil => rfl
  | cons k keyed ih =>
    obtain ⟨hFirst, hKeyed⟩ := List.forall_mem_cons.mp hKeyed
    have hLength : (valueBytes (k :: keyed)).flatten.length = k.1.length.toNat + (valueBytes keyed).flatten.length := by
      simp [valueBytes]
    rw [List.map_cons, List.sum_cons, ih hKeyed, hLength]
    omega

theorem startsOf_keyed {keyed : List (ColumnEntry × Int)} (hKeyed : ∀ k ∈ keyed, 0 < k.1.length) :
    startsOf (keyed.map fun k => k.1.length) = (rowStarts 0 (valueBytes keyed)).map Nat.cast := by
  induction keyed using List.reverseRecOn with
  | nil => rfl
  | append_singleton keyed k ih =>
    obtain ⟨hKeyed, -⟩ := List.forall_mem_append.mp hKeyed
    have hValues : valueBytes (keyed ++ [k]) = valueBytes keyed ++ [intLe k.1.length.toNat k.2] := by simp [valueBytes]
    rw [List.map_append, List.map_singleton, startsOf_concat, ih hKeyed, hValues, rowStarts_append, List.map_append,
      sum_lengths_keyed hKeyed, Nat.zero_add]
    rfl

theorem take_startsOf (lengths : List Int) {n : Nat} (hn : n ≤ lengths.length) :
    (startsOf lengths).take n = startsOf (lengths.take n) := by
  rw [startsOf, startsOf, List.map_take.symm, List.take_range, List.length_take]
  apply List.map_congr_left
  intro i hi
  rw [List.take_take, min_eq_left]
  have := List.mem_range.mp hi
  omega

end Key

/-- A key of `INT32` columns is converted to the bytes that the schema has at its first offsets. -/
def KeysConverted (columnList : List ColumnEntry) (schemaInfo : SchemaInfo) : Prop :=
  ∀ (keyed : List (ColumnEntry × Int)) (indexNumber behind : Bytes), keyed.map Prod.fst = primaryColumns columnList →
    (∀ k ∈ keyed, k.1.type = .int32 ∧ 0 < k.1.length) → indexNumber.length = 4 →
    Scan.convertKeyToValue (indexNumber ++ (keyBytes keyed ++ behind)) schemaInfo = some (valueBytes keyed).flatten ∧
      schemaInfo.columnOffset.take keyed.length = (rowStarts 0 (valueBytes keyed)).map Nat.cast

theorem ParsedSchema.keysConverted {columnList : List ColumnEntry} {schemaInfo : SchemaInfo}
    (hParsed : ParsedSchema columnList schemaInfo) : KeysConverted columnList schemaInfo := by
  intro keyed indexNumber behind hColumns hKeyed hFour
  constructor
  · have hIn : ∀ k ∈ keyed, k.1 ∈ keyFirst columnList ∧ k.1.type = .int32 ∧ 0 < k.1.length := by
      intro k hk
      have hPrimary : k.1 ∈ primaryColumns columnList := hColumns ▸ List.mem_map_of_mem hk
      exact ⟨List.mem_append_left _ hPrimary, hKeyed k hk⟩
    have hPk : (keyed.map fun k => k.1.name) = schemaInfo.pkColumn := by
      rw [hParsed.pkColumn, ← hColumns, List.map_map]
      rfl
    have hConvert := convertKeyToValueFrom_keyBytes hParsed hIn indexNumber behind
    rwa [hFour, hPk] at hConvert
  · have hLengths : schemaInfo.columnLength =
        (keyed.map fun k => k.1.length) ++
          (columnList.filter fun column => !column.primary).map ColumnEntry.length := by
      rw [hParsed.columnLength, keyFirst, List.map_append, ← hColumns, List.map_map]
      rfl
    have hCount : keyed.length ≤ (startsOf schemaInfo.columnLength).length := by
      simp [startsOf, hLengths]
    rw [hParsed.columnOffset, List.take_append_of_le_length hCount, take_startsOf _ (by simpa [startsOf] using hCount),
      hLengths, List.take_left' (by simp), startsOf_keyed fun k hk => (hKeyed k hk).2]

/-- The schema lists the key columns first with the sums of the lengths as offsets, and a key is converted to the bytes
that the schema has at its first offsets, if and only if no sum of the lengths overflows. -/
theorem parseSchemaInfo_parsed (columnList : List ColumnEntry) (tableIndexNumber : Int)
    (hNames : (columnList.map ColumnEntry.name).Nodup) :
    ParsedSchema columnList (parseSchemaInfo columnList tableIndexNumber) ∧
        KeysConverted columnList (parseSchemaInfo columnList tableIndexNumber) ↔ OffsetsFit columnList := by
  constructor
  · rintro ⟨hParsed, -⟩
    have hOffsets := hParsed.columnOffset
    rw [columnOffset_parseSchemaInfo, hParsed.columnLength] at hOffsets
    exact (map_wrap_eq_self_iff _).mp hOffsets
  · intro hFit
    have hParsed := parsedSchema columnList tableIndexNumber hNames hFit
    exact ⟨hParsed, hParsed.keysConverted⟩

/-- The key columns of `lineitem`, the second one in front of the first and a price between them. -/
def lineitemColumns : List ColumnEntry :=
  [⟨bytesOf "l_linenumber", .int32, 4, true⟩, ⟨bytesOf "l_extendedprice", .newDecimal, 7, false⟩,
    ⟨bytesOf "l_orderkey", .int32, 4, true⟩]

theorem lineitem_key_converted :
    Scan.convertKeyToValue [0, 0, 1, 0, 0x80, 0, 0, 2, 0x7f, 0xff, 0xff, 0xff] (parseSchemaInfo lineitemColumns 256) =
        some [2, 0, 0, 0, 0xff, 0xff, 0xff, 0xff] ∧
      (parseSchemaInfo lineitemColumns 256).columnOffset = [0, 4, 8, 15] := by
  obtain ⟨hParsed, hKey⟩ := (parseSchemaInfo_parsed lineitemColumns 256 (by decide)).mpr (by decide)
  obtain ⟨hConvert, -⟩ :=
    hKey [(⟨bytesOf "l_linenumber", .int32, 4, true⟩, 2), (⟨bytesOf "l_orderkey", .int32, 4, true⟩, -1)]
    [0, 0, 1, 0] [] (by decide) (by decide) rfl
  refine ⟨?_, ?_⟩
  · exact hConvert
  · rw [hParsed.columnOffset, hParsed.columnLength]
    decide

/-- The second column of the schema starts at the largest `int`, and the row ends in front of its start. -/
theorem wide_columns_wrap :
    (parseSchemaInfo [⟨bytesOf "note", .varString, 2147483647, false⟩, ⟨bytesOf "id", .int32, 4, false⟩]
      256).columnOffset =
      [0, 2147483647, -2147483645] := by decide

end CsdWorker.Input
