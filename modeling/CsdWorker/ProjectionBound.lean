import CsdWorker.ColumnOffset
import CsdWorker.SharedSchema
import CsdWorker.SingleOperand

/-! # The bytes reserved for a projected row

`projectioning` reserves as many bytes for the projected row as the row has that it comes from. The columns are
evaluated, and each is stored behind the one before it; nothing compares the end of a store with the end of the
reserved bytes.
-/

namespace CsdWorker.Projection

open Memory Endian DecimalCodec Input RowLayout

set_option autoImplicit false

/-- What an entry of the select list gives: the bytes of a column, or a value to be encoded. -/
inductive Projected where
  | copied (bytes : Bytes)
  | computed (value : KValue)

/-- The bytes `start`, …, `start + length - 1` of the destination. -/
structure Store where
  start : Nat
  length : Nat
  deriving DecidableEq, Repr

namespace Store

def Inside (store : Store) (bound : Nat) : Prop := store.start + store.length ≤ bound

def Outside (store : Store) (i : Nat) : Prop := i < store.start ∨ store.start + store.length ≤ i

instance (store : Store) (bound : Nat) : Decidable (store.Inside bound) := inferInstanceAs (Decidable (_ ≤ _))

end Store

namespace Projected

def place (u : KValue) (dest : Mem) (offset : Nat) : Projected → Option (Nat × Mem)
  | copied bytes => some (written dest offset bytes)
  | computed value => convertValueToChar u dest value offset

def length : Projected → Nat
  | copied bytes => bytes.length
  | computed value =>
    match value.type_ with
    | .int32 => 4
    | .int64 => 8
    | .decimal => 6 + value.real_.toNat
    | .string => value.string_.length
    | _ => 0

/-- A negative decimal complements the first seven bytes of the destination. -/
def Complements : Projected → Prop
  | copied _ => False
  | computed value => value.type_ = .decimal ∧ value.int64_ < 0

instance : DecidablePred Complements
  | copied _ => inferInstanceAs (Decidable False)
  | computed value => inferInstanceAs (Decidable (value.type_ = .decimal ∧ value.int64_ < 0))

/-- The calls of `memcpy` and the loop that complements, in the order of the source. -/
def stores (offset : Nat) : Projected → List Store
  | copied bytes => [⟨offset, bytes.length⟩]
  | computed value =>
    match value.type_ with
    | .int32 => [⟨offset, 4⟩]
    | .int64 => [⟨offset, 8⟩]
    | .decimal => (if value.int64_ < 0 then [⟨0, 7⟩] else []) ++ [⟨offset, 6⟩, ⟨offset + 6, value.real_.toNat⟩]
    | .string => [⟨offset, value.string_.length⟩]
    | _ => []

section Place
variable {u : KValue} {dest dest' : Mem} {offset count i : Nat} {value : KValue} {column : Projected}

theorem length_encodedValue (hType : value.type_ ≠ .decimal) :
    (encodedValue u value).length = (computed value).length := by
  rw [encodedValue, Projected.length]
  cases hCase : value.type_ with
  | decimal => exact absurd hCase hType
  | int32 | int64 | string => simp
  | _ => rfl

theorem place_computed (hType : value.type_ ≠ .decimal) :
    (computed value).place u dest offset = some (written dest offset (encodedValue u value)) :=
  convertValueToChar_encodable u ⟨fun h => absurd h hType, fun h => absurd h hType⟩ dest

theorem place_length (h : column.place u dest offset = some (count, dest')) : count = column.length := by
  cases column with
  | copied bytes => exact (Prod.mk.inj (Option.some_inj.mp h)).1.symm
  | computed value =>
    by_cases hType : value.type_ = .decimal
    · rw [place, convertValueToChar_decimal_eq u dest offset hType] at h
      rw [Projected.length, hType]
      split at h
      · cases h
      · exact (Prod.mk.inj (Option.some_inj.mp h)).1.symm
    · rw [place_computed hType] at h
      rw [← length_encodedValue (u := u) hType]
      exact (Prod.mk.inj (Option.some_inj.mp h)).1.symm

/-- Every store is behind the columns in front of it or complements them; together they end where the column does. -/
theorem stores_inside_iff {bound : Nat} (hOffset : offset ≤ bound) :
    (∀ store ∈ column.stores offset, store.Inside bound) ↔
      offset + column.length ≤ bound ∧ (column.Complements → 7 ≤ bound) := by
  cases column with
  | copied bytes => simp [stores, Projected.length, Complements, Store.Inside]
  | computed value =>
    rw [stores, Projected.length, Complements]
    cases hType : value.type_ with
    | decimal =>
      by_cases hNegative : value.int64_ < 0
      · simp [hNegative, Store.Inside]
        omega
      · simp [hNegative, Store.Inside]
        omega
    | int32 | int64 | string => simp [Store.Inside]
    | _ => simp [hOffset]

theorem outside_of_stores (hType : value.type_ ≠ .decimal)
    (hi : ∀ store ∈ (computed value).stores offset, store.Outside i) :
    i < offset ∨ offset + (computed value).length ≤ i := by
  rw [stores] at hi
  rw [Projected.length]
  cases hCase : value.type_ with
  | decimal => exact absurd hCase hType
  | int32 | int64 | string =>
    rw [hCase] at hi
    exact hi _ List.mem_cons_self
  | _ => exact Nat.lt_or_ge i offset

/-- A byte outside the stores is left as it is. -/
theorem place_frame (h : column.place u dest offset = some (count, dest'))
    (hi : ∀ store ∈ column.stores offset, store.Outside i) :
    dest' i = dest i := by
  cases column with
  | copied bytes =>
    obtain ⟨-, rfl⟩ := Prod.mk.inj (Option.some_inj.mp h)
    exact write_outside dest offset bytes (hi _ List.mem_cons_self)
  | computed value =>
    by_cases hType : value.type_ = .decimal
    · rw [place, convertValueToChar_decimal_eq u dest offset hType] at h
      rw [stores, hType] at hi
      have hLength := length_decimalChars value
      split at h
      · cases h
      · obtain ⟨-, rfl⟩ := Prod.mk.inj (Option.some_inj.mp h)
        have hSix : i < offset ∨ offset + 6 ≤ i := hi ⟨offset, 6⟩ (by simp)
        have hReal : i < offset + 6 ∨ offset + 6 + value.real_.toNat ≤ i := hi ⟨offset + 6, value.real_.toNat⟩ (by simp)
        rw [write_outside _ _ _ (by omega)]
        split
        · rename_i hNegative
          have hHead : i < 0 ∨ 0 + 7 ≤ i := hi ⟨0, 7⟩ (by simp [hNegative])
          exact if_neg (by omega)
        · rfl
    · rw [place_computed hType] at h
      obtain ⟨-, rfl⟩ := Prod.mk.inj (Option.some_inj.mp h)
      refine write_outside dest offset _ ?_
      rw [length_encodedValue hType]
      exact outside_of_stores hType hi

end Place

end Projected

def totalLength (columns : List Projected) : Nat := (columns.map Projected.length).sum

def placeColumns (u : KValue) : List Projected → Mem → Nat → Option (Nat × Mem)
  | [], dest, projectionRowLength => some (projectionRowLength, dest)
  | column :: rest, dest, projectionRowLength => do
    let (columnLength, dest) ← column.place u dest projectionRowLength
    placeColumns u rest dest (projectionRowLength + columnLength)

def columnStores : List Projected → Nat → List Store
  | [], _ => []
  | column :: rest, offset => column.stores offset ++ columnStores rest (offset + column.length)

theorem columnStores_append (columns others : List Projected) (offset : Nat) :
    columnStores (columns ++ others) offset =
      columnStores columns offset ++ columnStores others (offset + totalLength columns) := by
  induction columns generalizing offset with
  | nil => rfl
  | cons column rest ih =>
    rw [List.cons_append, columnStores, ih, columnStores, List.append_assoc]
    simp [totalLength, Nat.add_assoc]

theorem columnStores_inside_iff {columns : List Projected} {offset bound : Nat} (hOffset : offset ≤ bound) :
    (∀ store ∈ columnStores columns offset, store.Inside bound) ↔
      offset + totalLength columns ≤ bound ∧ ((∃ column ∈ columns, column.Complements) → 7 ≤ bound) := by
  induction columns generalizing offset with
  | nil => simp [columnStores, totalLength, hOffset]
  | cons column rest ih =>
    rw [columnStores, List.forall_mem_append, Projected.stores_inside_iff hOffset]
    have hTotal : totalLength (column :: rest) = column.length + totalLength rest := by simp [totalLength]
    rw [hTotal]
    constructor
    · rintro ⟨⟨hFits, hSeven⟩, hRest⟩
      obtain ⟨hTotal, hSevens⟩ := (ih hFits).mp hRest
      refine ⟨by omega, ?_⟩
      rintro ⟨other, hOther, hComplements⟩
      obtain rfl | hOther := List.mem_cons.mp hOther
      · exact hSeven hComplements
      · exact hSevens ⟨other, hOther, hComplements⟩
    · rintro ⟨hFits, hSevens⟩
      refine ⟨⟨by omega, fun h => hSevens ⟨column, List.mem_cons_self, h⟩⟩, (ih (by omega)).mpr ⟨by omega, ?_⟩⟩
      rintro ⟨other, hOther, hComplements⟩
      exact hSevens ⟨other, List.mem_cons_of_mem _ hOther, hComplements⟩

theorem placeColumns_spec {u : KValue} {columns : List Projected} {dest dest' : Mem} {offset count : Nat}
    (h : placeColumns u columns dest offset = some (count, dest')) :
    count = offset + totalLength columns ∧
      ∀ i, (∀ store ∈ columnStores columns offset, store.Outside i) → dest' i = dest i := by
  induction columns generalizing dest offset with
  | nil =>
    obtain ⟨rfl, rfl⟩ := Prod.mk.inj (Option.some_inj.mp h)
    exact ⟨rfl, fun _ _ => rfl⟩
  | cons column rest ih =>
    obtain ⟨⟨columnLength, t⟩, hPlace, hRest⟩ := Option.bind_eq_some_iff.mp h
    obtain rfl := Projected.place_length hPlace
    obtain ⟨hCount, hFrame⟩ := ih hRest
    refine ⟨by simp [hCount, totalLength, Nat.add_assoc], ?_⟩
    intro i hi
    obtain ⟨hFirst, hOthers⟩ := List.forall_mem_append.mp hi
    rw [hFrame i hOthers, Projected.place_frame hPlace hFirst]

section Evaluate
variable (u : KValue) (row : Mem) (offsets : List Int)

/-- `projection_raw_data` up to the store. -/
def projectedColumn (expression : Operand) : Eval Projected := do
  if expression.types.length = 1 then
    let columnName ← expression.values[0]?
    let columnIndex ← columnIndexAt columnName
    let startOffset ← offsets[columnIndex]?
    let endOffset ← offsets[columnIndex + 1]?
    let column ← slice row startOffset (endOffset - startOffset)
    pure (.copied column)
  else
    let value ← calculOperandValue u row expression offsets none
    pure (.computed value)

def projectedColumns : List Projectioning → Eval (List Projected)
  | [] => pure []
  | projection :: rest =>
    match projection.selectType with
    | .colName => do
      let column ← projectedColumn u row offsets projection.expression
      let columns ← projectedColumns rest
      pure (column :: columns)
    | _ => projectedColumns rest

theorem projectionRawData_eq_place (expression : Operand) (dest : Mem) (offset : Nat) :
    projectionRawData u row expression offsets dest offset =
      projectedColumn u row offsets expression >>= fun column => liftM (column.place u dest offset) := by
  rw [projectionRawData, projectedColumn]
  split
  · simp only [bind_assoc, pure_bind]
    rfl
  · simp only [bind_assoc, pure_bind]
    rfl

/-- What the columns are does not depend on what is stored, so that they may all be evaluated first. -/
theorem projectColumns_run (projections : List Projectioning) (dest : Mem) (offset : Nat) {s s' : SchemaInfo}
    {columns : List Projected} (h : (projectedColumns u row offsets projections).run s = some (columns, s')) :
    (projectColumns u row offsets projections dest offset).run s =
      (placeColumns u columns dest offset).map fun placed => (placed, s') := by
  induction projections generalizing dest offset s columns with
  | nil =>
    obtain ⟨rfl, rfl⟩ := Prod.mk.inj (Option.some_inj.mp h)
    rfl
  | cons projection rest ih =>
    rw [projectColumns]
    rw [projectedColumns] at h
    cases hType : projection.selectType with
    | colName =>
      rw [hType] at h
      obtain ⟨column, t, hColumn, hRest⟩ := run_bind_eq_some h
      obtain ⟨others, t', hOthers, hEnd⟩ := run_bind_eq_some hRest
      obtain ⟨rfl, rfl⟩ := Prod.mk.inj (Option.some_inj.mp hEnd)
      rw [projectionRawData_eq_place, bind_assoc, StateT.run_bind, hColumn, Option.bind_eq_bind, Option.bind_some,
        run_lift_bind, placeColumns]
      cases column.place u dest offset with
      | none => rfl
      | some placed => exact ih placed.2 (offset + placed.1) hOthers
    | _ =>
      rw [hType] at h
      exact ih dest offset h

/-- The first entries of a select list give the first columns. -/
theorem projectedColumns_take {projections : List Projectioning} {s s' : SchemaInfo} {columns : List Projected}
    (h : (projectedColumns u row offsets projections).run s = some (columns, s')) (k : Nat) :
    ∃ first others t, columns = first ++ others ∧
      (projectedColumns u row offsets (projections.take k)).run s = some (first, t) := by
  induction projections generalizing s columns k with
  | nil => exact ⟨columns, [], s', (List.append_nil columns).symm, by rwa [List.take_nil]⟩
  | cons projection rest ih =>
    cases k with
    | zero => exact ⟨[], columns, s, rfl, rfl⟩
    | succ k =>
      rw [List.take_succ_cons, projectedColumns]
      rw [projectedColumns] at h
      cases hType : projection.selectType with
      | colName =>
        rw [hType] at h
        obtain ⟨column, t, hColumn, hRest⟩ := run_bind_eq_some h
        obtain ⟨tail, t', hTail, hEnd⟩ := run_bind_eq_some hRest
        obtain ⟨rfl, rfl⟩ := Prod.mk.inj (Option.some_inj.mp hEnd)
        obtain ⟨first, others, t'', rfl, hFirst⟩ := ih hTail k
        refine ⟨column :: first, others, t'', rfl, ?_⟩
        dsimp only
        rw [StateT.run_bind, hColumn, Option.bind_eq_bind, Option.bind_some, StateT.run_bind, hFirst]
        rfl
      | _ =>
        rw [hType] at h
        exact ih h k

end Evaluate

/-- Every store for the row lies in the bytes that are reserved for it. The first `k` entries are stored also where a
later one cannot be evaluated. -/
def StaysInside (u : KValue) (snippet : Snippet) (row : Bytes) : Prop :=
  ∀ offsets k columns, columnOffsetList row snippet.schemaInfo = some offsets →
    (projectedColumns u (ofBytes row) offsets (snippet.queryInfo.projection.take k)).run' snippet.schemaInfo =
      some columns →
    ∀ store ∈ columnStores columns 0, store.Inside row.length

section Bound
variable {u : KValue} {snippet : Snippet} {row : Bytes} {offsets : List Int} {columns : List Projected}
  (hOffsets : columnOffsetList row snippet.schemaInfo = some offsets)
  (hColumns : (projectedColumns u (ofBytes row) offsets snippet.queryInfo.projection).run' snippet.schemaInfo =
    some columns)
include hColumns

theorem projectColumns_placed {dest dest' : Mem} {count : Nat}
    (h : (projectColumns u (ofBytes row) offsets snippet.queryInfo.projection dest 0).run' snippet.schemaInfo =
      some (count, dest')) :
    placeColumns u columns dest 0 = some (count, dest') := by
  obtain ⟨s, hRun⟩ := run'_eq_some_iff.mp hColumns
  rw [StateT.run'_eq, projectColumns_run u (ofBytes row) offsets _ dest 0 hRun, Option.map_eq_map, Option.map_map] at h
  obtain ⟨placed, hPlaced, hEq⟩ := Option.map_eq_some_iff.mp h
  obtain rfl : placed = (count, dest') := hEq
  exact hPlaced

include hOffsets

theorem staysInside_of_evaluated :
    StaysInside u snippet row ↔ ∀ store ∈ columnStores columns 0, store.Inside row.length := by
  constructor
  · intro h
    refine h offsets snippet.queryInfo.projection.length columns hOffsets ?_
    rwa [List.take_length]
  · intro h offsets' k first hOffsets' hFirst store hStore
    obtain rfl := Option.some_inj.mp (hOffsets.symm.trans hOffsets')
    obtain ⟨s, hRun⟩ := run'_eq_some_iff.mp hColumns
    obtain ⟨first', others, t, rfl, hFirst'⟩ := projectedColumns_take u (ofBytes row) offsets hRun k
    obtain rfl := Option.some_inj.mp (hFirst.symm.trans (run'_eq_some_iff.mpr ⟨t, hFirst'⟩))
    refine h store ?_
    rw [columnStores_append]
    exact List.mem_append_left _ hStore

theorem length_projectRow {projected : Bytes} (h : projectRow u snippet row = some projected) :
    projected.length = totalLength columns := by
  rw [projectRow, hOffsets, Option.bind_eq_bind, Option.bind_some] at h
  obtain ⟨⟨count, dest⟩, hColumns', hRead⟩ := Option.bind_eq_some_iff.mp h
  obtain rfl := Option.some_inj.mp hRead
  rw [length_read, (placeColumns_spec (projectColumns_placed hColumns hColumns')).1, Nat.zero_add]

/-- Inside means that no byte behind the reserved ones is touched. -/
theorem StaysInside.frame (hInside : StaysInside u snippet row) {dest dest' : Mem} {count i : Nat}
    (h : (projectColumns u (ofBytes row) offsets snippet.queryInfo.projection dest 0).run' snippet.schemaInfo =
      some (count, dest'))
    (hi : row.length ≤ i) : dest' i = dest i := by
  refine (placeColumns_spec (projectColumns_placed hColumns h)).2 i fun store hStore => Or.inr ?_
  exact ((staysInside_of_evaluated hOffsets hColumns).mp hInside store hStore).trans hi

end Bound

/-- An entry of the select list that is the name of a column. -/
def selectColumn (name : Bytes) : Projectioning := ⟨.colName, ⟨[.column], [name]⟩⟩

section Distinct
variable {u : KValue} {schemaInfo : SchemaInfo} {columnList : List ColumnEntry} {fields : List Column} {row : Bytes}
  {offsets : List Int}

theorem sum_getD_le {lengths indices : List Nat} (hNodup : indices.Nodup) (hRange : ∀ i ∈ indices, i < lengths.length) :
    (indices.map fun i => lengths.getD i 0).sum ≤ lengths.sum := by
  have hAll : (List.range lengths.length).map (fun i => lengths.getD i 0) = lengths := by
    apply List.ext_getElem
    · simp
    · intro i _ hi
      simp [hi]
  have hSubset : indices ⊆ List.range lengths.length := fun i hi => List.mem_range.mpr (hRange i hi)
  obtain ⟨chosen, hPerm, hSublist⟩ := List.subperm_of_subset hNodup hSubset
  have hSum := (hSublist.map fun i => lengths.getD i 0).sum_le_sum fun _ _ => Nat.zero_le _
  rw [hAll] at hSum
  rwa [← (hPerm.map fun i => lengths.getD i 0).sum_eq]

/-- The name of a column of the row gives as many bytes as the column has. -/
theorem projectedColumn_field (h : SchemaRow schemaInfo fields row)
    (hOffsets : columnOffsetList row schemaInfo = some offsets) {name : Bytes} {i : Nat}
    (hName : schemaInfo.columnIndexMap.lookup name = some i) {field : Column} (hField : fields[i]? = some field) :
    ∃ bytes, (projectedColumn u (ofBytes row) offsets (selectColumn name).expression).run schemaInfo =
      some (.copied bytes, schemaInfo) ∧ bytes.length = field.encoded.length := by
  obtain ⟨before, after, rfl, rfl⟩ := exists_split_of_getElem? hField
  rw [h.columnOffsetList_eq] at hOffsets
  obtain rfl := Option.some_inj.mp hOffsets
  obtain ⟨hStart, hStop⟩ := columnStarts_at before after field
  have hIndex := columnIndexAt_of_some hName
  have hSlice : slice (ofBytes row) (encodedLength before) field.encoded.length =
      some (read (ofBytes row) (encodedLength before) field.encoded.length) := by
    rw [slice, if_pos ⟨by omega, by omega⟩, Int.toNat_natCast, Int.toNat_natCast]
  refine ⟨read (ofBytes row) (encodedLength before) field.encoded.length, ?_, length_read _ _ _⟩
  simp [projectedColumn, selectColumn, StateT.run_bind, hIndex, hStart, hStop, hSlice]

/-- Columns of the row that are only copied need the sum of their lengths, and complement nothing. -/
theorem projectedColumns_fields (h : SchemaRow schemaInfo fields row)
    (hOffsets : columnOffsetList row schemaInfo = some offsets) {names : List Bytes} {index : Bytes → Nat}
    (hNames : ∀ name ∈ names, schemaInfo.columnIndexMap.lookup name = some (index name) ∧ index name < fields.length) :
    ∃ columns, (projectedColumns u (ofBytes row) offsets (names.map selectColumn)).run schemaInfo =
      some (columns, schemaInfo) ∧
      totalLength columns =
        (names.map fun name => (fields.map fun field => field.encoded.length).getD (index name) 0).sum ∧
      ∀ column ∈ columns, ¬ column.Complements := by
  induction names with
  | nil => exact ⟨[], rfl, rfl, by simp⟩
  | cons name names ih =>
    obtain ⟨⟨hName, hRange⟩, hOthers⟩ := List.forall_mem_cons.mp hNames
    obtain ⟨bytes, hColumn, hLength⟩ :=
      projectedColumn_field (u := u) h hOffsets hName (List.getElem?_eq_getElem hRange)
    obtain ⟨columns, hColumns, hTotal, hKeep⟩ := ih hOthers
    refine ⟨.copied bytes :: columns, ?_, ?_, ?_⟩
    · change (projectedColumn u (ofBytes row) offsets (selectColumn name).expression >>= fun column =>
        projectedColumns u (ofBytes row) offsets (names.map selectColumn) >>= fun columns =>
          pure (column :: columns)).run schemaInfo = _
      rw [StateT.run_bind, hColumn, Option.bind_eq_bind, Option.bind_some, StateT.run_bind, hColumns]
      rfl
    · rw [totalLength, List.map_cons, List.sum_cons, ← totalLength, hTotal, List.map_cons, List.sum_cons,
        Projected.length, hLength]
      simp [hRange]
    · exact List.forall_mem_cons.mpr ⟨id, hKeep⟩

/-- Distinct columns of the row fit, whichever they are and in whichever order. -/
theorem staysInside_of_distinct {snippet : Snippet} (hParsed : ParsedSchema columnList snippet.schemaInfo)
    (hRow : SchemaRow snippet.schemaInfo fields row) {names : List Bytes} (hNodup : names.Nodup)
    (hKnown : ∀ name ∈ names, name ∈ snippet.schemaInfo.columnName)
    (hList : snippet.queryInfo.projection = names.map selectColumn) : StaysInside u snippet row := by
  let index : Bytes → Nat := fun name => (snippet.schemaInfo.columnIndexMap.lookup name).getD 0
  have hAt : ∀ name ∈ names, snippet.schemaInfo.columnIndexMap.lookup name = some (index name) ∧
      snippet.schemaInfo.columnName[index name]? = some name := by
    intro name hName
    obtain ⟨i, hi⟩ := List.mem_iff_getElem?.mp (hKnown name hName)
    have hLookup := (hParsed.columnIndexMap name i).mpr hi
    have hIndex : index name = i := by simp [index, hLookup]
    exact ⟨hIndex ▸ hLookup, hIndex ▸ hi⟩
  have hNames :
    ∀ name ∈ names, snippet.schemaInfo.columnIndexMap.lookup name = some (index name) ∧ index name < fields.length := by
    intro name hName
    obtain ⟨hLookup, hColumn⟩ := hAt name hName
    exact ⟨hLookup, hRow.names ▸ (List.getElem?_eq_some_iff.mp hColumn).1⟩
  have hIndices : (names.map index).Nodup := by
    refine List.Nodup.map_on ?_ hNodup
    intro name hName other hOther hEq
    exact Option.some_inj.mp ((hAt name hName).2.symm.trans (hEq ▸ (hAt other hOther).2))
  have hRange : ∀ i ∈ names.map index, i < (fields.map fun field => field.encoded.length).length := by
    intro i hi
    obtain ⟨name, hName, rfl⟩ := List.mem_map.mp hi
    rw [List.length_map]
    exact (hNames name hName).2
  obtain ⟨columns, hRun, hTotal, hKeep⟩ := projectedColumns_fields (u := u) hRow hRow.columnOffsetList_eq hNames
  rw [← hList] at hRun
  rw [staysInside_of_evaluated hRow.columnOffsetList_eq (run'_eq_some_iff.mpr ⟨_, hRun⟩),
    columnStores_inside_iff (Nat.zero_le _), hTotal, Nat.zero_add]
  constructor
  · have hSum := sum_getD_le hIndices hRange
    rwa [List.map_map, ← encodedLength_eq_sum, encodedLength, ← hRow.row] at hSum
  · rintro ⟨column, hColumn, hComplements⟩
    exact absurd hComplements (hKeep column hColumn)

end Distinct

/-- The stores stay inside unless the columns together are longer than the row they come from, or a negative decimal
meets a row of less than seven bytes. Distinct columns of the row always stay inside. -/
theorem staysInside_iff (u : KValue) (snippet : Snippet) (row : Bytes) :
    (∀ offsets, columnOffsetList row snippet.schemaInfo = some offsets →
      (StaysInside u snippet row ↔ ∀ k columns,
        (projectedColumns u (ofBytes row) offsets (snippet.queryInfo.projection.take k)).run' snippet.schemaInfo =
          some columns →
        totalLength columns ≤ row.length ∧ ((∃ column ∈ columns, column.Complements) → 7 ≤ row.length)) ∧
      ∀ columns,
        (projectedColumns u (ofBytes row) offsets snippet.queryInfo.projection).run' snippet.schemaInfo = some columns →
        (StaysInside u snippet row ↔
          totalLength columns ≤ row.length ∧ ((∃ column ∈ columns, column.Complements) → 7 ≤ row.length)) ∧
        (∀ s projected, s ≈ snippet.schemaInfo → (projectRowShared u snippet row).run' s = some projected →
          projected.length = totalLength columns) ∧
        (StaysInside u snippet row → ∀ dest count dest',
          (projectColumns u (ofBytes row) offsets snippet.queryInfo.projection dest 0).run' snippet.schemaInfo =
            some (count, dest') →
          ∀ i, row.length ≤ i → dest' i = dest i)) ∧
    ∀ columnList fields (names : List Bytes), ParsedSchema columnList snippet.schemaInfo →
      SchemaRow snippet.schemaInfo fields row → names.Nodup → (∀ name ∈ names, name ∈ snippet.schemaInfo.columnName) →
      snippet.queryInfo.projection = names.map selectColumn → StaysInside u snippet row := by
  have hInsideIff : ∀ columns : List Projected, (∀ store ∈ columnStores columns 0, store.Inside row.length) ↔
      totalLength columns ≤ row.length ∧ ((∃ column ∈ columns, column.Complements) → 7 ≤ row.length) := by
    intro columns
    rw [columnStores_inside_iff (Nat.zero_le _), Nat.zero_add]
  refine ⟨fun offsets hOffsets => ⟨?_, fun columns hColumns => ⟨?_, ?_, ?_⟩⟩, ?_⟩
  · constructor
    · intro hInside k columns hFirst
      exact (hInsideIff columns).mp (hInside offsets k columns hOffsets hFirst)
    · intro h offsets' k columns hOffsets' hFirst
      obtain rfl := Option.some_inj.mp (hOffsets.symm.trans hOffsets')
      exact (hInsideIff columns).mpr (h k columns hFirst)
  · rw [staysInside_of_evaluated hOffsets hColumns, hInsideIff]
  · intro s projected hSchema hProjected
    rw [projectRowShared_run' u snippet row hSchema] at hProjected
    exact length_projectRow hOffsets hColumns hProjected
  · intro hInside dest count dest' hRun i hi
    exact hInside.frame hOffsets hColumns hRun hi
  · intro columnList fields names hParsed hRow hNodup hKnown hList
    exact staysInside_of_distinct hParsed hRow hNodup hKnown hList

/-- A table with one column of four bytes, and a select list over it. -/
def oneColumnSnippet (names : List Bytes) : Snippet :=
  { queryId := 1, workId := 0,
    queryInfo := { filtering := [], projection := names.map selectColumn },
    schemaInfo := parseSchemaInfo [⟨bytesOf "a", .int32, 4, false⟩] 256,
    blockInfo := { sstList := [], blockList := [] }, resultInfo := { csdBlockCount := 1 } }

theorem column_once_stays_inside :
    StaysInside KValue.zero (oneColumnSnippet [bytesOf "a"]) [1, 0, 0, 0] ∧
      totalLength [.copied [1, 0, 0, 0]] ≤ [1, 0, 0, 0].length := by
  have hParsed : ParsedSchema _ (oneColumnSnippet [bytesOf "a"]).schemaInfo := parsedSchema _ _ (by decide) (by decide)
  have hRow := schemaRow_of_parsed hParsed [⟨.int32, 4, [1, 0, 0, 0]⟩] (by decide) (by decide) (by simp [Column.Stored])
  obtain ⟨hEvaluated, hDistinct⟩ := staysInside_iff KValue.zero (oneColumnSnippet [bytesOf "a"]) [1, 0, 0, 0]
  have hInside := hDistinct _ _ [bytesOf "a"] hParsed hRow (List.nodup_singleton _) (by decide) rfl
  exact ⟨hInside, (((hEvaluated [0, 4] rfl).2 [.copied [1, 0, 0, 0]] rfl).1.mp hInside).1⟩

/-- A column of four bytes that is selected twice: the second copy is written behind the reserved bytes. -/
theorem column_twice_leaves_row :
    ¬ StaysInside KValue.zero (oneColumnSnippet [bytesOf "a", bytesOf "a"]) [1, 0, 0, 0] := by
  intro h
  have hSecond := h [0, 4] 2 [.copied [1, 0, 0, 0], .copied [1, 0, 0, 0]] rfl rfl ⟨4, 4⟩ (by decide)
  exact absurd hSecond (by decide)

end CsdWorker.Projection
