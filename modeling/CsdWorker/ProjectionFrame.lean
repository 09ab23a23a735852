import CsdWorker.DecimalCodec
import CsdWorker.Lib.Query
import CsdWorker.Projection

/-! # What a projected column writes

`convert_value_to_char` writes its column at the offset it is given. Before that it complements the first
seven bytes of the destination if the value is a negative decimal.
-/

namespace CsdWorker.Projection

open Memory Endian DecimalCodec

set_option autoImplicit false

/-- Only the bytes of the column change. -/
def WritesOnly (u : KValue) (dest : Mem) (value : KValue) (offset : Nat) : Prop :=
  ∃ length dest', convertValueToChar u dest value offset = some (length, dest') ∧
    ∀ i, i < offset ∨ offset + length ≤ i → dest' i = dest i

/-- A decimal is not negative, or its column covers the bytes that are complemented. -/
def KeepsFrame (value : KValue) (offset : Nat) : Prop :=
  value.type_ = .decimal → 0 ≤ value.real_ ∧ (0 ≤ value.int64_ ∨ offset = 0 ∧ 1 ≤ value.real_)

section Decimal
variable {value : KValue}

theorem not_ne_self (b : UInt8) : ~~~b ≠ b := by
  intro h
  have hNat := congrArg UInt8.toNat h
  rw [UInt8.toNat_not] at hNat
  have hLt := b.toNat_lt
  simp at hNat
  omega

/-- Outside the column a complemented byte shows. -/
theorem writesOnly_decimal_iff (u : KValue) (dest : Mem) (offset : Nat) (hType : value.type_ = .decimal) :
    WritesOnly u dest value offset ↔ 0 ≤ value.real_ ∧ (0 ≤ value.int64_ ∨ offset = 0 ∧ 1 ≤ value.real_) := by
  have hLength := length_decimalChars value
  rw [WritesOnly, convertValueToChar_decimal_eq u dest offset hType]
  constructor
  · rintro ⟨length, dest', hWrite, hOutside⟩
    split at hWrite
    · cases hWrite
    · rename_i hReal
      rw [Option.some_inj, Prod.mk.injEq] at hWrite
      obtain ⟨rfl, rfl⟩ := hWrite
      refine ⟨not_lt.mp hReal, ?_⟩
      by_contra hBad
      rw [not_or, not_le] at hBad
      -- the first byte if the column begins behind it, else the one behind a column of six bytes
      obtain ⟨i, hi, hOut⟩ : ∃ i < 7, i < offset ∨ offset + (6 + value.real_.toNat) ≤ i := by
        rcases Nat.eq_zero_or_pos offset with rfl | hPos
        · exact ⟨6, by decide, Or.inr (by omega)⟩
        · exact ⟨0, by decide, Or.inl hPos⟩
      have hByte := hOutside i hOut
      rw [if_pos hBad.1, write_outside _ _ _ (hOut.imp_right fun h => by omega), complementHead, if_pos hi] at hByte
      exact not_ne_self _ hByte
  · rintro ⟨hReal, hFrame⟩
    rw [if_neg (not_lt.mpr hReal)]
    refine ⟨_, _, rfl, fun i hi => ?_⟩
    rw [write_outside _ _ _ (hi.imp_right fun h => by omega)]
    split
    · rename_i hNegative
      obtain ⟨rfl, hOne⟩ := hFrame.resolve_left (not_le.mpr hNegative)
      exact if_neg (by omega)
    · rfl

end Decimal

theorem writesOnly_of_write {u : KValue} {dest : Mem} {value : KValue} {offset : Nat} {bytes : Bytes}
    (h : convertValueToChar u dest value offset = some (bytes.length, write dest offset bytes)) :
    WritesOnly u dest value offset :=
  ⟨_, _, h, fun _ hi => write_outside dest offset bytes hi⟩

@[simp] theorem length_stringChars (unset : Mem) (src : Bytes) : (stringChars unset src).length = src.length :=
  length_read _ _ _

/-- The bytes of a column. -/
def encodedValue (u value : KValue) : Bytes :=
  match value.type_ with
  | .int32 => intLe 4 value.int_
  | .int64 => intLe 8 value.int64_
  | .decimal => decimalChars value
  | .string => stringChars (ofBytes u.string_) value.string_
  | _ => []

/-- The frame is kept, and `real_` does not ask for more bytes than there are. -/
def Encodable (value : KValue) (offset : Nat) : Prop :=
  KeepsFrame value offset ∧ (value.type_ = .decimal → value.real_ ≤ 4)

instance (value : KValue) (offset : Nat) : Decidable (KeepsFrame value offset) :=
  inferInstanceAs (Decidable (_ → _ ∧ (_ ∨ _ ∧ _)))

instance (value : KValue) (offset : Nat) : Decidable (Encodable value offset) :=
  inferInstanceAs (Decidable (_ ∧ (_ → _)))

theorem convertValueToChar_encodable (u : KValue) {value : KValue} {offset : Nat} (h : Encodable value offset)
    (dest : Mem) :
    convertValueToChar u dest value offset =
      some ((encodedValue u value).length, write dest offset (encodedValue u value)) := by
  by_cases hType : value.type_ = .decimal
  · obtain ⟨hReal, hFrame⟩ := h.1 hType
    have hFour := h.2 hType
    have hLength : (decimalChars value).length = 6 + value.real_.toNat := by
      rw [length_decimalChars, min_eq_left (by omega)]
    have hEncoded : encodedValue u value = decimalChars value := by rw [encodedValue, hType]
    have hDest : write (if value.int64_ < 0 then complementHead dest else dest) offset (decimalChars value) =
        write dest offset (decimalChars value) := by
      apply write_congr
      intro i hi
      split
      · rename_i hNegative
        obtain ⟨rfl, hOne⟩ := hFrame.resolve_left (not_le.mpr hNegative)
        exact if_neg (by omega)
      · rfl
    rw [convertValueToChar_decimal_eq u dest offset hType, if_neg (not_lt.mpr hReal), hDest, hEncoded, hLength]
  · rw [convertValueToChar, encodedValue]
    cases hCase : value.type_ with
    | decimal => exact absurd hCase hType
    | int32 => simp
    | int64 => simp
    | string => simp
    | _ => simp

theorem writesOnly_iff_keepsFrame (u : KValue) (dest : Mem) (value : KValue) (offset : Nat) :
    WritesOnly u dest value offset ↔ KeepsFrame value offset := by
  by_cases hType : value.type_ = .decimal
  · rw [writesOnly_decimal_iff u dest offset hType, KeepsFrame]
    exact ⟨fun h _ => h, fun h => h hType⟩
  · have hEncodable : Encodable value offset := ⟨fun h => absurd h hType, fun h => absurd h hType⟩
    exact iff_of_true (writesOnly_of_write (convertValueToChar_encodable u hEncodable dest)) hEncodable.1

section Row
variable (u : KValue) (row : Mem) (offsets : List Int)

/-- A column of the projected row by itself. A value that cannot be encoded at `offset` has none. -/
def columnPiece (expression : Operand) (offset : Nat) : Eval Bytes := do
  if expression.types.length = 1 then
    let columnName ← expression.values[0]?
    let columnIndex ← columnIndexAt columnName
    let startOffset ← offsets[columnIndex]?
    let endOffset ← offsets[columnIndex + 1]?
    slice row startOffset (endOffset - startOffset)
  else
    let value ← calculOperandValue u row expression offsets none
    if Encodable value offset then pure (encodedValue u value) else failure

def columnPieces : List Projectioning → Nat → Eval (List Bytes)
  | [], _ => pure []
  | projection :: rest, offset =>
    match projection.selectType with
    | .colName => do
      let piece ← columnPiece u row offsets projection.expression offset
      let pieces ← columnPieces rest (offset + piece.length)
      pure (piece :: pieces)
    | _ => columnPieces rest offset

variable {u row offsets} {s s' : SchemaInfo}

theorem projectionRawData_piece {expression : Operand} {offset : Nat} {piece : Bytes}
    (h : (columnPiece u row offsets expression offset).run s = some (piece, s')) (dest : Mem) :
    (projectionRawData u row expression offsets dest offset).run s =
      some ((piece.length, write dest offset piece), s') := by
  rw [columnPiece] at h
  rw [projectionRawData]
  by_cases hOne : expression.types.length = 1
  · rw [if_pos hOne] at h ⊢
    have hWrite := congrArg (Option.bind · fun p => some ((p.1.length, write dest offset p.1), p.2)) h
    simpa only [StateT.run_bind, StateT.run_pure, Option.bind_eq_bind, Option.pure_def, Option.bind_assoc,
      Option.bind_some] using hWrite
  · rw [if_neg hOne] at h ⊢
    obtain ⟨value, t, hValue, hPiece⟩ := run_bind_eq_some h
    split at hPiece
    · rename_i hEncodable
      rw [StateT.run_pure, Option.pure_def, Option.some_inj, Prod.mk.injEq] at hPiece
      obtain ⟨rfl, rfl⟩ := hPiece
      rw [StateT.run_bind, hValue]
      change (liftM (convertValueToChar u dest value offset) : Eval _).run t = _
      rw [convertValueToChar_encodable u hEncodable]
      rfl
    · cases hPiece

theorem projectColumns_pieces {projections : List Projectioning} {offset : Nat} {pieces : List Bytes}
    (h : (columnPieces u row offsets projections offset).run s = some (pieces, s')) (dest : Mem) :
    (projectColumns u row offsets projections dest offset).run s =
      some ((offset + pieces.flatten.length, write dest offset pieces.flatten), s') := by
  induction projections generalizing offset pieces dest s with
  | nil =>
    rw [columnPieces, StateT.run_pure, Option.pure_def, Option.some_inj, Prod.mk.injEq] at h
    obtain ⟨rfl, rfl⟩ := h
    rw [projectColumns, List.flatten_nil, write_nil]
    rfl
  | cons projection rest ih =>
    rw [columnPieces] at h
    rw [projectColumns]
    cases hType : projection.selectType with
    | colName =>
      rw [hType] at h
      obtain ⟨piece, t, hPiece, hRest⟩ := run_bind_eq_some h
      obtain ⟨others, t', hOthers, hEnd⟩ := run_bind_eq_some hRest
      rw [StateT.run_pure, Option.pure_def, Option.some_inj, Prod.mk.injEq] at hEnd
      obtain ⟨rfl, rfl⟩ := hEnd
      rw [StateT.run_bind, projectionRawData_piece hPiece]
      change (projectColumns u row offsets rest (write dest offset piece) (offset + piece.length)).run t = _
      rw [ih hOthers, write_append, List.flatten_cons, List.length_append, Nat.add_assoc]
    | _ =>
      rw [hType] at h
      exact ih h dest

end Row

theorem projectRow_pieces {u : KValue} {snippet : Snippet} {row : Bytes} {offsets : List Int} {pieces : List Bytes}
    (hOffsets : columnOffsetList row snippet.schemaInfo = some offsets)
    (hPieces : (columnPieces u (ofBytes row) offsets snippet.queryInfo.projection 0).run' snippet.schemaInfo =
      some pieces) :
    projectRow u snippet row = some pieces.flatten := by
  obtain ⟨⟨pieces, s⟩, hRun, rfl⟩ := Option.map_eq_some_iff.mp hPieces
  have hColumns := projectColumns_pieces hRun zeroed
  have hRun' : (projectColumns u (ofBytes row) offsets snippet.queryInfo.projection zeroed 0).run' snippet.schemaInfo =
      some (pieces.flatten.length, write zeroed 0 pieces.flatten) := by
    rw [StateT.run'_eq, hColumns, Nat.zero_add]
    rfl
  rw [projectRow, hOffsets]
  simp only [Option.bind_eq_bind, Option.bind_some, hRun']
  exact congrArg some (read_write_self zeroed 0 pieces.flatten)

/-- A column leaves the rest of the row as it is exactly when it is not a negative decimal behind another
column or without a fraction; a row of such columns is the concatenation of their bytes. -/
theorem writesOnly_iff_and_projectRow (u : KValue) :
    (∀ (dest : Mem) (value : KValue) (offset : Nat), WritesOnly u dest value offset ↔ KeepsFrame value offset) ∧
      ∀ (snippet : Snippet) (row : Bytes) (offsets : List Int) (pieces : List Bytes),
        columnOffsetList row snippet.schemaInfo = some offsets →
        (columnPieces u (ofBytes row) offsets snippet.queryInfo.projection 0).run' snippet.schemaInfo = some pieces →
        projectRow u snippet row = some pieces.flatten :=
  ⟨writesOnly_iff_keepsFrame u, fun _ _ _ _ => projectRow_pieces⟩

/-- Two integer columns, projected in the other order. -/
def swapSnippet : Snippet :=
  { queryId := 1, workId := 1,
    queryInfo :=
      { filtering := [],
        projection := [⟨.colName, ⟨[.column], [bytesOf "b"]⟩⟩, ⟨.colName, ⟨[.column], [bytesOf "a"]⟩⟩] },
    schemaInfo :=
      { columnName := [bytesOf "a", bytesOf "b"], columnOffset := [0, 4, 8], columnLength := [4, 4],
        columnType := [.int32, .int32], columnIndexMap := [(bytesOf "a", 0), (bytesOf "b", 1)], pkColumn := [],
        tableIndexNumber := 0, hasVarChar := false },
    blockInfo := { sstList := [], blockList := [] }, resultInfo := { csdBlockCount := 1 } }

theorem swap_projected :
    projectRow KValue.zero swapSnippet [1, 0, 0, 0, 2, 0, 0, 0] = some [2, 0, 0, 0, 1, 0, 0, 0] :=
  (writesOnly_iff_and_projectRow KValue.zero).2 swapSnippet [1, 0, 0, 0, 2, 0, 0, 0] [0, 4, 8]
    [[2, 0, 0, 0], [1, 0, 0, 0]] rfl (by decide)

/-- The price -1.00 behind a column of four bytes. -/
theorem negative_price_overwrites :
    ¬ WritesOnly KValue.zero zeroed { KValue.zero with type_ := .decimal, int64_ := -100, real_ := 1 } 4 := by
  rw [writesOnly_iff_keepsFrame]
  decide

end CsdWorker.Projection
