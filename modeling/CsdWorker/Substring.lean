import CsdWorker.VarString

/-! # SUBSTRING

`calcul_substring_operation` copies bytes from the start of the column on. It looks neither at the type of the column,
so a stored length is taken for text, nor at the end of the column.
-/

namespace CsdWorker.RowLayout

open Memory Endian

set_option autoImplicit false

/-- How many bytes of the column stand in front of its payload. -/
def Column.width (c : Column) : Nat := if c.type = .varString then lengthWidth c.length else 0

theorem encoded_eq (c : Column) : c.encoded = natLe c.width c.payload.length ++ c.payload := by
  rw [Column.encoded, Column.width]
  split
  · rfl
  · rfl

/-- The operand `["SUBSTRING", column, p, n]`. -/
structure NamesSubstring (schemaInfo : SchemaInfo) (operand : Operand) (columnIndex p n : Nat) : Prop where
  column : NamesColumn schemaInfo operand 1 columnIndex
  position : ∃ text, operand.values[2]? = some text ∧ stoi text = some (p : Int)
  length : ∃ text, operand.values[3]? = some text ∧ stoi text = some (n : Int)

theorem calculSubstringOperation_run (u : KValue) (m : Mem) {schemaInfo : SchemaInfo} {operand : Operand}
    {offsets : List Int} {columnIndex p n start : Nat} (h : NamesSubstring schemaInfo operand columnIndex p n)
    (hp : 1 ≤ p) (hStart : offsets[columnIndex]? = some (start : Int)) :
    (calculSubstringOperation u m operand offsets).run schemaInfo =
      some ({ u.fresh with string_ := read m (start + (p - 1)) n, type_ := .string }, schemaInfo) := by
  obtain ⟨name, hName, hLookup⟩ := h.column.lookup
  obtain ⟨fromText, hFrom, hFromPos⟩ := h.position
  obtain ⟨toText, hTo, hToPos⟩ := h.length
  have hSlice : slice m ((start : Int) + ((p : Int) - 1)) (n : Int) = some (read m (start + (p - 1)) n) := by
    rw [slice, if_pos (by omega), Int.toNat_natCast]
    congr 2
    omega
  simp only [calculSubstringOperation, hName, columnIndexAt_of_some hLookup, StateT.run_bind, StateT.run_monadLift,
    monadLift_self, Option.pure_def, Option.bind_eq_bind, Option.bind_some, StateT.run_pure, hStart, hFrom, hFromPos,
    hTo, hToPos, hSlice]

/-- The payload stands at `start`, and the result is its part from position `p` on, at most `n` bytes, whatever lies
around the payload. -/
def ReturnsSubstring (u : KValue) (schemaInfo : SchemaInfo) (row : Bytes) (operand : Operand) (start : Nat)
    (payload : Bytes) (p n : Nat) : Prop :=
  read (ofBytes row) start payload.length = payload ∧ ∃ offsets, columnOffsetList row schemaInfo = some offsets ∧
    ∀ m : Mem, read m start payload.length = payload →
      ∃ v, (calculSubstringOperation u m operand offsets).run' schemaInfo = some v ∧ v.type_ = .string ∧
        v.string_ = (payload.drop (p - 1)).take n

/-- The part lies inside the payload, and the payload reads the same as many bytes earlier as stand in front of it. -/
def SubstringKept (c : Column) (p n : Nat) : Prop :=
  n = 0 ∨ (p - 1 + n ≤ c.payload.length ∧ c.width < p ∧
    (c.payload.drop (p - 1 - c.width)).take n = (c.payload.drop (p - 1)).take n)

theorem LaidOut.read_payload {m : Mem} {schemaInfo : SchemaInfo} {before after : List Column} {c : Column} {row : Bytes}
    (h : LaidOut schemaInfo (before ++ c :: after) row) (hRow : read m 0 row.length = row) :
    read m (encodedLength before + c.width) c.payload.length = c.payload := by
  have hLength : c.encoded.length = c.width + c.payload.length := by
    rw [encoded_eq, List.length_append, length_natLe]
  have hRead := read_of_prefix (h.read_column hRow) c.width c.payload.length hLength.ge
  rw [hRead, encoded_eq, List.drop_left' (length_natLe _ _), List.take_length]

section Payload
variable {start width p n : Nat} {payload : Bytes}

theorem read_substring {m : Mem} (h : read m (start + width) payload.length = payload) (hWidth : width < p)
    (hEnd : p - 1 + n ≤ payload.length) : read m (start + (p - 1)) n = (payload.drop (p - 1 - width)).take n := by
  have hRead := read_of_prefix h (p - 1 - width) n (by omega)
  rwa [show start + width + (p - 1 - width) = start + (p - 1) by omega] at hRead

theorem width_lt_of_read (hp : 1 ≤ p) (hn : n ≠ 0) (h : ∀ m : Mem, read m (start + width) payload.length = payload →
    read m (start + (p - 1)) n = (payload.drop (p - 1)).take n) : width < p := by
  by_contra hLess
  -- the first byte that is copied would stand in front of the payload, and so it could be any
  have hFirst : ∀ b : UInt8, ((payload.drop (p - 1)).take n)[0]? = some b := by
    intro b
    have hRead := h (write (fun _ => b) (start + width) payload) (read_write_self _ _ _)
    rw [← hRead, getElem?_read, if_pos (Nat.pos_of_ne_zero hn), write_outside _ _ _ (Or.inl (by omega))]
  have hSame := (hFirst 0).symm.trans (hFirst 1)
  exact absurd hSame (by decide)

/-- What is copied is the part of the payload in every memory that has the payload in its place. -/
theorem forall_read_eq_iff (hp : 1 ≤ p) :
    (∀ m : Mem, read m (start + width) payload.length = payload →
        read m (start + (p - 1)) n = (payload.drop (p - 1)).take n) ↔
      n = 0 ∨ (p - 1 + n ≤ payload.length ∧ width < p ∧
        (payload.drop (p - 1 - width)).take n = (payload.drop (p - 1)).take n) := by
  constructor
  · intro h
    by_cases hn : n = 0
    · exact Or.inl hn
    · have hWidth := width_lt_of_read hp hn h
      have hSelf := read_write_self zeroed (start + width) payload
      have hPart := h _ hSelf
      have hEnd : p - 1 + n ≤ payload.length := by
        have hLength := congrArg List.length hPart
        rw [length_read, List.length_take, List.length_drop] at hLength
        omega
      exact Or.inr ⟨hEnd, hWidth, (read_substring hSelf hWidth hEnd).symm.trans hPart⟩
  · rintro (rfl | ⟨hEnd, hWidth, hSame⟩) m hPayload
    · rw [read_zero, List.take_zero]
    · rw [read_substring hPayload hWidth hEnd, hSame]

end Payload

section Offsets
variable {schemaInfo : SchemaInfo} {before after : List Column} {c : Column} {row : Bytes}

theorem sum_lengths_of_fixed {columns : List Column} (hStored : ∀ c ∈ columns, c.Stored)
    (hFixed : ∀ c ∈ columns, c.type ≠ .varString) : (columns.map Column.length).sum = encodedLength columns := by
  induction columns using List.reverseRecOn with
  | nil => rfl
  | append_singleton columns c ih =>
    rw [List.forall_mem_append, List.forall_mem_singleton] at hStored hFixed
    have hLength := hStored.2
    rw [Column.Stored, if_neg hFixed.2] at hLength
    rw [List.map_append, List.sum_append, ih hStored.1 hFixed.1, List.map_singleton, List.sum_singleton,
      encodedLength_concat, Column.encoded, if_neg hFixed.2, ← hLength, Nat.cast_add]

/-- The flag of the schema is set where a column has a variable length. -/
def FlagSet (schemaInfo : SchemaInfo) (columns : List Column) : Prop :=
  (∃ c ∈ columns, c.type = .varString) → schemaInfo.hasVarChar = true

theorem columnOffsetList_laidOut (hLayout : LaidOut schemaInfo (before ++ c :: after) row)
    (hFlag : FlagSet schemaInfo (before ++ c :: after)) :
    ∃ offsets, columnOffsetList row schemaInfo = some offsets ∧
      offsets[before.length]? = some (encodedLength before : Int) := by
  rw [columnOffsetList]
  split
  · have hRow := read_ofBytes row
    rw [calculColumnOffset_laidOut hLayout hRow]
    have hLength : encodedLength (before ++ c :: after) = row.length := by rw [hLayout.row, encodedLength]
    have hStart := (columnStarts_at before after c).1
    rw [hLength] at hStart
    exact ⟨_, rfl, hStart⟩
  · rename_i hNone
    have hFixed : ∀ b ∈ before, b.type ≠ .varString := by
      intro b hb hType
      exact hNone (hFlag ⟨b, List.mem_append_left _ hb, hType⟩)
    have hStored : ∀ b ∈ before, b.Stored := fun b hb => hLayout.stored b (List.mem_append_left _ hb)
    refine ⟨_, rfl, ?_⟩
    rw [hLayout.entry.2.2, sum_lengths_of_fixed hStored hFixed]

end Offsets

/-- SUBSTRING of a column is that of its payload exactly when nothing is asked for, or the part lies inside the payload
and is found as many bytes earlier as stand in front of the payload. -/
theorem returnsSubstring_iff_substringKept (u : KValue) (schemaInfo : SchemaInfo) (columns : List Column) (row : Bytes)
    (operand : Operand) (columnIndex p n : Nat) (c : Column) (hLayout : LaidOut schemaInfo columns row)
    (hFlag : FlagSet schemaInfo columns) (hOperand : NamesSubstring schemaInfo operand columnIndex p n) (hp : 1 ≤ p)
    (hColumn : columns[columnIndex]? = some c) :
    ReturnsSubstring u schemaInfo row operand (encodedLength (columns.take columnIndex) + c.width) c.payload p n ↔
      SubstringKept c p n := by
  obtain ⟨before, after, rfl, rfl⟩ := exists_split_of_getElem? hColumn
  obtain ⟨offsets, hOffsets, hStart⟩ := columnOffsetList_laidOut hLayout hFlag
  have hRun : ∀ m, (calculSubstringOperation u m operand offsets).run' schemaInfo =
      some { u.fresh with string_ := read m (encodedLength before + (p - 1)) n, type_ := .string } := by
    intro m
    rw [StateT.run'_eq, calculSubstringOperation_run u m hOperand hp hStart]
    rfl
  rw [List.take_left, SubstringKept, ← forall_read_eq_iff hp]
  constructor
  · rintro ⟨-, offsets', hOffsets', hReturns⟩ m hPayload
    obtain rfl := Option.some_inj.mp (hOffsets.symm.trans hOffsets')
    obtain ⟨v, hValue, -, hString⟩ := hReturns m hPayload
    obtain rfl := Option.some_inj.mp ((hRun m).symm.trans hValue)
    exact hString
  · intro hRead
    refine ⟨hLayout.read_payload (read_ofBytes row), offsets, hOffsets, ?_⟩
    intro m hPayload
    exact ⟨_, hRun m, rfl, hRead m hPayload⟩

/-- A phone number of fixed length behind the key. -/
def phoneColumn : Column := ⟨.string, 6, bytesOf "13-702"⟩

def customerSchema : SchemaInfo :=
  { columnName := [bytesOf "key", bytesOf "phone"], columnOffset := [0, 4, 10], columnLength := [4, 6],
    columnType := [.int32, .string], columnIndexMap := [(bytesOf "key", 0), (bytesOf "phone", 1)], pkColumn := [],
    tableIndexNumber := 0, hasVarChar := false }

def customerRow : Bytes := [7, 0, 0, 0] ++ bytesOf "13-702"

def substringOperand (column position length : String) : Operand :=
  ⟨[.string, .column, .int32, .int32], [bytesOf "SUBSTRING", bytesOf column, bytesOf position, bytesOf length]⟩

theorem customer_laidOut : LaidOut customerSchema [keyColumn, phoneColumn] customerRow where
  names := rfl
  types := rfl
  lengths := rfl
  offsets i hi := by
    match i, hi with
    | 0, _ => rfl
    | 1, _ => rfl
  stored := List.forall_mem_cons.mpr ⟨rfl, List.forall_mem_singleton.mpr rfl⟩
  row := rfl

theorem phone_country_code :
    ReturnsSubstring KValue.zero customerSchema customerRow (substringOperand "phone" "1" "2") 4
      (bytesOf "13-702") 1 2 :=
  (returnsSubstring_iff_substringKept KValue.zero customerSchema [keyColumn, phoneColumn] customerRow
    (substringOperand "phone" "1" "2") 1 1 2 phoneColumn customer_laidOut (by unfold FlagSet; decide)
    ⟨⟨bytesOf "phone", rfl, by decide⟩, ⟨_, rfl, by decide⟩, ⟨_, rfl, by decide⟩⟩ (by decide) rfl).mpr
    (Or.inr (by decide))

/-- The first two bytes of the comment " AB" begin with its stored length 3. -/
theorem comment_begins_with_length :
    ¬ReturnsSubstring KValue.zero (commentSchema 44) [7, 0, 0, 0, 3, 32, 65, 66] (substringOperand "comment" "1" "2") 5
        [32, 65, 66] 1 2 ∧
      ((calculSubstringOperation KValue.zero (ofBytes [7, 0, 0, 0, 3, 32, 65, 66]) (substringOperand "comment" "1" "2")
        [0, 4, 8]).run' (commentSchema 44)).map KValue.string_ = some [3, 32] := by
  have hString : ((calculSubstringOperation KValue.zero (ofBytes [7, 0, 0, 0, 3, 32, 65, 66])
      (substringOperand "comment" "1" "2") [0, 4, 8]).run' (commentSchema 44)).map KValue.string_ = some [3, 32] := by
    decide
  refine ⟨?_, hString⟩
  rintro ⟨-, offsets, hOffsets, hReturns⟩
  obtain rfl : [0, 4, 8] = offsets := Option.some_inj.mp ((show _ = some _ by decide).symm.trans hOffsets)
  obtain ⟨v, hValue, -, hPart⟩ := hReturns (ofBytes [7, 0, 0, 0, 3, 32, 65, 66]) (by decide)
  rw [hValue, Option.map_some, hPart] at hString
  exact absurd hString (by decide)

end CsdWorker.RowLayout
