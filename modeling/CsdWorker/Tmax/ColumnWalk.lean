import CsdWorker.Lib.Endian
import CsdWorker.Tmax.BuildData

/-! # The columns of a row piece

`rpcol_get_len` and `rpcol_get_size` of `ex.h` take a column for a long one from a first byte of 251 on,
`rpcol_get_data` from 253 on. The walk over a row piece is not affected, the payload of a column whose first byte is
251 or 252 is.
-/

namespace CsdWorker.Tmax

open Memory Endian

set_option autoImplicit false

/-- A column in row-piece format: the first byte is the size of the payload, or it is above 250 and the size follows
in two bytes. -/
structure RpColumn where
  first : UInt8
  payload : Bytes
  sized : if first.toNat ≤ 250 then payload.length = first.toNat else payload.length < 2 ^ 16

namespace RpColumn
variable (c : RpColumn)

def header : Bytes := if c.first.toNat ≤ 250 then [c.first] else c.first :: natBe 2 c.payload.length

def bytes : Bytes := c.header ++ c.payload

end RpColumn

def rowBytes (columns : List RpColumn) : Bytes := (columns.map RpColumn.bytes).flatten

def BeginsWith (m : Mem) (bytes : Bytes) : Prop := read m 0 bytes.length = bytes

theorem beginsWith_append {m : Mem} {xs ys : Bytes} :
    BeginsWith m (xs ++ ys) ↔ BeginsWith m xs ∧ BeginsWith (shift m xs.length) ys := by
  have hShift : read (shift m xs.length) 0 ys.length = read m (0 + xs.length) ys.length :=
    read_congr fun i _ => by rw [shift_apply, Nat.zero_add, Nat.zero_add]
  rw [BeginsWith, BeginsWith, BeginsWith, List.length_append, read_add, hShift]
  constructor
  · intro h
    exact List.append_inj h (length_read m 0 xs.length)
  · rintro ⟨hFirst, hSecond⟩
    rw [hFirst, hSecond]

theorem beginsWith_cons {m : Mem} {b : UInt8} {bs : Bytes} :
    BeginsWith m (b :: bs) ↔ m 0 = b ∧ BeginsWith (shift m 1) bs := by
  have hFirst : BeginsWith m [b] ↔ m 0 = b := by simp [BeginsWith, Memory.read]
  rw [← hFirst, ← List.singleton_append, beginsWith_append]
  rfl

/-- How far behind the start of a column `rpcol_get_data` is. -/
def rpcolDataOffset (col : Mem) : Nat := if (col 0).toNat ≤ 252 then 1 else 3

theorem rpcolGetData_eq_shift (col : Mem) : rpcolGetData col = shift col (rpcolDataOffset col) := by
  rw [rpcolGetData, rpcolDataOffset]
  split <;> rfl

section Column
variable {c : RpColumn} {col : Mem}

theorem column_first (h : BeginsWith col c.bytes) : col 0 = c.first := by
  have hHeader := (beginsWith_append.mp h).1
  rw [RpColumn.header] at hHeader
  split at hHeader
  · exact (beginsWith_cons.mp hHeader).1
  · exact (beginsWith_cons.mp hHeader).1

theorem column_size (h : BeginsWith col c.bytes) : rpcolGetSize col = c.payload.length := by
  have hFirst := column_first h
  have hHeader := (beginsWith_append.mp h).1
  have hSized := c.sized
  rw [rpcolGetSize, hFirst]
  by_cases hShort : c.first.toNat ≤ 250
  · rw [if_pos hShort] at hSized ⊢
    exact hSized.symm
  · rw [if_neg hShort] at hSized ⊢
    rw [RpColumn.header, if_neg hShort] at hHeader
    obtain ⟨-, hLength⟩ := beginsWith_cons.mp hHeader
    obtain ⟨hHigh, hLow⟩ := beginsWith_cons.mp hLength
    have hHigh' : (col 1).toNat = c.payload.length / 256 % 256 := by
      rw [show col 1 = UInt8.ofNat (c.payload.length / 256 % 256) from hHigh, UInt8.toNat_ofNat', Nat.mod_mod]
    have hLow' : (col 2).toNat = c.payload.length % 256 := by
      rw [show col 2 = UInt8.ofNat (c.payload.length % 256) from (beginsWith_cons.mp hLow).1, UInt8.toNat_ofNat',
        Nat.mod_mod]
    rw [hHigh', hLow']
    omega

theorem header_length (c : RpColumn) : c.header.length = if c.first.toNat ≤ 250 then 1 else 3 := by
  rw [RpColumn.header]
  split <;> rfl

theorem column_len (h : BeginsWith col c.bytes) : rpcolGetLen col = c.bytes.length := by
  have hSize := column_size h
  rw [rpcolGetSize] at hSize
  rw [rpcolGetLen, RpColumn.bytes, List.length_append, header_length, ← hSize, column_first h]
  split <;> omega

theorem column_dataOffset (h : BeginsWith col c.bytes) :
    rpcolDataOffset col = c.header.length ↔ c.first ≠ 251 ∧ c.first ≠ 252 := by
  have hByte : ∀ b : UInt8, c.first ≠ b ↔ c.first.toNat ≠ b.toNat := fun b => UInt8.toNat_inj.symm.not
  rw [rpcolDataOffset, column_first h, header_length, hByte, hByte]
  change _ ↔ c.first.toNat ≠ 251 ∧ c.first.toNat ≠ 252
  split <;> split <;> omega

end Column

/-- `rpcol_get_size` bytes at `rpcol_get_data` are the payload, and the column ends with them. -/
structure FindsPayload (col : Mem) (payload : Bytes) : Prop where
  ends : rpcolDataOffset col + rpcolGetSize col = rpcolGetLen col
  reads : read (rpcolGetData col) 0 (rpcolGetSize col) = payload

theorem findsPayload_iff {c : RpColumn} {col : Mem} (h : BeginsWith col c.bytes) :
    FindsPayload col c.payload ↔ c.first ≠ 251 ∧ c.first ≠ 252 := by
  have hEnds : rpcolDataOffset col + rpcolGetSize col = rpcolGetLen col ↔ rpcolDataOffset col = c.header.length := by
    rw [column_size h, column_len h, RpColumn.bytes, List.length_append]
    omega
  rw [← column_dataOffset h, ← hEnds]
  refine ⟨FindsPayload.ends, fun hOffset => ⟨hOffset, ?_⟩⟩
  rw [rpcolGetData_eq_shift, hEnds.mp hOffset, column_size h]
  exact (beginsWith_append.mp h).2

section Row
variable {columns : List RpColumn} {rpData : Mem}

theorem rowBytes_append (before after : List RpColumn) :
    rowBytes (before ++ after) = rowBytes before ++ rowBytes after := by
  rw [rowBytes, List.map_append, List.flatten_append, rowBytes, rowBytes]

theorem walk_invariant (hRow : BeginsWith rpData (rowBytes columns)) (i : Nat) (hi : i ≤ columns.length) :
    columnOffset rpData i = (rowBytes (columns.take i)).length ∧
      BeginsWith (columnAt rpData i) (rowBytes (columns.drop i)) := by
  -- the pointer stands at column `i`, with the later columns behind it
  induction i with
  | zero => exact ⟨rfl, hRow⟩
  | succ i ih =>
    obtain ⟨hOffset, hRest⟩ := ih (by omega)
    rw [List.drop_eq_getElem_cons hi] at hRest
    obtain ⟨hColumn, hBehind⟩ := beginsWith_append.mp hRest
    have hLen := column_len hColumn
    constructor
    · rw [columnOffset, hOffset, hLen, List.take_succ_eq_append_getElem hi, rowBytes_append, List.length_append]
      congr 1
      exact (congrArg List.length (List.append_nil _)).symm
    · rw [columnAt, hLen]
      exact hBehind

theorem beginsWith_column (hRow : BeginsWith rpData (rowBytes columns)) {i : Nat} {c : RpColumn}
    (hc : columns[i]? = some c) : BeginsWith (columnAt rpData i) c.bytes := by
  obtain ⟨hi, rfl⟩ := List.getElem?_eq_some_iff.mp hc
  have hRest := (walk_invariant hRow i hi.le).2
  rw [List.drop_eq_getElem_cons hi] at hRest
  exact (beginsWith_append.mp hRest).1

end Row

/-- The walk stands at the start of each column in turn and, behind the last one, at the end of the row. All payloads
are found if and only if no column begins with 251 or 252. -/
theorem column_payloads_found_iff (columns : List RpColumn) (rpData : Mem)
    (hRow : BeginsWith rpData (rowBytes columns)) :
    (∀ i ≤ columns.length, columnOffset rpData i = (rowBytes (columns.take i)).length) ∧
      ((∀ i c, columns[i]? = some c → FindsPayload (columnAt rpData i) c.payload) ↔
        ∀ c ∈ columns, c.first ≠ 251 ∧ c.first ≠ 252) := by
  refine ⟨fun i hi => (walk_invariant hRow i hi).1, ?_, ?_⟩
  · intro hFinds c hc
    obtain ⟨i, hi⟩ := List.mem_iff_getElem?.mp hc
    exact (findsPayload_iff (beginsWith_column hRow hi)).mp (hFinds i c hi)
  · intro hFirst i c hc
    exact (findsPayload_iff (beginsWith_column hRow hc)).mpr (hFirst c (List.mem_of_getElem? hc))

def shortColumn : RpColumn := ⟨2, [7, 8], rfl⟩

def longColumn (first : UInt8) (h : 250 < first.toNat) : RpColumn :=
  ⟨first, [9], by rw [if_neg (not_le.mpr h)]; decide⟩

def shortAndLong : List RpColumn := [shortColumn, longColumn 254 (by decide)]

theorem short_and_long_found :
    FindsPayload (columnAt (ofBytes (rowBytes shortAndLong)) 0) [7, 8] ∧
      FindsPayload (columnAt (ofBytes (rowBytes shortAndLong)) 1) [9] := by
  have hFound := (column_payloads_found_iff shortAndLong _ (read_ofBytes _)).2.mpr (by decide)
  exact ⟨hFound 0 shortColumn rfl, hFound 1 (longColumn 254 (by decide)) rfl⟩

/-- A column with the first byte 251 in a row of its own: its payload, the byte 9, is taken from the length bytes on. -/
theorem long_column_misread :
    BeginsWith (ofBytes (rowBytes [longColumn 251 (by decide)])) (rowBytes [longColumn 251 (by decide)]) ∧
      read (rpcolGetData (ofBytes (rowBytes [longColumn 251 (by decide)]))) 0
        (rpcolGetSize (ofBytes (rowBytes [longColumn 251 (by decide)]))) = [0] ∧
      ¬ FindsPayload (columnAt (ofBytes (rowBytes [longColumn 251 (by decide)])) 0)
        (longColumn 251 (by decide)).payload := by
  refine ⟨read_ofBytes _, by decide, fun h => ?_⟩
  have hReads := h.reads
  revert hReads
  decide

end CsdWorker.Tmax
