import CsdWorker.Lib.Memory

/-! # Table blocks

`data_blk.h` and `table_block_get_row_piece`. A block, a row piece and a column are pointers into the
bytes that were read; the sizes of the headers are those of the structs on the target.
-/

namespace CsdWorker.Tmax

open Memory

set_option autoImplicit false

def uint16At (m : Mem) (i : Nat) : Nat := (m i).toNat + 256 * (m (i + 1)).toNat

/-- The data layer follows the common header (16 bytes), the transaction layer (20 bytes, `itlcnt` first)
and its `itlcnt` entries of 24 bytes. -/
def dblkGetDl (blk : Mem) : Mem := shift blk (36 + 24 * (blk 16).toNat)

def rowcnt (dl : Mem) : Nat := uint16At dl 4

def rowdir (dl : Mem) (rowno : Nat) : Nat := uint16At dl (8 + 2 * rowno)

def headRowPiece : UInt8 := 0x20

def deletedRowPiece : UInt8 := 0x10

def firstpieceRowPiece : UInt8 := 0x08

def lastpieceRowPiece : UInt8 := 0x04

def lastcolContRowPiece : UInt8 := 0x01

def flags (rp : Mem) : UInt8 := rp 0

def colcnt (rp : Mem) : Nat := (rp 2).toNat

def hasFlag (rp : Mem) (flag : UInt8) : Bool := flags rp &&& flag ≠ 0

def rpGetData (rp : Mem) : Mem := shift rp (if hasFlag rp lastpieceRowPiece then 3 else 9)

def tableBlockGetRowPiece (blk : Mem) (rowno : Nat) : Option Mem :=
  let dl := dblkGetDl blk
  if rowdir dl rowno = 0 then none
  else
    let rp := shift blk (rowdir dl rowno)
    if !hasFlag rp headRowPiece || hasFlag rp deletedRowPiece then none else some rp

section Columns
variable (col : Mem)

def rpcolGetLen : Nat :=
  if (col 0).toNat ≤ 250 then (col 0).toNat + 1 else (col 1).toNat * 256 + (col 2).toNat + 3

def rpcolGetSize : Nat := if (col 0).toNat ≤ 250 then (col 0).toNat else (col 1).toNat * 256 + (col 2).toNat

def rpcolGetData : Mem := if (col 0).toNat ≤ 252 then shift col 1 else shift col 3

def columnBytes : Bytes := read col 0 (rpcolGetLen col)

end Columns

def columnAt (rpData : Mem) : Nat → Mem
  | 0 => rpData
  | i + 1 => shift (columnAt rpData i) (rpcolGetLen (columnAt rpData i))

def columnOffset (rpData : Mem) : Nat → Nat
  | 0 => 0
  | i + 1 => columnOffset rpData i + rpcolGetLen (columnAt rpData i)

def pieceLength (rp : Mem) : Nat := 3 + columnOffset (rpGetData rp) (colcnt rp)

theorem rpcolGetLen_pos (col : Mem) : 0 < rpcolGetLen col := by
  unfold rpcolGetLen
  split <;> omega

@[simp] theorem length_columnBytes (col : Mem) : (columnBytes col).length = rpcolGetLen col := length_read _ _ _

theorem columnAt_eq_shift (rpData : Mem) (i : Nat) : columnAt rpData i = shift rpData (columnOffset rpData i) := by
  induction i with
  | zero => exact (shift_zero rpData).symm
  | succ i ih => rw [columnOffset, ← shift_shift, ← ih, columnAt]

theorem columnOffset_mono (rpData : Mem) {i n : Nat} (h : i ≤ n) : columnOffset rpData i ≤ columnOffset rpData n := by
  induction n, h using Nat.le_induction with
  | base => exact le_rfl
  | succ n _ ih => exact ih.trans (Nat.le_add_right _ _)

section Congruence
variable {col col' : Mem}

theorem column_congr (h : ∀ k < rpcolGetLen col, col' k = col k) :
    rpcolGetLen col' = rpcolGetLen col ∧ rpcolGetSize col' = rpcolGetSize col ∧
      ∀ k < rpcolGetSize col, rpcolGetData col' k = rpcolGetData col k := by
  have hFirst := h 0 (rpcolGetLen_pos col)
  rcases Nat.lt_or_ge 250 (col 0).toNat with hLong | hShort
  · have hLen : rpcolGetLen col = (col 1).toNat * 256 + (col 2).toNat + 3 := if_neg (by omega)
    have hSize : rpcolGetSize col = (col 1).toNat * 256 + (col 2).toNat := if_neg (by omega)
    have hSecond := h 1 (by omega)
    have hThird := h 2 (by omega)
    refine ⟨?_, ?_, fun k hk => ?_⟩
    · rw [rpcolGetLen, rpcolGetLen, hFirst, hSecond, hThird]
    · rw [rpcolGetSize, rpcolGetSize, hFirst, hSecond, hThird]
    · rw [rpcolGetData, rpcolGetData, hFirst]
      split
      · exact h (1 + k) (by omega)
      · exact h (3 + k) (by omega)
  · have hLen : rpcolGetLen col = (col 0).toNat + 1 := if_pos hShort
    have hSize : rpcolGetSize col = (col 0).toNat := if_pos hShort
    have hShort' : (col' 0).toNat ≤ 250 := by rw [hFirst]; exact hShort
    refine ⟨?_, ?_, fun k hk => ?_⟩
    · rw [hLen, rpcolGetLen, if_pos hShort', hFirst]
    · rw [hSize, rpcolGetSize, if_pos hShort', hFirst]
    · rw [rpcolGetData, rpcolGetData, hFirst, if_pos (by omega), if_pos (by omega)]
      exact h (1 + k) (by omega)

theorem columnAt_congr {rpData rpData' : Mem} {n : Nat} (h : ∀ k < columnOffset rpData n, rpData' k = rpData k)
    (i : Nat) (hi : i < n) : ∀ k < rpcolGetLen (columnAt rpData i), columnAt rpData' i k = columnAt rpData i k := by
  have hOffset : ∀ i ≤ n, columnOffset rpData' i = columnOffset rpData i := by
    intro i
    induction i with
    | zero => exact fun _ => rfl
    | succ i ih =>
      intro hi
      have hBound := columnOffset_mono rpData hi
      rw [columnOffset] at hBound
      have hColumn : ∀ k < rpcolGetLen (columnAt rpData i), columnAt rpData' i k = columnAt rpData i k := by
        intro k hk
        rw [columnAt_eq_shift, columnAt_eq_shift, ih (by omega)]
        exact h _ (by omega)
      rw [columnOffset, columnOffset, ih (by omega), (column_congr hColumn).1]
  intro k hk
  have hBound := columnOffset_mono rpData (show i + 1 ≤ n from hi)
  rw [columnOffset] at hBound
  rw [columnAt_eq_shift, columnAt_eq_shift, hOffset i hi.le]
  exact h _ (by omega)

end Congruence

end CsdWorker.Tmax
