import CsdWorker.DecimalCodec

/-! # Decimal columns as they are stored

The format of `DECIMAL(15,2)`: the thirteen integer digits are split into four and nine, each group is a
binary number of its own, and the two fraction digits take one byte. `get_column_value` reads both groups as
one number.
-/

namespace CsdWorker.DecimalCodec

open Memory Endian

set_option autoImplicit false

/-- The groups of a magnitude in hundredths. -/
def digitGroups (m : Nat) : Bytes :=
  natBe 2 (m / 100 / 10 ^ 9) ++ natBe 4 (m / 100 % 10 ^ 9) ++ [UInt8.ofNat (m % 100)]

/-- The column of the value `n` hundredths. -/
def storedDecimal (n : Int) : Bytes :=
  (if n < 0 then (digitGroups n.natAbs).map (~~~·) else digitGroups n.natAbs).modifyHead (· ^^^ 0x80)

/-- What the evaluator makes of the groups. -/
def groupsAsBinary (m : Nat) : Nat := (m / 100 / 10 ^ 9 * 2 ^ 32 + m / 100 % 10 ^ 9) * 100 + m % 100

theorem not_xor_top_lt {b : UInt8} (h : b.toNat < 128) : (~~~b ^^^ 0x80).toNat < 128 := by
  have hAll : ∀ n : Fin 256, n.val < 128 → (255 - n.val) ^^^ 128 < 128 := by decide +kernel
  rw [UInt8.toNat_xor, UInt8.toNat_not]
  exact hAll ⟨b.toNat, b.toNat_lt⟩ h

theorem not_xor_top_not (b : UInt8) : ~~~(~~~b ^^^ 0x80) ^^^ 0x80 = b := by
  rw [UInt8.not_xor, xor_top_xor_top, UInt8.not_not]

theorem newDecimalValue_negative (b5 b4 b3 b2 b1 b0 r : UInt8) (h5 : b5.toNat < 128) (hr : r.toNat < 128) :
    newDecimalValue (ofBytes [~~~b5 ^^^ 0x80, ~~~b4, ~~~b3, ~~~b2, ~~~b1, ~~~b0, ~~~r]) =
      -(leNat [b0, b1, b2, b3, b4, b5] * 100 + r.toNat) := by
  have hNegative : decide ((ofBytes [~~~b5 ^^^ 0x80, ~~~b4, ~~~b3, ~~~b2, ~~~b1, ~~~b0, ~~~r] 0).toNat < 128) = true :=
    decide_eq_true (not_xor_top_lt h5)
  rw [newDecimalValue_bytes b5 b4 b3 b2 b1 b0 r hNegative (not_xor_top_not b5) ?_ hr]
  · simp
  · change [~~~(~~~b4), ~~~(~~~b3), ~~~(~~~b2), ~~~(~~~b1), ~~~(~~~b0), ~~~(~~~r)] = _
    simp only [UInt8.not_not]

theorem leNat_groups (high low : Nat) (hHigh : high < 256 ^ 2) (hLow : low < 256 ^ 4) :
    leNat (natLe 4 low ++ natLe 2 high) = high * 2 ^ 32 + low := by
  rw [leNat_append, leNat_natLe, leNat_natLe, Nat.mod_eq_of_lt hHigh, Nat.mod_eq_of_lt hLow, length_natLe]
  norm_num
  omega

/-- The seven bytes, with the value that the evaluator gives them. -/
theorem digitGroups_eq (m : Nat) (h : m < 10 ^ 15) :
    ∃ b5 b4 b3 b2 b1 b0 r : UInt8, digitGroups m = [b5, b4, b3, b2, b1, b0, r] ∧ b5.toNat < 128 ∧ r.toNat < 128 ∧
      leNat [b0, b1, b2, b3, b4, b5] * 100 + r.toNat = groupsAsBinary m := by
  obtain ⟨h0, h1, hHigh⟩ : ∃ h0 h1, natLe 2 (m / 100 / 10 ^ 9) = [h0, h1] := ⟨_, _, rfl⟩
  obtain ⟨l0, l1, l2, l3, hLow⟩ : ∃ l0 l1 l2 l3, natLe 4 (m / 100 % 10 ^ 9) = [l0, l1, l2, l3] := ⟨_, _, _, _, rfl⟩
  have hReal : (UInt8.ofNat (m % 100)).toNat = m % 100 := by
    rw [UInt8.toNat_ofNat']
    omega
  have hBinary := leNat_groups (m / 100 / 10 ^ 9) (m / 100 % 10 ^ 9) (by omega) (by omega)
  have hTop := leNat_natLe 2 (m / 100 / 10 ^ 9)
  rw [hHigh, Nat.mod_eq_of_lt (by omega)] at hTop
  simp only [leNat] at hTop
  refine ⟨h1, h0, l3, l2, l1, l0, UInt8.ofNat (m % 100), ?_, by omega, by omega, ?_⟩
  · rw [digitGroups, natBe, natBe, hHigh, hLow]
    rfl
  · rw [hLow, hHigh] at hBinary
    change leNat ([l0, l1, l2, l3] ++ [h0, h1]) * 100 + _ = _
    rw [hBinary, hReal, groupsAsBinary]

theorem newDecimalValue_storedDecimal (n : Int) (h : n.natAbs < 10 ^ 15) :
    newDecimalValue (ofBytes (storedDecimal n)) =
      if n < 0 then -(groupsAsBinary n.natAbs : Int) else groupsAsBinary n.natAbs := by
  obtain ⟨b5, b4, b3, b2, b1, b0, r, hBytes, h5, hr, hValue⟩ := digitGroups_eq n.natAbs h
  rw [storedDecimal, hBytes, ← hValue]
  split
  · exact newDecimalValue_negative b5 b4 b3 b2 b1 b0 r h5 hr
  · exact newDecimalValue_positive b5 b4 b3 b2 b1 b0 r h5 hr

theorem groupsAsBinary_eq_iff (m : Nat) : groupsAsBinary m = m ↔ m < 10 ^ 11 := by
  rw [groupsAsBinary]
  omega

/-- The column at `index` reads as `n` hundredths. -/
def ReadsAs (u : KValue) (row : Mem) (schemaInfo : SchemaInfo) (operand : Operand) (offsets : List Int) (index : Nat)
    (n : Int) : Prop :=
  ∃ result schemaInfo', (getColumnValue u row operand offsets index).run schemaInfo = some (result, schemaInfo') ∧
    result.type_ = .decimal ∧ result.int64_ = n

/-- A stored decimal is read back exactly when it has at most nine integer digits. -/
theorem readsAs_storedDecimal_iff (u : KValue) (row : Mem) (schemaInfo : SchemaInfo) (operand : Operand)
    (offsets : List Int) (index start : Nat) (n : Int)
    (hColumn : DecimalColumnAt schemaInfo operand offsets index start) (hDigits : n.natAbs < 10 ^ 15)
    (hRow : read row start 7 = storedDecimal n) :
    ReadsAs u row schemaInfo operand offsets index n ↔ n.natAbs < 10 ^ 11 := by
  have hGet := getColumnValue_newDecimal u row hColumn
  rw [hRow, newDecimalValue_storedDecimal n hDigits] at hGet
  have hValue :
    (if n < 0 then -(groupsAsBinary n.natAbs : Int) else groupsAsBinary n.natAbs) = n ↔ n.natAbs < 10 ^ 11 := by
    rw [← groupsAsBinary_eq_iff]
    omega
  rw [← hValue]
  constructor
  · rintro ⟨result, schemaInfo', hResult, -, hEq⟩
    rw [hGet, Option.some_inj, Prod.mk.injEq] at hResult
    obtain ⟨rfl, -⟩ := hResult
    exact hEq
  · intro hEq
    exact ⟨_, schemaInfo, hGet, rfl, hEq⟩

theorem stored_price_read :
    read (ofBytes (storedDecimal (-1234567))) 0 7 = storedDecimal (-1234567) ∧
      ReadsAs KValue.zero (ofBytes (storedDecimal (-1234567))) amountSchema amountOperand [0, 7] 0 (-1234567) :=
  ⟨by decide, (readsAs_storedDecimal_iff KValue.zero (ofBytes (storedDecimal (-1234567))) amountSchema amountOperand
    [0, 7] 0 0 (-1234567) amount_column (by decide) (by decide)).mpr (by decide)⟩

/-- One billion is stored as one in the upper group and read as `2 ^ 32`. -/
theorem billion_misread :
    ¬ReadsAs KValue.zero (ofBytes (storedDecimal 100000000000)) amountSchema amountOperand [0, 7] 0 100000000000 := by
  rintro ⟨result, schemaInfo', hResult, -, hEq⟩
  rw [getColumnValue_newDecimal KValue.zero _ amount_column, Option.some_inj, Prod.mk.injEq] at hResult
  obtain ⟨rfl, -⟩ := hResult
  revert hEq
  decide

end CsdWorker.DecimalCodec
