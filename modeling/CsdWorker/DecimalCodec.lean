import CsdWorker.RawDataHandler

/-! # The decimal column format, written by the projection and read by the evaluator

The writer complements the first seven bytes of the destination where the reader expects the
column itself to be complemented, so the two agree on the magnitude only.
-/

namespace CsdWorker.DecimalCodec

open Memory Endian

set_option autoImplicit false

/-- The seven bytes of a magnitude: six big-endian bytes with the top bit flipped, one for the
hundredths. -/
def magnitudeBytes (m : Nat) : Bytes :=
  ((natLe 6 (m / 100)).reverse.modifyHead (· ^^^ 0x80)) ++ [UInt8.ofNat (m % 100)]

theorem take_natLe (a b n : Nat) : (natLe (a + b) n).take a = natLe a n := by
  induction a generalizing n with
  | zero => simp [natLe]
  | succ a ih => rw [Nat.add_right_comm, natLe, List.take_succ_cons, ih, natLe]

theorem xor_top_toNat {b : UInt8} (h : b.toNat < 128) : (b ^^^ 0x80).toNat = b.toNat + 128 := by
  have hAll : ∀ n : Fin 256, n.val < 128 → n.val ^^^ 128 = n.val + 128 := by decide +kernel
  rw [UInt8.toNat_xor]
  exact hAll ⟨b.toNat, b.toNat_lt⟩ h

theorem xor_top_xor_top (b : UInt8) : b ^^^ 0x80 ^^^ 0x80 = b := by
  rw [UInt8.xor_assoc, UInt8.xor_self, UInt8.xor_zero]

/-- The value of the bytes that the sign bit leaves. -/
theorem newDecimalValue_bytes {m : Mem} {negative : Bool} (b5 b4 b3 b2 b1 b0 r : UInt8)
    (hSign : decide ((m 0).toNat < 128) = negative) (hTop : (if negative then ~~~m 0 else m 0) ^^^ 0x80 = b5)
    (hRest : ([m 1, m 2, m 3, m 4, m 5, m 6].map fun b => if negative then ~~~b else b) = [b4, b3, b2, b1, b0, r])
    (hr : r.toNat < 128) :
    newDecimalValue m =
      (if negative then -1 else 1) * ((leNat [b0, b1, b2, b3, b4, b5] * 100 + r.toNat : Nat) : Int) := by
  have hSix : leNat [b0, b1, b2, b3, b4, b5] < 2 ^ 48 := by
    have hLt := leNat_lt [b0, b1, b2, b3, b4, b5]
    simp only [List.length_cons, List.length_nil] at hLt
    omega
  have hInteger : leInt [b0, b1, b2, b3, b4, b5, 0, 0] = leNat [b0, b1, b2, b3, b4, b5] := by
    have hUpper : leNat [0, 0] = 0 := rfl
    rw [leInt, show [b0, b1, b2, b3, b4, b5, 0, 0] = [b0, b1, b2, b3, b4, b5] ++ [0, 0] from rfl,
      leNat_append, hUpper, Nat.mul_zero, Nat.add_zero]
    simp only [List.length_cons, List.length_nil, List.length_append]
    exact wrap_eq_self (by omega) (by omega)
  have hReal : leInt [r] = r.toNat := wrap_eq_self (by simp [leNat]; omega) (by simp [leNat]; omega)
  have hWrap : wrap 8 ((leNat [b0, b1, b2, b3, b4, b5] : Int) * 100 + r.toNat) =
      (leNat [b0, b1, b2, b3, b4, b5] * 100 + r.toNat : Nat) := by
    rw [wrap_eq_self (by omega) (by omega)]
    push_cast
    rfl
  simp only [List.map_cons, List.map_nil, List.cons.injEq, and_true] at hRest
  obtain ⟨h4, h3, h2, h1, h0, h⟩ := hRest
  cases negative with
  | false =>
    simp only [Bool.false_eq_true, if_false] at hTop h4 h3 h2 h1 h0 h ⊢
    simp only [newDecimalValue, hSign, Bool.false_and, Bool.false_eq_true, if_false, if_true, hTop, h4, h3, h2, h1, h0,
      h, OfNat.ofNat_ne_zero, one_ne_zero, hInteger, hReal, hWrap, one_mul]
  | true =>
    simp only [if_true] at hTop h4 h3 h2 h1 h0 h ⊢
    have hNegated : wrap 8 (((leNat [b0, b1, b2, b3, b4, b5] * 100 + r.toNat : Nat) : Int) * -1) =
        -1 * ((leNat [b0, b1, b2, b3, b4, b5] * 100 + r.toNat : Nat) : Int) := by
      rw [mul_comm]
      exact wrap_eq_self (by omega) (by omega)
    simp only [newDecimalValue, hSign, Bool.true_and, decide_true, if_true, hTop, h4, h3, h2, h1, h0, h,
      OfNat.ofNat_ne_zero, one_ne_zero, if_false, Nat.reduceLT, hInteger, hReal, hWrap, hNegated]

theorem newDecimalValue_positive (b5 b4 b3 b2 b1 b0 r : UInt8) (h5 : b5.toNat < 128) (hr : r.toNat < 128) :
    newDecimalValue (ofBytes [b5 ^^^ 0x80, b4, b3, b2, b1, b0, r]) =
      leNat [b0, b1, b2, b3, b4, b5] * 100 + r.toNat := by
  have hPositive : decide ((ofBytes [b5 ^^^ 0x80, b4, b3, b2, b1, b0, r] 0).toNat < 128) = false := by
    change decide ((b5 ^^^ 0x80).toNat < 128) = false
    rw [xor_top_toNat h5]
    exact decide_eq_false (by omega)
  rw [newDecimalValue_bytes b5 b4 b3 b2 b1 b0 r hPositive (xor_top_xor_top b5) rfl hr]
  simp

theorem newDecimalValue_magnitudeBytes (m : Nat) (h : m / 100 < 2 ^ 47) :
    newDecimalValue (ofBytes (magnitudeBytes m)) = m := by
  have hReal : (UInt8.ofNat (m % 100)).toNat = m % 100 := by
    rw [UInt8.toNat_ofNat']
    omega
  have hDigits := leNat_natLe 6 (m / 100)
  rw [Nat.mod_eq_of_lt (by omega)] at hDigits
  have hValue := newDecimalValue_positive
    (UInt8.ofNat (m / 100 / 256 / 256 / 256 / 256 / 256 % 256))
    (UInt8.ofNat (m / 100 / 256 / 256 / 256 / 256 % 256)) (UInt8.ofNat (m / 100 / 256 / 256 / 256 % 256))
    (UInt8.ofNat (m / 100 / 256 / 256 % 256)) (UInt8.ofNat (m / 100 / 256 % 256))
    (UInt8.ofNat (m / 100 % 256)) (UInt8.ofNat (m % 100))
    (by rw [UInt8.toNat_ofNat']; omega) (by omega)
  change newDecimalValue (ofBytes (magnitudeBytes m)) =
    leNat (natLe 6 (m / 100)) * 100 + (UInt8.ofNat (m % 100)).toNat at hValue
  rw [hValue, hDigits, hReal]
  omega

theorem intLe_nat (width n : Nat) (h : n < 256 ^ width) : intLe width n = natLe width n := by
  rw [intLe, ← Int.natCast_emod, Int.toNat_natCast, Nat.mod_eq_of_lt h]

def decimalMagnitude (value : KValue) : Int := if value.int64_ < 0 then wrap 8 (value.int64_ * -1) else value.int64_

/-- The bytes of a decimal: six of the integer part, then as many of the rest as `real_` says. -/
def decimalChars (value : KValue) : Bytes :=
  ((intLe 8 ((decimalMagnitude value).tdiv (powBase value.real_))).take 6).reverse.modifyHead (· ^^^ 0x80) ++
    (intLe 4 (wrap 4 ((decimalMagnitude value).tmod (powBase value.real_)))).take value.real_.toNat

def complementHead (dest : Mem) : Mem := fun i => if i < 7 then ~~~dest i else dest i

theorem powBase_eq_zero_iff (real : Int) : powBase real = 0 ↔ real < 0 := by
  rw [powBase]
  split
  · rename_i h
    exact iff_of_true rfl h
  · rename_i h
    exact iff_of_false (by positivity) h

theorem length_decimalChars (value : KValue) : (decimalChars value).length = 6 + min value.real_.toNat 4 := by
  simp [decimalChars]

theorem convertValueToChar_decimal_eq {value : KValue} (u : KValue) (dest : Mem) (offset : Nat)
    (hType : value.type_ = .decimal) :
    convertValueToChar u dest value offset =
      if value.real_ < 0 then none
      else some (6 + value.real_.toNat,
        write (if value.int64_ < 0 then complementHead dest else dest) offset (decimalChars value)) := by
  have hSix : (((intLe 8 ((decimalMagnitude value).tdiv (powBase value.real_))).take 6).reverse.modifyHead
      (· ^^^ 0x80)).length = 6 := by simp
  rw [decimalChars, ← write_append, hSix]
  simp only [convertValueToChar, hType, powBase_eq_zero_iff, decide_eq_true_eq]
  rfl

/-- Whatever the sign, the bytes of a decimal with one byte of fraction are those of its magnitude. -/
theorem decimalChars_eq_magnitudeBytes {value : KValue} (hReal : value.real_ = 1)
    (hBound : value.int64_.natAbs / 100 < 2 ^ 47) :
    decimalChars value = magnitudeBytes value.int64_.natAbs := by
  have hMagnitude : decimalMagnitude value = (value.int64_.natAbs : Int) := by
    rw [decimalMagnitude]
    split
    · rw [wrap_eq_self (by omega) (by omega)]
      omega
    · omega
  have hHigh : (intLe 8 ((value.int64_.natAbs : Int).tdiv 100)).take 6 = natLe 6 (value.int64_.natAbs / 100) := by
    have hDiv : (value.int64_.natAbs : Int).tdiv 100 = (value.int64_.natAbs / 100 : Nat) := by
      rw [Int.tdiv_eq_ediv_of_nonneg (by omega)]
      rfl
    rw [hDiv, intLe_nat 8 _ (by omega), take_natLe 6 2]
  have hLow : (intLe 4 (wrap 4 ((value.int64_.natAbs : Int).tmod 100))).take 1 =
      [UInt8.ofNat (value.int64_.natAbs % 100)] := by
    have hMod : (value.int64_.natAbs : Int).tmod 100 = (value.int64_.natAbs % 100 : Nat) := by
      rw [Int.tmod_eq_emod_of_nonneg (by omega)]
      rfl
    rw [hMod, wrap_eq_self (by omega) (by omega), intLe_nat 4 _ (by omega),
      take_natLe 1 3]
    simp only [natLe]
    rw [Nat.mod_eq_of_lt (by omega)]
  have hBase : powBase 1 = 100 := rfl
  rw [decimalChars, hMagnitude, hReal, hBase, hHigh, Int.toNat_one, hLow, magnitudeBytes]

theorem convertValueToChar_decimal (u value : KValue) (dest : Mem) (offset : Nat)
    (hType : value.type_ = .decimal) (hReal : value.real_ = 1) (hBound : value.int64_.natAbs / 100 < 2 ^ 47) :
    ∃ dest', convertValueToChar u dest value offset = some (7, dest') ∧
      read dest' offset 7 = magnitudeBytes value.int64_.natAbs := by
  have hLength : (magnitudeBytes value.int64_.natAbs).length = 7 := by
    rw [← decimalChars_eq_magnitudeBytes hReal hBound, length_decimalChars, hReal]
    rfl
  rw [convertValueToChar_decimal_eq u dest offset hType, hReal, if_neg (by decide),
    decimalChars_eq_magnitudeBytes hReal hBound]
  refine ⟨_, rfl, ?_⟩
  rw [← hLength]
  exact read_write_self _ offset _

/-- The evaluator reads `operand.values[index]` as the seven-byte decimal column at `start`. -/
structure DecimalColumnAt (schemaInfo : SchemaInfo) (operand : Operand) (offsets : List Int)
    (index start : Nat) : Prop where
  column : ∃ name columnIndex, operand.values[index]? = some name ∧
    schemaInfo.columnIndexMap.lookup name = some columnIndex ∧
    schemaInfo.columnType[columnIndex]? = some .newDecimal ∧
    offsets[columnIndex]? = some (start : Int) ∧ offsets[columnIndex + 1]? = some ((start : Int) + 7)

theorem getColumnValue_newDecimal (u : KValue) (row : Mem) {operand : Operand} {offsets : List Int}
    {index start : Nat} {schemaInfo : SchemaInfo}
    (h : DecimalColumnAt schemaInfo operand offsets index start) :
    (getColumnValue u row operand offsets index).run schemaInfo =
      some ({ u.fresh with
        int64_ := newDecimalValue (ofBytes (read row start 7))
        real_ := 1
        type_ := .decimal }, schemaInfo) := by
  obtain ⟨name, columnIndex, hName, hIndex, hColumn, hStart, hEnd⟩ := h.column
  have hSlice : slice row start 7 = some (read row start 7) := if_pos (by omega)
  simp only [getColumnValue, hName, columnIndexAt_of_some hIndex, StateT.run_bind, StateT.run_monadLift, monadLift_self,
    Option.pure_def, Option.bind_eq_bind, Option.bind_some, StateT.run_get, StateT.run_pure, hColumn, hStart, hEnd,
    add_sub_cancel_left, hSlice]

/-- Writing `value` at `offset` and reading that column back gives its `int64_` again. -/
def RoundTrips (u value : KValue) (dest : Mem) (offset : Nat) (schemaInfo : SchemaInfo) (operand : Operand)
    (offsets : List Int) (index : Nat) : Prop :=
  ∃ length dest' result schemaInfo', convertValueToChar u dest value offset = some (length, dest') ∧
    (getColumnValue u dest' operand offsets index).run schemaInfo = some (result, schemaInfo') ∧
    result.int64_ = value.int64_

theorem roundTrips_iff_natAbs (u value : KValue) (dest : Mem) {offset : Nat} {schemaInfo : SchemaInfo}
    {operand : Operand} {offsets : List Int} {index : Nat}
    (hType : value.type_ = .decimal) (hReal : value.real_ = 1) (hBound : value.int64_.natAbs / 100 < 2 ^ 47)
    (hColumn : DecimalColumnAt schemaInfo operand offsets index offset) :
    RoundTrips u value dest offset schemaInfo operand offsets index ↔
      (value.int64_.natAbs : Int) = value.int64_ := by
  obtain ⟨dest', hWrite, hRead⟩ := convertValueToChar_decimal u value dest offset hType hReal hBound
  have hValue := newDecimalValue_magnitudeBytes value.int64_.natAbs hBound
  constructor
  · rintro ⟨length, dest'', result, schemaInfo', hWrite', hGet, hEq⟩
    rw [hWrite, Option.some.injEq, Prod.mk.injEq] at hWrite'
    obtain ⟨-, rfl⟩ := hWrite'
    rw [getColumnValue_newDecimal u dest' hColumn, Option.some.injEq, Prod.mk.injEq] at hGet
    obtain ⟨rfl, -⟩ := hGet
    rw [hRead, hValue] at hEq
    exact hEq
  · intro hEq
    refine ⟨7, dest', _, schemaInfo, hWrite, getColumnValue_newDecimal u dest' hColumn, ?_⟩
    change newDecimalValue (ofBytes (read dest' offset 7)) = value.int64_
    rw [hRead, hValue, hEq]

/-- The writer and the reader of decimals are inverse exactly on the values that are not negative. -/
theorem roundTrips_iff_nonneg (u value : KValue) (dest : Mem) (offset : Nat) (schemaInfo : SchemaInfo)
    (operand : Operand) (offsets : List Int) (index : Nat)
    (hType : value.type_ = .decimal) (hReal : value.real_ = 1) (hBound : value.int64_.natAbs / 100 < 2 ^ 47)
    (hColumn : DecimalColumnAt schemaInfo operand offsets index offset) :
    RoundTrips u value dest offset schemaInfo operand offsets index ↔ 0 ≤ value.int64_ := by
  rw [roundTrips_iff_natAbs u value dest hType hReal hBound hColumn]
  omega

def decimalOf (n : Int) : KValue := { KValue.zero with type_ := .decimal, int64_ := n, real_ := 1 }

def amountSchema : SchemaInfo :=
  { columnName := [bytesOf "amount"], columnOffset := [0, 7], columnLength := [7],
    columnType := [.newDecimal], columnIndexMap := [(bytesOf "amount", 0)], pkColumn := [],
    tableIndexNumber := 0, hasVarChar := false }

def amountOperand : Operand := ⟨[.column], [bytesOf "amount"]⟩

theorem amount_column : DecimalColumnAt amountSchema amountOperand [0, 7] 0 0 :=
  ⟨bytesOf "amount", 0, by decide, by decide, by decide, by decide, by decide⟩

theorem negative_amount_not_roundTrips :
    ¬ RoundTrips KValue.zero (decimalOf (-100)) zeroed 0 amountSchema amountOperand [0, 7] 0 := by
  rw [roundTrips_iff_natAbs KValue.zero (decimalOf (-100)) zeroed rfl rfl (by decide) amount_column]
  decide

theorem amount_roundTrips :
    RoundTrips KValue.zero (decimalOf 12345) zeroed 0 amountSchema amountOperand [0, 7] 0 :=
  (roundTrips_iff_nonneg KValue.zero (decimalOf 12345) zeroed 0 amountSchema amountOperand [0, 7] 0
    rfl rfl (by decide) amount_column).mpr (by decide)

end CsdWorker.DecimalCodec
