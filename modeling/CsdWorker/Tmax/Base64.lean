import CsdWorker.Lib.Memory
import CsdWorker.Lib.Regroup

/-! # Base64

`Base64Decode`, by which a snippet carries its filter. The accumulator is an `int` that is never masked: its
upper bits are lost in the shifts, and only the bits that are still to be put out count.
-/

namespace CsdWorker.Tmax

open Memory Regroup

set_option autoImplicit false

section Model

def decodeTable : List Int :=
  [-1, -1, -1, -1, -1, -1, -1, -1, -1, -1, -1, -1, -1, -1, -1, -1,
   -1, -1, -1, -1, -1, -1, -1, -1, -1, -1, -1, -1, -1, -1, -1, -1,
   -1, -1, -1, -1, -1, -1, -1, -1, -1, -1, -1, 62, -1, -1, -1, 63,
   52, 53, 54, 55, 56, 57, 58, 59, 60, 61, -1, -1, -1, 0, -1, -1,
   -1, 0, 1, 2, 3, 4, 5, 6, 7, 8, 9, 10, 11, 12, 13, 14,
   15, 16, 17, 18, 19, 20, 21, 22, 23, 24, 25, -1, -1, -1, -1, -1,
   -1, 26, 27, 28, 29, 30, 31, 32, 33, 34, 35, 36, 37, 38, 39, 40,
   41, 42, 43, 44, 45, 46, 47, 48, 49, 50, 51, -1, -1, -1, -1, -1]

def isspace (c : UInt8) : Bool := c = 32 || 9 ≤ c && c ≤ 13

/-- The entry of a character, if it has one that is not -1. -/
def tableEntry (c : UInt8) : Option Int :=
  if c > 127 then none else (decodeTable[c.toNat]?).filter (· ≠ -1)

/-- The loop over the characters; `none` is the exception. -/
def decodeFrom : Bytes → BitVec 32 → Nat → Bytes → Option Bytes
  | [], _, _, output => some output
  | c :: input, buffer, bitsCollected, output =>
    if isspace c then decodeFrom input buffer bitsCollected output
    else if c = 61 then some output
    else
      match tableEntry c with
      | none => none
      | some entry =>
        let buffer := buffer <<< 6 ||| BitVec.ofInt 32 entry
        let bitsCollected := bitsCollected + 6
        if bitsCollected ≥ 8 then
          decodeFrom input buffer (bitsCollected - 8)
            (output ++ [((buffer.sshiftRight (bitsCollected - 8)) &&& 0xFF).toNat.toUInt8])
        else decodeFrom input buffer bitsCollected output

def base64Decode (input : Bytes) : Option Bytes := decodeFrom input 0 0 []

end Model

section Encoding

def digitChar (d : Nat) : UInt8 :=
  if d < 26 then (65 + d).toUInt8
  else if d < 52 then (97 + (d - 26)).toUInt8
  else if d < 62 then (48 + (d - 52)).toUInt8
  else if d = 62 then 43
  else 47

def alphabet : Bytes := (List.range 64).map digitChar

/-- Three bytes make four digits of six bits; a last group of one or two bytes is filled up with zero bits. -/
def sextets : Bytes → List Nat
  | [] => []
  | [a] => [a.toNat / 4, a.toNat % 4 * 16]
  | [a, b] => [a.toNat / 4, a.toNat % 4 * 16 + b.toNat / 16, b.toNat % 16 * 4]
  | a :: b :: c :: rest =>
    a.toNat / 4 :: (a.toNat % 4 * 16 + b.toNat / 16) ::
      (b.toNat % 16 * 4 + c.toNat / 64) :: c.toNat % 64 :: sextets rest

def encodeUnpadded (bytes : Bytes) : Bytes := (sextets bytes).map digitChar

def encode (bytes : Bytes) : Bytes := encodeUnpadded bytes ++ List.replicate ((3 - bytes.length % 3) % 3) 61

theorem sextets_lt (bytes : Bytes) : ∀ d ∈ sextets bytes, d < 64 := by
  induction bytes using sextets.induct with
  | case1 => exact fun d hd => nomatch hd
  | case2 a =>
    have ha := a.toNat_lt
    simp only [sextets, List.mem_cons, List.not_mem_nil, or_false, forall_eq_or_imp, forall_eq]
    omega
  | case3 a b =>
    have ha := a.toNat_lt
    have hb := b.toNat_lt
    simp only [sextets, List.mem_cons, List.not_mem_nil, or_false, forall_eq_or_imp, forall_eq]
    omega
  | case4 a b c rest ih =>
    have ha := a.toNat_lt
    have hb := b.toNat_lt
    have hc := c.toNat_lt
    simp only [sextets, List.mem_cons, forall_eq_or_imp]
    exact ⟨by omega, by omega, by omega, by omega, ih⟩

theorem regroup_two (d e : Nat) : regroup 6 8 ⟨0, 0⟩ [d, e] = [(d * 64 + e) / 16] := by simp [regroup, push]

theorem regroup_three (d e f : Nat) :
    regroup 6 8 ⟨0, 0⟩ [d, e, f] = [(d * 64 + e) / 16, ((d * 64 + e) % 16 * 64 + f) / 4] := by simp [regroup, push]

theorem regroup_four (d e f g : Nat) (ds : List Nat) :
    regroup 6 8 ⟨0, 0⟩ (d :: e :: f :: g :: ds) = (d * 64 + e) / 16 :: ((d * 64 + e) % 16 * 64 + f) / 4 ::
      (((d * 64 + e) % 16 * 64 + f) % 4 * 64 + g) :: regroup 6 8 ⟨0, 0⟩ ds := by
  simp [regroup, push, Nat.mod_one]

/-- The digits of a byte string regroup to its bytes. -/
theorem regroup_sextets (bytes : Bytes) : regroup 6 8 ⟨0, 0⟩ (sextets bytes) = bytes.map UInt8.toNat := by
  induction bytes using sextets.induct with
  | case1 => rfl
  | case2 a =>
    have hFirst : (a.toNat / 4 * 64 + a.toNat % 4 * 16) / 16 = a.toNat := by omega
    rw [sextets, regroup_two, hFirst]
    rfl
  | case3 a b =>
    have hFirst : (a.toNat / 4 * 64 + (a.toNat % 4 * 16 + b.toNat / 16)) / 16 = a.toNat := by
      have := b.toNat_lt
      omega
    have hSecond :
      ((a.toNat / 4 * 64 + (a.toNat % 4 * 16 + b.toNat / 16)) % 16 * 64 + b.toNat % 16 * 4) / 4 = b.toNat := by
      have := b.toNat_lt
      omega
    rw [sextets, regroup_three, hFirst, hSecond]
    rfl
  | case4 a b c rest ih =>
    have hb := b.toNat_lt
    have hc := c.toNat_lt
    have hFirst : (a.toNat / 4 * 64 + (a.toNat % 4 * 16 + b.toNat / 16)) / 16 = a.toNat := by omega
    have hRest : (a.toNat / 4 * 64 + (a.toNat % 4 * 16 + b.toNat / 16)) % 16 = b.toNat / 16 := by omega
    have hSecond : (b.toNat / 16 * 64 + (b.toNat % 16 * 4 + c.toNat / 64)) / 4 = b.toNat := by omega
    have hThird : (b.toNat / 16 * 64 + (b.toNat % 16 * 4 + c.toNat / 64)) % 4 * 64 + c.toNat % 64 = c.toNat := by omega
    rw [sextets, regroup_four, hFirst, hRest, hSecond, hThird, ih]
    rfl

end Encoding

section Accumulator
variable (buffer : BitVec 32)

theorem toNat_shift_or {d : Nat} (hd : d < 2 ^ 6) :
    (buffer <<< 6 ||| BitVec.ofInt 32 d).toNat = (buffer.toNat * 2 ^ 6 + d) % 2 ^ 32 := by
  have hEntry : (BitVec.ofInt 32 (d : Int)).toNat = d := by
    rw [BitVec.ofInt_natCast, BitVec.toNat_ofNat]
    exact Nat.mod_eq_of_lt (by omega)
  have hShift : (buffer <<< 6).toNat = (buffer.toNat % 2 ^ 26) <<< 6 := by
    rw [BitVec.toNat_shiftLeft, Nat.shiftLeft_eq, Nat.shiftLeft_eq]
    omega
  rw [BitVec.toNat_or, hEntry, hShift, ← Nat.shiftLeft_add_eq_or_of_lt hd, Nat.shiftLeft_eq]
  omega

/-- The sign that an arithmetic shift brings in does not reach the lowest byte. -/
theorem toNat_window {j : Nat} (hj : j ≤ 24) :
    (buffer.sshiftRight j &&& 0xFF).toNat = buffer.toNat / 2 ^ j % 2 ^ 8 := by
  have hMask : ∀ i < 32, 8 ≤ i → (0xFF : BitVec 32).getLsbD i = false := by decide
  have hLogical : buffer.sshiftRight j &&& 0xFF = buffer >>> j &&& 0xFF := by
    apply BitVec.eq_of_getLsbD_eq
    intro i hi
    rw [BitVec.getLsbD_and, BitVec.getLsbD_and, BitVec.getLsbD_sshiftRight, BitVec.getLsbD_ushiftRight]
    rcases Nat.lt_or_ge i 8 with hLow | hHigh
    · rw [if_pos (by omega), decide_eq_false (not_le.mpr hi), Bool.not_false, Bool.true_and]
    · rw [hMask i hi hHigh, Bool.and_false, Bool.and_false]
  rw [hLogical, BitVec.toNat_and, BitVec.toNat_ushiftRight, Nat.shiftRight_eq_div_pow]
  exact Nat.and_two_pow_sub_one_eq_mod _ 8

end Accumulator

section Characters

theorem digitChar_props :
    ∀ d < 64, isspace (digitChar d) = false ∧ digitChar d ≠ 61 ∧ tableEntry (digitChar d) = some (d : Int) := by
  decide +kernel

/-- Apart from the padding the table has entries for the digits only. -/
theorem digitChar_of_tableEntry {c : UInt8} (hc : c ≠ 61) {entry : Int} (h : tableEntry c = some entry) :
    entry.toNat < 64 ∧ digitChar entry.toNat = c := by
  have hAll : ∀ n < 256, UInt8.ofNat n ≠ 61 → ∀ entry ∈ tableEntry (UInt8.ofNat n),
      entry.toNat < 64 ∧ digitChar entry.toNat = UInt8.ofNat n := by
    decide +kernel
  have hEntry := hAll c.toNat c.toNat_lt
  rw [UInt8.ofNat_toNat] at hEntry
  exact hEntry hc entry h

theorem tableEntry_eq_none_iff {c : UInt8} (hc : c ≠ 61) : tableEntry c = none ↔ c ∉ alphabet := by
  constructor
  · intro hNone hIn
    obtain ⟨d, hd, rfl⟩ := List.mem_map.mp hIn
    obtain ⟨-, -, hEntry⟩ := digitChar_props d (List.mem_range.mp hd)
    rw [hNone] at hEntry
    cases hEntry
  · intro hNot
    cases hEntry : tableEntry c with
    | none => rfl
    | some entry =>
      obtain ⟨hLt, hChar⟩ := digitChar_of_tableEntry hc hEntry
      exact absurd (List.mem_map.mpr ⟨entry.toNat, List.mem_range.mpr hLt, hChar⟩) hNot

end Characters

section Decode

theorem decodeFrom_space {c : UInt8} (h : isspace c = true) (input : Bytes) (buffer : BitVec 32) (bitsCollected : Nat)
    (output : Bytes) :
    decodeFrom (c :: input) buffer bitsCollected output = decodeFrom input buffer bitsCollected output := if_pos h

theorem decodeFrom_digit {d : Nat} (hd : d < 64) (input : Bytes) (buffer : BitVec 32) (bitsCollected : Nat)
    (output : Bytes) :
    decodeFrom (digitChar d :: input) buffer bitsCollected output =
      if bitsCollected + 6 ≥ 8 then
        decodeFrom input (buffer <<< 6 ||| BitVec.ofInt 32 d) (bitsCollected + 6 - 8)
          (output ++ [((buffer <<< 6 ||| BitVec.ofInt 32 d).sshiftRight
            (bitsCollected + 6 - 8) &&& 0xFF).toNat.toUInt8])
      else decodeFrom input (buffer <<< 6 ||| BitVec.ofInt 32 d) (bitsCollected + 6) output := by
  obtain ⟨hSpace, hPadding, hEntry⟩ := digitChar_props d hd
  rw [decodeFrom, hSpace, if_neg Bool.false_ne_true, if_neg hPadding, hEntry]

/-- The accumulator of the code and the pending number of the regrouping go together through all digits. -/
theorem decodeFrom_digits {ds : List Nat} (hds : ∀ d ∈ ds, d < 64) {stop : Bytes}
    (hStop : ∀ buffer bitsCollected output, decodeFrom stop buffer bitsCollected output = some output)
    (buffer : BitVec 32) (p : Pending) (hKeeps : Keeps buffer.toNat p) (hBits : p.bits < 8) (output : Bytes) :
    decodeFrom (ds.map digitChar ++ stop) buffer p.bits output =
      some (output ++ (regroup 6 8 p ds).map Nat.toUInt8) := by
  induction ds generalizing buffer p output with
  | nil => rw [List.map_nil, List.nil_append, hStop, regroup, List.map_nil, List.append_nil]
  | cons d ds ih =>
    obtain ⟨hd, hRest⟩ := List.forall_mem_cons.mp hds
    have hNext : Keeps (buffer <<< 6 ||| BitVec.ofInt 32 d).toNat ⟨p.value * 2 ^ 6 + d, p.bits + 6⟩ := by
      rw [toNat_shift_or buffer hd]
      exact keeps_shift hKeeps hd (by omega)
    rw [List.map_cons, List.cons_append, decodeFrom_digit hd, regroup, push]
    rcases Nat.lt_or_ge (p.bits + 6) 8 with hFew | hEnough
    · simp only [if_neg (not_le.mpr hFew)]
      exact ih hRest _ _ hNext hFew output
    · obtain ⟨j, hj⟩ := Nat.exists_eq_add_of_le' hEnough
      rw [hj] at hNext ⊢
      obtain ⟨hByte, hLeft⟩ := keeps_emit hNext
      simp only [if_pos (Nat.le_add_left 8 j), Nat.add_sub_cancel]
      rw [toNat_window _ (by omega), hByte, ih hRest _ _ hLeft (by change j < 8; omega)]
      simp

theorem decodeFrom_filter (input : Bytes) (buffer : BitVec 32) (bitsCollected : Nat) (output : Bytes) :
    decodeFrom (input.filter fun c => !isspace c) buffer bitsCollected output =
      decodeFrom input buffer bitsCollected output := by
  induction input generalizing buffer bitsCollected output with
  | nil => rfl
  | cons c input ih =>
    cases hSpace : isspace c with
    | true => rw [List.filter_cons_of_neg (by simp [hSpace]), ih, decodeFrom_space hSpace]
    | false =>
      rw [List.filter_cons_of_pos (by simp [hSpace]), decodeFrom, decodeFrom]
      simp only [ih]

theorem decodeFrom_eq_none_iff (input : Bytes) (buffer : BitVec 32) (bitsCollected : Nat) (output : Bytes) :
    decodeFrom input buffer bitsCollected output = none ↔
      ∃ c ∈ input.takeWhile (· ≠ 61), isspace c = false ∧ c ∉ alphabet := by
  induction input generalizing buffer bitsCollected output with
  | nil => simp [decodeFrom]
  | cons c input ih =>
    rcases eq_or_ne c 61 with rfl | hPadding
    · rw [List.takeWhile_cons_of_neg (by simp)]
      exact ⟨fun h => (nomatch h), fun ⟨_, h, _⟩ => (nomatch h)⟩
    · rw [List.takeWhile_cons_of_pos (by simpa using hPadding), List.exists_mem_cons_iff]
      cases hSpace : isspace c with
      | true => rw [decodeFrom_space hSpace, ih]; simp
      | false =>
        rw [decodeFrom, hSpace, if_neg Bool.false_ne_true, if_neg hPadding]
        cases hEntry : tableEntry c with
        | none => exact ⟨fun _ => Or.inl ⟨rfl, (tableEntry_eq_none_iff hPadding).mp hEntry⟩, fun _ => rfl⟩
        | some entry =>
          have hIn : c ∈ alphabet := by
            by_contra hNot
            rw [(tableEntry_eq_none_iff hPadding).mpr hNot] at hEntry
            cases hEntry
          simp only [hIn, not_true_eq_false, and_false, false_or]
          split
          · exact ih _ _ _
          · exact ih _ _ _

theorem decodeFrom_replicate (n : Nat) (buffer : BitVec 32) (bitsCollected : Nat) (output : Bytes) :
    decodeFrom (List.replicate n 61) buffer bitsCollected output = some output := by
  cases n with
  | zero => rfl
  | succ n => rfl

theorem base64Decode_padded (bytes : Bytes) (n : Nat) :
    base64Decode (encodeUnpadded bytes ++ List.replicate n 61) = some bytes := by
  have hDigits := decodeFrom_digits (sextets_lt bytes) (decodeFrom_replicate n) 0 ⟨0, 0⟩ rfl (by decide) []
  have hBytes : (bytes.map UInt8.toNat).map Nat.toUInt8 = bytes := by
    rw [List.map_map]
    exact (List.map_congr_left fun b _ => UInt8.ofNat_toNat).trans (List.map_id bytes)
  rw [regroup_sextets, hBytes, List.nil_append] at hDigits
  exact hDigits

end Decode

/-- Base64 is decoded to what was encoded, padded or not, with any white space in it. Only a character that is
neither white space nor a digit, before the padding, is refused. -/
theorem base64Decode_correct (input : Bytes) :
    (∀ bytes, (input.filter fun c => !isspace c) = encode bytes ∨
        (input.filter fun c => !isspace c) = encodeUnpadded bytes → base64Decode input = some bytes) ∧
      (base64Decode input = none ↔ ∃ c ∈ input.takeWhile (· ≠ 61), isspace c = false ∧ c ∉ alphabet) := by
  refine ⟨fun bytes hInput => ?_, decodeFrom_eq_none_iff input 0 0 []⟩
  rw [base64Decode, ← decodeFrom_filter]
  rcases hInput with hPadded | hUnpadded
  · rw [hPadded]
    exact base64Decode_padded bytes _
  · have hNone := base64Decode_padded bytes 0
    rw [List.replicate_zero, List.append_nil] at hNone
    rw [hUnpadded]
    exact hNone

/-- The text `QU JD` and `RA==` on the next line. -/
theorem wrapped_text_decoded : base64Decode [81, 85, 32, 74, 68, 10, 82, 65, 61, 61] = some [65, 66, 67, 68] :=
  (base64Decode_correct [81, 85, 32, 74, 68, 10, 82, 65, 61, 61]).1 [65, 66, 67, 68] (Or.inl (by decide))

end CsdWorker.Tmax
