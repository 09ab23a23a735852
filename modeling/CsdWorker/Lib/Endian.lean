import CsdWorker.Lib.Memory

/-! # Fixed-width integers as bytes

Little-endian naturals, two's-complement integers over them, and the fact that big-endian
strings of one width are ordered lexicographically as the numbers they denote.
-/

namespace CsdWorker.Endian

open Memory

set_option autoImplicit false

def leNat : Bytes → Nat
  | [] => 0
  | b :: bs => b.toNat + 256 * leNat bs

def natLe : Nat → Nat → Bytes
  | 0, _ => []
  | width + 1, n => UInt8.ofNat (n % 256) :: natLe width (n / 256)

def beNat (bs : Bytes) : Nat := leNat bs.reverse

def natBe (width n : Nat) : Bytes := (natLe width n).reverse

def wrap (width : Nat) (x : Int) : Int := x.bmod (256 ^ width)

def leInt (bs : Bytes) : Int := wrap bs.length (leNat bs)

def intLe (width : Nat) (x : Int) : Bytes := natLe width (x % (256 ^ width : Nat)).toNat

@[simp] theorem length_natLe (width n : Nat) : (natLe width n).length = width := by
  induction width generalizing n with
  | zero => rfl
  | succ width ih => simp [natLe, ih]

@[simp] theorem length_intLe (width : Nat) (x : Int) : (intLe width x).length = width :=
  length_natLe _ _

theorem leNat_lt (bs : Bytes) : leNat bs < 256 ^ bs.length := by
  induction bs with
  | nil => decide
  | cons b bs ih =>
    have hb := b.toNat_lt
    simp only [leNat, List.length_cons, Nat.pow_succ]
    omega

theorem leNat_natLe (width n : Nat) : leNat (natLe width n) = n % 256 ^ width := by
  induction width generalizing n with
  | zero => simp [leNat, natLe, Nat.mod_one]
  | succ width ih =>
    have hByte : (UInt8.ofNat (n % 256)).toNat = n % 256 := by
      rw [UInt8.toNat_ofNat']
      exact Nat.mod_eq_of_lt (Nat.mod_lt _ (by decide))
    rw [natLe, leNat, ih, hByte, Nat.pow_succ, Nat.mul_comm (256 ^ width), Nat.mod_mul]

theorem leNat_append (xs ys : Bytes) : leNat (xs ++ ys) = leNat xs + 256 ^ xs.length * leNat ys := by
  induction xs with
  | nil => simp [leNat]
  | cons x xs ih =>
    simp only [List.cons_append, leNat, ih, List.length_cons, Nat.pow_succ]
    ring

theorem beNat_cons (b : UInt8) (bs : Bytes) : beNat (b :: bs) = beNat bs + 256 ^ bs.length * b.toNat := by
  simp [beNat, leNat_append, leNat]

theorem beNat_lt (bs : Bytes) : beNat bs < 256 ^ bs.length := by
  simpa [beNat] using leNat_lt bs.reverse

theorem wrap_eq_self {width : Nat} {x : Int} (hLow : -(256 ^ width : Nat) ≤ 2 * x)
    (hHigh : 2 * x < (256 ^ width : Nat)) : wrap width x = x :=
  Int.bmod_eq_of_le_mul_two (by omega) (by omega)

/-- `x` is an integer of `width` bytes. -/
def Fits (width : Nat) (x : Int) : Prop := -(256 ^ width : Nat) ≤ 2 * x ∧ 2 * x < (256 ^ width : Nat)

instance (width : Nat) (x : Int) : Decidable (Fits width x) := inferInstanceAs (Decidable (_ ∧ _))

theorem fits_natCast {width n : Nat} : Fits width n ↔ 2 * n < 256 ^ width := by
  rw [Fits]
  omega

theorem wrap_of_fits {width : Nat} {x : Int} (h : Fits width x) : wrap width x = x := wrap_eq_self h.1 h.2

theorem fits_mono {width width' : Nat} {x : Int} (hWidth : width ≤ width') (h : Fits width x) : Fits width' x := by
  have hPow : 256 ^ width ≤ 256 ^ width' := Nat.pow_le_pow_right (by decide) hWidth
  obtain ⟨hLow, hHigh⟩ := h
  exact ⟨by omega, by omega⟩

theorem fits_wrap (width : Nat) (x : Int) : Fits width (wrap width x) := by
  have hPos : 0 < 256 ^ width := by positivity
  have hLow : -((256 ^ width : Nat) / 2 : Int) ≤ wrap width x := Int.le_bmod hPos
  have hHigh : wrap width x < ((256 ^ width : Nat) + 1) / 2 := Int.bmod_lt hPos
  rw [Fits]
  generalize 256 ^ width = m at hLow hHigh hPos ⊢
  omega

theorem wrap_wrap_add (width : Nat) (x y : Int) : wrap width (wrap width x + y) = wrap width (x + y) :=
  Int.bmod_add_bmod

/-- The value of `x` as an unsigned integer of `width` bytes. -/
def unsign (width : Nat) (x : Int) : Nat := (x % (256 ^ width : Nat)).toNat

theorem unsign_of_lt {width n : Nat} (h : n < 256 ^ width) : unsign width n = n := by
  rw [unsign, ← Int.natCast_emod, Int.toNat_natCast, Nat.mod_eq_of_lt h]

theorem unsign_eq_self_iff {width : Nat} {x : Int} : (unsign width x : Int) = x ↔ 0 ≤ x ∧ x < (256 ^ width : Nat) := by
  have hPos : (0 : Int) < (256 ^ width : Nat) := by positivity
  rw [unsign, Int.toNat_of_nonneg (Int.emod_nonneg x hPos.ne')]
  constructor
  · intro h
    rw [← h]
    exact ⟨Int.emod_nonneg x hPos.ne', Int.emod_lt_of_pos x hPos⟩
  · rintro ⟨hLow, hHigh⟩
    exact Int.emod_eq_of_lt hLow hHigh

theorem unsign_sub {width a b : Nat} (hLe : b ≤ a) (hLt : a < 256 ^ width) : unsign width ((a : Int) - b) = a - b := by
  have hNat : (a : Int) - b = (a - b : Nat) := by omega
  rw [hNat, unsign_of_lt (by omega)]

/-- A difference that is negative wraps. -/
theorem unsign_sub_of_lt {width a b : Nat} (hLt : a < b) (hLe : b ≤ 256 ^ width) :
    unsign width ((a : Int) - b) = 256 ^ width - (b - a) := by
  have hNat : (a : Int) - b + (256 ^ width : Nat) = (256 ^ width - (b - a) : Nat) := by omega
  rw [unsign, ← Int.add_emod_right, hNat]
  exact unsign_of_lt (by omega)

theorem unsign_unsign_sub (width : Nat) (x y : Int) :
    unsign width ((unsign width x : Int) - y) = unsign width (x - y) := by
  have hPos : (0 : Int) < (256 ^ width : Nat) := by positivity
  have hCast : (unsign width x : Int) = x % (256 ^ width : Nat) := by
    rw [unsign, Int.toNat_of_nonneg (Int.emod_nonneg x hPos.ne')]
  rw [hCast, unsign, unsign, Int.emod_sub_emod]

theorem unsign_sub_eq_zero_iff {width a b : Nat} (hLt : a < 256 ^ width) :
    unsign width ((a : Int) - b) = 0 ↔ b % 256 ^ width = a := by
  have hPos : (0 : Int) < (256 ^ width : Nat) := by positivity
  have hNonneg := Int.emod_nonneg ((a : Int) - b) hPos.ne'
  calc
    unsign width ((a : Int) - b) = 0 ↔ ((a : Int) - b) % (256 ^ width : Nat) = 0 := by rw [unsign]; omega
    _ ↔ (a : Int) % (256 ^ width : Nat) = b % (256 ^ width : Nat) := Int.emod_eq_emod_iff_emod_sub_eq_zero.symm
    _ ↔ a % 256 ^ width = b % 256 ^ width := by rw [← Int.natCast_emod, ← Int.natCast_emod, Int.natCast_inj]
    _ ↔ b % 256 ^ width = a := by rw [Nat.mod_eq_of_lt hLt, eq_comm]

theorem leInt_intLe {width : Nat} {x : Int} (hLow : -(256 ^ width : Nat) ≤ 2 * x)
    (hHigh : 2 * x < (256 ^ width : Nat)) :
    leInt (intLe width x) = x := by
  have hPos : (0 : Int) < (256 ^ width : Nat) := by positivity
  have hNonneg := Int.emod_nonneg x hPos.ne'
  have hLt := Int.emod_lt_of_pos x hPos
  rw [leInt, length_intLe, intLe, leNat_natLe, Nat.mod_eq_of_lt (by omega), Int.toNat_of_nonneg hNonneg, wrap,
    Int.emod_bmod]
  exact wrap_eq_self hLow hHigh

/-- A string of at least the width compares with a string of that width as its leading digits do. -/
theorem lt_iff_beNat_take_lt (target key : Bytes) (h : target.length ≤ key.length) :
    key < target ↔ beNat (key.take target.length) < beNat target := by
  induction target generalizing key with
  | nil => simp [beNat, leNat]
  | cons t target ih =>
    cases key with
    | nil => simp at h
    | cons b key =>
      have hLength : target.length ≤ key.length := by simpa using h
      have hTake := beNat_lt (key.take target.length)
      rw [List.length_take_of_le hLength] at hTake
      have hTarget := beNat_lt target
      rw [List.length_cons, List.take_succ_cons, beNat_cons, beNat_cons,
        List.length_take_of_le hLength, List.cons_lt_cons_iff, ih key hLength, UInt8.lt_iff_toNat_lt]
      rcases Nat.lt_trichotomy b.toNat t.toNat with hbt | hbt | hbt
      · have : 256 ^ target.length * (b.toNat + 1) ≤ 256 ^ target.length * t.toNat :=
          Nat.mul_le_mul_left _ hbt
        rw [Nat.mul_add, Nat.mul_one] at this
        exact ⟨fun _ => by omega, fun _ => Or.inl hbt⟩
      · rw [UInt8.toNat.inj hbt]
        simp
      · have : 256 ^ target.length * (t.toNat + 1) ≤ 256 ^ target.length * b.toNat :=
          Nat.mul_le_mul_left _ hbt
        rw [Nat.mul_add, Nat.mul_one] at this
        constructor
        · rintro (hLess | ⟨rfl, _⟩) <;> omega
        · omega

end CsdWorker.Endian
