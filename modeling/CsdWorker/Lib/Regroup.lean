import Mathlib

/-! # Regrouping a stream of bits

Digits of `w` bits come in, and a word of `k` bits goes out as soon as there are enough of them. What is
pending is a number of fewer than `k` bits. An accumulator that keeps all the bits it has seen, and drops
those that leave its own width, has the pending number in its lowest bits.
-/

namespace CsdWorker.Regroup

set_option autoImplicit false

structure Pending where
  value : Nat
  bits : Nat

section
variable (w k : Nat)

def push (p : Pending) (d : Nat) : Pending × List Nat :=
  let value := p.value * 2 ^ w + d
  let bits := p.bits + w
  if k ≤ bits then (⟨value % 2 ^ (bits - k), bits - k⟩, [value / 2 ^ (bits - k)]) else (⟨value, bits⟩, [])

def regroup : Pending → List Nat → List Nat
  | _, [] => []
  | p, d :: ds => (push w k p d).2 ++ regroup (push w k p d).1 ds

end

/-- The accumulator `acc` has the pending number in its lowest bits. -/
def Keeps (acc : Nat) (p : Pending) : Prop := acc % 2 ^ p.bits = p.value

theorem keeps_shift {acc w size d : Nat} {p : Pending} (h : Keeps acc p) (hd : d < 2 ^ w) (hSize : p.bits + w ≤ size) :
    Keeps ((acc * 2 ^ w + d) % 2 ^ size) ⟨p.value * 2 ^ w + d, p.bits + w⟩ := by
  have hLt : p.value < 2 ^ p.bits := by
    rw [← h]
    exact Nat.mod_lt _ (Nat.two_pow_pos _)
  have hSmall : p.value * 2 ^ w + d < 2 ^ (p.bits + w) := by
    rw [pow_add]
    calc p.value * 2 ^ w + d < p.value * 2 ^ w + 2 ^ w := Nat.add_lt_add_left hd _
      _ = (p.value + 1) * 2 ^ w := by ring
      _ ≤ 2 ^ p.bits * 2 ^ w := Nat.mul_le_mul_right _ hLt
  have hSplit : acc * 2 ^ w + d = p.value * 2 ^ w + d + acc / 2 ^ p.bits * 2 ^ (p.bits + w) := by
    conv_lhs => rw [← Nat.div_add_mod acc (2 ^ p.bits), h]
    ring
  change (acc * 2 ^ w + d) % 2 ^ size % 2 ^ (p.bits + w) = _
  rw [Nat.mod_mod_of_dvd _ (Nat.pow_dvd_pow 2 hSize), hSplit, Nat.add_mul_mod_self_right, Nat.mod_eq_of_lt hSmall]

/-- The word to put out stands in the accumulator, and what is left is pending there. -/
theorem keeps_emit {acc value j k : Nat} (h : Keeps acc ⟨value, j + k⟩) :
    acc / 2 ^ j % 2 ^ k = value / 2 ^ j ∧ Keeps acc ⟨value % 2 ^ j, j⟩ := by
  have hValue : acc % 2 ^ (j + k) = value := h
  constructor
  · rw [← hValue, pow_add, Nat.mod_mul_right_div_self]
  · change acc % 2 ^ j = value % 2 ^ j
    rw [← hValue, Nat.mod_mod_of_dvd _ (Nat.pow_dvd_pow 2 (Nat.le_add_right j k))]

end CsdWorker.Regroup
