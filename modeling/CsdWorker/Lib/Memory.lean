import Mathlib

/-! # Byte memory seen from one pointer

A pointer into memory is the function that gives the byte at each distance from it.
Reading beyond an object is then reading whatever lies there, and a copy changes only the
bytes it covers. Nothing here bounds an object; the users of this file state their bounds.
-/

namespace CsdWorker.Memory

set_option autoImplicit false

abbrev Bytes := List UInt8

/-- Found in one step wherever membership in a list of byte strings is decided. -/
instance : LawfulBEq Bytes := inferInstance

abbrev Mem := Nat → UInt8

def zeroed : Mem := fun _ => 0

def shift (m : Mem) (n : Nat) : Mem := fun i => m (n + i)

def read (m : Mem) (start : Nat) : Nat → Bytes
  | 0 => []
  | n + 1 => m start :: read m (start + 1) n

/-- `memcpy(m + start, bytes, bytes.length)`. -/
def write (m : Mem) (start : Nat) (bytes : Bytes) : Mem := fun i =>
  if start ≤ i then bytes[i - start]?.getD (m i) else m i

def ofBytes (bytes : Bytes) : Mem := fun i => bytes.getD i 0

@[simp] theorem shift_apply (m : Mem) (n i : Nat) : shift m n i = m (n + i) := rfl

@[simp] theorem shift_zero (m : Mem) : shift m 0 = m := by
  funext i
  simp [shift]

@[simp] theorem shift_shift (m : Mem) (a b : Nat) : shift (shift m a) b = shift m (a + b) := by
  funext i
  simp [shift, Nat.add_assoc]

@[simp] theorem length_read (m : Mem) (start n : Nat) : (read m start n).length = n := by
  induction n generalizing start with
  | zero => rfl
  | succ n ih => simp [read, ih]

theorem getElem?_read (m : Mem) (start n i : Nat) :
    (read m start n)[i]? = if i < n then some (m (start + i)) else none := by
  induction n generalizing start i with
  | zero => simp [read]
  | succ n ih =>
    cases i with
    | zero => simp [read]
    | succ i =>
      rw [read, List.getElem?_cons_succ, ih, Nat.add_right_comm start 1 i]
      simp [Nat.add_assoc]

theorem read_congr {m m' : Mem} {start start' n : Nat}
    (h : ∀ i < n, m (start + i) = m' (start' + i)) : read m start n = read m' start' n := by
  apply List.ext_getElem?
  intro i
  rw [getElem?_read, getElem?_read]
  split
  · rename_i hi
    rw [h i hi]
  · rfl

@[simp] theorem read_zero (m : Mem) (start : Nat) : read m start 0 = [] := rfl

theorem read_add (m : Mem) (start a b : Nat) :
    read m start (a + b) = read m start a ++ read m (start + a) b := by
  induction a generalizing start with
  | zero => simp
  | succ a ih => rw [Nat.add_right_comm, read, read, ih, List.cons_append, Nat.add_right_comm, Nat.add_assoc]

theorem write_inside (m : Mem) (start : Nat) (bytes : Bytes) {i : Nat} (hi : i < bytes.length) :
    write m start bytes (start + i) = bytes[i] := by
  simp [write, hi]

theorem write_outside (m : Mem) (start : Nat) (bytes : Bytes) {i : Nat}
    (hi : i < start ∨ start + bytes.length ≤ i) : write m start bytes i = m i := by
  unfold write
  split
  · rw [List.getElem?_eq_none (by omega)]
    rfl
  · rfl

theorem write_congr {m m' : Mem} {start : Nat} {bytes : Bytes}
    (h : ∀ i, i < start ∨ start + bytes.length ≤ i → m i = m' i) : write m start bytes = write m' start bytes := by
  funext i
  by_cases hi : i < start ∨ start + bytes.length ≤ i
  · rw [write_outside m start bytes hi, write_outside m' start bytes hi, h i hi]
  · obtain ⟨j, rfl⟩ := Nat.exists_eq_add_of_le (show start ≤ i by omega)
    rw [write_inside m start bytes (by omega), write_inside m' start bytes (by omega)]

@[simp] theorem write_nil (m : Mem) (start : Nat) : write m start [] = m := by
  funext i
  exact write_outside m start [] (by simp; omega)

theorem write_append (m : Mem) (start : Nat) (xs ys : Bytes) :
    write (write m start xs) (start + xs.length) ys = write m start (xs ++ ys) := by
  funext i
  rcases Nat.lt_or_ge i start with hBefore | hFrom
  · rw [write_outside _ _ _ (Or.inl (by omega)), write_outside _ _ _ (Or.inl hBefore),
      write_outside _ _ _ (Or.inl hBefore)]
  · obtain ⟨j, rfl⟩ := Nat.exists_eq_add_of_le hFrom
    rcases Nat.lt_or_ge j xs.length with hFirst | hSecond
    · rw [write_outside _ _ _ (Or.inl (by omega)), write_inside _ _ _ hFirst,
        write_inside _ _ _ (by rw [List.length_append]; omega), List.getElem_append_left hFirst]
    · obtain ⟨k, rfl⟩ := Nat.exists_eq_add_of_le hSecond
      rcases Nat.lt_or_ge k ys.length with hInside | hBehind
      · rw [← Nat.add_assoc, write_inside _ _ _ hInside, Nat.add_assoc,
          write_inside _ _ _ (by rw [List.length_append]; omega), List.getElem_append_right (by omega)]
        simp
      · rw [write_outside _ _ _ (Or.inr (by omega)), write_outside _ _ _ (Or.inr (by omega)),
          write_outside _ _ _ (Or.inr (by rw [List.length_append]; omega))]

@[simp] theorem read_write_self (m : Mem) (start : Nat) (bytes : Bytes) :
    read (write m start bytes) start bytes.length = bytes := by
  apply List.ext_getElem?
  intro i
  rw [getElem?_read]
  split
  · rename_i hi
    rw [write_inside m start bytes hi, List.getElem?_eq_getElem hi]
  · rw [List.getElem?_eq_none (by omega)]

theorem read_write_disjoint (m : Mem) (start : Nat) (bytes : Bytes) (other n : Nat)
    (h : other + n ≤ start ∨ start + bytes.length ≤ other) :
    read (write m start bytes) other n = read m other n :=
  read_congr fun i _ => write_outside m start bytes (by omega)

theorem read_write_append (m : Mem) (start : Nat) (bytes : Bytes) :
    read (write m start bytes) 0 (start + bytes.length) = read m 0 start ++ bytes := by
  rw [read_add, Nat.zero_add, read_write_self, read_write_disjoint _ _ _ _ _ (by omega)]

theorem read_of_prefix {m : Mem} {start n : Nat} {bytes : Bytes} (h : read m start n = bytes)
    (a b : Nat) (hab : a + b ≤ n) : read m (start + a) b = (bytes.drop a).take b := by
  obtain ⟨c, rfl⟩ := Nat.exists_eq_add_of_le hab
  rw [← h, read_add, read_add, List.append_assoc, List.drop_append_of_le_length (by simp),
    List.drop_of_length_le (by simp), List.nil_append, List.take_append_of_le_length (by simp),
    List.take_of_length_le (by simp)]

theorem read_ofBytes (bytes : Bytes) : read (ofBytes bytes) 0 bytes.length = bytes := by
  apply List.ext_getElem?
  intro i
  rw [getElem?_read, Nat.zero_add, ofBytes]
  split
  · rename_i hi
    rw [List.getD_eq_getElem _ _ hi, List.getElem?_eq_getElem hi]
  · rw [List.getElem?_eq_none (by omega)]

end CsdWorker.Memory
