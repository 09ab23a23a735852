import CsdWorker.Lib.Endian

/-! # Readers of a byte layout

A reader starts at a position in memory and gives a value with the position behind what it has read.
`Reads` relates a reader to the bytes of one value, whatever lies behind them; it composes as readers do.
-/

namespace CsdWorker.Layout

open Memory Endian

set_option autoImplicit false

def Reader (α : Type) : Type := Mem → Nat → Option (α × Nat)

instance : Monad Reader where
  pure a := fun _ pos => some (a, pos)
  bind p f := fun m pos => (p m pos).bind fun r => f r.1 m r.2

section Model
variable {α : Type}

def int (width : Nat) : Reader Int := fun m pos => some (leInt (read m pos width), pos + width)

/-- The copy of an array of `n` elements of `width` bytes. It has no elements behind these; a negative
number is a copy that fails. -/
def array (width : Nat) (n : Int) (outside : α) (decode : Bytes → α) : Reader (Nat → α) := fun m pos =>
  if n < 0 then none
  else some (fun i => if i < n.toNat then decode (read m (pos + width * i) width) else outside, pos + width * n.toNat)

def many (p : Reader α) : Nat → Reader (List α)
  | 0 => pure []
  | n + 1 => do
    let a ← p
    let as ← many p n
    pure (a :: as)

end Model

variable {α β γ : Type}

def Reads (p : Reader α) (bytes : Bytes) (a : α) : Prop :=
  ∀ m pos, read m pos bytes.length = bytes → p m pos = some (a, pos + bytes.length)

theorem read_append {m : Mem} {pos : Nat} {xs ys : Bytes} (h : read m pos (xs ++ ys).length = xs ++ ys) :
    read m pos xs.length = xs ∧ read m (pos + xs.length) ys.length = ys := by
  rw [List.length_append, read_add] at h
  exact List.append_inj h (length_read _ _ _)

theorem reads_pure (a : α) : Reads (pure a) [] a := fun _ _ _ => rfl

theorem Reads.bind {p : Reader α} {f : α → Reader β} {xs ys : Bytes} {a : α} {b : β} (hp : Reads p xs a)
    (hf : Reads (f a) ys b) : Reads (p >>= f) (xs ++ ys) b := by
  intro m pos h
  obtain ⟨hxs, hys⟩ := read_append h
  change (p m pos).bind _ = _
  rw [hp m pos hxs, List.length_append, ← Nat.add_assoc]
  exact hf m (pos + xs.length) hys

/-- The last reader of a sequence has nothing behind it. -/
theorem Reads.bind_pure {p : Reader α} {f : α → β} {xs : Bytes} {a : α} (hp : Reads p xs a) :
    Reads (p >>= fun a => pure (f a)) xs (f a) := by
  have h := hp.bind (f := fun a => (pure (f a) : Reader β)) (reads_pure (f a))
  rwa [List.append_nil] at h

theorem reads_int {width : Nat} {x : Int} (hLow : -(256 ^ width : Nat) ≤ 2 * x) (hHigh : 2 * x < (256 ^ width : Nat)) :
    Reads (int width) (intLe width x) x := by
  intro m pos h
  rw [length_intLe] at h ⊢
  rw [int, h, leInt_intLe hLow hHigh]

theorem read_flatMap {encode : β → Bytes} {width : Nat} {xs : List β} (hWidth : ∀ x, (encode x).length = width)
    {m : Mem} {pos : Nat} (h : read m pos (xs.flatMap encode).length = xs.flatMap encode) {i : Nat}
    (hi : i < xs.length) :
    read m (pos + width * i) width = encode xs[i] := by
  induction xs generalizing pos i with
  | nil => cases hi
  | cons x xs ih =>
    obtain ⟨hFirst, hRest⟩ := read_append h
    rw [hWidth] at hFirst hRest
    cases i with
    | zero => exact hFirst
    | succ i =>
      have hNext := ih hRest (Nat.lt_of_succ_lt_succ hi)
      rw [Nat.add_assoc, Nat.add_comm width, ← Nat.mul_succ] at hNext
      exact hNext

theorem length_flatMap_const {encode : β → Bytes} {width : Nat} (hWidth : ∀ x, (encode x).length = width)
    (xs : List β) :
    (xs.flatMap encode).length = width * xs.length := by
  rw [List.length_flatMap]
  simp only [hWidth, List.map_const', List.sum_replicate, smul_eq_mul, Nat.mul_comm]

theorem reads_array (encode : β → Bytes) (decode : Bytes → α) (f : β → α) {width : Nat}
    (hWidth : ∀ x, (encode x).length = width) (hDecode : ∀ x, decode (encode x) = f x) (outside : α) (xs : List β) :
    Reads (array width xs.length outside decode) (xs.flatMap encode) fun i => (xs.map f).getD i outside := by
  intro m pos h
  rw [array, if_neg (by omega), Int.toNat_natCast, length_flatMap_const hWidth]
  congr 2
  funext i
  split
  · rename_i hi
    rw [read_flatMap hWidth h hi, hDecode, List.getD_eq_getElem _ _ (by simpa using hi), List.getElem_map]
  · rename_i hi
    rw [List.getD_eq_default _ _ (by simpa using hi)]

theorem reads_many {p : Reader α} {encode : β → Bytes} {f : β → α} (h : ∀ x, Reads p (encode x) (f x)) (xs : List β) :
    Reads (many p xs.length) (xs.flatMap encode) (xs.map f) := by
  induction xs with
  | nil => exact reads_pure []
  | cons x xs ih => exact (h x).bind ih.bind_pure

end CsdWorker.Layout
