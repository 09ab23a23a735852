import CsdWorker.Lib.Packing

/-! # Groups of a fixed number of items

Items come into an open group, which is closed behind every `n`-th item whatever the items weigh. The groups are the
consecutive runs of `n` items, and whether all of them stay below a bound can be decided item by item from what the open
group weighs already.
-/

namespace CsdWorker.Grouping

open Packing

set_option autoImplicit false

universe u

section
variable {α : Type u} (size : α → Nat) (n bound : Nat)

def group (xs : List α) (k : Nat) : List α := (xs.drop (n * k)).take n

def GroupsFit (xs : List α) : Prop := ∀ k, total size (group n xs k) ≤ bound

/-- The open group has `counted` items, which weigh `used`; its other items and the next groups are those of `xs`. -/
def FitsFrom (used counted : Nat) (xs : List α) : Prop :=
  used + total size (xs.take (n - counted)) ≤ bound ∧ GroupsFit size n bound (xs.drop (n - counted))

end

variable {α : Type u} {size : α → Nat} {n bound used counted : Nat} {x : α} {xs : List α}

theorem group_succ (xs : List α) (k : Nat) : group n xs (k + 1) = group n (xs.drop n) k := by
  rw [group, group, List.drop_drop, Nat.mul_succ, Nat.add_comm n]

theorem group_sublist (xs : List α) (k : Nat) : (group n xs k).Sublist xs :=
  (List.take_sublist _ _).trans (List.drop_sublist _ _)

theorem total_le_of_sublist {xs ys : List α} (h : xs.Sublist ys) : total size xs ≤ total size ys :=
  (h.map size).sum_le_sum fun _ _ => Nat.zero_le _

theorem groupsFit_of_total (h : total size xs ≤ bound) : GroupsFit size n bound xs := fun k =>
  (total_le_of_sublist (group_sublist xs k)).trans h

theorem groupsFit_iff_drop :
    GroupsFit size n bound xs ↔ total size (xs.take n) ≤ bound ∧ GroupsFit size n bound (xs.drop n) := by
  constructor
  · intro h
    refine ⟨h 0, fun k => ?_⟩
    rw [← group_succ]
    exact h (k + 1)
  · rintro ⟨hFirst, hRest⟩ k
    cases k with
    | zero => exact hFirst
    | succ k =>
      rw [group_succ]
      exact hRest k

theorem fitsFrom_zero : FitsFrom size n bound 0 0 xs ↔ GroupsFit size n bound xs := by
  rw [FitsFrom, Nat.zero_add, Nat.sub_zero, ← groupsFit_iff_drop]

theorem fitsFrom_cons_open (h : counted + 1 < n) :
    FitsFrom size n bound used counted (x :: xs) ↔ FitsFrom size n bound (used + size x) (counted + 1) xs := by
  have hNext : n - counted = n - (counted + 1) + 1 := by omega
  rw [FitsFrom, hNext, List.take_succ_cons, List.drop_succ_cons, total_cons, ← Nat.add_assoc, FitsFrom]

theorem fitsFrom_cons_close (h : counted + 1 = n) :
    FitsFrom size n bound used counted (x :: xs) ↔ used + size x ≤ bound ∧ GroupsFit size n bound xs := by
  have hLast : n - counted = 0 + 1 := by omega
  rw [FitsFrom, hLast, List.take_succ_cons, List.drop_succ_cons, List.take_zero, List.drop_zero, total_cons, total_nil,
    Nat.add_zero]

/-- Items without weight change nothing. -/
theorem fitsFrom_of_weightless (h : ∀ x ∈ xs, size x = 0) : FitsFrom size n bound used counted xs ↔ used ≤ bound := by
  have hZero : ∀ ys, ys.Sublist xs → total size ys = 0 := by
    intro ys hys
    refine List.sum_eq_zero fun weight hWeight => ?_
    obtain ⟨y, hy, rfl⟩ := List.mem_map.mp hWeight
    exact h y (hys.mem hy)
  constructor
  · rintro ⟨hOpen, -⟩
    omega
  · intro hUsed
    refine ⟨?_, groupsFit_of_total ?_⟩
    · rw [hZero _ (List.take_sublist _ _)]
      exact hUsed
    · rw [hZero _ (List.drop_sublist _ _)]
      exact Nat.zero_le _

theorem fitsFrom_cons_of_weightless (hCounted : counted < n) (h : ∀ x ∈ xs, size x = 0) :
    FitsFrom size n bound used counted (x :: xs) ↔ used + size x ≤ bound := by
  obtain hOpen | hClose : counted + 1 < n ∨ counted + 1 = n := by omega
  · rw [fitsFrom_cons_open hOpen, fitsFrom_of_weightless h]
  · rw [fitsFrom_cons_close hClose, ← fitsFrom_zero, fitsFrom_of_weightless h]
    exact and_iff_left (Nat.zero_le _)

theorem FitsFrom.head_le (h : FitsFrom size n bound used counted (x :: xs)) (hCounted : counted < n) :
    used + size x ≤ bound := by
  obtain hOpen | hClose : counted + 1 < n ∨ counted + 1 = n := by omega
  · exact (Nat.le_add_right _ _).trans ((fitsFrom_cons_open hOpen).mp h).1
  · exact ((fitsFrom_cons_close hClose).mp h).1

end CsdWorker.Grouping
