import Mathlib

/-! # Comparing lists with and without padding

Lists are compared lexicographically, a proper prefix first. Padding brings two lists to one length
before they are compared; what decides behind the common length is then the first element that differs
from the padding.
-/

namespace CsdWorker.Padded

set_option autoImplicit false

universe u

variable {α : Type u} [LinearOrder α]

def lexCmp : List α → List α → Ordering
  | [], [] => .eq
  | [], _ :: _ => .lt
  | _ :: _, [] => .gt
  | x :: xs, y :: ys => (cmp x y).then (lexCmp xs ys)

def pad (blank : α) (n : Nat) (xs : List α) : List α := xs ++ List.replicate (n - xs.length) blank

def paddedCmp (blank : α) (xs ys : List α) : Ordering :=
  lexCmp (pad blank (max xs.length ys.length) xs) (pad blank (max xs.length ys.length) ys)

@[simp] theorem lexCmp_self (xs : List α) : lexCmp xs xs = .eq := by
  induction xs with
  | nil => rfl
  | cons x xs ih => rw [lexCmp, cmp_self_eq_eq, ih, Ordering.eq_then]

theorem lexCmp_swap (xs ys : List α) : (lexCmp xs ys).swap = lexCmp ys xs := by
  induction xs generalizing ys with
  | nil => cases ys <;> rfl
  | cons x xs ih =>
    cases ys with
    | nil => rfl
    | cons y ys => rw [lexCmp, lexCmp, Ordering.swap_then, cmp_swap, ih]

theorem lexCmp_eq_lt_iff (xs ys : List α) : lexCmp xs ys = .lt ↔ xs < ys := by
  induction xs generalizing ys with
  | nil => cases ys <;> simp [lexCmp]
  | cons x xs ih =>
    cases ys with
    | nil => simp [lexCmp]
    | cons y ys => rw [lexCmp, Ordering.then_eq_lt, cmp_eq_lt_iff, cmp_eq_eq_iff, ih, List.cons_lt_cons_iff]

theorem lexCmp_eq_gt_iff (xs ys : List α) : lexCmp xs ys = .gt ↔ ys < xs := by
  rw [← lexCmp_eq_lt_iff, ← lexCmp_swap ys xs]
  cases lexCmp ys xs <;> decide

theorem lexCmp_eq_eq_iff (xs ys : List α) : lexCmp xs ys = .eq ↔ xs = ys := by
  induction xs generalizing ys with
  | nil => cases ys <;> simp [lexCmp]
  | cons x xs ih =>
    cases ys with
    | nil => simp [lexCmp]
    | cons y ys => rw [lexCmp, Ordering.then_eq_eq, cmp_eq_eq_iff, ih, List.cons_eq_cons]

theorem lexCmp_append {xs ys : List α} (h : xs.length = ys.length) (us vs : List α) :
    lexCmp (xs ++ us) (ys ++ vs) = (lexCmp xs ys).then (lexCmp us vs) := by
  induction xs generalizing ys with
  | nil =>
    obtain rfl := List.length_eq_zero_iff.mp h.symm
    rw [lexCmp_self, Ordering.eq_then, List.nil_append, List.nil_append]
  | cons x xs ih =>
    cases ys with
    | nil => cases h
    | cons y ys =>
      rw [List.cons_append, List.cons_append, lexCmp, lexCmp, ih (by simpa using h), Ordering.then_assoc]

theorem lexCmp_nil_left (zs : List α) : lexCmp [] zs = if zs = [] then .eq else .lt := by
  cases zs <;> rfl

theorem lexCmp_take_drop (n : Nat) {xs ys : List α} (hx : n ≤ xs.length) (hy : n ≤ ys.length) :
    lexCmp xs ys = (lexCmp (xs.take n) (ys.take n)).then (lexCmp (xs.drop n) (ys.drop n)) := by
  have hLength : (xs.take n).length = (ys.take n).length := by
    rw [List.length_take_of_le hx, List.length_take_of_le hy]
  rw [← lexCmp_append hLength, List.take_append_drop, List.take_append_drop]

section Padding
variable (blank : α)

omit [LinearOrder α] in
theorem length_pad {n : Nat} {xs : List α} (h : xs.length ≤ n) : (pad blank n xs).length = n := by
  rw [pad, List.length_append, List.length_replicate]
  omega

omit [LinearOrder α] in
theorem pad_pad {m n : Nat} {xs : List α} (hm : xs.length ≤ m) (h : m ≤ n) :
    pad blank n xs = pad blank m xs ++ List.replicate (n - m) blank := by
  rw [pad, pad, List.append_assoc, List.replicate_append_replicate]
  congr 2
  omega

theorem lexCmp_pad {n : Nat} {xs ys : List α} (hx : xs.length ≤ n) (hy : ys.length ≤ n) :
    lexCmp (pad blank n xs) (pad blank n ys) = paddedCmp blank xs ys := by
  have hle : max xs.length ys.length ≤ n := max_le hx hy
  have hLength : (pad blank (max xs.length ys.length) xs).length = (pad blank (max xs.length ys.length) ys).length := by
    rw [length_pad blank (le_max_left _ _), length_pad blank (le_max_right _ _)]
  rw [pad_pad blank (le_max_left _ _) hle, pad_pad blank (le_max_right _ _) hle, lexCmp_append hLength, lexCmp_self,
    paddedCmp, Ordering.then_eq]

theorem paddedCmp_swap (xs ys : List α) : (paddedCmp blank xs ys).swap = paddedCmp blank ys xs := by
  rw [paddedCmp, paddedCmp, lexCmp_swap, max_comm]

section Transitivity
variable {blank} {xs ys zs : List α}

theorem paddedCmp_eq_eq_iff {n : Nat} (hx : xs.length ≤ n) (hy : ys.length ≤ n) :
    paddedCmp blank xs ys = .eq ↔ pad blank n xs = pad blank n ys := by
  rw [← lexCmp_pad blank hx hy, lexCmp_eq_eq_iff]

variable (blank)

theorem paddedCmp_congr_left (h : paddedCmp blank xs ys = .eq) : paddedCmp blank xs zs = paddedCmp blank ys zs := by
  let n := max (max xs.length ys.length) zs.length
  have hx : xs.length ≤ n := le_max_of_le_left (le_max_left _ _)
  have hy : ys.length ≤ n := le_max_of_le_left (le_max_right _ _)
  have hz : zs.length ≤ n := le_max_right _ _
  rw [← lexCmp_pad blank hx hz, ← lexCmp_pad blank hy hz, (paddedCmp_eq_eq_iff hx hy).mp h]

theorem paddedCmp_congr_right (h : paddedCmp blank ys zs = .eq) : paddedCmp blank xs ys = paddedCmp blank xs zs := by
  rw [← paddedCmp_swap, ← paddedCmp_swap blank zs, paddedCmp_congr_left blank h]

theorem paddedCmp_lt_trans (hxy : paddedCmp blank xs ys = .lt) (hyz : paddedCmp blank ys zs = .lt) :
    paddedCmp blank xs zs = .lt := by
  let n := max (max xs.length ys.length) zs.length
  have hx : xs.length ≤ n := le_max_of_le_left (le_max_left _ _)
  have hy : ys.length ≤ n := le_max_of_le_left (le_max_right _ _)
  have hz : zs.length ≤ n := le_max_right _ _
  rw [← lexCmp_pad blank hx hy, lexCmp_eq_lt_iff] at hxy
  rw [← lexCmp_pad blank hy hz, lexCmp_eq_lt_iff] at hyz
  rw [← lexCmp_pad blank hx hz, lexCmp_eq_lt_iff]
  exact lt_trans hxy hyz

end Transitivity

theorem then_of_ne_eq {o : Ordering} (h : o ≠ .eq) (o' : Ordering) : o.then o' = o := by
  cases o with
  | eq => exact absurd rfl h
  | lt => rfl
  | gt => rfl

/-- What the first element that is not blank says about a list of that length. -/
theorem lexCmp_replicate (zs : List α) : lexCmp (List.replicate zs.length blank) zs =
    ((zs.find? (· ≠ blank)).map (cmp blank)).getD .eq := by
  induction zs with
  | nil => rfl
  | cons z zs ih =>
    rw [List.length_cons, List.replicate_succ, lexCmp, ih]
    rcases eq_or_ne z blank with rfl | hne
    · rw [cmp_self_eq_eq, Ordering.eq_then, List.find?_cons_of_neg (by simp)]
    · have hCmp : cmp blank z ≠ .eq := fun h => hne ((cmp_eq_eq_iff blank z).mp h).symm
      rw [List.find?_cons_of_pos (by simpa using hne), then_of_ne_eq hCmp, Option.map_some, Option.getD_some]

theorem paddedCmp_of_le {xs ys : List α} (h : xs.length ≤ ys.length) :
    paddedCmp blank xs ys = (lexCmp xs (ys.take xs.length)).then
      (lexCmp (List.replicate (ys.drop xs.length).length blank) (ys.drop xs.length)) := by
  have hTake : (ys.take xs.length).length = xs.length := List.length_take_of_le h
  have hPad : pad blank ys.length ys = ys.take xs.length ++ ys.drop xs.length := by
    rw [pad, Nat.sub_self, List.replicate_zero, List.append_nil, List.take_append_drop]
  rw [paddedCmp, max_eq_right h, hPad, pad, lexCmp_append hTake.symm, List.length_drop]

end Padding

end CsdWorker.Padded
