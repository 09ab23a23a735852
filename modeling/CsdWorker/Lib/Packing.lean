import Mathlib

/-! # Greedy packing into bounded groups

Items are appended to an open group; an item that would push the open group over the capacity
closes that group first and starts the next one. The number of closed groups is the number of
times such a buffer is flushed.
-/

namespace CsdWorker.Packing

set_option autoImplicit false

universe u

structure Batches (α : Type u) where
  closed : List (List α)
  opened : List α

variable {α : Type u}

def empty : Batches α := ⟨[], []⟩

def groups (p : Batches α) : List (List α) := p.closed ++ [p.opened]

def total (size : α → Nat) (xs : List α) : Nat := (xs.map size).sum

@[simp] theorem total_nil (size : α → Nat) : total size [] = 0 := rfl

@[simp] theorem total_cons (size : α → Nat) (x : α) (xs : List α) :
    total size (x :: xs) = size x + total size xs := rfl

@[simp] theorem total_append (size : α → Nat) (xs ys : List α) :
    total size (xs ++ ys) = total size xs + total size ys := by
  simp [total]

theorem total_length (xs : List (List α)) : total List.length xs = xs.flatten.length := by
  rw [total, List.length_flatten]

theorem total_flatten (size : α → Nat) (xs : List (List α)) : total (total size) xs = total size xs.flatten := by
  induction xs with
  | nil => rfl
  | cons x xs ih => rw [total_cons, List.flatten_cons, total_append, ih]

theorem total_congr {size size' : α → Nat} {xs : List α} (h : ∀ x ∈ xs, size x = size' x) :
    total size xs = total size' xs :=
  congrArg List.sum (List.map_congr_left h)

/-- Sizes that are no larger and have the same sum are the same. -/
theorem eq_of_total_eq {size size' : α → Nat} (hle : ∀ x, size x ≤ size' x) {xs : List α}
    (h : total size xs = total size' xs) : ∀ x ∈ xs, size x = size' x := by
  have hTotal : ∀ ys, total size ys ≤ total size' ys := fun ys => List.sum_le_sum fun x _ => hle x
  induction xs with
  | nil => exact fun x hx => nomatch hx
  | cons x xs ih =>
    rw [total_cons, total_cons] at h
    have hx := hle x
    have hxs := hTotal xs
    exact List.forall_mem_cons.mpr ⟨by omega, ih (by omega)⟩

theorem lt_total {size : α → Nat} {xs : List α} (hPos : ∀ x ∈ xs, 0 < size x) (hLength : 1 < xs.length) {x : α}
    (hx : x ∈ xs) : size x < total size xs := by
  obtain ⟨before, after, rfl⟩ := List.append_of_mem hx
  have hOther : before ++ after ≠ [] := by
    intro hNil
    obtain ⟨rfl, rfl⟩ := List.append_eq_nil_iff.mp hNil
    simp at hLength
  obtain ⟨y, hy⟩ := List.exists_mem_of_ne_nil _ hOther
  have hyPos : 0 < size y := hPos y (by simp at hy ⊢; tauto)
  have hyLe : size y ≤ total size (before ++ after) := List.single_le_sum (by simp) _ (List.mem_map_of_mem hy)
  rw [total_append] at hyLe
  rw [total_append, total_cons]
  omega

def add (size : α → Nat) (cap : Nat) (p : Batches α) (x : α) : Batches α :=
  if cap < total size p.opened + size x then ⟨p.closed ++ [p.opened], [x]⟩
  else ⟨p.closed, p.opened ++ [x]⟩

def pack (size : α → Nat) (cap : Nat) (p : Batches α) (xs : List α) : Batches α :=
  xs.foldl (add size cap) p

section
variable (size : α → Nat) (cap : Nat)

@[simp] theorem pack_nil (p : Batches α) : pack size cap p [] = p := rfl

@[simp] theorem pack_cons (p : Batches α) (x : α) (xs : List α) :
    pack size cap p (x :: xs) = pack size cap (add size cap p x) xs := rfl

@[simp] theorem pack_append (p : Batches α) (xs ys : List α) :
    pack size cap p (xs ++ ys) = pack size cap (pack size cap p xs) ys := by
  simp [pack]

theorem add_of_overflow {p : Batches α} {x : α} (h : cap < total size p.opened + size x) :
    add size cap p x = ⟨p.closed ++ [p.opened], [x]⟩ := if_pos h

theorem add_of_fits {p : Batches α} {x : α} (h : total size p.opened + size x ≤ cap) :
    add size cap p x = ⟨p.closed, p.opened ++ [x]⟩ := if_neg (by omega)

theorem groups_add_flatten (p : Batches α) (x : α) :
    (groups (add size cap p x)).flatten = (groups p).flatten ++ [x] := by
  unfold add
  split <;> simp [groups]

theorem groups_pack_flatten (p : Batches α) (xs : List α) :
    (groups (pack size cap p xs)).flatten = (groups p).flatten ++ xs := by
  induction xs generalizing p with
  | nil => simp
  | cons x xs ih => rw [pack_cons, ih, groups_add_flatten, List.append_assoc, List.singleton_append]

def Fits (p : Batches α) : Prop := ∀ g ∈ groups p, total size g ≤ cap

theorem fits_empty : Fits size cap (empty : Batches α) := by
  intro g hg
  simp only [groups, empty, List.nil_append, List.mem_singleton] at hg
  simp [hg]

theorem fits_add {p : Batches α} {x : α} (hp : Fits size cap p) (hx : size x ≤ cap) :
    Fits size cap (add size cap p x) := by
  intro g hg
  unfold add at hg
  split at hg
  · simp only [groups, List.append_assoc, List.mem_append, List.mem_singleton] at hg
    rcases hg with hg | rfl | rfl
    · exact hp g (by simp [groups, hg])
    · exact hp _ (by simp [groups])
    · simpa using hx
  · simp only [groups, List.mem_append, List.mem_singleton] at hg
    rcases hg with hg | rfl
    · exact hp g (by simp [groups, hg])
    · rw [total_append, total_cons, total_nil]
      omega

theorem fits_pack {p : Batches α} {xs : List α} (hp : Fits size cap p) (hxs : ∀ x ∈ xs, size x ≤ cap) :
    Fits size cap (pack size cap p xs) := by
  induction xs generalizing p with
  | nil => exact hp
  | cons x xs ih =>
    exact ih (fits_add size cap hp (hxs x List.mem_cons_self))
      (fun y hy => hxs y (List.mem_cons_of_mem _ hy))

theorem pack_of_fits {p : Batches α} {xs : List α} (h : total size p.opened + total size xs ≤ cap) :
    pack size cap p xs = ⟨p.closed, p.opened ++ xs⟩ := by
  induction xs generalizing p with
  | nil => rw [pack_nil, List.append_nil]
  | cons x xs ih =>
    rw [total_cons] at h
    rw [pack_cons, add_of_fits size cap (by omega), ih (by rw [total_append, total_cons, total_nil]; omega),
      List.append_assoc, List.singleton_append]

theorem pack_of_overflow {p : Batches α} {x : α} {xs : List α} (h : cap < total size p.opened + size x)
    (hx : size x ≤ cap) : pack size cap p (x :: xs) = pack size cap ⟨p.closed ++ [p.opened], []⟩ (x :: xs) := by
  rw [pack_cons, pack_cons, add_of_overflow size cap h, add_of_fits size cap (by simpa using hx), List.nil_append]

end

section Greedy
variable (size : α → Nat) (cap : Nat)

/-- An item joins the last group if it fits there, and starts a new group otherwise. -/
def put (gs : List (List α)) (x : α) : List (List α) :=
  match gs.getLast? with
  | none => [[x]]
  | some g => if cap < total size g + size x then gs ++ [[x]] else gs.dropLast ++ [g ++ [x]]

def greedy (xs : List α) : List (List α) := xs.foldl (put size cap) []

theorem put_last (gs : List (List α)) (g : List α) (x : α) :
    put size cap (gs ++ [g]) x = if cap < total size g + size x then gs ++ [g] ++ [[x]] else gs ++ [g ++ [x]] := by
  rw [put, List.getLast?_concat, List.dropLast_concat]

theorem greedy_concat (xs : List α) (x : α) : greedy size cap (xs ++ [x]) = put size cap (greedy size cap xs) x := by
  rw [greedy, List.foldl_append]
  rfl

theorem flatten_put (gs : List (List α)) (x : α) : (put size cap gs x).flatten = gs.flatten ++ [x] := by
  rcases List.eq_nil_or_concat' gs with rfl | ⟨before, last, rfl⟩
  · rfl
  · rw [put_last]
    split <;> simp

@[simp] theorem flatten_greedy (xs : List α) : (greedy size cap xs).flatten = xs := by
  induction xs using List.reverseRecOn with
  | nil => rfl
  | append_singleton xs x ih => rw [greedy_concat, flatten_put, ih]

theorem greedy_congr {size size' : α → Nat} {xs : List α} (h : ∀ x ∈ xs, size x = size' x) :
    greedy size cap xs = greedy size' cap xs := by
  induction xs using List.reverseRecOn with
  | nil => rfl
  | append_singleton xs x ih =>
    obtain ⟨hxs, hx⟩ := List.forall_mem_append.mp h
    have hFlatten := flatten_greedy size' cap xs
    rw [greedy_concat, greedy_concat, ih hxs]
    rcases List.eq_nil_or_concat' (greedy size' cap xs) with hNil | ⟨before, last, hLast⟩
    · rw [hNil]
      rfl
    · rw [hLast] at hFlatten ⊢
      have hMem : ∀ y ∈ last, y ∈ xs := by
        intro y hy
        rw [← hFlatten]
        exact List.mem_flatten.mpr ⟨last, by simp, hy⟩
      rw [put_last, put_last, total_congr fun y hy => hxs y (hMem y hy), hx x List.mem_cons_self]

end Greedy

end CsdWorker.Packing
