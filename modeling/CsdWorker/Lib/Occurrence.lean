import Mathlib

/-! # Occurrences of strings in a string

`findFrom` is the search that returns the first occurrence at or after a position. `Placed` says
that a list of strings can be laid into a string one after the other without overlap.
-/

namespace CsdWorker.Occurrence

set_option autoImplicit false

universe u

variable {α : Type u}

def OccursAt (s t : List α) (i : Nat) : Prop := t <+: s.drop i

theorem OccursAt.le_length {s t : List α} {i : Nat} (h : OccursAt s t i) (ht : t ≠ []) :
    i + t.length ≤ s.length := by
  have hLength := h.length_le
  have hPos := List.length_pos_iff.mpr ht
  rw [List.length_drop] at hLength
  omega

section Find
variable [DecidableEq α]

instance (s t : List α) (i : Nat) : Decidable (OccursAt s t i) := inferInstanceAs (Decidable (t <+: s.drop i))

def findFrom (s t : List α) (pos : Nat) : Option Nat :=
  (List.range' pos (s.length + 1 - pos)).find? fun i => decide (OccursAt s t i)

theorem findFrom_eq_some_iff {s t : List α} (ht : t ≠ []) {pos i : Nat} :
    findFrom s t pos = some i ↔ pos ≤ i ∧ OccursAt s t i ∧ ∀ j, pos ≤ j → j < i → ¬ OccursAt s t j := by
  rw [findFrom, List.find?_range'_eq_some]
  simp only [decide_eq_true_eq, List.mem_range'_1, Bool.not_eq_eq_eq_not, Bool.not_true, decide_eq_false_iff_not]
  constructor
  · rintro ⟨hOccurs, ⟨hPos, -⟩, hFirst⟩
    exact ⟨hPos, hOccurs, hFirst⟩
  · rintro ⟨hPos, hOccurs, hFirst⟩
    have hLength := hOccurs.le_length ht
    exact ⟨hOccurs, ⟨hPos, by omega⟩, hFirst⟩

theorem findFrom_isSome {s t : List α} (ht : t ≠ []) {pos i : Nat} (hPos : pos ≤ i) (h : OccursAt s t i) :
    ∃ j ≤ i, findFrom s t pos = some j := by
  have hLength := h.le_length ht
  cases hFind : findFrom s t pos with
  | none =>
    rw [findFrom, List.find?_eq_none] at hFind
    exact absurd (decide_eq_true h) (hFind i (List.mem_range'_1.mpr ⟨hPos, by omega⟩))
  | some j =>
    refine ⟨j, ?_, rfl⟩
    by_contra hj
    exact ((findFrom_eq_some_iff ht).mp hFind).2.2 i hPos (by omega) h

end Find

/-- The strings occur from position `n` on, in order and without overlap; with `anchored` the
last of them reaches the end. -/
def Placed (s : List α) (anchored : Bool) : List (List α) → Nat → Prop
  | [], n => anchored = true → s.length ≤ n
  | t :: ts, n => ∃ i, n ≤ i ∧ OccursAt s t i ∧ Placed s anchored ts (i + t.length)

theorem Placed.last_occursAt {s : List α} {ts : List (List α)} {n : Nat} (h : Placed s true ts n)
    (hne : ∀ t ∈ ts, t ≠ []) {last : List α} (hLast : ts.getLast? = some last) :
    OccursAt s last (s.length - last.length) := by
  induction ts generalizing n with
  | nil => cases hLast
  | cons t ts ih =>
    obtain ⟨i, -, hOccurs, hRest⟩ := h
    cases ts with
    | nil =>
      rw [List.getLast?_singleton, Option.some.injEq] at hLast
      subst hLast
      have hLength := hOccurs.le_length (hne t List.mem_cons_self)
      have hEnd : s.length ≤ i + t.length := hRest rfl
      rwa [show s.length - t.length = i by omega]
    | cons t' ts =>
      rw [List.getLast?_cons_cons] at hLast
      exact ih hRest (fun x hx => hne x (List.mem_cons_of_mem _ hx)) hLast

end CsdWorker.Occurrence
