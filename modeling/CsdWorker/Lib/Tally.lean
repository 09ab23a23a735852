import Mathlib

/-! # How many threads are in a state

`tally f v` is the number of indices where `f` is `v`; `f` says for each thread where it is. A step of one thread
updates `f` at one index.
-/

namespace CsdWorker.Tally

set_option autoImplicit false

universe u v

variable {ι : Type u} {β : Type v} [Fintype ι] [DecidableEq β]

def tally (f : ι → β) (b : β) : Nat := (Finset.univ.filter fun i => f i = b).card

variable {f : ι → β} {i : ι} {b : β}

theorem tally_eq_zero_iff : tally f b = 0 ↔ ∀ i, f i ≠ b := by
  rw [tally, Finset.card_eq_zero, Finset.filter_eq_empty_iff]
  simp

/-- The values of a partial function on the threads, with multiplicity. -/
theorem count_filterMap_univ (g : ι → Option β) (b : β) :
    (Finset.univ.val.filterMap g).count b = tally g (some b) := by
  have hCount :
    ∀ threads : Multiset ι, (threads.filterMap g).count b = (threads.filter fun i => g i = some b).card := by
    intro threads
    induction threads using Multiset.induction with
    | empty => rfl
    | cons i threads ih =>
      by_cases hi : g i = some b
      · rw [Multiset.filterMap_cons_some g i threads hi, Multiset.count_cons_self, ih,
          Multiset.filter_cons_of_pos (p := fun i => g i = some b) threads hi, Multiset.card_cons]
      · rw [Multiset.filter_cons_of_neg (p := fun i => g i = some b) threads hi, ← ih]
        cases hg : g i with
        | none => rw [Multiset.filterMap_cons_none i threads hg]
        | some c =>
          rw [Multiset.filterMap_cons_some g i threads hg, Multiset.count_cons_of_ne]
          rintro rfl
          exact hi hg
  exact hCount Finset.univ.val

variable [DecidableEq ι]

/-- The index counts where it was no longer, and where it is now. -/
theorem tally_update (f : ι → β) (i : ι) (c b : β) :
    tally (Function.update f i c) b + (if f i = b then 1 else 0) = tally f b + if c = b then 1 else 0 := by
  have hSplit : ∀ g : ι → β,
      tally g b = (if g i = b then 1 else 0) + ∑ j ∈ Finset.univ.erase i, if g j = b then 1 else 0 := by
    intro g
    rw [tally, Finset.card_filter]
    exact (Finset.add_sum_erase Finset.univ (fun j => if g j = b then 1 else 0) (Finset.mem_univ i)).symm
  have hOther : ∑ j ∈ Finset.univ.erase i, (if Function.update f i c j = b then 1 else 0) =
      ∑ j ∈ Finset.univ.erase i, if f j = b then 1 else 0 := by
    refine Finset.sum_congr rfl fun j hj => ?_
    rw [Function.update_of_ne (Finset.ne_of_mem_erase hj)]
  rw [hSplit f, hSplit (Function.update f i c), hOther, Function.update_self]
  omega

theorem tally_update_of_ne {c : β} (hBefore : f i ≠ b) (hAfter : c ≠ b) :
    tally (Function.update f i c) b = tally f b := by
  have hUpdate := tally_update f i c b
  rwa [if_neg hBefore, if_neg hAfter] at hUpdate

theorem tally_enter {c : β} (hBefore : f i ≠ c) : tally (Function.update f i c) c = tally f c + 1 := by
  have hUpdate := tally_update f i c c
  rwa [if_neg hBefore, if_pos rfl] at hUpdate

theorem tally_leave {c : β} (hBefore : f i = b) (hAfter : c ≠ b) : tally (Function.update f i c) b + 1 = tally f b := by
  have hUpdate := tally_update f i c b
  rwa [if_pos hBefore, if_neg hAfter] at hUpdate

theorem tally_update_eq_zero_iff {c : β} (hAfter : c ≠ b) :
    tally (Function.update f i c) b = 0 ↔ ∀ j, j ≠ i → f j ≠ b := by
  rw [tally_eq_zero_iff]
  constructor
  · intro h j hj
    have hAt := h j
    rwa [Function.update_of_ne hj] at hAt
  · intro h j
    by_cases hj : j = i
    · rw [hj, Function.update_self]
      exact hAfter
    · rw [Function.update_of_ne hj]
      exact h j hj

end CsdWorker.Tally
