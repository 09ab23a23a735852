import Mathlib

/-! # Passing on

Something that is only appended to is passed on from the front, one element after the other.
-/

namespace CsdWorker.Forward

set_option autoImplicit false

universe u v

variable {α : Type u} {β : Type v} {R : α → β → Prop} {source : List α} {sent : List β}

/-- What was sent is what became of the first elements of the source. -/
def Forwarded (R : α → β → Prop) (source : List α) (sent : List β) : Prop :=
  ∃ done rest, source = done ++ rest ∧ List.Forall₂ R done sent

theorem forwarded_nil : Forwarded R source [] := ⟨[], source, rfl, .nil⟩

theorem Forwarded.grow {source' : List α} (h : Forwarded R source sent) (hPrefix : source <+: source') :
    Forwarded R source' sent := by
  obtain ⟨done, rest, rfl, hSent⟩ := h
  obtain ⟨more, rfl⟩ := hPrefix
  exact ⟨done, rest ++ more, List.append_assoc _ _ _, hSent⟩

theorem Forwarded.next {a : α} {b : β} (h : Forwarded R source sent) (hNext : source[sent.length]? = some a)
    (hR : R a b) :
    Forwarded R source (sent ++ [b]) := by
  obtain ⟨done, rest, rfl, hSent⟩ := h
  rw [← hSent.length_eq, List.getElem?_append_right le_rfl, Nat.sub_self] at hNext
  cases rest with
  | nil => cases hNext
  | cons first rest =>
    obtain rfl := Option.some_inj.mp hNext
    exact ⟨done ++ [first], rest, (List.append_assoc done [first] rest).symm, List.rel_append hSent (.cons hR .nil)⟩

theorem Forwarded.all (h : Forwarded R source sent) (hEnd : source[sent.length]? = none) :
    List.Forall₂ R source sent := by
  obtain ⟨done, rest, rfl, hSent⟩ := h
  rw [← hSent.length_eq, List.getElem?_append_right le_rfl, Nat.sub_self] at hEnd
  cases rest with
  | nil => rwa [List.append_nil]
  | cons first rest => cases hEnd

section Sent
variable {done rest : List α}

/-- If all of the source has been sent, nothing is left of it. -/
theorem done_eq_source (hAll : List.Forall₂ R source sent) (hSplit : source = done ++ rest)
    (hDone : List.Forall₂ R done sent) : done = source := by
  have hLength := hAll.length_eq
  rw [← hDone.length_eq, hSplit, List.length_append, Nat.add_eq_left, List.length_eq_zero_iff] at hLength
  rw [hSplit, hLength, List.append_nil]

/-- What is true of each element that was sent may be used for what became of it. -/
theorem forall₂_of_forall_sent {S : α → β → Prop} {p : β → Prop} (hDone : List.Forall₂ R done sent)
    (hp : ∀ b ∈ sent, p b) (hS : ∀ {a b}, R a b → p b → S a b) : List.Forall₂ S done sent := by
  induction hDone with
  | nil => exact .nil
  | cons hHead _ ih =>
    obtain ⟨hFirst, hRest⟩ := List.forall_mem_cons.mp hp
    exact .cons (hS hHead hFirst) (ih hRest)

end Sent

end CsdWorker.Forward
