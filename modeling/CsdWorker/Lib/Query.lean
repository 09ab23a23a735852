import Mathlib

/-! # Queries

Computations over a state that is only looked up. In equivalent states they answer the same, they leave a state
behind that is equivalent to the one they found, and each answer has a given property. There is one rule for each
way to build a computation.
-/

namespace CsdWorker

set_option autoImplicit false

universe v

section Run
variable {σ α β : Type v} {m : StateT σ Option α} {f : α → StateT σ Option β} {s : σ}

theorem run'_eq_some_iff {a : α} :
    m.run' s = some a ↔ ∃ s', m.run s = some (a, s') := by
  rw [StateT.run'_eq, Option.map_eq_map, Option.map_eq_some_iff]
  constructor
  · rintro ⟨⟨b, s'⟩, hRun, rfl⟩
    exact ⟨s', hRun⟩
  · rintro ⟨s', hRun⟩
    exact ⟨(a, s'), hRun, rfl⟩

theorem run_bind_eq_some {s' : σ} {b : β} (h : (m >>= f).run s = some (b, s')) :
    ∃ a t, m.run s = some (a, t) ∧ (f a).run t = some (b, s') := by
  rw [StateT.run_bind, Option.bind_eq_bind, Option.bind_eq_some_iff] at h
  obtain ⟨⟨a, t⟩, hm, hf⟩ := h
  exact ⟨a, t, hm, hf⟩

theorem run'_bind_pure {a : α} (h : m.run' s = some a) (g : α → β) :
    (m >>= fun a => pure (g a)).run' s = some (g a) := by
  obtain ⟨t, hRun⟩ := run'_eq_some_iff.mp h
  rw [StateT.run'_eq, StateT.run_bind, hRun]
  rfl

theorem lift_some_bind (a : α) (f : α → StateT σ Option β) : (liftM (some a) : StateT σ Option α) >>= f = f a := rfl

theorem run_get_bind (f : σ → StateT σ Option β) (s : σ) : (get >>= f).run s = (f s).run s := rfl

theorem run_lift_bind (o : Option α) (f : α → StateT σ Option β) (s : σ) :
    ((liftM o : StateT σ Option α) >>= f).run s = o.bind fun a => (f a).run s := by
  cases o <;> rfl

theorem run'_get_bind (f : σ → StateT σ Option β) (s : σ) : (get >>= f).run' s = (f s).run' s := rfl

theorem run'_lift_bind (o : Option α) (f : α → StateT σ Option β) (s : σ) :
    ((liftM o : StateT σ Option α) >>= f).run' s = o.bind fun a => (f a).run' s := by
  cases o <;> rfl

end Run

structure Query {σ α : Type v} [Setoid σ] (m : StateT σ Option α) (P : α → Prop) : Prop where
  same : ∀ {s t : σ}, s ≈ t → m.run' s = m.run' t
  keeps : ∀ {s s' : σ} {a : α}, m.run s = some (a, s') → s ≈ s'
  answer : ∀ {s s' : σ} {a : α}, m.run s = some (a, s') → P a

namespace Query

variable {σ α β : Type v} [Setoid σ] {P : α → Prop} {Q : β → Prop}

theorem answer_run' {m : StateT σ Option α} (h : Query m P) {s : σ} {a : α} (hRun : m.run' s = some a) : P a := by
  obtain ⟨s', hRun⟩ := run'_eq_some_iff.mp hRun
  exact h.answer hRun

theorem mono {m : StateT σ Option α} {P' : α → Prop} (h : Query m P) (hP : ∀ a, P a → P' a) : Query m P' :=
  ⟨h.same, h.keeps, fun hRun => hP _ (h.answer hRun)⟩

protected theorem pure {a : α} (h : P a) : Query (pure a : StateT σ Option α) P where
  same _ := rfl
  keeps hRun := by
    cases hRun
    exact Setoid.refl _
  answer hRun := by
    cases hRun
    exact h

protected theorem lift {o : Option α} (h : ∀ a, o = some a → P a) : Query (liftM o : StateT σ Option α) P := by
  cases o with
  | none =>
    refine ⟨fun _ => rfl, fun hRun => ?_, fun hRun => ?_⟩
    · cases hRun
    · cases hRun
  | some a => exact Query.pure (h a rfl)

protected theorem failure : Query (failure : StateT σ Option α) P := by
  refine ⟨fun _ => rfl, fun hRun => ?_, fun hRun => ?_⟩
  · cases hRun
  · cases hRun

section Bind
variable {m : StateT σ Option α} {f : α → StateT σ Option β}

/-- The second computation may as well start where the first one did. -/
theorem run'_bind (hm : Query m P) (hf : ∀ a, P a → Query (f a) Q) (s : σ) :
    (m >>= f).run' s = (m.run' s).bind fun a => (f a).run' s := by
  rw [StateT.run'_eq, StateT.run'_eq, StateT.run_bind]
  cases hRun : m.run s with
  | none => rfl
  | some p =>
    obtain ⟨a, t⟩ := p
    exact ((hf a (hm.answer hRun)).same (hm.keeps hRun)).symm

theorem run'_bind_of_eq_some (hm : Query m P) {s : σ} {a : α} (hf : Query (f a) Q) (hRun : m.run' s = some a) :
    (m >>= f).run' s = (f a).run' s := by
  obtain ⟨t, hRun⟩ := run'_eq_some_iff.mp hRun
  rw [StateT.run'_eq, StateT.run_bind, hRun]
  exact (hf.same (hm.keeps hRun)).symm

protected theorem bind (hm : Query m P) (hf : ∀ a, P a → Query (f a) Q) : Query (m >>= f) Q where
  same {s t} h := by
    rw [run'_bind hm hf, run'_bind hm hf, hm.same h]
    apply Option.bind_congr
    intro a ha
    exact (hf a (hm.answer_run' ha)).same h
  keeps h := by
    obtain ⟨a, t, hRun, hRest⟩ := run_bind_eq_some h
    exact Setoid.trans (hm.keeps hRun) ((hf a (hm.answer hRun)).keeps hRest)
  answer h := by
    obtain ⟨a, t, hRun, hRest⟩ := run_bind_eq_some h
    exact (hf a (hm.answer hRun)).answer hRest

theorem lift_bind {o : Option α} (hf : ∀ a, o = some a → Query (f a) Q) :
    Query ((liftM o : StateT σ Option α) >>= f) Q :=
  Query.bind (Query.lift fun _ h => h) hf

/-- Only what equivalent states have in common may be read from the state. -/
theorem get_bind {f : σ → StateT σ Option β} (hf : ∀ s, Query (f s) Q) (hSame : ∀ s t, s ≈ t → f s = f t) :
    Query (get >>= f) Q where
  same {s t} h := by
    have hEq := (hf s).same h
    rwa [show (f s).run' t = (f t).run' t by rw [hSame s t h]] at hEq
  keeps {s _ _} h := (hf s).keeps h
  answer {s _ _} h := (hf s).answer h

end Bind

end Query

end CsdWorker
