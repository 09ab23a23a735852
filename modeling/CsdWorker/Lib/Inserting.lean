import CsdWorker.Lib.Query

/-! # Lookups that insert

A lookup that inserts what it does not find makes the state larger, and nothing makes it smaller. So a computation
leaves a state as it is exactly if each of its steps does. There is one rule for each way to build a computation.
-/

namespace CsdWorker

set_option autoImplicit false

universe v

section Grows
variable {σ α β : Type v} (size : σ → Nat)

/-- The state is left as it is, or it is larger. -/
def Grows (m : StateT σ Option α) : Prop := ∀ s a s', m.run s = some (a, s') → s' = s ∨ size s < size s'

/-- If the computation returns in `s`, it leaves `s` as it is exactly under the condition. -/
structure KeepsIff (s : σ) (m : StateT σ Option α) (C : Prop) : Prop where
  grows : Grows size m
  keeps : ∀ a s', m.run s = some (a, s') → (s' = s ↔ C)

end Grows

section Rules
variable {σ α β : Type v} {size : σ → Nat} {s : σ} {C D : Prop}

theorem Grows.bind {m : StateT σ Option α} {f : α → StateT σ Option β} (hm : Grows size m)
    (hf : ∀ a, Grows size (f a)) :
    Grows size (m >>= f) := by
  intro t b t' hRun
  obtain ⟨a, t₁, hFirst, hSecond⟩ := run_bind_eq_some hRun
  obtain rfl | hFirst := hm t a t₁ hFirst
  · exact hf a t₁ b t' hSecond
  · obtain rfl | hSecond := hf a t₁ b t' hSecond
    · exact Or.inr hFirst
    · exact Or.inr (hFirst.trans hSecond)

namespace KeepsIff

theorem of_iff {m : StateT σ Option α} (h : KeepsIff size s m C) (hIff : C ↔ D) : KeepsIff size s m D :=
  ⟨h.grows, fun a s' hRun => (h.keeps a s' hRun).trans hIff⟩

protected theorem pure (a : α) : KeepsIff size s (pure a : StateT σ Option α) True := by
  refine ⟨?_, ?_⟩
  · intro t b t' hRun
    cases hRun
    exact Or.inl rfl
  · intro b s' hRun
    cases hRun
    exact iff_of_true rfl trivial

protected theorem failure : KeepsIff size s (failure : StateT σ Option α) C := by
  refine ⟨?_, ?_⟩
  · intro t b t' hRun
    cases hRun
  · intro b s' hRun
    cases hRun

protected theorem lift (o : Option α) : KeepsIff size s (liftM o : StateT σ Option α) True := by
  cases o with
  | none => exact KeepsIff.failure
  | some a => exact KeepsIff.pure a

section Bind
variable {m : StateT σ Option α} {f : α → StateT σ Option β}

/-- What the second part keeps may depend on what the first one answers in `s`. -/
theorem bind_of_answer {D : α → Prop} (hm : KeepsIff size s m C) (hf : ∀ a, KeepsIff size s (f a) (D a)) :
    KeepsIff size s (m >>= f) (C ∧ ∀ a, m.run' s = some a → D a) := by
  refine ⟨hm.grows.bind fun a => (hf a).grows, fun b s' hRun => ?_⟩
  obtain ⟨a, s₁, hFirst, hSecond⟩ := run_bind_eq_some hRun
  have hAnswer : m.run' s = some a := run'_eq_some_iff.mpr ⟨s₁, hFirst⟩
  by_cases hSame : s₁ = s
  · subst hSame
    rw [(hf a).keeps b s' hSecond]
    refine ⟨fun hD => ⟨(hm.keeps a s₁ hFirst).mp rfl, fun a' ha' => ?_⟩, fun h => h.2 a hAnswer⟩
    rw [hAnswer] at ha'
    cases ha'
    exact hD
  · -- what was inserted by the first part is not taken out by the second
    have hLarger := (hm.grows s a s₁ hFirst).resolve_left hSame
    refine iff_of_false ?_ fun h => hSame ((hm.keeps a s₁ hFirst).mpr h.1)
    rintro rfl
    obtain rfl | hSecond := (hf a).grows s₁ b s' hSecond
    · exact hSame rfl
    · omega

protected theorem bind (hm : KeepsIff size s m C) (hf : ∀ a, KeepsIff size s (f a) D) :
  KeepsIff size s (m >>= f) (C ∧ D) := by
  have hBind := hm.bind_of_answer hf
  refine ⟨hBind.grows, fun b s' hRun => (hBind.keeps b s' hRun).trans (and_congr_right fun _ => ?_)⟩
  obtain ⟨a, s₁, hFirst, -⟩ := run_bind_eq_some hRun
  exact ⟨fun h => h a (run'_eq_some_iff.mpr ⟨s₁, hFirst⟩), fun hD _ _ => hD⟩

theorem bind_left (hm : KeepsIff size s m C) (hf : ∀ a, KeepsIff size s (f a) True) : KeepsIff size s (m >>= f) C :=
  (hm.bind hf).of_iff (iff_of_eq (and_true C))

theorem lift_bind {o : Option α} (hf : ∀ a, o = some a → KeepsIff size s (f a) C) :
    KeepsIff size s ((liftM o : StateT σ Option α) >>= f) C := by
  cases o with
  | none => exact KeepsIff.failure
  | some a => exact hf a rfl

theorem lift_bind_of_some {o : Option α} {D : α → Prop} (hf : ∀ a, o = some a → KeepsIff size s (f a) (D a)) :
    KeepsIff size s ((liftM o : StateT σ Option α) >>= f) (∀ a, o = some a → D a) :=
  lift_bind fun a ha =>
    (hf a ha).of_iff ⟨fun hD b hb => by rwa [← Option.some_inj.mp (ha.symm.trans hb)], fun h => h a ha⟩

theorem get_bind {f : σ → StateT σ Option β} (hf : ∀ t, KeepsIff size s (f t) C) : KeepsIff size s (get >>= f) C :=
  ⟨fun t b t' hRun => (hf t).grows t b t' hRun, fun b s' hRun => (hf s).keeps b s' hRun⟩

end Bind

end KeepsIff

end Rules

end CsdWorker
