import Mathlib

/-! # Runs of a step function

`run` performs a list of actions, one after the other; a step that is not possible ends it.
-/

namespace CsdWorker.Run

set_option autoImplicit false

universe u v

variable {σ : Type u} {α : Type v} {step : σ → α → Option σ}

def run (step : σ → α → Option σ) (s : σ) (actions : List α) : Option σ := actions.foldlM step s

theorem run_cons {s : σ} {a : α} {actions : List α} :
    run step s (a :: actions) = (step s a).bind fun s' => run step s' actions := by
  rw [run, List.foldlM_cons]
  rfl

theorem run_append {s : σ} {before after : List α} :
    run step s (before ++ after) = (run step s before).bind fun s' => run step s' after :=
  List.foldlM_append

/-- Translating all actions first and then performing them is translating each one when it is performed. -/
theorem run_mapM {β : Type v} (step : σ → α → Option σ) (translate : β → Option α) (s : σ) (actions : List β) :
    (actions.mapM translate).bind (run step s) = run (fun s b => (translate b).bind (step s)) s actions := by
  induction actions generalizing s with
  | nil => rfl
  | cons b actions ih =>
    rw [List.mapM_cons, run_cons]
    cases translate b with
    | none => rfl
    | some a =>
      have hRest : ((actions.mapM translate).bind fun as => run step s (a :: as)) =
          (step s a).bind fun s' => run (fun s b => (translate b).bind (step s)) s' actions := by
        simp only [run_cons]
        cases step s a with
        | none => exact Option.bind_fun_none _
        | some s' => exact ih s'
      refine Eq.trans ?_ hRest
      cases actions.mapM translate with
      | none => rfl
      | some as => rfl

/-- What every step preserves holds after every run. `A` is what the actions of the run have in common. -/
theorem run_preserves_of {I : σ → Prop} {A : α → Prop} (hStep : ∀ s a s', A a → I s → step s a = some s' → I s')
    {s s' : σ} {actions : List α} (hActions : ∀ a ∈ actions, A a) (hs : I s) (h : run step s actions = some s') :
    I s' := by
  induction actions generalizing s with
  | nil =>
    obtain rfl : s = s' := by simpa [run] using h
    exact hs
  | cons a actions ih =>
    rw [run_cons] at h
    obtain ⟨t, hFirst, hRest⟩ := Option.bind_eq_some_iff.mp h
    obtain ⟨ha, hActions⟩ := List.forall_mem_cons.mp hActions
    exact ih hActions (hStep s a t ha hs hFirst) hRest

theorem run_preserves {I : σ → Prop} (hStep : ∀ s a s', I s → step s a = some s' → I s') {s s' : σ}
    {actions : List α} (hs : I s) (h : run step s actions = some s') : I s' :=
  run_preserves_of (A := fun _ => True) (fun s a s' _ => hStep s a s') (fun _ _ => trivial) hs h

/-- A run goes through good states only if each of its steps meets a condition, on the state and the action, under which
a step from a good state leads to a good state. -/
theorem run_always_of {I : σ → Prop} {C : σ → α → Prop} (hStep : ∀ s a s', I s → C s a → step s a = some s' → I s')
    {s : σ} {actions : List α} (hs : I s)
    (hEach : ∀ n a s', actions[n]? = some a → run step s (actions.take n) = some s' → C s' a) (n : Nat) {s' : σ}
    (h : run step s (actions.take n) = some s') : I s' := by
  induction n generalizing s' with
  | zero =>
    obtain rfl := Option.some_inj.mp h
    exact hs
  | succ n ih =>
    rw [List.take_add_one, run_append] at h
    obtain ⟨t, ht, hLast⟩ := Option.bind_eq_some_iff.mp h
    cases hGet : actions[n]? with
    | none =>
      rw [hGet] at hLast
      obtain rfl := Option.some_inj.mp hLast
      exact ih ht
    | some a =>
      rw [hGet, Option.toList_some, run_cons] at hLast
      obtain ⟨u, hu, hEnd⟩ := Option.bind_eq_some_iff.mp hLast
      obtain rfl := Option.some_inj.mp hEnd
      exact hStep t a u (ih ht) (hEach n a t hGet ht) hu

/-- If the condition is also necessary for such a step, it is necessary for the run. -/
theorem run_always_iff {I : σ → Prop} {C : σ → α → Prop}
    (hStep : ∀ s a s', I s → step s a = some s' → (I s' ↔ C s a)) {s t : σ} {actions : List α} (hs : I s)
    (hRun : run step s actions = some t) :
    (∀ n s', run step s (actions.take n) = some s' → I s') ↔
      ∀ n a s', actions[n]? = some a → run step s (actions.take n) = some s' → C s' a := by
  constructor
  · intro hAll n a s' hGet hs'
    -- the run goes on behind the action, so the state behind it is one of the run's
    have hNext : run step s (actions.take (n + 1)) = step s' a := by
      rw [List.take_add_one, run_append, hs', Option.bind_some, hGet, Option.toList_some, run_cons]
      exact Option.bind_fun_some _
    rw [← List.take_append_drop (n + 1) actions, run_append, hNext] at hRun
    obtain ⟨u, hu, -⟩ := Option.bind_eq_some_iff.mp hRun
    exact (hStep s' a u (hAll n s' hs') hu).mp (hAll (n + 1) u (hNext.trans hu))
  · intro hEach n s' hs'
    exact run_always_of (fun s a s' hI hC hNext => (hStep s a s' hI hNext).mpr hC) hs hEach n hs'

/-- A measure that pays for every step, up to what the action brings in, bounds the number of steps of a run. -/
theorem run_length_le {I : σ → Prop} {μ : σ → Nat} {g : α → Nat}
    (hStep : ∀ s a s', I s → step s a = some s' → I s' ∧ μ s' + 1 ≤ μ s + g a) {s s' : σ} {actions : List α}
    (hs : I s) (h : run step s actions = some s') : actions.length + μ s' ≤ μ s + (actions.map g).sum := by
  induction actions generalizing s with
  | nil =>
    obtain rfl := Option.some_inj.mp h
    simp
  | cons a actions ih =>
    rw [run_cons] at h
    obtain ⟨t, hFirst, hRest⟩ := Option.bind_eq_some_iff.mp h
    obtain ⟨ht, hPaid⟩ := hStep s a t hs hFirst
    have hTail := ih ht hRest
    rw [List.length_cons, List.map_cons, List.sum_cons]
    omega

end CsdWorker.Run
