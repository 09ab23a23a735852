import CsdWorker.Lib.Quota
import CsdWorker.WorkQueue

/-! # Every item of a queue is returned

A push onto a queue that is not empty notifies nobody, so a worker may sleep while there is work. The queue as a whole
does not stall: as long as there is work, some worker is awake or about to be woken. And a worker that comes back to
the queue after each item takes the items that nobody was woken for.
-/

namespace CsdWorker.WorkQueue

open Run Quota

set_option autoImplicit false

universe u v w

variable {P : Type u} {C : Type v} {α : Type w} {s s' : QueueState P C α} {a : Action P C α}

/-- There is work and every consumer sleeps, and nobody is going to wake one. -/
def Stalled (s : QueueState P C α) : Prop :=
  s.work ≠ [] ∧ (∀ j, s.consumer j = .blocked) ∧ ∀ i, s.notifying i = false

section Stall
variable [DecidableEq P] [DecidableEq C] [Nonempty C]

theorem not_stalled_step (hMoves : Moves s a s') (hs : ¬Stalled s) : ¬Stalled s' := by
  rintro ⟨hWork, hBlocked, hNotifying⟩
  cases hMoves with
  | push i item hIdle =>
    -- a push that notifies nobody has found work, and it wakes nobody
    have hNonempty : s.work.isEmpty = false := (Function.update_self _ _ _).symm.trans (hNotifying i)
    refine hs ⟨List.isEmpty_eq_false_iff.mp hNonempty, hBlocked, fun i' => ?_⟩
    obtain rfl | hi := eq_or_ne i' i
    · exact hIdle
    · exact (Function.update_of_ne hi _ _).symm.trans (hNotifying i')
  | nobody i _ hNone =>
    obtain ⟨j⟩ := ‹Nonempty C›
    exact hNone j (hBlocked j)
  | wake i j => cases (Function.update_self _ _ _).symm.trans (hBlocked j)
  | block j _ hEmpty => exact hWork hEmpty
  | pop j => cases (Function.update_self _ _ _).symm.trans (hBlocked j)

theorem not_stalled_run [Fintype C] {actions : List (Action P C α)}
    (hRun : run step (initial P C α) actions = some s) : ¬Stalled s := by
  refine run_preserves (fun _ _ _ hs hStep => not_stalled_step (moves_of_step hStep) hs) ?_ hRun
  rintro ⟨hWork, -⟩
  exact hWork rfl

end Stall

section Steps

def notifyCost : Bool → Nat
  | false => 0
  | true => 2

def Consumer.cost : Consumer → Nat
  | .blocked => 0
  | .outside | .woken => 1

/-- What a push adds to the steps, itself included. -/
def pushCost : Action P C α → Nat
  | .pushWork _ _ => 4
  | .notifyOne _ _ | .waitAndPop _ => 0

theorem Consumer.cost_of_ne {c : Consumer} (h : c ≠ .blocked) : c.cost = 1 := by
  cases c with
  | blocked => exact absurd rfl h
  | outside => rfl
  | woken => rfl

theorem sum_pushCost (actions : List (Action P C α)) :
    (actions.map pushCost).sum = 4 * (actions.filterMap Action.item).length := by
  induction actions with
  | nil => rfl
  | cons a actions ih =>
    rw [List.map_cons, List.sum_cons, ih, List.filterMap_cons]
    cases a with
    | pushWork i item =>
      simp only [pushCost, Action.item, List.length_cons]
      omega
    | notifyOne i waiter => simp only [pushCost, Action.item, Nat.zero_add]
    | waitAndPop j => simp only [pushCost, Action.item, Nat.zero_add]

variable [Fintype P] [Fintype C]

/-- An item is popped once, a notification wakes at most one consumer, and a consumer that is awake blocks at most once
before it is woken again. -/
def stepsLeft (s : QueueState P C α) : Nat :=
  s.work.length + ∑ i, notifyCost (s.notifying i) + ∑ j, (s.consumer j).cost

theorem stepsLeft_initial : stepsLeft (initial P C α) = Fintype.card C := by
  simp [stepsLeft, initial, notifyCost, Consumer.cost]

variable [DecidableEq P] [DecidableEq C]

theorem stepsLeft_step (hMoves : Moves s a s') : stepsLeft s' + 1 ≤ stepsLeft s + pushCost a := by
  cases hMoves with
  | push i item hIdle =>
    have hNotify := sum_update_add notifyCost s.notifying i s.work.isEmpty
    have hCost : notifyCost s.work.isEmpty ≤ 2 := by cases s.work.isEmpty <;> decide
    simp only [stepsLeft, pushCost, List.length_append, List.length_singleton]
    omega
  | nobody i hNotifying =>
    have hNotify := sum_update_add notifyCost s.notifying i false
    rw [hNotifying, notifyCost, notifyCost] at hNotify
    simp only [stepsLeft, pushCost]
    omega
  | wake i j hNotifying hBlocked =>
    have hNotify := sum_update_add notifyCost s.notifying i false
    have hWake := sum_update_add Consumer.cost s.consumer j .woken
    rw [hNotifying, notifyCost, notifyCost] at hNotify
    rw [hBlocked, Consumer.cost, Consumer.cost] at hWake
    simp only [stepsLeft, pushCost]
    omega
  | block j hRuns hEmpty =>
    have hBlock := sum_update_add Consumer.cost s.consumer j .blocked
    rw [Consumer.cost_of_ne hRuns, Consumer.cost] at hBlock
    simp only [stepsLeft, pushCost]
    omega
  | pop j hRuns item work hWork =>
    have hPop := sum_update_add Consumer.cost s.consumer j .outside
    rw [Consumer.cost_of_ne hRuns, Consumer.cost] at hPop
    simp only [stepsLeft, pushCost, hWork, List.length_cons]
    omega

end Steps

section End
variable [Fintype C] [DecidableEq P] [DecidableEq C]

theorem exists_notifyOne {i : P} (hNotifying : s.notifying i = true) :
    ∃ waiter s', step s (.notifyOne i waiter) = some s' := by
  by_cases hNone : ∀ j, s.consumer j ≠ .blocked
  · refine ⟨none, { s with notifying := Function.update s.notifying i false }, ?_⟩
    rw [step, notifyOne]
    simp only [hNotifying, if_true]
    exact if_pos hNone
  · push Not at hNone
    obtain ⟨j, hj⟩ := hNone
    refine ⟨some j, { s with
      notifying := Function.update s.notifying i false
      consumer := Function.update s.consumer j .woken }, ?_⟩
    rw [step, notifyOne]
    simp only [hNotifying, if_true]
    exact if_pos hj

theorem exists_waitAndPop {j : C} (hRuns : s.consumer j ≠ .blocked) : ∃ s', step s (.waitAndPop j) = some s' := by
  rw [step, waitAndPop, if_neg hRuns]
  cases s.work with
  | nil => exact ⟨_, rfl⟩
  | cons item work => exact ⟨_, rfl⟩

/-- Neither a producer that has pushed nor a consumer can do anything. -/
def AtRest (s : QueueState P C α) : Prop := ∀ a : Action P C α, a.item = none → step s a = none

theorem AtRest.notifying (h : AtRest s) (i : P) : s.notifying i = false := by
  by_contra hNotifying
  obtain ⟨waiter, s', hStep⟩ := exists_notifyOne (Bool.eq_true_of_not_eq_false hNotifying)
  rw [h (.notifyOne i waiter) rfl] at hStep
  cases hStep

theorem AtRest.consumer (h : AtRest s) (j : C) : s.consumer j = .blocked := by
  by_contra hRuns
  obtain ⟨s', hStep⟩ := exists_waitAndPop hRuns
  rw [h (.waitAndPop j) rfl] at hStep
  cases hStep

/-- Whatever the interleaving: the items come back in the order of the pushes, each of them once; a run of `p` pushes
has at most `4 p` steps and one more for each consumer; and when nothing but a push can happen, no item is left. -/
theorem pushed_items_returned [Fintype P] [Nonempty C] (actions : List (Action P C α)) (s : QueueState P C α)
    (hRun : run step (initial P C α) actions = some s) :
    s.returned ++ s.work = actions.filterMap Action.item ∧
      actions.length ≤ 4 * (actions.filterMap Action.item).length + Fintype.card C ∧ (AtRest s → s.work = []) := by
  refine ⟨fifo_run hRun, ?_, fun hRest => ?_⟩
  · have hLength := run_length_le (I := fun _ => True) (μ := stepsLeft) (g := pushCost)
      (fun s a s' _ hStep => ⟨trivial, stepsLeft_step (moves_of_step hStep)⟩) trivial hRun
    rw [sum_pushCost, stepsLeft_initial] at hLength
    omega
  · by_contra hWork
    exact not_stalled_run hRun ⟨hWork, hRest.consumer, hRest.notifying⟩

/-- The worker that was woken for the first of two items also takes the second. -/
def twoPushes : List (Action Unit Bool Nat) :=
  [.waitAndPop false, .waitAndPop true, .pushWork () 7, .notifyOne () (some false), .pushWork () 8, .waitAndPop false,
    .waitAndPop false, .waitAndPop false]

theorem twoPushes_observed :
    (run step (initial Unit Bool Nat) twoPushes).map (fun s => (s.notifying (), s.consumer false, s.consumer true)) =
      some (false, .blocked, .blocked) := by
  decide

theorem twoPushes_returned :
    ∃ s, run step (initial Unit Bool Nat) twoPushes = some s ∧ s.returned = [7, 8] ∧ twoPushes.length ≤ 10 := by
  obtain ⟨s, hRun, hs⟩ := Option.map_eq_some_iff.mp twoPushes_observed
  simp only [Prod.mk.injEq] at hs
  obtain ⟨hNotifying, hFalse, hTrue⟩ := hs
  have hRest : AtRest s := by
    intro a ha
    cases a with
    | pushWork i item => cases ha
    | notifyOne i waiter => simp [step, notifyOne, hNotifying]
    | waitAndPop j => cases j <;> simp [step, waitAndPop, hFalse, hTrue]
  obtain ⟨hItems, hLength, hEmpty⟩ := pushed_items_returned twoPushes s hRun
  rw [hEmpty hRest, List.append_nil] at hItems
  exact ⟨s, hRun, hItems, hLength⟩

end End

end CsdWorker.WorkQueue
