import CsdWorker.Lib.Run
import CsdWorker.Lib.Tally

/-! # The queue between the layers

`WorkQueue` of `internal_queue.h`, with its mutex and its condition variable. A producer that finds the queue empty
notifies one waiter after it has unlocked; a producer that finds items in it notifies nobody. Items that are pushed
behind the first one are therefore left to the consumer that was woken for it.
-/

namespace CsdWorker.WorkQueue

open Run Tally

set_option autoImplicit false

universe u v w

/-- Where a consumer is: not in `wait_and_pop`, blocked in `wait`, or notified and about to take the lock again. -/
inductive Consumer where
  | outside
  | blocked
  | woken
  deriving DecidableEq, Repr

/-- `notifying` are the producers between `unlock` and `notify_one`, `returned` is what `wait_and_pop` has returned. -/
structure QueueState (P : Type u) (C : Type v) (α : Type w) where
  work : List α
  notifying : P → Bool
  consumer : C → Consumer
  returned : List α

inductive Action (P : Type u) (C : Type v) (α : Type w) where
  | pushWork (producer : P) (item : α)
  | notifyOne (producer : P) (waiter : Option C)
  | waitAndPop (consumer : C)

section Model
variable {P : Type u} {C : Type v} {α : Type w} [DecidableEq P] [DecidableEq C]

def initial (P : Type u) (C : Type v) (α : Type w) : QueueState P C α := ⟨[], fun _ => false, fun _ => .outside, []⟩

def pushWork (s : QueueState P C α) (i : P) (item : α) : Option (QueueState P C α) :=
  if s.notifying i then none
  else some { s with work := s.work ++ [item], notifying := Function.update s.notifying i s.work.isEmpty }

/-- `notify_one` wakes one of the blocked consumers; there need not be any. -/
def notifyOne [Fintype C] (s : QueueState P C α) (i : P) (waiter : Option C) : Option (QueueState P C α) :=
  let notified := Function.update s.notifying i false
  if s.notifying i then
    match waiter with
    | none => if ∀ j, s.consumer j ≠ .blocked then some { s with notifying := notified } else none
    | some j =>
      if s.consumer j = .blocked then
        some { s with notifying := notified, consumer := Function.update s.consumer j .woken }
      else none
  else none

/-- What a consumer does with the lock, on its call as after `wait`: block if there is no work, else pop. -/
def waitAndPop (s : QueueState P C α) (j : C) : Option (QueueState P C α) :=
  if s.consumer j = .blocked then none
  else
    match s.work with
    | [] => some { s with consumer := Function.update s.consumer j .blocked }
    | item :: work =>
      some { s with
        work
        consumer := Function.update s.consumer j .outside
        returned := s.returned ++ [item] }

def step [Fintype C] (s : QueueState P C α) : Action P C α → Option (QueueState P C α)
  | .pushWork i item => pushWork s i item
  | .notifyOne i waiter => notifyOne s i waiter
  | .waitAndPop j => waitAndPop s j

/-- There is work, a consumer sleeps, and nobody is on the way to the work or to waking a consumer. -/
def Unclaimed (s : QueueState P C α) : Prop :=
  s.work ≠ [] ∧ (∃ j, s.consumer j = .blocked) ∧ (∀ j, s.consumer j ≠ .woken) ∧ ∀ i, s.notifying i = false

end Model

section Step
variable {P : Type u} {C : Type v} {α : Type w} [DecidableEq P] [DecidableEq C]
variable {s s' : QueueState P C α} {a : Action P C α}

inductive Moves (s : QueueState P C α) : Action P C α → QueueState P C α → Prop where
  | push (i : P) (item : α) (hIdle : s.notifying i = false) :
    Moves s (.pushWork i item)
      { s with work := s.work ++ [item], notifying := Function.update s.notifying i s.work.isEmpty }
  | nobody (i : P) (hNotifying : s.notifying i = true) (hNone : ∀ j, s.consumer j ≠ .blocked) :
    Moves s (.notifyOne i none) { s with notifying := Function.update s.notifying i false }
  | wake (i : P) (j : C) (hNotifying : s.notifying i = true) (hBlocked : s.consumer j = .blocked) :
    Moves s (.notifyOne i (some j))
      { s with
        notifying := Function.update s.notifying i false
        consumer := Function.update s.consumer j .woken }
  | block (j : C) (hRuns : s.consumer j ≠ .blocked) (hEmpty : s.work = []) :
    Moves s (.waitAndPop j) { s with consumer := Function.update s.consumer j .blocked }
  | pop (j : C) (hRuns : s.consumer j ≠ .blocked) (item : α) (work : List α) (hWork : s.work = item :: work) :
    Moves s (.waitAndPop j)
      { s with
        work
        consumer := Function.update s.consumer j .outside
        returned := s.returned ++ [item] }

theorem moves_of_step [Fintype C] (h : step s a = some s') : Moves s a s' := by
  cases a with
  | pushWork i item =>
    rw [step, pushWork] at h
    split at h
    · cases h
    · rename_i hIdle
      obtain rfl := Option.some_inj.mp h
      exact .push i item (Bool.eq_false_of_not_eq_true hIdle)
  | notifyOne i waiter =>
    cases waiter with
    | none =>
      rw [step, notifyOne] at h
      split at h
      · rename_i hNotifying
        split at h
        · rename_i hNone
          obtain rfl := Option.some_inj.mp h
          exact .nobody i hNotifying hNone
        · cases h
      · cases h
    | some j =>
      rw [step, notifyOne] at h
      split at h
      · rename_i hNotifying
        split at h
        · rename_i hBlocked
          obtain rfl := Option.some_inj.mp h
          exact .wake i j hNotifying hBlocked
        · cases h
      · cases h
  | waitAndPop j =>
    rw [step, waitAndPop] at h
    split at h
    · cases h
    · rename_i hRuns
      cases hWork : s.work with
      | nil =>
        rw [hWork] at h
        obtain rfl := Option.some_inj.mp h
        rw [← hWork]
        exact .block j hRuns hWork
      | cons item work =>
        rw [hWork] at h
        obtain rfl := Option.some_inj.mp h
        exact .pop j hRuns item work hWork

theorem claimed_step [Subsingleton C] (hMoves : Moves s a s') (hs : ¬Unclaimed s) : ¬Unclaimed s' := by
  rintro ⟨hWork, ⟨k, hk⟩, hWoken, hNotifying⟩
  cases hMoves with
  | push i item hIdle =>
    have hNonempty : s.work.isEmpty = false := (Function.update_self _ _ _).symm.trans (hNotifying i)
    refine hs ⟨List.isEmpty_eq_false_iff.mp hNonempty, ⟨k, hk⟩, hWoken, fun i' => ?_⟩
    by_cases hi : i' = i
    · rw [hi, hIdle]
    · exact (Function.update_of_ne hi _ _).symm.trans (hNotifying i')
  | nobody i _ hNone => exact hNone k hk
  | wake i j => exact hWoken j (Function.update_self _ _ _)
  | block j _ hEmpty => exact hWork hEmpty
  | pop j =>
    -- the consumer that popped is the only one
    obtain rfl := Subsingleton.elim j k
    cases (Function.update_self _ _ _).symm.trans hk

theorem work_eq_nil_step (hNo : IsEmpty P ∨ IsEmpty α) (hMoves : Moves s a s') (hs : s.work = []) : s'.work = [] := by
  cases hMoves with
  | push i item => exact (hNo.elim (fun h => h.false i) fun h => h.false item).elim
  | nobody => exact hs
  | wake => exact hs
  | block => exact hs
  | pop j _ item work hWork => rw [hs] at hWork; cases hWork

/-- Two consumers sleep. The first push wakes one of them, the second push nobody; one item is then taken. -/
theorem second_item_unclaimed [Fintype C] {j k : C} (hNe : j ≠ k) (i : P) (item : α) :
    ∃ s, run step (initial P C α) [.waitAndPop j, .waitAndPop k, .pushWork i item, .notifyOne i (some j),
      .pushWork i item, .waitAndPop j] = some s ∧ Unclaimed s := by
  let asleep : C → Consumer := Function.update (fun _ => .outside) k .blocked
  have hAsleep :
    Function.update (Function.update (Function.update (fun _ => .outside) j .blocked) k .blocked) j .outside =
      asleep := by
    rw [Function.update_comm hNe.symm, Function.update_idem, Function.update_eq_self j fun _ => Consumer.outside]
  refine ⟨⟨[item], fun _ => false, asleep, [item]⟩, ?_, List.cons_ne_nil _ _, ⟨k, by simp [asleep]⟩, fun l hl => ?_,
    fun _ => rfl⟩
  · simp [run, step, pushWork, notifyOne, waitAndPop, initial, hNe, hNe.symm, hAsleep]
  · by_cases hl' : l = k
    · simp [asleep, hl'] at hl
    · simp [asleep, hl'] at hl

def Action.item : Action P C α → Option α
  | .pushWork _ item => some item
  | _ => none

theorem fifo_step (hMoves : Moves s a s') : s'.returned ++ s'.work = s.returned ++ s.work ++ a.item.toList := by
  cases hMoves with
  | push i item => exact (List.append_assoc _ _ _).symm
  | nobody => exact (List.append_nil _).symm
  | wake => exact (List.append_nil _).symm
  | block => exact (List.append_nil _).symm
  | pop j _ item work hWork =>
    rw [hWork]
    simp [Action.item]

/-- Whatever the interleaving, the items are returned in the order in which they were pushed, each of them once. -/
theorem fifo_run [Fintype C] {actions : List (Action P C α)} (h : run step s actions = some s') :
    s'.returned ++ s'.work = s.returned ++ s.work ++ actions.filterMap Action.item := by
  induction actions generalizing s with
  | nil =>
    obtain rfl := Option.some_inj.mp h
    exact (List.append_nil _).symm
  | cons a actions ih =>
    rw [run_cons] at h
    obtain ⟨t, hFirst, hRest⟩ := Option.bind_eq_some_iff.mp h
    rw [ih hRest, fifo_step (moves_of_step hFirst), List.append_assoc, List.filterMap_cons]
    cases a.item <;> rfl

end Step

/-- No item lies unclaimed in any run if and only if there is at most one consumer, or nothing is ever pushed. -/
theorem never_unclaimed_iff (P : Type u) (C : Type v) (α : Type w) [DecidableEq P] [DecidableEq C] [Fintype C] :
    (∀ actions s, run step (initial P C α) actions = some s → ¬Unclaimed s) ↔
      Subsingleton C ∨ IsEmpty P ∨ IsEmpty α := by
  constructor
  · intro hNever
    by_contra hNot
    obtain ⟨hMany, hSome⟩ := not_or.mp hNot
    obtain ⟨hProducer, hItem⟩ := not_or.mp hSome
    obtain ⟨j, k, hNe⟩ := not_subsingleton_iff_nontrivial.mp hMany
    obtain ⟨i⟩ := not_isEmpty_iff.mp hProducer
    obtain ⟨item⟩ := not_isEmpty_iff.mp hItem
    obtain ⟨s, hRun, hUnclaimed⟩ := second_item_unclaimed hNe i item
    exact hNever _ s hRun hUnclaimed
  · rintro (hOne | hNo) actions s hRun
    · refine run_preserves (fun s a s' hs hStep => claimed_step (moves_of_step hStep) hs) ?_ hRun
      rintro ⟨hWork, -⟩
      exact hWork rfl
    · have hEmpty : s.work = [] :=
        run_preserves (I := fun s => s.work = []) (fun s a s' hs hStep => work_eq_nil_step hNo (moves_of_step hStep) hs)
          rfl hRun
      rintro ⟨hWork, -⟩
      exact hWork hEmpty

/-- Two workers on one queue, as `main` starts them: one of two items is left with a worker asleep. -/
theorem two_workers_one_asleep :
    ∃ s, run step (initial Unit Bool Nat)
      [.waitAndPop false, .waitAndPop true, .pushWork () 7, .notifyOne () (some false), .pushWork () 7,
        .waitAndPop false] = some s ∧ Unclaimed s :=
  second_item_unclaimed (by decide) () 7

section Paced
variable {P : Type u} {C : Type v} {α : Type w} [Fintype P] [Fintype C] {s s' : QueueState P C α} {a : Action P C α}

/-- Consumers that have been notified, and producers that are going to notify one. -/
def claims (s : QueueState P C α) : Nat := tally s.consumer .woken + tally s.notifying true

def Covered (s : QueueState P C α) : Prop := (∃ j, s.consumer j = .blocked) → s.work.length ≤ claims s

/-- A push onto a queue that is not empty finds nobody asleep, or more claims than items. -/
def Paced (s : QueueState P C α) : Action P C α → Prop
  | .pushWork _ _ => s.work ≠ [] → (∀ j, s.consumer j ≠ .blocked) ∨ s.work.length < claims s
  | _ => True

theorem not_unclaimed_of_covered (hs : Covered s) : ¬Unclaimed s := by
  rintro ⟨hWork, hBlocked, hWoken, hNotifying⟩
  have hLength := List.length_pos_iff.mpr hWork
  have hLe := hs hBlocked
  have hNotify : ∀ i, s.notifying i ≠ true := fun i => by rw [hNotifying i]; decide
  rw [claims, tally_eq_zero_iff.mpr hWoken, tally_eq_zero_iff.mpr hNotify] at hLe
  omega

theorem covered_push [DecidableEq P] {i : P} (hIdle : s.notifying i = false) (item : α)
    (hPaced : s.work ≠ [] → (∀ j, s.consumer j ≠ .blocked) ∨ s.work.length < claims s) :
    Covered { s with work := s.work ++ [item], notifying := Function.update s.notifying i s.work.isEmpty } := by
  rintro ⟨k, hk⟩
  -- the first item brings its claim along; a later one needs one that is not taken
  by_cases hWork : s.work = []
  · have hNotify : tally (Function.update s.notifying i s.work.isEmpty) true = tally s.notifying true + 1 := by
      rw [hWork, List.isEmpty_nil]
      exact tally_enter (by rw [hIdle]; decide)
    have hOne : (s.work ++ [item]).length = 1 := by rw [hWork]; rfl
    rw [claims, hNotify, hOne]
    omega
  · have hSame : tally (Function.update s.notifying i s.work.isEmpty) true = tally s.notifying true :=
      tally_update_of_ne (by rw [hIdle]; decide) (by simp [hWork])
    obtain hNone | hMore := hPaced hWork
    · exact absurd hk (hNone k)
    · rw [claims, hSame, List.length_append]
      exact hMore

theorem covered_wake [DecidableEq P] [DecidableEq C] {i : P} {j : C} (hNotifying : s.notifying i = true)
    (hBlocked : s.consumer j = .blocked) (hs : Covered s) :
    Covered { s with
      notifying := Function.update s.notifying i false
      consumer := Function.update s.consumer j .woken } := by
  intro _
  -- the claim goes over from the producer to the consumer
  have hCovered := hs ⟨j, hBlocked⟩
  have hWoken : tally (Function.update s.consumer j .woken) .woken = tally s.consumer .woken + 1 :=
    tally_enter (by rw [hBlocked]; decide)
  have hNotified : tally (Function.update s.notifying i false) true + 1 = tally s.notifying true :=
    tally_leave hNotifying (by decide)
  rw [claims] at hCovered ⊢
  dsimp only
  omega

theorem covered_pop [DecidableEq C] {j : C} {item : α} {work : List α} (hWork : s.work = item :: work)
    (returned : List α) (hs : Covered s) :
    Covered { s with work, consumer := Function.update s.consumer j .outside, returned } := by
  rintro ⟨k, hk⟩
  have hOther : k ≠ j := by
    rintro rfl
    cases (Function.update_self _ _ _).symm.trans hk
  have hCovered := hs ⟨k, (Function.update_of_ne hOther _ _).symm.trans hk⟩
  -- the consumer takes its own claim with it, if it has one
  have hLeave := tally_update s.consumer j .outside .woken
  rw [if_neg (by decide : Consumer.outside ≠ .woken)] at hLeave
  rw [hWork, List.length_cons, claims] at hCovered
  rw [claims]
  dsimp only
  split at hLeave <;> omega

variable [DecidableEq P] [DecidableEq C]

theorem covered_step (hMoves : Moves s a s') (hPaced : Paced s a) (hs : Covered s) : Covered s' := by
  cases hMoves with
  | push i item hIdle => exact covered_push hIdle item hPaced
  | nobody i _ hNone =>
    rintro ⟨k, hk⟩
    exact absurd hk (hNone k)
  | wake i j hNotifying hBlocked => exact covered_wake hNotifying hBlocked hs
  | block j _ hEmpty =>
    intro _
    rw [hEmpty]
    exact Nat.zero_le _
  | pop j _ item work hWork => exact covered_pop hWork _ hs

/-- A run is free of unclaimed items, with any number of consumers, as long as its pushes keep pace with the claims. -/
theorem not_unclaimed_of_paced {actions : List (Action P C α)}
    (hPaced : ∀ n a s, actions[n]? = some a → run step (initial P C α) (actions.take n) = some s → Paced s a) (n : Nat)
    (hRun : run step (initial P C α) (actions.take n) = some s) : ¬Unclaimed s := by
  refine not_unclaimed_of_covered (run_always_of (I := Covered) ?_ ?_ hPaced n hRun)
  · intro s a s' hs ha hStep
    exact covered_step (moves_of_step hStep) ha hs
  · intro _
    exact Nat.zero_le _

end Paced

end CsdWorker.WorkQueue
