import CsdWorker.Lib.Run
import CsdWorker.Lib.Tally

/-! # The list of working ids

`T_Working_Id_List` of the monitoring manager, and the places of `Worker::tmax_working` where a worker enters its
snippet in it and takes it out again. A worker that cannot open its block file goes back to the queue without taking
its id out, and taking an id out takes out all that are equal.
-/

namespace CsdWorker.Tmax.Working

open Run Tally

set_option autoImplicit false

universe u

/-- Where a worker is in the loop: in `wait_and_pop`; behind it, in the middle of taking a snippet; behind
`T_AddWorkingId`; or behind `open`, in its work on the blocks. -/
inductive Phase where
  | waiting
  | taking (id : Int)
  | opening (id : Int)
  | reading (id : Int)
  deriving DecidableEq, Repr

def Phase.workedOn : Phase → Option Int
  | .waiting => none
  | .taking _ => none
  | .opening id => some id
  | .reading id => some id

/-- `work` are the ids of the snippets in the queue. -/
structure WorkerState (ι : Type u) where
  work : List Int
  phase : ι → Phase
  workingIds : List Int

inductive Action (ι : Type u) where
  | enqueueWork (id : Int)
  | waitAndPop (worker : ι)
  | addWorkingId (worker : ι)
  | openFile (worker : ι) (opened : Bool)
  | removeWorkingId (worker : ι)
  deriving DecidableEq, Repr

def tAddWorkingId (workingIds : List Int) (id : Int) : List Int := workingIds ++ [id]

def tRemoveWorkingId (workingIds : List Int) (id : Int) : List Int := workingIds.filter (· ≠ id)

def initial (ι : Type u) : WorkerState ι := ⟨[], fun _ => .waiting, []⟩

section Model
variable {ι : Type u} [DecidableEq ι]

def moveTo (s : WorkerState ι) (w : ι) (phase : Phase) : WorkerState ι :=
  { s with phase := Function.update s.phase w phase }

def step (s : WorkerState ι) : Action ι → Option (WorkerState ι)
  | .enqueueWork id => some { s with work := s.work ++ [id] }
  | .waitAndPop w =>
    match s.phase w, s.work with
    | .waiting, id :: work => some { moveTo s w (.taking id) with work }
    | _, _ => none
  | .addWorkingId w =>
    match s.phase w with
    | .taking id => some { moveTo s w (.opening id) with workingIds := tAddWorkingId s.workingIds id }
    | _ => none
  | .openFile w opened =>
    match s.phase w with
    | .opening id => some (moveTo s w (if opened then .reading id else .waiting))
    | _ => none
  | .removeWorkingId w =>
    match s.phase w with
    | .reading id => some { moveTo s w .waiting with workingIds := tRemoveWorkingId s.workingIds id }
    | _ => none

end Model

section Tracks
variable {ι : Type u} [Fintype ι]

def workedOn (s : WorkerState ι) : Multiset Int := Finset.univ.val.filterMap (Phase.workedOn ∘ s.phase)

def Tracks (s : WorkerState ι) : Prop := (s.workingIds : Multiset Int) = workedOn s

theorem tracks_iff {s : WorkerState ι} :
    Tracks s ↔ ∀ id, s.workingIds.count id = tally (Phase.workedOn ∘ s.phase) (some id) := by
  rw [Tracks, Multiset.ext]
  simp only [workedOn, count_filterMap_univ, Multiset.coe_count]

end Tracks

/-- A file opens, and a snippet is finished while no other worker has one with the same id. -/
def Orderly {ι : Type u} (s : WorkerState ι) : Action ι → Prop
  | .openFile _ opened => opened = true
  | .removeWorkingId w => ∀ w', w' ≠ w → (s.phase w').workedOn ≠ (s.phase w).workedOn
  | _ => True

instance {ι : Type u} [DecidableEq ι] [Fintype ι] (s : WorkerState ι) : (a : Action ι) → Decidable (Orderly s a)
  | .openFile _ opened => inferInstanceAs (Decidable (opened = true))
  | .removeWorkingId w => inferInstanceAs (Decidable (∀ w', w' ≠ w → (s.phase w').workedOn ≠ (s.phase w).workedOn))
  | .enqueueWork _ => isTrue trivial
  | .waitAndPop _ => isTrue trivial
  | .addWorkingId _ => isTrue trivial

section Step
variable {ι : Type u} [DecidableEq ι] {s s' : WorkerState ι} {a : Action ι}

inductive Moves (s : WorkerState ι) : Action ι → WorkerState ι → Prop where
  | enqueue (id : Int) : Moves s (.enqueueWork id) { s with work := s.work ++ [id] }
  | take (w : ι) (id : Int) (work : List Int) (hPhase : s.phase w = .waiting) :
    Moves s (.waitAndPop w) { moveTo s w (.taking id) with work }
  | add (w : ι) (id : Int) (hPhase : s.phase w = .taking id) :
    Moves s (.addWorkingId w) { moveTo s w (.opening id) with workingIds := tAddWorkingId s.workingIds id }
  | opened (w : ι) (id : Int) (hPhase : s.phase w = .opening id) :
    Moves s (.openFile w true) (moveTo s w (.reading id))
  | failed (w : ι) (id : Int) (hPhase : s.phase w = .opening id) : Moves s (.openFile w false) (moveTo s w .waiting)
  | remove (w : ι) (id : Int) (hPhase : s.phase w = .reading id) :
    Moves s (.removeWorkingId w) { moveTo s w .waiting with workingIds := tRemoveWorkingId s.workingIds id }

theorem moves_of_step (h : step s a = some s') : Moves s a s' := by
  cases a with
  | enqueueWork id =>
    obtain rfl := Option.some_inj.mp h
    exact .enqueue id
  | waitAndPop w =>
    rw [step] at h
    split at h
    · rename_i id work hPhase hWork
      obtain rfl := Option.some_inj.mp h
      exact .take w id work hPhase
    · cases h
  | addWorkingId w =>
    rw [step] at h
    split at h
    · rename_i id hPhase
      obtain rfl := Option.some_inj.mp h
      exact .add w id hPhase
    · cases h
  | openFile w opened =>
    rw [step] at h
    split at h
    · rename_i id hPhase
      obtain rfl := Option.some_inj.mp h
      cases opened with
      | true => exact .opened w id hPhase
      | false => exact .failed w id hPhase
    · cases h
  | removeWorkingId w =>
    rw [step] at h
    split at h
    · rename_i id hPhase
      obtain rfl := Option.some_inj.mp h
      exact .remove w id hPhase
    · cases h

theorem workedOn_moveTo (s : WorkerState ι) (w : ι) (next : Phase) :
    Phase.workedOn ∘ (moveTo s w next).phase = Function.update (Phase.workedOn ∘ s.phase) w next.workedOn :=
  Function.comp_update _ _ _ _

theorem count_tRemoveWorkingId (workingIds : List Int) (id other : Int) :
    (tRemoveWorkingId workingIds id).count other = if other = id then 0 else workingIds.count other := by
  rw [tRemoveWorkingId]
  split
  · rename_i hSame
    rw [List.count_eq_zero, List.mem_filter]
    simp [hSame]
  · rename_i hOther
    exact List.count_filter (by simpa using hOther)

variable [Fintype ι]

theorem tally_moveTo_of_eq {w : ι} {next : Phase} (h : next.workedOn = (s.phase w).workedOn) (id : Option Int) :
    tally (Phase.workedOn ∘ (moveTo s w next).phase) id = tally (Phase.workedOn ∘ s.phase) id := by
  rw [workedOn_moveTo, h]
  exact congrArg (tally · id) (Function.update_eq_self w (Phase.workedOn ∘ s.phase))

theorem tracks_add {w : ι} {id : Int} (hPhase : s.phase w = .taking id) (hs : Tracks s) :
    Tracks { moveTo s w (.opening id) with workingIds := tAddWorkingId s.workingIds id } := by
  rw [tracks_iff] at hs ⊢
  intro other
  have hBefore : (Phase.workedOn ∘ s.phase) w ≠ some other := by
    rw [Function.comp_apply, hPhase]
    exact (Option.some_ne_none other).symm
  have hTally := tally_update (Phase.workedOn ∘ s.phase) w (some id) (some other)
  rw [if_neg hBefore, ← hs other] at hTally
  change (tAddWorkingId s.workingIds id).count other = tally (Phase.workedOn ∘ (moveTo s w (.opening id)).phase)
    (some other)
  have hLast : [id].count other = if some id = some other then 1 else 0 := by
    simp [List.count_singleton]
  rw [workedOn_moveTo, tAddWorkingId, List.count_append, hLast]
  exact hTally.symm

theorem not_tracks_failed {w : ι} {id : Int} (hPhase : s.phase w = .opening id) (hs : Tracks s) :
    ¬Tracks (moveTo s w .waiting) := by
  rw [tracks_iff] at hs ⊢
  intro hTracks
  have hBefore : (Phase.workedOn ∘ s.phase) w = some id := by rw [Function.comp_apply, hPhase]; rfl
  have hLeave : tally (Function.update (Phase.workedOn ∘ s.phase) w none) (some id) + 1 =
      tally (Phase.workedOn ∘ s.phase) (some id) := tally_leave hBefore (Option.some_ne_none id).symm
  have hCount := hTracks id
  rw [workedOn_moveTo] at hCount
  change s.workingIds.count id = tally (Function.update (Phase.workedOn ∘ s.phase) w none) (some id) at hCount
  -- the id is still in the list and no longer among those worked on
  have hListed := hs id
  omega

theorem tracks_remove_iff {w : ι} {id : Int} (hPhase : s.phase w = .reading id) (hs : Tracks s) :
    Tracks { moveTo s w .waiting with workingIds := tRemoveWorkingId s.workingIds id } ↔
      ∀ w', w' ≠ w → (s.phase w').workedOn ≠ (s.phase w).workedOn := by
  have hBefore : (Phase.workedOn ∘ s.phase) w = some id := by rw [Function.comp_apply, hPhase]; rfl
  have hOthers : tally (Function.update (Phase.workedOn ∘ s.phase) w none) (some id) = 0 ↔
      ∀ w', w' ≠ w → (s.phase w').workedOn ≠ (s.phase w).workedOn := by
    rw [tally_update_eq_zero_iff (Option.some_ne_none id).symm, ← hBefore]
    rfl
  rw [tracks_iff] at hs ⊢
  change (∀ other, (tRemoveWorkingId s.workingIds id).count other =
    tally (Phase.workedOn ∘ (moveTo s w .waiting).phase) (some other)) ↔ _
  rw [workedOn_moveTo, ← hOthers]
  constructor
  · intro hTracks
    have hCount := hTracks id
    rw [count_tRemoveWorkingId, if_pos rfl] at hCount
    exact hCount.symm
  · intro hZero other
    rw [count_tRemoveWorkingId]
    split
    · rename_i hSame
      rw [hSame]
      exact hZero.symm
    · rename_i hOther
      have hNe : (Phase.workedOn ∘ s.phase) w ≠ some other := by
        rw [hBefore]
        exact fun hEq => hOther (Option.some_inj.mp hEq).symm
      rw [hs other]
      exact (tally_update_of_ne hNe (Option.some_ne_none other).symm).symm

theorem tracks_step (hMoves : Moves s a s') (hs : Tracks s) : Tracks s' ↔ Orderly s a := by
  cases hMoves with
  | enqueue id => exact iff_of_true hs trivial
  | take w id work hPhase =>
    refine iff_of_true (tracks_iff.mpr fun other => ?_) trivial
    exact (tracks_iff.mp hs other).trans (tally_moveTo_of_eq (by rw [hPhase]; rfl) _).symm
  | add w id hPhase => exact iff_of_true (tracks_add hPhase hs) trivial
  | opened w id hPhase =>
    refine iff_of_true (tracks_iff.mpr fun other => ?_) rfl
    exact (tracks_iff.mp hs other).trans (tally_moveTo_of_eq (by rw [hPhase]; rfl) _).symm
  | failed w id hPhase => exact iff_of_false (not_tracks_failed hPhase hs) Bool.false_ne_true
  | remove w id hPhase => exact tracks_remove_iff hPhase hs

end Step

/-- The list holds the ids of the snippets that are worked on in every state of a run if and only if in the run every
file opens and no snippet is finished while another worker has one with the same id. -/
theorem working_ids_tracked_iff {ι : Type u} [DecidableEq ι] [Fintype ι] (actions : List (Action ι)) (t : WorkerState ι)
    (hRun : run step (initial ι) actions = some t) :
    (∀ n s, run step (initial ι) (actions.take n) = some s → Tracks s) ↔
      ∀ n a s, actions[n]? = some a → run step (initial ι) (actions.take n) = some s → Orderly s a := by
  refine run_always_iff (fun s a s' hs hStep => tracks_step (moves_of_step hStep) hs) ?_ hRun
  rw [tracks_iff]
  intro id
  exact (tally_eq_zero_iff.mpr fun w => (Option.some_ne_none id).symm).symm

def twoSnippets : List (Action Bool) :=
  [.enqueueWork 7, .waitAndPop false, .addWorkingId false, .openFile false true, .enqueueWork 8, .waitAndPop true,
    .addWorkingId true, .openFile true true, .removeWorkingId false, .removeWorkingId true]

/-- Two workers with a snippet each, the second taken while the first is worked on. -/
theorem two_snippets_tracked :
    ∃ t, run step (initial Bool) twoSnippets = some t ∧
      ∀ n s, run step (initial Bool) (twoSnippets.take n) = some s → Tracks s := by
  refine ⟨_, rfl, (working_ids_tracked_iff twoSnippets _ rfl).mpr fun n a s ha hs => ?_⟩
  have hn : n < 10 := (List.getElem?_eq_some_iff.mp ha).1
  interval_cases n <;> obtain rfl := Option.some_inj.mp ha <;> obtain rfl := Option.some_inj.mp hs <;> decide

/-- A file that does not open, and two snippets with one id of which one is finished. -/
theorem ids_not_tracked :
    (∃ s, run step (initial Bool) [.enqueueWork 7, .waitAndPop false, .addWorkingId false, .openFile false false] =
      some s ∧
      s.workingIds = [7] ∧ workedOn s = 0) ∧
    ∃ s, run step (initial Bool) [.enqueueWork 7, .enqueueWork 7, .waitAndPop false, .waitAndPop true,
      .addWorkingId false, .addWorkingId true, .openFile false true, .openFile true true, .removeWorkingId false] =
        some s ∧
      s.workingIds = [] ∧ workedOn s = {7} :=
  ⟨⟨_, rfl, rfl, by decide⟩, ⟨_, rfl, rfl, by decide⟩⟩

end CsdWorker.Tmax.Working
