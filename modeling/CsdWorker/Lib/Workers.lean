import CsdWorker.Lib.Run

/-! # Workers at one queue

Several workers take tasks from one queue and put what a task gives, piece by piece, at the end of one list. The pieces
of different tasks mix in any way. Under a name that only one task has, the pieces of the task stand in their order.
-/

namespace CsdWorker.Workers

open Run

set_option autoImplicit false

universe u v w x

/-- `hands` is what a worker still has to put out of the task that it took. -/
structure State (ι : Type u) (τ : Type v) (ω : Type w) where
  received : List τ
  queue : List τ
  hands : ι → List ω
  out : List ω

inductive Action (ι : Type u) (τ : Type v) where
  | receive (task : τ)
  | work (worker : ι)

section Steps
variable {ι : Type u} {τ : Type v} {ω : Type w} [DecidableEq ι] (produce : τ → Option (List ω)) (σ : State ι τ ω)

def initial : State ι τ ω := ⟨[], [], fun _ => [], []⟩

def workerStep (worker : ι) : Option (State ι τ ω) :=
  match σ.hands worker with
  | piece :: rest => some { σ with hands := Function.update σ.hands worker rest, out := σ.out ++ [piece] }
  | [] =>
    match σ.queue with
    | [] => none
    | task :: queue =>
      (produce task).map fun pieces => { σ with queue, hands := Function.update σ.hands worker pieces }

def step : Action ι τ → Option (State ι τ ω)
  | .receive task => some { σ with received := σ.received ++ [task], queue := σ.queue ++ [task] }
  | .work worker => workerStep produce σ worker

inductive Moves : State ι τ ω → Prop where
  | receive (task : τ) : Moves { σ with received := σ.received ++ [task], queue := σ.queue ++ [task] }
  | put (worker : ι) (piece : ω) (rest : List ω) (hHand : σ.hands worker = piece :: rest) :
    Moves { σ with hands := Function.update σ.hands worker rest, out := σ.out ++ [piece] }
  | take (worker : ι) (task : τ) (queue : List τ) (pieces : List ω) (hHand : σ.hands worker = [])
      (hQueue : σ.queue = task :: queue) (hPieces : produce task = some pieces) :
    Moves { σ with queue, hands := Function.update σ.hands worker pieces }

end Steps

section Run
variable {ι : Type u} {τ : Type v} {ω : Type w} [DecidableEq ι] {produce : τ → Option (List ω)} {σ σ' : State ι τ ω}

theorem moves_of_workerStep {worker : ι} (h : workerStep produce σ worker = some σ') : Moves produce σ σ' := by
  rw [workerStep] at h
  split at h
  · rename_i piece rest hHand
    obtain rfl := Option.some_inj.mp h
    exact .put worker piece rest hHand
  · rename_i hHand
    split at h
    · cases h
    · rename_i task queue hQueue
      obtain ⟨pieces, hPieces, rfl⟩ := Option.map_eq_some_iff.mp h
      exact .take worker task queue pieces hHand hQueue hPieces

theorem received_of_workerStep {worker : ι} (h : workerStep produce σ worker = some σ') : σ'.received = σ.received := by
  rw [workerStep] at h
  split at h
  · obtain rfl := Option.some_inj.mp h
    rfl
  · split at h
    · cases h
    · obtain ⟨pieces, -, rfl⟩ := Option.map_eq_some_iff.mp h
      rfl

theorem moves_of_step {a : Action ι τ} (h : step produce σ a = some σ') : Moves produce σ σ' := by
  cases a with
  | receive task =>
    obtain rfl := Option.some_inj.mp h
    exact .receive task
  | work worker => exact moves_of_workerStep h

theorem Moves.received (h : Moves produce σ σ') : σ.received <+: σ'.received := by
  cases h with
  | receive task => exact List.prefix_append _ _
  | put worker piece rest hHand => exact List.prefix_rfl
  | take worker task queue pieces hHand hQueue hPieces => exact List.prefix_rfl

theorem Moves.out (h : Moves produce σ σ') : σ.out <+: σ'.out := by
  cases h with
  | receive task => exact List.prefix_rfl
  | put worker piece rest hHand => exact List.prefix_append _ _
  | take worker task queue pieces hHand hQueue hPieces => exact List.prefix_rfl

def PieceOf (produce : τ → Option (List ω)) (tasks : List τ) (piece : ω) : Prop :=
  ∃ task ∈ tasks, ∃ pieces, produce task = some pieces ∧ piece ∈ pieces

/-- What is in the queue was received, and what is out or in a hand is a piece of what was received. -/
structure Sourced (produce : τ → Option (List ω)) (σ : State ι τ ω) : Prop where
  queue : σ.queue <:+ σ.received
  out : ∀ piece ∈ σ.out, PieceOf produce σ.received piece
  hands : ∀ worker, ∀ piece ∈ σ.hands worker, PieceOf produce σ.received piece

theorem Sourced.update (h : Sourced produce σ) {worker : ι} {pieces : List ω}
    (hPieces : ∀ piece ∈ pieces, PieceOf produce σ.received piece) (other : ι) :
    ∀ piece ∈ Function.update σ.hands worker pieces other, PieceOf produce σ.received piece := by
  obtain rfl | hOther := eq_or_ne other worker
  · rwa [Function.update_self]
  · rw [Function.update_of_ne hOther]
    exact h.hands other

theorem sourced_step (hMoves : Moves produce σ σ') (h : Sourced produce σ) : Sourced produce σ' := by
  cases hMoves with
  | receive task =>
    have hMore : ∀ {piece}, PieceOf produce σ.received piece → PieceOf produce (σ.received ++ [task]) piece := by
      rintro piece ⟨earlier, hEarlier, pieces, hPieces, hPiece⟩
      exact ⟨earlier, List.mem_append_left _ hEarlier, pieces, hPieces, hPiece⟩
    obtain ⟨taken, hTaken⟩ := h.queue
    refine ⟨⟨taken, ?_⟩, fun piece hPiece => hMore (h.out piece hPiece), fun worker piece hPiece => ?_⟩
    · rw [← hTaken, List.append_assoc]
    · exact hMore (h.hands worker piece hPiece)
  | put worker piece rest hHand =>
    have hPieces := h.hands worker
    rw [hHand] at hPieces
    obtain ⟨hPiece, hRest⟩ := List.forall_mem_cons.mp hPieces
    refine ⟨h.queue, ?_, h.update hRest⟩
    exact List.forall_mem_append.mpr ⟨h.out, List.forall_mem_singleton.mpr hPiece⟩
  | take worker task queue pieces hHand hQueue hPieces =>
    have hSuffix := h.queue
    rw [hQueue] at hSuffix
    refine ⟨(List.suffix_cons task queue).trans hSuffix, h.out, h.update fun piece hPiece => ?_⟩
    exact ⟨task, hSuffix.subset List.mem_cons_self, pieces, hPieces, hPiece⟩

theorem sourced_run {actions : List (Action ι τ)} (h : run (step produce) initial actions = some σ) :
    Sourced produce σ := by
  refine run_preserves (fun s a s' hs hStep => sourced_step (moves_of_step hStep) hs) ?_ h
  constructor
  · exact List.suffix_rfl
  · exact fun piece hPiece => absurd hPiece List.not_mem_nil
  · exact fun worker piece hPiece => absurd hPiece List.not_mem_nil

end Run

section Named
variable {α : Type u} {κ : Type v} [DecidableEq κ] {f : α → κ} {key : κ}

/-- The elements with a name. -/
def named (f : α → κ) (key : κ) (xs : List α) : List α := xs.filter fun x => f x = key

@[simp] theorem named_nil : named f key [] = [] := rfl

theorem named_append (xs ys : List α) : named f key (xs ++ ys) = named f key xs ++ named f key ys :=
  List.filter_append xs ys

theorem named_cons_of_eq {x : α} (h : f x = key) (xs : List α) : named f key (x :: xs) = x :: named f key xs :=
  List.filter_cons_of_pos (decide_eq_true h)

theorem named_cons_of_ne {x : α} (h : f x ≠ key) (xs : List α) : named f key (x :: xs) = named f key xs :=
  List.filter_cons_of_neg (by simpa using h)

theorem named_eq_self {xs : List α} (h : ∀ x ∈ xs, f x = key) : named f key xs = xs :=
  List.filter_eq_self.mpr fun x hx => decide_eq_true (h x hx)

theorem named_eq_nil {xs : List α} (h : ∀ x ∈ xs, f x ≠ key) : named f key xs = [] :=
  List.filter_eq_nil_iff.mpr fun x hx => by simpa using h x hx

theorem length_named_le {xs : List α} (h : (xs.map f).Nodup) : (named f key xs).length ≤ 1 := by
  have hCount := List.nodup_iff_count_le_one.mp h key
  rw [List.count, List.countP_map, List.countP_eq_length_filter] at hCount
  exact hCount

theorem named_eq_singleton {xs : List α} {x : α} (h : (named f (f x) xs).length ≤ 1) (hx : x ∈ xs) :
    named f (f x) xs = [x] := by
  have hMem : x ∈ named f (f x) xs := List.mem_filter.mpr ⟨hx, decide_eq_true rfl⟩
  obtain ⟨y, hy⟩ := List.length_eq_one_iff.mp (h.antisymm (List.length_pos_of_mem hMem))
  rw [hy] at hMem ⊢
  rw [List.mem_singleton.mp hMem]

end Named

section Order
variable {ι : Type u} {τ : Type v} {ω : Type w} {κ : Type x} [DecidableEq ι] [DecidableEq κ]
variable {produce : τ → Option (List ω)} {name : τ → κ} {label : ω → κ} {σ σ' : State ι τ ω} {key : κ}

/-- A task with the name is in the queue if at all, or a worker has it and has put out the first of its pieces. -/
inductive Stage (produce : τ → Option (List ω)) (name : τ → κ) (label : ω → κ) (key : κ) (σ : State ι τ ω) : Prop where
  | waiting (hOut : named label key σ.out = []) (hHands : ∀ worker, named label key (σ.hands worker) = [])
      (hQueue : named name key σ.queue = named name key σ.received)
  | taken (worker : ι) (task : τ) (pieces : List ω) (hTask : named name key σ.received = [task])
      (hQueue : named name key σ.queue = []) (hPieces : produce task = some pieces)
      (hSplit : named label key σ.out ++ named label key (σ.hands worker) = pieces)
      (hOthers : ∀ other, other ≠ worker → named label key (σ.hands other) = [])

omit [DecidableEq ι] in
theorem Stage.receive (h : Stage produce name label key σ) (task : τ)
    (hOne : (named name key (σ.received ++ [task])).length ≤ 1) :
    Stage produce name label key { σ with received := σ.received ++ [task], queue := σ.queue ++ [task] } := by
  cases h with
  | waiting hOut hHands hQueue => exact .waiting hOut hHands (by rw [named_append, named_append, hQueue])
  | taken worker first pieces hTask hQueue hPieces hSplit hOthers =>
    -- there is one task of the name already, so the new one has another
    have hOther : name task ≠ key := by
      intro hName
      rw [named_append, hTask, named_cons_of_eq hName, named_nil] at hOne
      exact absurd hOne (Nat.not_succ_le_self 1)
    refine .taken worker first pieces ?_ ?_ hPieces hSplit hOthers
    · rw [named_append, hTask, named_cons_of_ne hOther, named_nil, List.append_nil]
    · rw [named_append, hQueue, named_cons_of_ne hOther, named_nil, List.append_nil]

theorem Stage.put (h : Stage produce name label key σ) {worker : ι} {piece : ω} {rest : List ω}
    (hHand : σ.hands worker = piece :: rest) :
    Stage produce name label key { σ with hands := Function.update σ.hands worker rest, out := σ.out ++ [piece] } := by
  -- a worker without pieces of the name has none afterwards, and puts none out
  have hNone : ∀ {other}, named label key (σ.hands other) = [] →
      named label key (Function.update σ.hands worker rest other) = [] := by
    intro other hOther
    obtain rfl | hNe := eq_or_ne other worker
    · rw [Function.update_self]
      rw [hHand] at hOther
      exact List.sublist_nil.mp (hOther ▸ (List.sublist_cons_self piece rest).filter _)
    · rwa [Function.update_of_ne hNe]
  have hOut : label piece ≠ key → named label key (σ.out ++ [piece]) = named label key σ.out := by
    intro hNe
    rw [named_append, named_cons_of_ne hNe, named_nil, List.append_nil]
  have hNe : named label key (σ.hands worker) = [] → label piece ≠ key := by
    intro hEmpty hLabel
    rw [hHand, named_cons_of_eq hLabel] at hEmpty
    cases hEmpty
  cases h with
  | waiting hNothing hHands hQueue =>
    exact .waiting ((hOut (hNe (hHands worker))).trans hNothing) (fun other => hNone (hHands other)) hQueue
  | taken owner task pieces hTask hQueue hPieces hSplit hOthers =>
    refine .taken owner task pieces hTask hQueue hPieces ?_ fun other hOther => hNone (hOthers other hOther)
    change named label key (σ.out ++ [piece]) ++ named label key (Function.update σ.hands worker rest owner) = pieces
    obtain rfl | hOwner := eq_or_ne owner worker
    · rw [Function.update_self, named_append, List.append_assoc, ← named_append, List.singleton_append, ← hHand]
      exact hSplit
    · rw [Function.update_of_ne hOwner, hOut (hNe (hOthers worker hOwner.symm))]
      exact hSplit

theorem Stage.take (h : Stage produce name label key σ) {worker : ι} {task : τ} {queue : List τ} {pieces : List ω}
    (hLabels : ∀ piece ∈ pieces, label piece = name task) (hHand : σ.hands worker = [])
    (hQueue : σ.queue = task :: queue) (hPieces : produce task = some pieces)
    (hOne : (named name key σ.received).length ≤ 1) :
    Stage produce name label key { σ with queue, hands := Function.update σ.hands worker pieces } := by
  obtain hName | hName := eq_or_ne (name task) key
  · cases h with
    | waiting hOut hHands hTasks =>
      rw [hQueue, named_cons_of_eq hName] at hTasks
      have hRest : named name key queue = [] := by
        rw [← hTasks, List.length_cons] at hOne
        exact List.length_eq_zero_iff.mp (by omega)
      refine .taken worker task pieces (by rw [← hTasks, hRest]) hRest hPieces ?_ fun other hOther => ?_
      · change named label key σ.out ++ named label key (Function.update σ.hands worker pieces worker) = pieces
        rw [hOut, Function.update_self, List.nil_append]
        exact named_eq_self fun piece hPiece => (hLabels piece hPiece).trans hName
      · exact (congrArg (named label key) (Function.update_of_ne hOther pieces σ.hands)).trans (hHands other)
    | taken owner first done hTask hNone hDone hSplit hOthers =>
      rw [hQueue, named_cons_of_eq hName] at hNone
      cases hNone
  · -- the pieces are of another name, and the worker had none before
    have hSame :
      ∀ other, named label key (Function.update σ.hands worker pieces other) = named label key (σ.hands other) := by
      intro other
      obtain rfl | hOther := eq_or_ne other worker
      · rw [Function.update_self, hHand, named_nil]
        exact named_eq_nil fun piece hPiece => by rwa [hLabels piece hPiece]
      · rw [Function.update_of_ne hOther]
    have hQueued : named name key queue = named name key σ.queue := by rw [hQueue, named_cons_of_ne hName]
    cases h with
    | waiting hOut hHands hTasks =>
      exact .waiting hOut (fun other => (hSame other).trans (hHands other)) (hQueued.trans hTasks)
    | taken owner first done hTask hNone hDone hSplit hOthers =>
      refine .taken owner first done hTask (hQueued.trans hNone) hDone ?_ fun other hOther => ?_
      · exact (congrArg (named label key σ.out ++ ·) (hSame owner)).trans hSplit
      · exact (hSame other).trans (hOthers other hOther)

theorem stage_run (hLabels : ∀ task pieces, produce task = some pieces → ∀ piece ∈ pieces, label piece = name task)
    {actions : List (Action ι τ)} (h : run (step produce) initial actions = some σ)
    (hOne : (named name key σ.received).length ≤ 1) : Stage produce name label key σ := by
  refine run_preserves (I := fun σ => (named name key σ.received).length ≤ 1 → Stage produce name label key σ)
    (fun s a s' hs hStep hOne => ?_) (fun _ => .waiting rfl (fun _ => rfl) rfl) h hOne
  have hMoves := moves_of_step hStep
  have hBefore := hs ((hMoves.received.sublist.filter _).length_le.trans hOne)
  cases hMoves with
  | receive task => exact hBefore.receive task hOne
  | put worker piece rest hHand => exact hBefore.put hHand
  | take worker task queue pieces hHand hQueue hPieces =>
    exact hBefore.take (hLabels task pieces hPieces) hHand hQueue hPieces hOne

section Task
variable {actions : List (Action ι τ)} {task : τ} {pieces : List ω}
variable (hLabels : ∀ task pieces, produce task = some pieces → ∀ piece ∈ pieces, label piece = name task)
variable (hRun : run (step produce) initial actions = some σ) (hNames : (σ.received.map name).Nodup)
variable (hTask : task ∈ σ.received) (hPieces : produce task = some pieces)
include hLabels hRun hNames hTask hPieces

/-- The pieces of a task come out in their order. -/
theorem named_out_start : named label (name task) σ.out <+: pieces := by
  have hOne : (named name (name task) σ.received).length ≤ 1 := length_named_le hNames
  cases stage_run hLabels hRun hOne with
  | waiting hOut hHands hQueue =>
    rw [hOut]
    exact List.nil_prefix
  | taken worker first done hFirst hQueue hDone hSplit hOthers =>
    obtain rfl : task = first := by simpa using (named_eq_singleton hOne hTask).symm.trans hFirst
    cases hPieces.symm.trans hDone
    exact ⟨_, hSplit⟩

/-- When no worker can move, all of them are out. -/
theorem named_out_of_idle [Nonempty ι] (hProduce : ∀ task ∈ σ.received, ∃ pieces, produce task = some pieces)
    (hIdle : ∀ worker, workerStep produce σ worker = none) : named label (name task) σ.out = pieces := by
  have hOne : (named name (name task) σ.received).length ≤ 1 := length_named_le hNames
  have hHands : ∀ worker, σ.hands worker = [] := by
    intro worker
    have hStuck := hIdle worker
    rw [workerStep] at hStuck
    split at hStuck
    · cases hStuck
    · assumption
  have hEmpty : σ.queue = [] := by
    cases hQueue : σ.queue with
    | nil => rfl
    | cons first queue =>
      have hFirst : first ∈ σ.received := (sourced_run hRun).queue.subset (hQueue ▸ List.mem_cons_self)
      obtain ⟨made, hMade⟩ := hProduce first hFirst
      have hStuck := hIdle (Classical.arbitrary ι)
      rw [workerStep, hHands, hQueue] at hStuck
      simp only [hMade, Option.map_some] at hStuck
      cases hStuck
  cases stage_run hLabels hRun hOne with
  | waiting hOut hHands hQueue =>
    rw [hEmpty, named_eq_singleton hOne hTask] at hQueue
    cases hQueue
  | taken worker first done hFirst hQueue hDone hSplit hOthers =>
    obtain rfl : task = first := by simpa using (named_eq_singleton hOne hTask).symm.trans hFirst
    cases hPieces.symm.trans hDone
    rw [hHands worker, named_nil, List.append_nil] at hSplit
    exact hSplit

end Task

end Order

end CsdWorker.Workers
