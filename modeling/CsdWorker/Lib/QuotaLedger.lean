import CsdWorker.Lib.Quota

/-! # What a job neither loses nor duplicates

Every result is queued, in the hands of one worker or finished, and every additive measure of the
results is found in the queue, in what the workers still have to merge, in their buffers and in what
was shipped. Both hold of any run, also of one that releases too early.
-/

namespace CsdWorker.Quota

set_option autoImplicit false

universe u v w

variable {ι : Type w} {R : Type u} {M : Type v} [AddCommMonoid M] [Fintype ι]

def measure (P : Spec R M) (μ : M →+ ℤ) (rs : Multiset R) : ℤ := (rs.map fun r => μ (P.content r)).sum

@[simp] theorem measure_zero (P : Spec R M) (μ : M →+ ℤ) : measure P μ 0 = 0 := rfl

@[simp] theorem measure_add (P : Spec R M) (μ : M →+ ℤ) (rs ts : Multiset R) :
    measure P μ (rs + ts) = measure P μ rs + measure P μ ts := by
  simp [measure]

@[simp] theorem measure_singleton (P : Spec R M) (μ : M →+ ℤ) (r : R) : measure P μ {r} = μ (P.content r) := by
  simp [measure]

theorem measure_blocks (P : Spec R M) (rs : Multiset R) : measure P P.blocks rs = P.weights rs := by
  simp only [measure, P.blocks_content]
  rfl

def shippedMeasure (μ : M →+ ℤ) (shipped : List M) : ℤ := (shipped.map μ).sum

@[simp] theorem shippedMeasure_nil (μ : M →+ ℤ) : shippedMeasure μ [] = 0 := rfl

@[simp] theorem shippedMeasure_append (μ : M →+ ℤ) (xs ys : List M) :
    shippedMeasure μ (xs ++ ys) = shippedMeasure μ xs + shippedMeasure μ ys := by
  simp [shippedMeasure]

@[simp] theorem shippedMeasure_singleton (μ : M →+ ℤ) (x : M) : shippedMeasure μ [x] = μ x := by
  simp [shippedMeasure]

structure Ledger (P : Spec R M) (s : State ι R M) : Prop where
  hands : s.arrived = s.queued + ∑ w, (s.stage w).hand + s.finished
  amounts : ∀ μ : M →+ ℤ, measure P μ s.arrived =
    measure P μ s.queued + ∑ w, μ ((s.stage w).rest P) + ∑ w, μ ((s.buffer w).getD 0) + shippedMeasure μ s.shipped

def initial : State ι R M :=
  { arrived := 0, queued := 0, finished := 0, stage := fun _ => .away, counter := none, buffer := fun _ => none,
    shipped := [], zeros := 0 }

theorem ledger_initial (P : Spec R M) : Ledger P (initial : State ι R M) := by
  constructor
  · simp [initial]
  · intro μ
    simp [initial]

variable [DecidableEq ι]

section Updates
variable {P : Spec R M} {s : State ι R M}

omit [AddCommMonoid M] in
theorem sum_hand_update (w : ι) (x : Stage ι R M) :
    ∑ v, (Function.update s.stage w x v).hand + (s.stage w).hand = ∑ v, (s.stage v).hand + x.hand :=
  sum_update_add Stage.hand s.stage w x

theorem sum_rest_update (μ : M →+ ℤ) (w : ι) (x : Stage ι R M) :
    ∑ v, μ ((Function.update s.stage w x v).rest P) + μ ((s.stage w).rest P) =
      ∑ v, μ ((s.stage v).rest P) + μ (x.rest P) :=
  sum_update_add (fun x => μ (Stage.rest P x)) s.stage w x

theorem sum_amount_update (μ : M →+ ℤ) (w : ι) (x : Option M) :
    ∑ v, μ ((Function.update s.buffer w x v).getD 0) + μ ((s.buffer w).getD 0) =
      ∑ v, μ ((s.buffer v).getD 0) + μ (x.getD 0) :=
  sum_update_add (fun x : Option M => μ (x.getD 0)) s.buffer w x

theorem hands_update (hLedger : Ledger P s) {w : ι} {x : Stage ι R M} (h : x.hand = (s.stage w).hand) :
    s.arrived = s.queued + ∑ v, (Function.update s.stage w x v).hand + s.finished := by
  have hSum := sum_hand_update (s := s) w x
  rw [h] at hSum
  rw [add_right_cancel hSum]
  exact hLedger.hands

theorem hands_finish (hLedger : Ledger P s) {w : ι} {r : R} {x : Stage ι R M} (h : (s.stage w).hand = {r})
    (hx : x.hand = 0) :
    s.arrived = s.queued + ∑ v, (Function.update s.stage w x v).hand + (s.finished + {r}) := by
  have hSum := sum_hand_update (s := s) w x
  rw [h, hx, add_zero] at hSum
  rw [hLedger.hands, ← hSum]
  abel

theorem amounts_update (hLedger : Ledger P s) {w : ι} {x : Stage ι R M} (h : x.rest P = (s.stage w).rest P)
    (μ : M →+ ℤ) :
    measure P μ s.arrived = measure P μ s.queued + ∑ v, μ ((Function.update s.stage w x v).rest P) +
      ∑ v, μ ((s.buffer v).getD 0) + shippedMeasure μ s.shipped := by
  have hRest := sum_rest_update (P := P) (s := s) μ w x
  rw [h] at hRest
  rw [add_right_cancel hRest]
  exact hLedger.amounts μ

/-- A worker that moves an amount from its hand into a buffer, or from a buffer to what is shipped. -/
theorem amounts_move (hLedger : Ledger P s) {w v : ι} {x : Stage ι R M} {y : Option M} {shipped : List M} {μ : M →+ ℤ}
    (h : μ (x.rest P) + μ (y.getD 0) + shippedMeasure μ shipped =
      μ ((s.stage w).rest P) + μ ((s.buffer v).getD 0) + shippedMeasure μ s.shipped) :
    measure P μ s.arrived = measure P μ s.queued + ∑ u, μ ((Function.update s.stage w x u).rest P) +
      ∑ u, μ ((Function.update s.buffer v y u).getD 0) + shippedMeasure μ shipped := by
  have hAmounts := hLedger.amounts μ
  have hRest := sum_rest_update (P := P) (s := s) μ w x
  have hBuffer := sum_amount_update (s := s) μ v y
  omega

end Updates

theorem ledger_step {P : Spec R M} {s s' : State ι R M} (hLedger : Ledger P s) (h : Step P s s') : Ledger P s' := by
  cases h with
  | arrive r =>
    refine ⟨?_, fun μ => ?_⟩
    · change s.arrived + {r} = s.queued + {r} + ∑ w, (s.stage w).hand + s.finished
      rw [hLedger.hands]
      abel
    · have hAmounts := hLedger.amounts μ
      simp only [measure_add, measure_singleton]
      omega
  | take w r rs hStage hQueue =>
    have hHand := sum_hand_update (s := s) w (.taken r)
    refine ⟨?_, fun μ => ?_⟩
    · simp only [hStage, Stage.hand_away, Stage.hand_taken, add_zero] at hHand
      change s.arrived = rs + ∑ v, (Function.update s.stage w (.taken r) v).hand + s.finished
      rw [hLedger.hands, hQueue, hHand]
      abel
    · have hAmounts := hLedger.amounts μ
      have hRest := sum_rest_update (P := P) (s := s) μ w (.taken r)
      simp only [hStage, Stage.rest_away, Stage.rest_taken, map_zero, hQueue, measure_add,
        measure_singleton] at hAmounts hRest ⊢
      omega
  | openCounter w r hStage hFree =>
    exact ⟨hands_update hLedger (by rw [hStage]; rfl), amounts_update hLedger (by rw [hStage]; rfl)⟩
  | begin w r hStage =>
    refine ⟨hands_update hLedger (by rw [hStage]; rfl), fun μ => amounts_move hLedger ?_⟩
    simp only [hStage, Stage.rest_opened, Stage.rest_merging, Spec.content, Option.getD_some, State.amount]
  | touch w r rest hStage =>
    refine ⟨hLedger.hands, fun μ => ?_⟩
    have hAmounts := hLedger.amounts μ
    have hBuffer := sum_amount_update (s := s) μ w (some (s.amount w))
    simp only [Option.getD_some, State.amount] at hBuffer ⊢
    omega
  | flush w r rest hStage =>
    refine ⟨hLedger.hands, fun μ => ?_⟩
    have hAmounts := hLedger.amounts μ
    have hBuffer := sum_amount_update (s := s) μ w (some 0)
    simp only [Option.getD_some, map_zero, shippedMeasure_append, shippedMeasure_singleton, State.amount]
      at hBuffer ⊢
    omega
  | merge w r part rest hStage hPart =>
    refine ⟨hands_update hLedger (by rw [hStage]; rfl), fun μ => amounts_move hLedger ?_⟩
    simp only [hStage, Stage.rest_merging, Option.getD_some, State.amount, map_add]
    omega
  | stamp w r hStage =>
    refine ⟨hands_update hLedger (by rw [hStage]; rfl), fun μ => amounts_move hLedger ?_⟩
    simp only [hStage, Stage.rest_merging, Stage.rest_counting, Option.getD_some, State.amount, map_add, map_zero,
      zero_add]
    omega
  | countMissing w r hStage hFree hCounter =>
    exact ⟨hands_finish hLedger (by rw [hStage]; rfl) rfl, amounts_update hLedger (by rw [hStage]; rfl)⟩
  | countDown w r c hStage hFree hCounter hMore =>
    exact ⟨hands_finish hLedger (by rw [hStage]; rfl) rfl, amounts_update hLedger (by rw [hStage]; rfl)⟩
  | countZero w r c todo hStage hFree hCounter hZero hTodo =>
    exact ⟨hands_finish hLedger (by rw [hStage]; rfl) rfl, amounts_update hLedger (by rw [hStage]; rfl)⟩
  | release w v todo hStage =>
    refine ⟨hands_update hLedger (by rw [hStage]; rfl), fun μ => amounts_move hLedger ?_⟩
    have hShipped : shippedMeasure μ (s.buffer v).toList = μ ((s.buffer v).getD 0) := by
      cases s.buffer v <;> simp
    simp only [hStage, Stage.rest_releasing, Option.getD_none, map_zero, shippedMeasure_append, hShipped]
    omega
  | finish w hStage =>
    exact ⟨hands_update hLedger (by rw [hStage]; rfl), amounts_update hLedger (by rw [hStage]; rfl)⟩

end CsdWorker.Quota
