import CsdWorker.Lib.QuotaPhases

/-! # The order in which a job ships

If every result weighs something, whatever is shipped leaves before the blocks shipped so far reach the
quota: a flush leaves while its worker still holds the weight of its result, and a released buffer has
weight itself.
-/

namespace CsdWorker.Quota

set_option autoImplicit false

universe u v w

variable {ι : Type w} {R : Type u} {M : Type v} [AddCommMonoid M]

structure Charged (P : Spec R M) (quota : ℤ) (s : State ι R M) : Prop where
  rest : ∀ w r rest, s.stage w = .merging r rest → P.blocks rest = 0
  nonneg : ∀ w b, s.buffer w = some b → 0 ≤ P.blocks b
  pos : ∀ w b, s.buffer w = some b → (∀ r rest, s.stage w ≠ .merging r rest) → 0 < P.blocks b
  early : ∀ before m after, s.shipped = before ++ m :: after → shippedMeasure P.blocks before < quota

theorem charged_initial (P : Spec R M) (quota : ℤ) : Charged P quota (initial : State ι R M) := by
  refine ⟨fun w r rest h => ?_, fun w b h => ?_, fun w b h => ?_, fun before m after h => ?_⟩
  · cases h
  · cases h
  · cases h
  · exact absurd h.symm (by simp [initial])

variable {P : Spec R M} {quota : ℤ} {s s' : State ι R M}

theorem early_append {shipped : List M} {x : M}
    (h : ∀ before m after, shipped = before ++ m :: after → shippedMeasure P.blocks before < quota)
    (hx : shippedMeasure P.blocks shipped < quota) :
    ∀ before m after, shipped ++ [x] = before ++ m :: after → shippedMeasure P.blocks before < quota := by
  intro before m after hEq
  rcases List.eq_nil_or_concat after with rfl | ⟨after, y, rfl⟩
  · obtain ⟨rfl, -⟩ := List.append_inj' hEq rfl
    exact hx
  · rw [List.concat_eq_append, ← List.cons_append, ← List.append_assoc] at hEq
    exact h before m after (List.append_inj' hEq rfl).1

theorem amount_nonneg (hCharged : Charged P quota s) (w : ι) : 0 ≤ P.blocks ((s.buffer w).getD 0) := by
  cases hBuffer : s.buffer w with
  | none => simp
  | some b => exact hCharged.nonneg w b hBuffer

section Shipped
variable [Fintype ι] (hLedger : Ledger P s) (hCharged : Charged P quota s)
  (hPos : ∀ r ∈ s.arrived, 0 < P.weight r)

include hLedger hCharged hPos

theorem rest_nonneg (w : ι) : 0 ≤ P.blocks ((s.stage w).rest P) := by
  cases hStage : s.stage w with
  | away | releasing todo | counting r => simp
  | taken r | opened r =>
    have hr := hPos r (hLedger.mem_arrived (by rw [hStage]; rfl))
    simp only [Stage.rest_taken, Stage.rest_opened, P.blocks_content]
    exact hr.le
  | merging r rest =>
    have hr := hPos r (hLedger.mem_arrived (by rw [hStage]; rfl))
    rw [Stage.rest_merging, map_add, hCharged.rest w r rest hStage, zero_add]
    exact hr.le

omit hCharged in
theorem weights_queued_nonneg : 0 ≤ P.weights s.queued := by
  rcases eq_or_ne s.queued 0 with hZero | hne
  · rw [hZero, P.weights_zero]
  · refine (P.weights_pos (fun r hr => hPos r ?_) hne).le
    rw [hLedger.hands]
    exact Multiset.mem_add.mpr (Or.inl (Multiset.mem_add.mpr (Or.inl hr)))

/-- While a worker holds some weight, less than the quota is shipped. -/
theorem shipped_lt (hQuota : P.weights s.arrived ≤ quota) {w : ι}
    (hw : 0 < P.blocks ((s.stage w).rest P) ∨ 0 < P.blocks ((s.buffer w).getD 0)) :
    shippedMeasure P.blocks s.shipped < quota := by
  have hAmounts := hLedger.amounts P.blocks
  have hQueued := weights_queued_nonneg hLedger hPos
  have hRest := Finset.single_le_sum (fun v _ => rest_nonneg hLedger hCharged hPos v) (Finset.mem_univ w)
  have hBuffer := Finset.single_le_sum (fun v _ => amount_nonneg hCharged v) (Finset.mem_univ w)
  have hRestW := rest_nonneg hLedger hCharged hPos w
  have hBufferW := amount_nonneg hCharged w
  rw [measure_blocks, measure_blocks] at hAmounts
  omega

end Shipped

variable [DecidableEq ι]

theorem charged_stage (hCharged : Charged P quota s) {w : ι} {x : Stage ι R M}
    (hOld : ∀ r rest, s.stage w ≠ .merging r rest) (hNew : ∀ r rest, x ≠ .merging r rest)
    {arrived queued finished : Multiset R} {counter : Option ℤ} {zeros : ℕ} :
    Charged P quota ⟨arrived, queued, finished, Function.update s.stage w x, counter, s.buffer, s.shipped, zeros⟩ := by
  refine ⟨fun v r rest h => ?_, hCharged.nonneg, fun v b hBuffer h => ?_, hCharged.early⟩
  · change Function.update s.stage w x v = _ at h
    rcases eq_or_ne v w with rfl | hne
    · rw [Function.update_self] at h
      exact absurd h (hNew r rest)
    · rw [Function.update_of_ne hne] at h
      exact hCharged.rest v r rest h
  · apply hCharged.pos v b hBuffer
    intro r rest hMerging
    rcases eq_or_ne v w with rfl | hne
    · exact hOld r rest hMerging
    · exact h r rest ((Function.update_of_ne hne _ _).trans hMerging)

theorem charged_buffer (hCharged : Charged P quota s) {w : ι} {x : Stage ι R M} {b : M}
    (hRest : ∀ r rest, x = .merging r rest → P.blocks rest = 0) (hNonneg : 0 ≤ P.blocks b)
    (hPos : (∀ r rest, x ≠ .merging r rest) → 0 < P.blocks b) :
    Charged P quota { s with
      stage := Function.update s.stage w x
      buffer := Function.update s.buffer w (some b) } := by
  refine ⟨fun v r rest h => ?_, fun v b' hBuffer => ?_, fun v b' hBuffer h => ?_, hCharged.early⟩
  · change Function.update s.stage w x v = _ at h
    rcases eq_or_ne v w with rfl | hne
    · rw [Function.update_self] at h
      exact hRest r rest h
    · rw [Function.update_of_ne hne] at h
      exact hCharged.rest v r rest h
  · change Function.update s.buffer w (some b) v = _ at hBuffer
    rcases eq_or_ne v w with rfl | hne
    · rw [Function.update_self, Option.some_inj] at hBuffer
      exact hBuffer ▸ hNonneg
    · rw [Function.update_of_ne hne] at hBuffer
      exact hCharged.nonneg v b' hBuffer
  · change Function.update s.buffer w (some b) v = _ at hBuffer
    change ∀ r rest, Function.update s.stage w x v ≠ _ at h
    rcases eq_or_ne v w with rfl | hne
    · rw [Function.update_self] at h
      rw [Function.update_self, Option.some_inj] at hBuffer
      exact hBuffer ▸ hPos h
    · rw [Function.update_of_ne hne] at h hBuffer
      exact hCharged.pos v b' hBuffer h

omit [DecidableEq ι] in
theorem Inv.not_merging_of_releasing (hInv : Inv P quota s) {w : ι} {todo : List ι}
    (hStage : s.stage w = .releasing todo) (v : ι) (r : R) (rest : M) : s.stage v ≠ .merging r rest := by
  intro hMerging
  rcases hInv with hFresh | hActive | ⟨u, todo', hReleasing⟩ | hDone
  · rcases hFresh.stages v with h | ⟨r', h⟩
    · rw [h] at hMerging
      cases hMerging
    · rw [h] at hMerging
      cases hMerging
  · exact hActive.free w todo hStage
  · rcases hReleasing.stage_eq hMerging with h | ⟨-, h⟩
    · cases h
    · cases h
  · rw [hDone.stages v] at hMerging
    cases hMerging

variable [Fintype ι]

omit [Fintype ι] in
theorem charged_replace (hCharged : Charged P quota s) {w : ι} {r : R} {rest b : M}
    (hStage : s.stage w = .merging r rest) (hNonneg : 0 ≤ P.blocks b) :
    Charged P quota { s with buffer := Function.update s.buffer w (some b) } := by
  have hUpdated := charged_buffer hCharged (w := w) (x := .merging r rest) (b := b)
    (fun r' rest' h => by
      obtain ⟨-, rfl⟩ : r = r' ∧ rest = rest' := by simpa using h
      exact hCharged.rest w r rest hStage)
    hNonneg fun h => absurd rfl (h r rest)
  rwa [← hStage, Function.update_eq_self] at hUpdated

omit [AddCommMonoid M] [Fintype ι] in
theorem buffer_of_cleared {v u : ι} {b : M} (h : Function.update s.buffer v none u = some b) : s.buffer u = some b := by
  obtain rfl | hne := eq_or_ne u v
  · rw [Function.update_self] at h
    cases h
  · rwa [Function.update_of_ne hne] at h

/-- A released buffer has weight, since nobody merges any more. -/
theorem charged_release {w v : ι} {todo : List ι} (hLedger : Ledger P s) (hInv : Inv P quota s)
    (hCharged : Charged P quota s) (hStage : s.stage w = .releasing (v :: todo))
    (hPos : ∀ r ∈ s.arrived, 0 < P.weight r) (hQuota : P.weights s.arrived ≤ quota) :
    Charged P quota { s with
      stage := Function.update s.stage w (.releasing todo)
      buffer := Function.update s.buffer v none
      shipped := s.shipped ++ (s.buffer v).toList } := by
  have hNobody := hInv.not_merging_of_releasing hStage
  refine ⟨fun u r rest h => ?_, fun u b hBuffer => hCharged.nonneg u b (buffer_of_cleared hBuffer),
    fun u b hBuffer _ => hCharged.pos u b (buffer_of_cleared hBuffer) (hNobody u), ?_⟩
  · change Function.update s.stage w (.releasing todo) u = _ at h
    obtain rfl | hne := eq_or_ne u w
    · rw [Function.update_self] at h
      cases h
    · rw [Function.update_of_ne hne] at h
      exact hCharged.rest u r rest h
  · cases hBuffer : s.buffer v with
    | none => simpa [hBuffer] using hCharged.early
    | some b =>
      have hb := hCharged.pos v b hBuffer (hNobody v)
      have hShipped := shipped_lt hLedger hCharged hPos hQuota (w := v) (Or.inr (by rw [hBuffer]; exact hb))
      simpa [hBuffer] using early_append (x := b) hCharged.early hShipped

theorem charged_step (hLedger : Ledger P s) (hInv : Inv P quota s) (hCharged : Charged P quota s) (h : Step P s s')
    (hPos : ∀ r ∈ s.arrived, 0 < P.weight r) (hQuota : P.weights s.arrived ≤ quota) : Charged P quota s' := by
  cases h with
  | arrive r => exact ⟨hCharged.rest, hCharged.nonneg, hCharged.pos, hCharged.early⟩
  | take w r rs hStage hQueue => exact charged_stage hCharged (by simp [hStage]) (by simp)
  | openCounter w r hStage hFree => exact charged_stage hCharged (by simp [hStage]) (by simp)
  | begin w r hStage =>
    refine charged_buffer hCharged (fun r' rest h => ?_) (amount_nonneg hCharged w) fun h => absurd rfl (h r _)
    obtain ⟨-, rfl⟩ : r = r' ∧ P.body r = rest := by simpa using h
    exact P.blocks_body r
  | touch w r rest hStage => exact charged_replace hCharged hStage (amount_nonneg hCharged w)
  | flush w r rest hStage =>
    have hr := hPos r (hLedger.mem_arrived (by rw [hStage]; rfl))
    have hShipped := shipped_lt hLedger hCharged hPos hQuota (w := w) (Or.inl (by
      rw [hStage, Stage.rest_merging, map_add, hCharged.rest w r rest hStage, zero_add]
      exact hr))
    have hUpdated := charged_replace hCharged hStage (b := 0) (by simp)
    exact ⟨hUpdated.rest, hUpdated.nonneg, hUpdated.pos, early_append hCharged.early hShipped⟩
  | merge w r part rest hStage hPart =>
    have hRest := hCharged.rest w r _ hStage
    rw [map_add, hPart, zero_add] at hRest
    refine charged_buffer hCharged (fun r' rest' h => ?_) ?_ fun h => absurd rfl (h r rest)
    · obtain ⟨-, rfl⟩ : r = r' ∧ rest = rest' := by simpa using h
      exact hRest
    · rw [map_add, hPart, add_zero]
      exact amount_nonneg hCharged w
  | stamp w r hStage =>
    have hr := hPos r (hLedger.mem_arrived (by rw [hStage]; rfl))
    have hAmount : 0 ≤ P.blocks (s.amount w) := amount_nonneg hCharged w
    have hSum : 0 < P.blocks (s.amount w + P.stamp r) := by
      rw [map_add]
      exact add_pos_of_nonneg_of_pos hAmount hr
    exact charged_buffer hCharged (by simp) hSum.le fun _ => hSum
  | countMissing w r hStage hFree hCounter => exact charged_stage hCharged (by simp [hStage]) (by simp)
  | countDown w r c hStage hFree hCounter hMore => exact charged_stage hCharged (by simp [hStage]) (by simp)
  | countZero w r c todo hStage hFree hCounter hZero hTodo =>
    exact charged_stage hCharged (by simp [hStage]) (by simp)
  | release w v todo hStage => exact charged_release hLedger hInv hCharged hStage hPos hQuota
  | finish w hStage => exact charged_stage hCharged (by simp [hStage]) (by simp)

end CsdWorker.Quota
