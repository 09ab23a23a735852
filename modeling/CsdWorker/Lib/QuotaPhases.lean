import CsdWorker.Lib.QuotaLedger

/-! # The life of a job

A job is fresh until its counter is opened, active while results are counted down, releasing when the
counter is zero, and done. If no part of the results weighs the quota, the counter reaches zero with
the last result only.
-/

namespace CsdWorker.Quota

set_option autoImplicit false

universe u v w

variable {ι : Type w} {R : Type u} {M : Type v}

namespace Stage

/-- The stages in which the worker relies on its buffer being there. -/
def Buffered : Stage ι R M → Prop
  | merging _ _ | counting _ => True
  | away | taken _ | opened _ | releasing _ => False

theorem hand_eq_zero {x : Stage ι R M} (h : x.hand = 0) : x = away ∨ ∃ todo, x = releasing todo := by
  cases x with
  | away => exact Or.inl rfl
  | releasing todo => exact Or.inr ⟨todo, rfl⟩
  | _ => exact absurd h (Multiset.singleton_ne_zero _)

end Stage

variable [AddCommMonoid M]

structure Fresh (s : State ι R M) : Prop where
  counter : s.counter = none
  finished : s.finished = 0
  stages : ∀ w, s.stage w = .away ∨ ∃ r, s.stage w = .taken r
  buffers : ∀ w, s.buffer w = none
  shipped : s.shipped = []
  zeros : s.zeros = 0

structure Active (P : Spec R M) (quota : ℤ) (s : State ι R M) : Prop where
  arrived : s.arrived ≠ 0
  counter : s.counter = some (quota - P.weights s.finished)
  unfinished : s.finished ≠ 0 → P.weights s.finished ≠ quota
  free : s.Free
  zeros : s.zeros = 0
  buffered : ∀ w, (s.stage w).Buffered → (s.buffer w).isSome

/-- All results are counted; what the releasing worker and the finished job have in common. -/
structure Spent (P : Spec R M) (quota : ℤ) (s : State ι R M) : Prop where
  finished : s.finished = s.arrived
  arrived : s.arrived ≠ 0
  weights : P.weights s.arrived = quota
  queued : s.queued = 0
  zeros : s.zeros = 1

structure Releasing (P : Spec R M) (quota : ℤ) (w : ι) (todo : List ι) (s : State ι R M) : Prop
    extends Spent P quota s where
  stage : s.stage w = .releasing todo
  others : ∀ v, v ≠ w → s.stage v = .away
  buffers : ∀ v, (s.buffer v).isSome → v ∈ todo

structure Done (P : Spec R M) (quota : ℤ) (s : State ι R M) : Prop extends Spent P quota s where
  stages : ∀ w, s.stage w = .away
  counter : s.counter = none
  buffers : ∀ w, s.buffer w = none

def Inv (P : Spec R M) (quota : ℤ) (s : State ι R M) : Prop :=
  Fresh s ∨ Active P quota s ∨ (∃ w todo, Releasing P quota w todo s) ∨ Done P quota s

theorem inv_initial (P : Spec R M) (quota : ℤ) : Inv P quota (initial : State ι R M) :=
  Or.inl ⟨rfl, rfl, fun _ => Or.inl rfl, fun _ => rfl, rfl, rfl⟩

variable [DecidableEq ι] {P : Spec R M} {quota : ℤ} {s s' : State ι R M}

omit [AddCommMonoid M] in
theorem free_update (h : s.Free) (w : ι) {x : Stage ι R M} (hx : ∀ todo, x ≠ .releasing todo) :
    ∀ v todo, Function.update s.stage w x v ≠ .releasing todo := by
  intro v todo
  rcases eq_or_ne v w with rfl | hv
  · rw [Function.update_self]
    exact hx todo
  · rw [Function.update_of_ne hv]
    exact h v todo

omit [DecidableEq ι] in
theorem Spent.not_arrive {r : R} (h : Spent P quota s) (hNoEarly : P.NoEarly quota (s.arrived + {r})) : False := by
  have hAll := hNoEarly s.arrived (Multiset.le_add_right _ _) h.arrived h.weights
  exact Multiset.singleton_ne_zero r (left_eq_add.mp hAll)

theorem done_step (hDone : Done P quota s) (h : Step P s s') (hNoEarly : P.NoEarly quota s'.arrived) : False := by
  have hStages := hDone.stages
  cases h with
  | arrive r => exact hDone.toSpent.not_arrive hNoEarly
  | take w r rs hStage hQueue =>
    rw [hDone.queued] at hQueue
    exact Multiset.singleton_ne_zero r (by simpa using hQueue.symm)
  | openCounter w r hStage | begin w r hStage | touch w r rest hStage | flush w r rest hStage
  | merge w r part rest hStage
  | stamp w r hStage | countMissing w r hStage | countDown w r c hStage | countZero w r c todo hStage
  | release w v todo hStage | finish w hStage =>
    rw [hStages] at hStage
    cases hStage

omit [DecidableEq ι] in
theorem Releasing.stage_eq {w : ι} {todo : List ι} (h : Releasing P quota w todo s) {v : ι} {x : Stage ι R M}
    (hv : s.stage v = x) : x = .away ∨ v = w ∧ x = .releasing todo := by
  rcases eq_or_ne v w with rfl | hne
  · exact Or.inr ⟨rfl, hv.symm.trans h.stage⟩
  · exact Or.inl (hv.symm.trans (h.others v hne))

omit [DecidableEq ι] in
theorem Inv.buffered (hInv : Inv P quota s) {w : ι} (h : (s.stage w).Buffered) : (s.buffer w).isSome := by
  rcases hInv with hFresh | hActive | ⟨v, todo, hReleasing⟩ | hDone
  · rcases hFresh.stages w with hAway | ⟨r, hTaken⟩
    · rw [hAway] at h
      exact h.elim
    · rw [hTaken] at h
      exact h.elim
  · exact hActive.buffered w h
  · rcases hReleasing.stage_eq (v := w) rfl with hAway | ⟨-, hOther⟩
    · rw [hAway] at h
      exact h.elim
    · rw [hOther] at h
      exact h.elim
  · rw [hDone.stages w] at h
    exact h.elim

theorem releasing_step {w : ι} {todo : List ι} (hReleasing : Releasing P quota w todo s) (h : Step P s s')
    (hNoEarly : P.NoEarly quota s'.arrived) : (∃ todo', Releasing P quota w todo' s') ∨ Done P quota s' := by
  have hSpent := hReleasing.toSpent
  cases h with
  | arrive r => exact (hSpent.not_arrive hNoEarly).elim
  | take v r rs hStage hQueue =>
    rw [hReleasing.queued] at hQueue
    exact absurd hQueue.symm (by simp)
  | release v u rest hStage =>
    obtain ⟨rfl, hTodo⟩ := (hReleasing.stage_eq hStage).resolve_left (by simp)
    obtain rfl : u :: rest = todo := by simpa using hTodo
    refine Or.inl ⟨rest, ⟨hSpent.finished, hSpent.arrived, hSpent.weights, hSpent.queued, hSpent.zeros⟩,
      Function.update_self _ _ _, fun x hx => ?_, fun x hx => ?_⟩
    · exact (Function.update_of_ne hx _ _).trans (hReleasing.others x hx)
    · change (Function.update s.buffer u none x).isSome at hx
      rcases eq_or_ne x u with rfl | hne
      · rw [Function.update_self] at hx
        cases hx
      · rw [Function.update_of_ne hne] at hx
        exact (List.mem_cons.mp (hReleasing.buffers x hx)).resolve_left hne
  | finish v hStage =>
    obtain ⟨rfl, hTodo⟩ := (hReleasing.stage_eq hStage).resolve_left (by simp)
    obtain rfl : [] = todo := by simpa using hTodo
    refine Or.inr ⟨⟨hSpent.finished, hSpent.arrived, hSpent.weights, hSpent.queued, hSpent.zeros⟩,
      fun x => ?_, rfl, fun x => ?_⟩
    · change Function.update s.stage v .away x = .away
      rcases eq_or_ne x v with rfl | hne
      · exact Function.update_self _ _ _
      · rw [Function.update_of_ne hne]
        exact hReleasing.others x hne
    · cases hBuffer : s.buffer x with
      | none => rfl
      | some b => exact absurd (hReleasing.buffers x (by rw [hBuffer]; rfl)) List.not_mem_nil
  | openCounter v r hStage | begin v r hStage | touch v r rest hStage | flush v r rest hStage
  | merge v r part rest hStage
  | stamp v r hStage | countMissing v r hStage | countDown v r c hStage | countZero v r c todo hStage =>
    rcases hReleasing.stage_eq hStage with hAway | ⟨-, hOther⟩
    · cases hAway
    · cases hOther

variable [Fintype ι]

omit [DecidableEq ι] in
theorem Ledger.mem_arrived (hLedger : Ledger P s) {w : ι} {r : R} (h : (s.stage w).hand = {r}) : r ∈ s.arrived := by
  have hle : (s.stage w).hand ≤ ∑ v, (s.stage v).hand :=
    Finset.single_le_sum (fun _ _ => Multiset.zero_le _) (Finset.mem_univ w)
  rw [hLedger.hands]
  refine Multiset.mem_add.mpr (Or.inl (Multiset.mem_add.mpr (Or.inr (Multiset.mem_of_le hle ?_))))
  rw [h]
  exact Multiset.mem_singleton_self r

theorem fresh_step (hLedger : Ledger P s) (hFresh : Fresh s) (h : Step P s s')
    (hQuota : ∀ r ∈ s'.arrived, P.quota r = quota) : Fresh s' ∨ Active P quota s' := by
  have hStages := hFresh.stages
  cases h with
  | arrive r =>
    exact Or.inl ⟨hFresh.counter, hFresh.finished, hStages, hFresh.buffers, hFresh.shipped, hFresh.zeros⟩
  | take w r rs hStage hQueue =>
    refine Or.inl ⟨hFresh.counter, hFresh.finished, fun v => ?_, hFresh.buffers, hFresh.shipped, hFresh.zeros⟩
    change Function.update s.stage w (.taken r) v = .away ∨ ∃ r', Function.update s.stage w (.taken r) v = .taken r'
    rcases eq_or_ne v w with rfl | hne
    · exact Or.inr ⟨r, Function.update_self _ _ _⟩
    · rw [Function.update_of_ne hne]
      exact hStages v
  | openCounter w r hStage hFree =>
    have hArrived := hLedger.mem_arrived (w := w) (r := r) (by rw [hStage]; rfl)
    refine Or.inr ⟨fun hZero => ?_, ?_, fun hne => absurd hFresh.finished hne, ?_, hFresh.zeros, fun v hv => ?_⟩
    · rw [show s.arrived = 0 from hZero] at hArrived
      exact Multiset.notMem_zero r hArrived
    · change some (s.counter.getD (P.quota r)) = some (quota - P.weights s.finished)
      rw [hFresh.counter, hFresh.finished, Option.getD_none, P.weights_zero, sub_zero, hQuota r hArrived]
    · exact free_update hFree w (by simp)
    · change (Function.update s.stage w (.opened r) v).Buffered at hv
      rcases eq_or_ne v w with rfl | hne
      · rw [Function.update_self] at hv
        exact hv.elim
      · rw [Function.update_of_ne hne] at hv
        rcases hStages v with hAway | ⟨r', hTaken⟩
        · rw [hAway] at hv
          exact hv.elim
        · rw [hTaken] at hv
          exact hv.elim
  | begin w r hStage | touch w r rest hStage | flush w r rest hStage | merge w r part rest hStage | stamp w r hStage
  | countMissing w r hStage | countDown w r c hStage | countZero w r c todo hStage | release w v todo hStage
  | finish w hStage =>
    rcases hStages w with hAway | ⟨r', hTaken⟩
    · rw [hStage] at hAway
      cases hAway
    · rw [hStage] at hTaken
      cases hTaken

omit [AddCommMonoid M] [Fintype ι] in
theorem buffered_update (h : ∀ v, (s.stage v).Buffered → (s.buffer v).isSome) {w : ι} {x : Stage ι R M}
    {buffer : ι → Option M} (hw : x.Buffered → (buffer w).isSome) (hOther : ∀ v, v ≠ w → buffer v = s.buffer v) :
    ∀ v, (Function.update s.stage w x v).Buffered → (buffer v).isSome := by
  intro v hv
  rcases eq_or_ne v w with rfl | hne
  · rw [Function.update_self] at hv
    exact hw hv
  · rw [Function.update_of_ne hne] at hv
    rw [hOther v hne]
    exact h v hv

omit [AddCommMonoid M] [Fintype ι] in
theorem isSome_update {buffer : ι → Option M} {w v : ι} {b : M} (h : (buffer v).isSome) :
    (Function.update buffer w (some b) v).isSome := by
  rcases eq_or_ne v w with rfl | hne
  · rw [Function.update_self]
    rfl
  · rw [Function.update_of_ne hne]
    exact h

/-- When the counter reaches zero all results are counted and nobody holds another one. -/
theorem active_countZero (hLedger : Ledger P s) (hActive : Active P quota s) {w : ι} {r : R} {c : ℤ} {todo : List ι}
    (hStage : s.stage w = .counting r) (hCounter : s.counter = some c) (hZero : c - P.weight r = 0)
    (hTodo : ∀ v, (s.buffer v).isSome → v ∈ todo) (hNoEarly : P.NoEarly quota s.arrived) :
    Releasing P quota w todo { s with
      stage := Function.update s.stage w (.releasing todo)
      finished := s.finished + {r}
      counter := some 0
      zeros := s.zeros + 1 } := by
  have hHands := hands_finish hLedger (w := w) (x := .releasing todo) (by rw [hStage]; rfl) rfl
  have hc := hActive.counter
  rw [hCounter, Option.some_inj] at hc
  have hWeights : P.weights (s.finished + {r}) = quota := by
    rw [P.weights_add, P.weights_singleton]
    omega
  have hAll : s.finished + {r} = s.arrived := by
    refine hNoEarly _ ?_ (by simp) hWeights
    rw [hHands]
    exact Multiset.le_add_left _ _
  have hNone : s.queued + ∑ v, (Function.update s.stage w (.releasing todo) v).hand = 0 := by
    rw [hAll] at hHands
    exact right_eq_add.mp hHands
  obtain ⟨hQueued, hSum⟩ := add_eq_zero.mp hNone
  refine ⟨⟨hAll, hActive.arrived, by rw [← hAll]; exact hWeights, hQueued, by rw [hActive.zeros]⟩,
    Function.update_self _ _ _, fun v hv => ?_, hTodo⟩
  have hHand := Finset.sum_eq_zero_iff.mp hSum v (Finset.mem_univ v)
  rw [Function.update_of_ne hv] at hHand
  rcases Stage.hand_eq_zero hHand with hAway | ⟨todo', hOther⟩
  · exact (Function.update_of_ne hv _ _).trans hAway
  · exact absurd hOther (hActive.free v todo')

theorem active_step (hLedger : Ledger P s) (hActive : Active P quota s) (h : Step P s s')
    (hNoEarly : P.NoEarly quota s'.arrived) :
    Active P quota s' ∨ ∃ w todo, Releasing P quota w todo s' := by
  have hBuffered := hActive.buffered
  cases h with
  | arrive r =>
    exact Or.inl ⟨by simp, hActive.counter, hActive.unfinished, hActive.free, hActive.zeros, hBuffered⟩
  | take w r rs hStage hQueue =>
    exact Or.inl ⟨hActive.arrived, hActive.counter, hActive.unfinished, free_update hActive.free w (by simp),
      hActive.zeros, buffered_update hBuffered (fun h => h.elim) fun _ _ => rfl⟩
  | openCounter w r hStage hFree =>
    refine Or.inl ⟨hActive.arrived, ?_, hActive.unfinished, free_update hActive.free w (by simp),
      hActive.zeros, buffered_update hBuffered (fun h => h.elim) fun _ _ => rfl⟩
    change some (s.counter.getD (P.quota r)) = some (quota - P.weights s.finished)
    rw [hActive.counter, Option.getD_some]
  | begin w r hStage =>
    exact Or.inl ⟨hActive.arrived, hActive.counter, hActive.unfinished, free_update hActive.free w (by simp),
      hActive.zeros, buffered_update hBuffered (fun _ => by simp) fun v hv => Function.update_of_ne hv _ _⟩
  | touch w r rest hStage =>
    exact Or.inl ⟨hActive.arrived, hActive.counter, hActive.unfinished, hActive.free, hActive.zeros,
      fun v hv => isSome_update (hBuffered v hv)⟩
  | flush w r rest hStage =>
    exact Or.inl ⟨hActive.arrived, hActive.counter, hActive.unfinished, hActive.free, hActive.zeros,
      fun v hv => isSome_update (hBuffered v hv)⟩
  | merge w r part rest hStage hPart =>
    exact Or.inl ⟨hActive.arrived, hActive.counter, hActive.unfinished, free_update hActive.free w (by simp),
      hActive.zeros, buffered_update hBuffered (fun _ => by simp) fun v hv => Function.update_of_ne hv _ _⟩
  | stamp w r hStage =>
    exact Or.inl ⟨hActive.arrived, hActive.counter, hActive.unfinished, free_update hActive.free w (by simp),
      hActive.zeros, buffered_update hBuffered (fun _ => by simp) fun v hv => Function.update_of_ne hv _ _⟩
  | countMissing w r hStage hFree hCounter =>
    rw [hActive.counter] at hCounter
    cases hCounter
  | countDown w r c hStage hFree hCounter hMore =>
    have hc := hActive.counter
    rw [hCounter, Option.some_inj] at hc
    refine Or.inl ⟨hActive.arrived, ?_, fun _ => ?_, free_update hActive.free w (by simp), hActive.zeros,
      buffered_update hBuffered (fun h => h.elim) fun _ _ => rfl⟩
    · change some (c - P.weight r) = some (quota - P.weights (s.finished + {r}))
      rw [P.weights_add, P.weights_singleton, hc]
      congr 1
      omega
    · change P.weights (s.finished + {r}) ≠ quota
      rw [P.weights_add, P.weights_singleton]
      omega
  | countZero w r c todo hStage hFree hCounter hZero hTodo =>
    exact Or.inr ⟨w, todo, active_countZero hLedger hActive hStage hCounter hZero hTodo hNoEarly⟩
  | release w v todo hStage => exact absurd hStage (hActive.free w _)
  | finish w hStage => exact absurd hStage (hActive.free w _)

theorem inv_step (hLedger : Ledger P s) (hInv : Inv P quota s) (h : Step P s s')
    (hQuota : ∀ r ∈ s'.arrived, P.quota r = quota) (hNoEarly : P.NoEarly quota s'.arrived) : Inv P quota s' := by
  rcases hInv with hFresh | hActive | ⟨w, todo, hReleasing⟩ | hDone
  · rcases fresh_step hLedger hFresh h hQuota with hFresh | hActive
    · exact Or.inl hFresh
    · exact Or.inr (Or.inl hActive)
  · rcases active_step hLedger hActive h hNoEarly with hActive | hReleasing
    · exact Or.inr (Or.inl hActive)
    · exact Or.inr (Or.inr (Or.inl hReleasing))
  · rcases releasing_step hReleasing h hNoEarly with ⟨todo', hReleasing⟩ | hDone
    · exact Or.inr (Or.inr (Or.inl ⟨w, todo', hReleasing⟩))
    · exact Or.inr (Or.inr (Or.inr hDone))
  · exact (done_step hDone h hNoEarly).elim

omit [DecidableEq ι] in
/-- A job nobody works on any more, whose results weigh the quota, is done or never began. -/
theorem done_of_settled (hLedger : Ledger P s) (hInv : Inv P quota s) (hQueued : s.queued = 0)
    (hStages : ∀ w, s.stage w = .away) (hWeights : P.weights s.arrived = quota) :
    s.arrived = 0 ∧ Fresh s ∨ Done P quota s := by
  have hFinished : s.arrived = s.finished := by
    rw [hLedger.hands, hQueued]
    simp [hStages]
  rcases hInv with hFresh | hActive | ⟨w, todo, hReleasing⟩ | hDone
  · exact Or.inl ⟨hFinished.trans hFresh.finished, hFresh⟩
  · have hne : s.finished ≠ 0 := hFinished ▸ hActive.arrived
    exact absurd (hFinished ▸ hWeights) (hActive.unfinished hne)
  · have hAway := hStages w
    rw [hReleasing.stage] at hAway
    cases hAway
  · exact Or.inr hDone

omit [DecidableEq ι] [Fintype ι] in
theorem Inv.spent (hInv : Inv P quota s) (hZeros : s.zeros ≠ 0) : Spent P quota s := by
  rcases hInv with hFresh | hActive | ⟨w, todo, hReleasing⟩ | hDone
  · exact absurd hFresh.zeros hZeros
  · exact absurd hActive.zeros hZeros
  · exact hReleasing.toSpent
  · exact hDone.toSpent

end CsdWorker.Quota
