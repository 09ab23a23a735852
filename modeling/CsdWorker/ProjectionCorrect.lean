import CsdWorker.ProjectionRun
import CsdWorker.Scan

/-! # The projection delivers every row once

Results of one snippet with positive block counts that add up to `csd_block_count`: whatever the
workers do, every projected row ends up in one message, and the messages can be counted off against
`csd_block_count`.
-/

namespace CsdWorker.Projection

open Memory Run

set_option autoImplicit false

def resultsOf (snippet : Snippet) (results : List CsdResult) : List CsdResult :=
  results.filter fun result => result.snippet = some snippet

def messagesFor (snippet : Snippet) (returned : List (String × CsdResult)) : List CsdResult :=
  resultsOf snippet (returned.map Prod.snd)

def blockSum (results : List CsdResult) : Int := (results.map fun result => result.data.currentBlockCount).sum

/-- No result of the snippet is queued or in the hands of a worker. -/
structure Settled {n : Nat} (snippet : Snippet) (σ : State n) : Prop where
  queue : resultsOf snippet σ.queue = []
  workers : ∀ w, (σ.pc w).key ≠ some (Snippet.key snippet)

section Measures

def rowHom (row : Bytes) : Content →+ ℤ :=
  (Nat.castAddMonoidHom ℤ).comp ((Multiset.countAddMonoidHom row).comp (AddMonoidHom.fst _ _))

def scannedHom : Content →+ ℤ :=
  (Nat.castAddMonoidHom ℤ).comp ((AddMonoidHom.fst ℕ ℕ).comp ((AddMonoidHom.snd ℤ (ℕ × ℕ)).comp (AddMonoidHom.snd _ _)))

def filteredHom : Content →+ ℤ :=
  (Nat.castAddMonoidHom ℤ).comp ((AddMonoidHom.snd ℕ ℕ).comp ((AddMonoidHom.snd ℤ (ℕ × ℕ)).comp (AddMonoidHom.snd _ _)))

theorem rowHom_content (row : Bytes) (rows : List Bytes) (d : Data) :
    rowHom row (rowsContent rows + countsContent d) = ((rows : Multiset Bytes).count row : ℤ) := by
  change (((rows : Multiset Bytes) + 0).count row : ℤ) = _
  rw [add_zero]

theorem rowHom_nonneg (row : Bytes) (c : Content) : 0 ≤ rowHom row c := Int.natCast_nonneg _

theorem shipped_rows (row : Bytes) (messages : List CsdResult) :
    Quota.shippedMeasure (rowHom row) (messages.map fun m => contentOf m.data) =
      (((messages.flatMap fun m => m.data.messageRows : List Bytes) : Multiset Bytes).count row : ℤ) := by
  induction messages with
  | nil => rfl
  | cons m messages ih =>
    rw [List.map_cons, ← List.singleton_append, Quota.shippedMeasure_append, Quota.shippedMeasure_singleton, ih,
      contentOf, rowHom_content, List.flatMap_cons, ← Multiset.coe_add, Multiset.count_add, Nat.cast_add]

theorem measure_rows (u : KValue) (row : Bytes) (works : List Work) :
    Quota.measure (spec u) (rowHom row) works =
      (((works.flatMap (projectedRows u) : List Bytes) : Multiset Bytes).count row : ℤ) := by
  induction works with
  | nil => rfl
  | cons work works ih =>
    have hCons : ((work :: works : List Work) : Multiset Work) = {work} + (works : Multiset Work) := rfl
    rw [hCons, Quota.measure_add, Quota.measure_singleton, ih, List.flatMap_cons, ← Multiset.coe_add,
      Multiset.count_add, Nat.cast_add]
    congr 1
    exact rowHom_content row (projectedRows u work) work.data

theorem measure_counts (u : KValue) (μ : Content →+ ℤ) (hRows : ∀ rows, μ (rowsContent rows) = 0) (works : List Work) :
    Quota.measure (spec u) μ works = (works.map fun work => μ (countsContent work.data)).sum := by
  induction works with
  | nil => rfl
  | cons work works ih =>
    have hCons : ((work :: works : List Work) : Multiset Work) = {work} + (works : Multiset Work) := rfl
    rw [hCons, Quota.measure_add, Quota.measure_singleton, ih, List.map_cons, List.sum_cons]
    congr 1
    change μ (rowsContent _ + countsContent work.data) = _
    rw [map_add, hRows, zero_add]

theorem shipped_counts (μ : Content →+ ℤ) (hRows : ∀ rows, μ (rowsContent rows) = 0) (messages : List CsdResult) :
    Quota.shippedMeasure μ (messages.map fun m => contentOf m.data) =
      (messages.map fun m => μ (countsContent m.data)).sum := by
  rw [Quota.shippedMeasure, List.map_map]
  congr 1
  apply List.map_congr_left
  intro m _
  change μ (rowsContent _ + countsContent m.data) = _
  rw [map_add, hRows, zero_add]

end Measures

section Works
variable {snippet : Snippet}

theorem worksOf_eq {results : List CsdResult} (h : Distinct snippet results) :
    worksOf (Snippet.key snippet) results =
      (resultsOf snippet results).map fun result => ⟨snippet, result.data⟩ := by
  induction results with
  | nil => rfl
  | cons result results ih =>
    have ih := ih fun r hr => h r (List.mem_cons_of_mem _ hr)
    cases hSnippet : result.snippet with
    | none =>
      have hResults : resultsOf snippet (result :: results) = resultsOf snippet results :=
        List.filter_cons_of_neg (by simp [hSnippet])
      rw [hResults, ← ih, worksOf, List.filterMap_cons_none (by rw [workOf, hSnippet]; rfl), worksOf]
    | some other =>
      have hResult : result = (⟨other, result.data⟩ : Work).toResult := by rw [Work.toResult, ← hSnippet]
      have hWorks := worksOf_cons (Snippet.key snippet) results ⟨other, result.data⟩
      rw [← hResult] at hWorks
      rcases eq_or_ne other snippet with rfl | hne
      · have hResults : resultsOf other (result :: results) = result :: resultsOf other results :=
          List.filter_cons_of_pos (by simp [hSnippet])
        have hKey : Work.key ⟨other, result.data⟩ = Snippet.key other := rfl
        rw [hWorks, if_pos hKey, hResults, List.map_cons, ih]
        rfl
      · have hResults : resultsOf snippet (result :: results) = resultsOf snippet results :=
          List.filter_cons_of_neg (by simpa [hSnippet] using hne)
        have hKey : Work.key ⟨other, result.data⟩ ≠ Snippet.key snippet := by
          intro hKey
          obtain ⟨hQuery, hWork⟩ := makeMapKey_inj hKey
          exact hne (h result List.mem_cons_self other hSnippet hQuery hWork)
        rw [hWorks, if_neg hKey, hResults, ih, List.nil_append]

theorem weights_worksOf (u : KValue) {results : List CsdResult} (h : Distinct snippet results) :
    (spec u).weights (worksOf (Snippet.key snippet) results) = blockSum (resultsOf snippet results) := by
  rw [worksOf_eq h, Quota.Spec.weights, Multiset.map_coe, Multiset.sum_coe, List.map_map]
  rfl

structure Positive (snippet : Snippet) (results : List CsdResult) : Prop where
  distinct : Distinct snippet results
  pos : ∀ result ∈ resultsOf snippet results, 0 < result.data.currentBlockCount
  sum_le : blockSum (resultsOf snippet results) ≤ snippet.resultInfo.csdBlockCount

theorem Positive.weight_pos {results : List CsdResult} (h : Positive snippet results) (u : KValue) :
    ∀ work ∈ ((worksOf (Snippet.key snippet) results : List Work) : Multiset Work), 0 < (spec u).weight work := by
  intro work hWork
  rw [worksOf_eq h.distinct, Multiset.mem_coe] at hWork
  obtain ⟨result, hResult, rfl⟩ := List.mem_map.mp hWork
  exact h.pos result hResult

theorem Positive.admissible {results : List CsdResult} (h : Positive snippet results) (u : KValue) :
    Admissible u snippet results :=
  ⟨h.distinct, (spec u).noEarly_of_pos (h.weight_pos u) (by rw [weights_worksOf u h.distinct]; exact h.sum_le)⟩

theorem blockSum_nonneg {results : List CsdResult} (h : ∀ result ∈ results, 0 < result.data.currentBlockCount) :
    0 ≤ blockSum results := by
  apply List.sum_nonneg
  intro c hc
  obtain ⟨result, hResult, rfl⟩ := List.mem_map.mp hc
  exact (h result hResult).le

theorem Positive.mono {results more : List CsdResult} (h : Positive snippet more) (hle : results <+: more) :
    Positive snippet results := by
  obtain ⟨rest, rfl⟩ := hle
  have hAppend : resultsOf snippet (results ++ rest) = resultsOf snippet results ++ resultsOf snippet rest :=
    List.filter_append _ _
  have hPos := h.pos
  have hSum := h.sum_le
  rw [hAppend] at hPos hSum
  have hRest := blockSum_nonneg fun r hr => hPos r (List.mem_append_right _ hr)
  refine ⟨h.distinct.mono (List.prefix_append _ _), fun r hr => hPos r (List.mem_append_left _ hr), ?_⟩
  rw [blockSum, List.map_append, List.sum_append, ← blockSum, ← blockSum] at hSum
  omega

end Works

section Projects
variable {n : Nat} {u : KValue} {σ σ' : State n} {w : Fin n}

def Projects (u : KValue) (work : Work) (i : Nat) : Prop :=
  ∀ j < i, (projectRow u work.snippet (work.data.rowAt j)).isSome

/-- The result in the hands of a worker, with the number of rows it has behind it. -/
def Pc.progress : Pc n → Option (Work × Nat)
  | .merging work i | .writing work i _ => some (work, i)
  | .adding work | .counting work => some (work, work.data.rowCount)
  | .notStarted | .waiting | .popped _ | .counted _ | .releasing _ _ _ => none

structure RowsProject (u : KValue) (σ : State n) : Prop where
  workers : ∀ w work i, (σ.pc w).progress = some (work, i) → Projects u work i
  processed : ∀ work : Work, work.toResult ∈ σ.processed → Projects u work work.data.rowCount

theorem rowsProject_setPc (h : RowsProject u σ) {pc : Pc n}
    (hPc : ∀ work i, pc.progress = some (work, i) → Projects u work i) :
    ∀ v work i, (setPc σ w pc v).progress = some (work, i) → Projects u work i := by
  intro v work i hv
  rcases eq_or_ne v w with rfl | hne
  · rw [setPc, Function.update_self] at hv
    exact hPc work i hv
  · rw [setPc, Function.update_of_ne hne] at hv
    exact h.workers v work i hv

theorem processed_append (h : RowsProject u σ) {work : Work} (hPc : σ.pc w = .counting work) :
    ∀ work' : Work, work'.toResult ∈ σ.processed ++ [work.toResult] → Projects u work' work'.data.rowCount := by
  intro work' hMem
  rcases List.mem_append.mp hMem with hMem | hMem
  · exact h.processed work' hMem
  · obtain rfl : work' = work := by
      obtain ⟨hSnippet, hData⟩ := CsdResult.mk.inj (List.mem_singleton.mp hMem)
      obtain ⟨snippet, data⟩ := work'
      cases hSnippet
      cases hData
      rfl
    exact h.workers w work' _ (by rw [hPc]; rfl)

theorem rowsProject_transition (hGood : Good u σ) (h : RowsProject u σ) (hStep : Transition u σ w σ') :
    RowsProject u σ' := by
  cases hStep with
  | start hPc | pop work queue hPc hQueue | insert work hPc hMu | pass key v todo flag hPc hBuffer
  | ship key v todo flag buffer hPc hBuffer | erase key flag hPc =>
    exact ⟨rowsProject_setPc h fun work i hProgress => (nomatch hProgress), h.processed⟩
  | check work hPc =>
    refine ⟨rowsProject_setPc h fun work' i hProgress => ?_, h.processed⟩
    cases hProgress
    exact fun j hj => absurd hj (Nat.not_lt_zero j)
  | flush work i row hPc hi hRow | keep work i row hPc hi hRow =>
    refine ⟨rowsProject_setPc h fun work' i' hProgress => ?_, h.processed⟩
    cases hProgress
    exact h.workers w work i (by rw [hPc]; rfl)
  | rowsEnd work i hPc hi =>
    refine ⟨rowsProject_setPc h fun work' i' hProgress => ?_, h.processed⟩
    cases hProgress
    exact fun j hj => h.workers w work i (by rw [hPc]; rfl) j (by omega)
  | write work i row hPc =>
    refine ⟨rowsProject_setPc h fun work' i' hProgress => ?_, h.processed⟩
    cases hProgress
    intro j hj
    rcases Nat.lt_succ_iff_lt_or_eq.mp hj with hj | rfl
    · exact h.workers w work i (by rw [hPc]; rfl) j hj
    · rw [(hGood.writing w work j row hPc).2]
      rfl
  | add work hPc =>
    refine ⟨rowsProject_setPc h fun work' i' hProgress => ?_, h.processed⟩
    cases hProgress
    exact h.workers w work _ (by rw [hPc]; rfl)
  | skip work hPc hMu hCount | down work count hPc hMu hCount hMore | zero work count hPc hMu hCount hZero =>
    exact ⟨rowsProject_setPc h fun work i hProgress => (nomatch hProgress), processed_append h hPc⟩

theorem rowsProject_run {actions : List (Action n)} (h : run (step u) (initial n) actions = some σ) :
    RowsProject u σ := by
  have hBoth : Good u σ ∧ RowsProject u σ := by
    refine run_preserves (I := fun σ => Good u σ ∧ RowsProject u σ) (fun s a s' hs hStep => ?_)
      ⟨good_initial u, fun w work i hw => (nomatch hw), fun work hw => (nomatch hw)⟩ h
    refine ⟨good_step hs.1 hStep, ?_⟩
    cases a with
    | enqueue result =>
      cases hStep
      exact ⟨hs.2.workers, hs.2.processed⟩
    | work w => exact rowsProject_transition hs.1 hs.2 (transition_of_workerStep hStep)
  exact hBoth.2

end Projects

/-- Every row of the snippet is projected and occurs in one of its messages, no message of another key has
a row of it, its count reached zero once, and nothing is left of it. -/
structure Delivered {n : Nat} (u : KValue) (snippet : Snippet) (σ : State n) : Prop where
  projects : ∀ result ∈ resultsOf snippet σ.enqueued, Projects u ⟨snippet, result.data⟩ result.data.rowCount
  rows : ((messagesFor snippet σ.returned).flatMap fun m => m.data.messageRows).Perm
    ((resultsOf snippet σ.enqueued).flatMap fun result => projectedRows u ⟨snippet, result.data⟩)
  filed : ∀ m ∈ σ.returned, m.1 = Snippet.key snippet ↔ m.2.snippet = some snippet
  others : ∀ key, key ≠ Snippet.key snippet →
    (((messagesOf key σ.returned).flatMap fun m => m.data.messageRows : List Bytes) : Multiset Bytes) ≤
      ((worksOf key σ.enqueued).flatMap (projectedRows u) : List Bytes)
  zeros : σ.zeroCount (Snippet.key snippet) = if resultsOf snippet σ.enqueued = [] then 0 else 1
  count : σ.idBlockCountMap (Snippet.key snippet) = none
  buffers : ∀ w, σ.idBufferMap w (Snippet.key snippet) = none

section Delivery
variable {n : Nat} {u : KValue} {σ : State n} {snippet : Snippet}

theorem messages_le (hTracked : Tracked u snippet σ) (key : String) :
    (((messagesOf key σ.returned).flatMap fun m => m.data.messageRows : List Bytes) : Multiset Bytes) ≤
      ((worksOf key σ.enqueued).flatMap (projectedRows u) : List Bytes) := by
  rw [Multiset.le_iff_count]
  intro row
  have hAmounts := (hTracked.ledger key).amounts (rowHom row)
  have hShipped := shipped_rows row (messagesOf key σ.returned)
  have hArrived := measure_rows u row (worksOf key σ.enqueued)
  have hQueued := measure_rows u row (worksOf key σ.queue)
  have hRest := Finset.sum_nonneg fun w (_ : w ∈ Finset.univ) =>
    rowHom_nonneg row (((view u key σ).stage w).rest (spec u))
  have hBuffers := Finset.sum_nonneg fun w (_ : w ∈ Finset.univ) =>
    rowHom_nonneg row (((view u key σ).buffer w).getD 0)
  change Quota.measure (spec u) (rowHom row) (worksOf key σ.enqueued) =
    Quota.measure (spec u) (rowHom row) (worksOf key σ.queue) + _ + _ +
      Quota.shippedMeasure (rowHom row) ((messagesOf key σ.returned).map fun m => contentOf m.data) at hAmounts
  omega

theorem messagesFor_eq (hGood : Good u σ) (hNamed : Named snippet σ) :
    messagesFor snippet σ.returned = messagesOf (Snippet.key snippet) σ.returned := by
  rw [messagesFor, resultsOf, List.filter_map, messagesOf]
  congr 1
  refine List.filter_congr fun m hm => decide_eq_decide.mpr ⟨fun h => ?_, hNamed.messages m hm⟩
  exact (hGood.messages m hm snippet h).symm

theorem view_stage_of_settled (hSettled : Settled snippet σ) (w : Fin n) :
    (view u (Snippet.key snippet) σ).stage w = .away :=
  stageOf_away u (hSettled.workers w)

theorem view_queued_of_settled (hTracked : Tracked u snippet σ) (hDistinct : Distinct snippet σ.enqueued)
    (hSettled : Settled snippet σ) : (view u (Snippet.key snippet) σ).queued = 0 := by
  apply Multiset.eq_zero_of_forall_notMem
  intro work hWork
  have hArrived : work ∈ (view u (Snippet.key snippet) σ).arrived := by
    rw [(hTracked.ledger _).hands]
    exact Multiset.mem_add.mpr (Or.inl (Multiset.mem_add.mpr (Or.inl hWork)))
  have hSnippet := hDistinct.snippet_eq (Multiset.mem_coe.mp hArrived)
  have hQueue := (mem_worksOf.mp (Multiset.mem_coe.mp hWork)).1
  have hResult : work.toResult ∈ resultsOf snippet σ.queue :=
    List.mem_filter.mpr ⟨hQueue, by simp [Work.toResult, hSnippet]⟩
  rw [hSettled.queue] at hResult
  cases hResult

theorem job_of_settled (hTracked : Tracked u snippet σ) (hAdmissible : Admissible u snippet σ.enqueued)
    (hSum : blockSum (resultsOf snippet σ.enqueued) = snippet.resultInfo.csdBlockCount) (hSettled : Settled snippet σ) :
    (view u (Snippet.key snippet) σ).arrived = 0 ∧ Quota.Fresh (view u (Snippet.key snippet) σ) ∨
      Quota.Done (spec u) snippet.resultInfo.csdBlockCount (view u (Snippet.key snippet) σ) := by
  refine Quota.done_of_settled (hTracked.ledger _) (hTracked.inv hAdmissible).1
    (view_queued_of_settled hTracked hAdmissible.distinct hSettled) (view_stage_of_settled hSettled) ?_
  exact (weights_worksOf u hAdmissible.distinct).trans hSum

theorem shipped_of_settled (hTracked : Tracked u snippet σ) (hAdmissible : Admissible u snippet σ.enqueued)
    (hSum : blockSum (resultsOf snippet σ.enqueued) = snippet.resultInfo.csdBlockCount) (hSettled : Settled snippet σ)
    (μ : Content →+ ℤ) :
    Quota.measure (spec u) μ (worksOf (Snippet.key snippet) σ.enqueued) =
      Quota.shippedMeasure μ ((messagesFor snippet σ.returned).map fun m => contentOf m.data) := by
  have hBuffers : ∀ w, (view u (Snippet.key snippet) σ).buffer w = none := by
    rcases job_of_settled hTracked hAdmissible hSum hSettled with ⟨-, hFresh⟩ | hDone
    · exact hFresh.buffers
    · exact hDone.buffers
  have hAmounts := (hTracked.ledger (Snippet.key snippet)).amounts μ
  rw [view_queued_of_settled hTracked hAdmissible.distinct hSettled] at hAmounts
  simp only [view_stage_of_settled hSettled, hBuffers, Quota.measure_zero, Quota.Stage.rest_away, Option.getD_none,
    map_zero, Finset.sum_const_zero, zero_add] at hAmounts
  rw [messagesFor_eq hTracked.good (hTracked.inv hAdmissible).2]
  exact hAmounts

theorem finished_of_settled (hTracked : Tracked u snippet σ) (hDistinct : Distinct snippet σ.enqueued)
    (hSettled : Settled snippet σ) :
    (view u (Snippet.key snippet) σ).arrived = (view u (Snippet.key snippet) σ).finished := by
  rw [(hTracked.ledger _).hands, view_queued_of_settled hTracked hDistinct hSettled]
  simp [view_stage_of_settled hSettled]

theorem rows_of_settled (hTracked : Tracked u snippet σ) (hAdmissible : Admissible u snippet σ.enqueued)
    (hSum : blockSum (resultsOf snippet σ.enqueued) = snippet.resultInfo.csdBlockCount) (hSettled : Settled snippet σ) :
    ((messagesFor snippet σ.returned).flatMap fun m => m.data.messageRows).Perm
      ((resultsOf snippet σ.enqueued).flatMap fun result => projectedRows u ⟨snippet, result.data⟩) := by
  rw [← Multiset.coe_eq_coe]
  apply Multiset.ext.mpr
  intro row
  have hShipped := shipped_of_settled hTracked hAdmissible hSum hSettled (rowHom row)
  rw [measure_rows, shipped_rows, worksOf_eq hAdmissible.distinct, List.flatMap_map] at hShipped
  exact_mod_cast hShipped.symm

/-- The delivery rests on two things only: no part of the results weighs the quota, and all of them do. -/
theorem delivered_of_admissible {actions : List (Action n)} (hRun : run (step u) (initial n) actions = some σ)
    (hAdmissible : Admissible u snippet σ.enqueued)
    (hSum : blockSum (resultsOf snippet σ.enqueued) = snippet.resultInfo.csdBlockCount) (hSettled : Settled snippet σ) :
    Delivered u snippet σ := by
  have hTracked : Tracked u snippet σ := tracked_run hRun
  have hNamed := (hTracked.inv hAdmissible).2
  have hWorks := worksOf_eq hAdmissible.distinct
  have hArrived : (view u (Snippet.key snippet) σ).arrived = 0 ↔ resultsOf snippet σ.enqueued = [] := by
    change ((worksOf (Snippet.key snippet) σ.enqueued : List Work) : Multiset Work) = 0 ↔ _
    rw [hWorks, Multiset.coe_eq_zero, List.map_eq_nil_iff]
  refine ⟨fun result hResult => ?_, rows_of_settled hTracked hAdmissible hSum hSettled, fun m hm => ?_,
    fun key _ => messages_le hTracked key, ?_, ?_, fun w => ?_⟩
  · have hWork : (⟨snippet, result.data⟩ : Work) ∈ (view u (Snippet.key snippet) σ).arrived := by
      change _ ∈ ((worksOf (Snippet.key snippet) σ.enqueued : List Work) : Multiset Work)
      rw [hWorks]
      exact Multiset.mem_coe.mpr (List.mem_map.mpr ⟨result, hResult, rfl⟩)
    rw [finished_of_settled hTracked hAdmissible.distinct hSettled] at hWork
    exact (rowsProject_run hRun).processed _ (mem_worksOf.mp (Multiset.mem_coe.mp hWork)).1
  · exact ⟨hNamed.messages m hm, fun h => (hTracked.good.messages m hm snippet h).symm⟩
  · rcases job_of_settled hTracked hAdmissible hSum hSettled with ⟨hZero, hFresh⟩ | hDone
    · rw [if_pos (hArrived.mp hZero)]
      exact hFresh.zeros
    · rw [if_neg fun h => hDone.arrived (hArrived.mpr h)]
      exact hDone.zeros
  · rcases job_of_settled hTracked hAdmissible hSum hSettled with ⟨-, hFresh⟩ | hDone
    · exact hFresh.counter
    · exact hDone.counter
  · refine Option.map_eq_none_iff.mp (?_ : (view u (Snippet.key snippet) σ).buffer w = none)
    rcases job_of_settled hTracked hAdmissible hSum hSettled with ⟨-, hFresh⟩ | hDone
    · exact hFresh.buffers w
    · exact hDone.buffers w

/-- For any number of workers and any interleaving: if the results of a snippet have positive block counts
that add up to its `csd_block_count`, then once they are processed every row is delivered. -/
theorem projection_delivered (u : KValue) (n : Nat) (actions : List (Action n)) (σ : State n) (snippet : Snippet)
    (hRun : run (step u) (initial n) actions = some σ) (hDistinct : Distinct snippet σ.enqueued)
    (hPos : ∀ result ∈ resultsOf snippet σ.enqueued, 0 < result.data.currentBlockCount)
    (hSum : blockSum (resultsOf snippet σ.enqueued) = snippet.resultInfo.csdBlockCount) (hSettled : Settled snippet σ) :
    Delivered u snippet σ := by
  have hPositive : Positive snippet σ.enqueued := ⟨hDistinct, hPos, hSum.le⟩
  exact delivered_of_admissible hRun (hPositive.admissible u) hSum hSettled

def keySnippet (csdBlockCount : Int) : Snippet :=
  { Scan.ordersSnippet ⟨[], []⟩ csdBlockCount with
    queryInfo := { filtering := [], projection := [⟨.colName, ⟨[.column], [bytesOf "o_orderkey"]⟩⟩] } }

def keyResult (csdBlockCount blocks : Int) (rows : List Bytes) : CsdResult :=
  ⟨some (keySnippet csdBlockCount), { (Scan.batchOf rows).pushEnd with currentBlockCount := blocks }⟩

def keyResults : List CsdResult := [keyResult 3 1 [[1, 0, 0, 0, 7, 8]], keyResult 3 2 [[2, 0, 0, 0, 7, 8]]]

/-- Two workers take a result each and work in turns; the second brings the count to zero. -/
def keyActions : List (Action 2) :=
  keyResults.map .enqueue ++ [.work 0, .work 1, .work 0, .work 1, .work 0, .work 0, .work 0, .work 1, .work 0, .work 1,
    .work 0, .work 1, .work 0, .work 1, .work 0, .work 1, .work 1, .work 1, .work 1, .work 1, .work 1]

theorem keyActions_observed :
    (run (step .zero) (initial 2) keyActions).map (fun σ => (σ.enqueued, σ.queue, σ.pc 0, σ.pc 1)) =
      some (keyResults, [], .waiting, .waiting) := rfl

theorem keyActions_settled :
    ∃ σ, run (step .zero) (initial 2) keyActions = some σ ∧ σ.enqueued = keyResults ∧ Settled (keySnippet 3) σ := by
  obtain ⟨σ, hRun, hσ⟩ := Option.map_eq_some_iff.mp keyActions_observed
  simp only [Prod.mk.injEq] at hσ
  obtain ⟨hEnqueued, hQueue, hZero, hOne⟩ := hσ
  refine ⟨σ, hRun, hEnqueued, by rw [hQueue]; rfl, fun w => ?_⟩
  match w with
  | 0 => simp [hZero, Pc.key]
  | 1 => simp [hOne, Pc.key]

theorem keyResults_distinct : Distinct (keySnippet 3) keyResults := by
  intro result hResult other hOther _ _
  simp only [keyResults, List.mem_cons, List.not_mem_nil, or_false] at hResult
  rcases hResult with rfl | rfl <;> exact (Option.some_inj.mp hOther).symm

theorem keyResults_pos : ∀ result ∈ resultsOf (keySnippet 3) keyResults, 0 < result.data.currentBlockCount := by
  intro result hResult
  have hMem := List.mem_of_mem_filter hResult
  simp only [keyResults, List.mem_cons, List.not_mem_nil, or_false] at hMem
  rcases hMem with rfl | rfl <;> decide

theorem keyActions_delivered :
    ∃ σ, run (step .zero) (initial 2) keyActions = some σ ∧ σ.enqueued = keyResults ∧
      Delivered .zero (keySnippet 3) σ := by
  obtain ⟨σ, hRun, hEnqueued, hSettled⟩ := keyActions_settled
  refine ⟨σ, hRun, hEnqueued, projection_delivered .zero 2 keyActions σ (keySnippet 3) hRun ?_ ?_ ?_ hSettled⟩
  · exact hEnqueued ▸ keyResults_distinct
  · exact hEnqueued ▸ keyResults_pos
  · rw [hEnqueued]
    decide

end Delivery

section Order
variable {n : Nat} {u : KValue} {σ : State n} {snippet : Snippet}

theorem charged_run {actions : List (Action n)} (hRun : run (step u) (initial n) actions = some σ)
    (hPositive : Positive snippet σ.enqueued) :
    Quota.Charged (spec u) snippet.resultInfo.csdBlockCount (view u (Snippet.key snippet) σ) := by
  -- the hypothesis on the results is about the end of the run, and every state before has fewer of them
  have hBoth : Tracked u snippet σ ∧ (Positive snippet σ.enqueued →
      Quota.Charged (spec u) snippet.resultInfo.csdBlockCount (view u (Snippet.key snippet) σ)) := by
    refine run_preserves (I := fun σ => Tracked u snippet σ ∧ (Positive snippet σ.enqueued →
      Quota.Charged (spec u) snippet.resultInfo.csdBlockCount (view u (Snippet.key snippet) σ)))
      (fun s a s' hs hStep => ⟨tracked_step hs.1 hStep, fun hAfter => ?_⟩)
      ⟨tracked_initial u snippet, fun _ => Quota.charged_initial _ _⟩ hRun
    have hBefore := hAfter.mono (enqueued_of_step hStep)
    rcases simulate_step (Snippet.key snippet) hs.1.good hStep with hSame | hView
    · rw [hSame]
      exact hs.2 hBefore
    · refine Quota.charged_step (hs.1.ledger _) (hs.1.inv (hBefore.admissible u)).1 (hs.2 hBefore) hView
        (hBefore.weight_pos u) ?_
      exact (weights_worksOf u hBefore.distinct).trans_le hBefore.sum_le
  exact hBoth.2 hPositive

structure Accounted (snippet : Snippet) (σ : State n) : Prop where
  blocks : blockSum (messagesFor snippet σ.returned) = blockSum (resultsOf snippet σ.enqueued)
  scanned : ((messagesFor snippet σ.returned).map fun m => m.data.scannedRowCount).sum =
    ((resultsOf snippet σ.enqueued).map fun result => result.data.scannedRowCount).sum
  filtered : ((messagesFor snippet σ.returned).map fun m => m.data.filteredRowCount).sum =
    ((resultsOf snippet σ.enqueued).map fun result => result.data.filteredRowCount).sum

theorem counts_of_settled (hTracked : Tracked u snippet σ) (hAdmissible : Admissible u snippet σ.enqueued)
    (hSum : blockSum (resultsOf snippet σ.enqueued) = snippet.resultInfo.csdBlockCount) (hSettled : Settled snippet σ)
    (μ : Content →+ ℤ) (hRows : ∀ rows, μ (rowsContent rows) = 0) :
    ((messagesFor snippet σ.returned).map fun m => μ (countsContent m.data)).sum =
      ((resultsOf snippet σ.enqueued).map fun result => μ (countsContent result.data)).sum := by
  have hShipped := shipped_of_settled hTracked hAdmissible hSum hSettled μ
  rw [measure_counts u μ hRows, shipped_counts μ hRows, worksOf_eq hAdmissible.distinct, List.map_map] at hShipped
  exact hShipped.symm

theorem accounted_of_settled (hTracked : Tracked u snippet σ) (hAdmissible : Admissible u snippet σ.enqueued)
    (hSum : blockSum (resultsOf snippet σ.enqueued) = snippet.resultInfo.csdBlockCount) (hSettled : Settled snippet σ) :
    Accounted snippet σ where
  blocks := counts_of_settled hTracked hAdmissible hSum hSettled blocksHom fun _ => rfl
  scanned := by
    rw [← Nat.cast_inj (R := ℤ), Nat.cast_list_sum, Nat.cast_list_sum, List.map_map, List.map_map]
    exact counts_of_settled hTracked hAdmissible hSum hSettled scannedHom fun _ => rfl
  filtered := by
    rw [← Nat.cast_inj (R := ℤ), Nat.cast_list_sum, Nat.cast_list_sum, List.map_map, List.map_map]
    exact counts_of_settled hTracked hAdmissible hSum hSettled filteredHom fun _ => rfl

/-- A receiver can count the messages of a snippet off against `csd_block_count`: when it has that many
blocks no message follows, and at the end the counters agree. -/
theorem messages_accounted (u : KValue) (n : Nat) (actions : List (Action n)) (σ : State n) (snippet : Snippet)
    (hRun : run (step u) (initial n) actions = some σ) (hDistinct : Distinct snippet σ.enqueued)
    (hPos : ∀ result ∈ resultsOf snippet σ.enqueued, 0 < result.data.currentBlockCount)
    (hSum : blockSum (resultsOf snippet σ.enqueued) = snippet.resultInfo.csdBlockCount) :
    (∀ before after, messagesFor snippet σ.returned = before ++ after →
      snippet.resultInfo.csdBlockCount ≤ blockSum before → after = []) ∧
      (Settled snippet σ → Accounted snippet σ) := by
  have hPositive : Positive snippet σ.enqueued := ⟨hDistinct, hPos, hSum.le⟩
  have hTracked : Tracked u snippet σ := tracked_run hRun
  have hAdmissible := hPositive.admissible u
  refine ⟨fun before after hMessages hReached => ?_, accounted_of_settled hTracked hAdmissible hSum⟩
  cases after with
  | nil => rfl
  | cons m after =>
    rw [messagesFor_eq hTracked.good (hTracked.inv hAdmissible).2] at hMessages
    have hEarly := (charged_run hRun hPositive).early (before.map fun m => contentOf m.data) (contentOf m.data)
      (after.map fun m => contentOf m.data) (by
        change (messagesOf _ σ.returned).map (fun m => contentOf m.data) = _
        rw [hMessages, List.map_append, List.map_cons])
    change Quota.shippedMeasure blocksHom _ < _ at hEarly
    rw [shipped_counts blocksHom fun _ => rfl] at hEarly
    exact absurd hReached (not_le.mpr hEarly)

theorem keyActions_accounted :
    ∃ σ, run (step .zero) (initial 2) keyActions = some σ ∧ σ.enqueued = keyResults ∧
      Settled (keySnippet 3) σ ∧ Accounted (keySnippet 3) σ := by
  obtain ⟨σ, hRun, hEnqueued, hSettled⟩ := keyActions_settled
  refine ⟨σ, hRun, hEnqueued, hSettled,
    (messages_accounted .zero 2 keyActions σ (keySnippet 3) hRun ?_ ?_ ?_).2 hSettled⟩
  · exact hEnqueued ▸ keyResults_distinct
  · exact hEnqueued ▸ keyResults_pos
  · rw [hEnqueued]
    decide

end Order

end CsdWorker.Projection
