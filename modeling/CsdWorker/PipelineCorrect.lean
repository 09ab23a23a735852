import CsdWorker.Pipeline

/-! # When the block counts of an SST scan agree with the projection

The scan charges 100 blocks for every full buffer and what is left of `csd_block_count` for the last
batch. The projection is done with a snippet when the counts add up. Both agree on the end unless the
full buffers alone, or some of them, use up `csd_block_count`.
-/

namespace CsdWorker.Pipeline

open Memory Run Scan Packing
open Projection (Admissible Delivered Distinct Settled Snippet.key Tracked Work messagesFor projectRow projectedRows
  resultsOf worksOf)

set_option autoImplicit false

/-- With an empty filter list every row passes. -/
def kept (u : KValue) (depth : Nat) (snippet : Snippet) (row : Bytes) : Bool :=
  snippet.queryInfo.filtering.isEmpty || Filter.passes u depth snippet row

def deliverable (u : KValue) (depth : Nat) (snippet : Snippet) (rows : List Bytes) : List Bytes :=
  (rows.filter (kept u depth snippet)).filterMap (projectRow u snippet)

/-- No batch of the snippet is to come, in the filter layer or in the projection. -/
structure Drained {m n : Nat} (snippet : Snippet) (σ : State m n) : Prop where
  scanning : σ.scanning = []
  queue : resultsOf snippet σ.filterQueue = []
  workers : ∀ v, ∀ result ∈ σ.filterPc v, result.snippet ≠ some snippet
  projection : Settled snippet σ.projection

/-- All rows could be evaluated, those that pass are in the messages once, and nothing is left. -/
structure Outcome {m n : Nat} (u : KValue) (depth : Nat) (snippet : Snippet) (rows : List Bytes) (σ : State m n) :
    Prop where
  filterable : snippet.queryInfo.filtering ≠ [] → ∀ row ∈ rows, (Filter.rowPasses u depth snippet row).isSome
  projectable : ∀ row ∈ rows, kept u depth snippet row → (projectRow u snippet row).isSome
  rows_perm : ((messagesFor snippet σ.projection.returned).flatMap fun m => m.data.messageRows).Perm
    (deliverable u depth snippet rows)
  delivered : Delivered u snippet σ.projection

structure ScanBatch (snippet : Snippet) (o : Enqueued) : Prop where
  own : o.result.snippet = some snippet
  data_sealed : o.result.data.Sealed o.result.data.rows
  direct : o.sink = .projection → snippet.queryInfo.filtering = [] ∨ o.result.data.rows = []
  filtered : o.sink = .filter → snippet.queryInfo.filtering ≠ []

def blocksOf (o : Enqueued) : Int := o.result.data.currentBlockCount

section Batches
variable {u : KValue} {depth : Nat} {snippet : Snippet}

theorem flushBatch_scanBatch (snippet : Snippet) (rows : List Bytes) (blocks : Int) :
    ScanBatch snippet (flushBatch snippet (batchOf rows) blocks) := by
  have hCarries := flushBatch_batchOf_carries snippet rows blocks
  have hRows := hCarries.data_sealed.rows_eq
  have hSink : (flushBatch snippet (batchOf rows) blocks).sink = .projection ↔ _ := sink_eq_projection_iff snippet _
  refine ⟨hCarries.snippet_eq, ?_, fun h => ?_, fun hFilter hNil => ?_⟩
  · rw [hRows]
    exact hCarries.data_sealed
  · refine (hSink.mp h).symm.imp_right fun hCount => ?_
    rw [hRows]
    exact List.length_eq_zero_iff.mp ((batchOf_holds rows).rowCount.symm.trans hCount)
  · cases hFilter.symm.trans (hSink.mpr (Or.inr hNil))

theorem passOn_own {o : Enqueued} {result : CsdResult} (ho : o.result.snippet = some snippet)
    (h : passOn u depth o = some result) :
    result.snippet = some snippet ∧ result.data.currentBlockCount = blocksOf o := by
  unfold passOn at h
  split at h
  · cases h
    exact ⟨ho, rfl⟩
  · obtain ⟨hSnippet, -, hBlocks, -⟩ := Filter.filtering_sealed ho h
    exact ⟨hSnippet, hBlocks⟩

theorem projectedRows_eq (u : KValue) (snippet : Snippet) (d : Data) :
    projectedRows u ⟨snippet, d⟩ = d.rows.filterMap (projectRow u snippet) := by
  rw [projectedRows, Projection.projectedFrom, Data.rows, List.filterMap_map, Nat.sub_zero, ← List.range_eq_range']
  rfl

theorem passOn_rows {o : Enqueued} {result : CsdResult} (ho : ScanBatch snippet o)
    (h : passOn u depth o = some result) : result.data.rows = o.result.data.rows.filter (kept u depth snippet) := by
  unfold passOn at h
  split at h
  · rename_i hSink
    cases h
    rcases ho.direct hSink with hNil | hNil
    · refine (List.filter_eq_self.mpr fun row _ => ?_).symm
      simp [kept, hNil]
    · rw [hNil, List.filter_nil]
  · rename_i hSink
    obtain ⟨-, hSealed, -, -⟩ := Filter.filtering_sealed ho.own h
    rw [hSealed.rows_eq]
    apply List.filter_congr
    intro row _
    simp [kept, ho.filtered hSink]

theorem passOn_filterable {o : Enqueued} (ho : ScanBatch snippet o) (h : (passOn u depth o).isSome)
    (hFiltering : snippet.queryInfo.filtering ≠ []) :
    ∀ row ∈ o.result.data.rows, (Filter.rowPasses u depth snippet row).isSome := by
  obtain ⟨result, hResult⟩ := Option.isSome_iff_exists.mp h
  unfold passOn at hResult
  split at hResult
  · rename_i hSink
    intro row hRow
    rw [(ho.direct hSink).resolve_left hFiltering] at hRow
    cases hRow
  · exact (Filter.filtering_sealed ho.own hResult).2.2.2

end Batches

section Runs
variable {m n : Nat} {u : KValue} {depth : Nat} {snippet : Snippet} {batches : List Enqueued} {σ : State m n}

theorem map_eq_of_map_some {α β γ : Type} {p : α → Option β} {f : β → γ} {g : α → γ} {xs : List α} {ys : List β}
    (h : xs.map p = ys.map some) (hfg : ∀ x ∈ xs, ∀ y ∈ p x, f y = g x) : ys.map f = xs.map g := by
  induction xs generalizing ys with
  | nil =>
    obtain rfl := List.map_eq_nil_iff.mp h.symm
    rfl
  | cons x xs ih =>
    cases ys with
    | nil => cases h
    | cons y ys =>
      obtain ⟨hHead, hTail⟩ := List.cons_eq_cons.mp h
      obtain ⟨hx, hxs⟩ := List.forall_mem_cons.mp hfg
      rw [List.map_cons, List.map_cons, ih hTail hxs, hx y hHead]

theorem Flow.distinct (h : Flow u depth snippet batches σ) : Distinct snippet σ.projection.enqueued := by
  intro result hResult other hOther hQuery hWork
  rcases h.known.2.2 result hResult with hOwn | hForeign
  · exact Option.some_inj.mp ((Option.mem_def.mp hOther).symm.trans hOwn)
  · exact absurd ⟨hQuery, hWork⟩ (hForeign other hOther)

theorem Flow.weights_le (h : Flow u depth snippet batches σ) (hOwn : ∀ o ∈ batches, o.result.snippet = some snippet) :
    ((worksOf (Snippet.key snippet) σ.projection.enqueued : List Work) : Multiset _).map
      (Projection.spec u).weight ≤ ((batches.map blocksOf : List Int) : Multiset Int) := by
  obtain ⟨done, hBatches, hDone⟩ := h.passed
  have hle : (done : Multiset Enqueued) ≤ batches := by
    rw [← hBatches, add_assoc, add_assoc]
    exact Multiset.le_add_right _ _
  have hEq := map_eq_of_map_some (f := fun r => r.data.currentBlockCount) (g := blocksOf) hDone fun o ho r hr =>
    (passOn_own (hOwn o (Multiset.mem_coe.mp (Multiset.mem_of_le hle (Multiset.mem_coe.mpr ho)))) hr).2
  rw [Projection.worksOf_eq h.distinct, Multiset.map_coe, List.map_map]
  change (((resultsOf snippet σ.projection.enqueued).map fun r => r.data.currentBlockCount : List Int) :
    Multiset Int) ≤ _
  rw [hEq, ← Multiset.map_coe, ← Multiset.map_coe]
  exact Multiset.map_le_map hle

/-- No choice of batches but all of them weighs `csd_block_count`. -/
def NeverEarly (snippet : Snippet) (batches : List Enqueued) : Prop :=
  ∀ vs ≤ ((batches.map blocksOf : List Int) : Multiset Int), vs ≠ 0 →
    vs.sum = snippet.resultInfo.csdBlockCount → vs = ((batches.map blocksOf : List Int) : Multiset Int)

theorem Flow.admissible (h : Flow u depth snippet batches σ) (hOwn : ∀ o ∈ batches, o.result.snippet = some snippet)
    (hEarly : NeverEarly snippet batches) : Admissible u snippet σ.projection.enqueued :=
  ⟨h.distinct, (Projection.spec u).noEarly_of_weights (h.weights_le hOwn) hEarly⟩

theorem distinct_processed (hTracked : Tracked u snippet σ.projection) (h : Distinct snippet σ.projection.enqueued) :
    Distinct snippet σ.projection.processed := by
  intro result hResult other hOther hQuery hWork
  have hSnippet : result.snippet = some other := hOther
  have hKey : Snippet.key other = Snippet.key snippet := by
    rw [Snippet.key, hQuery, hWork, ← Snippet.key]
  have hFinished : (⟨other, result.data⟩ : Work) ∈
      (Projection.view u (Snippet.key snippet) σ.projection).finished := by
    refine Multiset.mem_coe.mpr (Projection.mem_worksOf.mpr ⟨?_, hKey⟩)
    rw [Work.toResult, ← hSnippet]
    exact hResult
  have hArrived : (⟨other, result.data⟩ : Work) ∈
      (Projection.view u (Snippet.key snippet) σ.projection).arrived := by
    rw [(hTracked.ledger _).hands]
    exact Multiset.mem_add.mpr (Or.inr hFinished)
  exact h.snippet_eq (Multiset.mem_coe.mp hArrived)

theorem processed_of_zero (hFlow : Flow u depth snippet batches σ) (hTracked : Tracked u snippet σ.projection)
    (hOwn : ∀ o ∈ batches, o.result.snippet = some snippet) (hEarly : NeverEarly snippet batches)
    (hZero : σ.projection.zeroCount (Snippet.key snippet) ≠ 0) :
    (resultsOf snippet σ.projection.processed).length = batches.length := by
  have hAdmissible := hFlow.admissible hOwn hEarly
  have hSpent := (hTracked.inv hAdmissible).1.spent hZero
  have hAll := hEarly _ (hFlow.weights_le hOwn) (fun h => hSpent.arrived (Multiset.map_eq_zero.mp h)) hSpent.weights
  have hCard := congrArg Multiset.card hAll
  have hFinished := congrArg Multiset.card hSpent.finished
  have hWorks := Projection.worksOf_eq (distinct_processed hTracked hAdmissible.distinct)
  change ((worksOf (Snippet.key snippet) σ.projection.processed : List Work) : Multiset Work).card =
    ((worksOf (Snippet.key snippet) σ.projection.enqueued : List Work) : Multiset Work).card at hFinished
  rw [Multiset.card_map] at hCard
  rw [hWorks, hCard] at hFinished
  simpa using hFinished

theorem done_of_drained (hFlow : Flow u depth snippet batches σ) (hDrained : Drained snippet σ) :
    ∃ done : List Enqueued, done.Perm batches ∧
      done.map (passOn u depth) = (resultsOf snippet σ.projection.enqueued).map some := by
  obtain ⟨done, hBatches, hDone⟩ := hFlow.passed
  have hHeld : ∀ v, held snippet (σ.filterPc v) = 0 := by
    intro v
    cases hPc : σ.filterPc v with
    | none => rfl
    | some result =>
      have hne := hDrained.workers v result hPc
      simp [held, inFilter, resultsOf, hne]
  rw [hDrained.scanning, inFilter, hDrained.queue] at hBatches
  simp only [hHeld, Finset.sum_const_zero, List.map_nil, Multiset.coe_nil, add_zero] at hBatches
  exact ⟨done, Multiset.coe_eq_coe.mp hBatches, hDone⟩

theorem deliverable_flatMap (u : KValue) (depth : Nat) (snippet : Snippet) (batches : List Enqueued) :
    deliverable u depth snippet (batches.flatMap fun o => o.result.data.rows) =
      batches.flatMap fun o => deliverable u depth snippet o.result.data.rows := by
  rw [deliverable, List.filter_flatMap, List.filterMap_flatMap]
  rfl

theorem projects_of_mem {d : Data} {row : Bytes} (h : Projection.Projects u ⟨snippet, d⟩ d.rowCount)
    (hRow : row ∈ d.rows) : (projectRow u snippet row).isSome := by
  obtain ⟨j, hj, rfl⟩ := List.mem_map.mp hRow
  exact h j (List.mem_range.mp hj)

theorem outcome_of_drained (hFlow : Flow u depth snippet batches σ) (hReachable : ProjectionReachable u σ.projection)
    (hBatches : ∀ o ∈ batches, ScanBatch snippet o) (hEarly : NeverEarly snippet batches)
    (hSum : (batches.map blocksOf).sum = snippet.resultInfo.csdBlockCount) (hDrained : Drained snippet σ) :
    Outcome u depth snippet (batches.flatMap fun o => o.result.data.rows) σ := by
  obtain ⟨done, hPerm, hDone⟩ := done_of_drained hFlow hDrained
  have hScan : ∀ o ∈ done, ScanBatch snippet o := fun o ho => hBatches o (hPerm.subset ho)
  have hBlocks : Projection.blockSum (resultsOf snippet σ.projection.enqueued) = snippet.resultInfo.csdBlockCount := by
    rw [Projection.blockSum, map_eq_of_map_some hDone fun o ho r hr => (passOn_own (hScan o ho).own hr).2,
      (hPerm.map blocksOf).sum_eq, hSum]
  obtain ⟨projectionActions, hRun⟩ := hReachable
  have hDelivered := Projection.delivered_of_admissible hRun (hFlow.admissible (fun o ho => (hBatches o ho).own) hEarly)
    hBlocks hDrained.projection
  have hPassed : ∀ o ∈ batches, ∃ result ∈ resultsOf snippet σ.projection.enqueued, passOn u depth o = some result := by
    intro o ho
    have hMem : passOn u depth o ∈ (resultsOf snippet σ.projection.enqueued).map some := by
      rw [← hDone]
      exact List.mem_map_of_mem (hPerm.symm.subset ho)
    obtain ⟨result, hResult, hEq⟩ := List.mem_map.mp hMem
    exact ⟨result, hResult, hEq.symm⟩
  refine ⟨fun hFiltering row hRow => ?_, fun row hRow hKept => ?_, hDelivered.rows.trans ?_, hDelivered⟩
  · obtain ⟨o, ho, hRow⟩ := List.mem_flatMap.mp hRow
    obtain ⟨result, -, hPass⟩ := hPassed o ho
    exact passOn_filterable (hBatches o ho) (by rw [hPass]; rfl) hFiltering row hRow
  · obtain ⟨o, ho, hRow⟩ := List.mem_flatMap.mp hRow
    obtain ⟨result, hResult, hPass⟩ := hPassed o ho
    refine projects_of_mem (hDelivered.projects result hResult) ?_
    rw [passOn_rows (hBatches o ho) hPass]
    exact List.mem_filter.mpr ⟨hRow, hKept⟩
  · have hEq := map_eq_of_map_some (f := fun r => projectedRows u ⟨snippet, r.data⟩)
      (g := fun o => deliverable u depth snippet o.result.data.rows) hDone fun o ho r hr => by
        rw [projectedRows_eq, passOn_rows (hScan o ho) hr, ← deliverable]
    rw [deliverable_flatMap, List.flatMap_def, hEq, ← List.flatMap_def]
    exact hPerm.flatMap_right _

end Runs

/-- Whatever the workers do with the batches of the scan: the count of the snippet is used up with the
last batch, and in the end every row that passes the filter is in one message. -/
def Sound (u : KValue) (depth : Nat) (files : Bytes → SortedEntries) (snippet : Snippet) : Prop :=
  ∃ batches, sstFileFullScan files snippet = some batches ∧
    ∀ (m n : Nat) (actions : List (Action m n)) (σ : State m n), (∀ action ∈ actions, Outside snippet action) →
      run (step u depth) (initial m n batches) actions = some σ →
        (σ.projection.zeroCount (Snippet.key snippet) ≠ 0 →
          (resultsOf snippet σ.projection.processed).length = batches.length) ∧
        (Drained snippet σ → Outcome u depth snippet (scannedRows files snippet) σ)

def ScannedFit (files : Bytes → SortedEntries) (snippet : Snippet) : Prop :=
  ∀ e ∈ scannedEntries files snippet, ∃ row, scanRow snippet.schemaInfo e = some row ∧ row.length ≤ bufferSize

theorem sstBatches_scanBatch (snippet : Snippet) (rows : List Bytes) :
    ∀ o ∈ sstBatches snippet rows, ScanBatch snippet o :=
  forall_mem_sstBatches fun group _ blocks => flushBatch_scanBatch snippet group blocks

theorem blocksOf_sstBatches (snippet : Snippet) (rows : List Bytes) :
    (sstBatches snippet rows).map blocksOf = List.replicate (rowGroups rows).closed.length 100 ++
      [snippet.resultInfo.csdBlockCount - 100 * (rowGroups rows).closed.length] :=
  sstBatches_blocks snippet rows

/-- The layers agree if no number of full buffers, at 100 blocks each, makes up `csd_block_count`. -/
theorem pipeline_sound (u : KValue) (depth : Nat) (files : Bytes → SortedEntries) (snippet : Snippet)
    (hRows : ScannedFit files snippet)
    (hParts : ∀ j : ℕ, 1 ≤ j → j ≤ (rowGroups (scannedRows files snippet)).closed.length →
      100 * (j : Int) ≠ snippet.resultInfo.csdBlockCount) :
    Sound u depth files snippet := by
  refine ⟨_, sstFileFullScan_scanned hRows, fun m n actions σ hOutside hRun => ?_⟩
  have hBatches := sstBatches_scanBatch snippet (scannedRows files snippet)
  have hEarly : NeverEarly snippet (sstBatches snippet (scannedRows files snippet)) := by
    intro vs hle hne hSum
    rw [blocksOf_sstBatches, ← Multiset.coe_add, Multiset.coe_replicate, Multiset.coe_singleton, add_comm,
      Multiset.singleton_add] at hle ⊢
    exact Quota.parts_eq (by decide) hParts hle hne hSum
  obtain ⟨hFlow, hReachable⟩ := flow_run (fun o ho => (hBatches o ho).own) hOutside hRun
  refine ⟨fun hZero => ?_, fun hDrained => ?_⟩
  · obtain ⟨projectionActions, hProjection⟩ := hReachable
    exact processed_of_zero hFlow (Projection.tracked_run hProjection) (fun o ho => (hBatches o ho).own) hEarly hZero
  · have hOutcome := outcome_of_drained hFlow hReachable hBatches hEarly (sstBatches_blocks_sum _ _) hDrained
    rwa [sstBatches_rows] at hOutcome

section Wide
variable (pad : Bytes)

def wideEntry (orderkey : UInt8) : Entry := ⟨[0, 0, 1, 0, 0x80, 0, 0, orderkey], pad, four_le_ordersKey orderkey⟩

def wideFiles : Bytes → SortedEntries := fun _ =>
  ⟨[wideEntry pad 1, wideEntry pad 2], List.pairwise_pair.mpr (by simp only [wideEntry]; decide)⟩

def wideSnippet (csdBlockCount : Int) : Snippet :=
  { Projection.keySnippet csdBlockCount with blockInfo := ⟨[bytesOf "1.sst"], []⟩ }

def wideRow (orderkey : UInt8) : Bytes := [orderkey, 0, 0, 0] ++ pad

theorem wide_entries (csdBlockCount : Int) :
    scannedEntries (wideFiles pad) (wideSnippet csdBlockCount) = [wideEntry pad 1, wideEntry pad 2] := by
  have hNumber : ∀ orderkey, (wideEntry pad orderkey).tableIndexNumber = 256 := fun _ =>
    (by decide : Endian.leInt [0, 1, 0, 0] = 256)
  have hTable : (wideSnippet csdBlockCount).schemaInfo.tableIndexNumber = 256 := rfl
  rw [scannedEntries_eq (wideFiles pad) (by rw [hTable]; decide) (by rw [hTable]; decide)]
  refine (List.append_nil _).trans (List.filter_eq_self.mpr fun e he => ?_)
  rcases List.mem_pair.mp he with rfl | rfl <;> exact decide_eq_true (hNumber _)

theorem wide_rows (csdBlockCount : Int) :
    scannedRows (wideFiles pad) (wideSnippet csdBlockCount) = [wideRow pad 1, wideRow pad 2] := by
  rw [scannedRows, wide_entries]
  rfl

variable {pad}

theorem wideRow_length (hPad : pad.length + 4 = bufferSize) (orderkey : UInt8) :
    (wideRow pad orderkey).length = bufferSize := hPad

theorem wide_scannedFit (hPad : pad.length + 4 = bufferSize) (csdBlockCount : Int) :
    ScannedFit (wideFiles pad) (wideSnippet csdBlockCount) := by
  intro e he
  rw [wide_entries] at he
  rcases List.mem_pair.mp he with rfl | rfl
  · exact ⟨wideRow pad 1, rfl, (wideRow_length hPad 1).le⟩
  · exact ⟨wideRow pad 2, rfl, (wideRow_length hPad 2).le⟩

theorem wide_groups (hPad : pad.length + 4 = bufferSize) :
    rowGroups [wideRow pad 1, wideRow pad 2] = ⟨[[wideRow pad 1]], [wideRow pad 2]⟩ := by
  rw [rowGroups, pack_cons, add_of_fits, pack_cons, add_of_overflow, pack_nil]
  · rfl
  · change bufferSize < (wideRow pad 1).length + 0 + (wideRow pad 2).length
    rw [wideRow_length hPad, wideRow_length hPad]
    decide
  · change 0 + (wideRow pad 1).length ≤ bufferSize
    rw [wideRow_length hPad, zero_add]

variable (pad)

def wideBatches : List Enqueued :=
  [flushBatch (wideSnippet 100) (batchOf [wideRow pad 1]) 100, flushBatch (wideSnippet 100) (batchOf [wideRow pad 2]) 0]

/-- One worker takes both batches, one after the other. -/
def wideActions : List (Action 0 1) := [.scan, .scan] ++ List.replicate 19 (.project 0)

/-- The first batch uses up the count, so its row is released. The second opens the count anew and its
row stays in the buffer. -/
theorem wide_observed :
    (run (step .zero 0) (initial 0 1 (wideBatches pad)) wideActions).map (fun σ =>
      ((σ.scanning, σ.filterQueue, σ.projection.queue, σ.projection.pc 0),
        (messagesFor (wideSnippet 100) σ.projection.returned).flatMap fun m => m.data.messageRows,
        σ.projection.idBlockCountMap (Snippet.key (wideSnippet 100)))) =
      some (([], [], [], .waiting), [[1, 0, 0, 0]], some 100) := by
  rfl

theorem wide_deliverable :
    deliverable .zero 0 (wideSnippet 100) [wideRow pad 1, wideRow pad 2] = [[1, 0, 0, 0], [2, 0, 0, 0]] := rfl

end Wide

def padding : Bytes := List.replicate (bufferSize - 4) 0

theorem length_padding : padding.length + 4 = bufferSize := by
  rw [padding, List.length_replicate]
  decide

theorem wide_sound : Sound .zero 0 (wideFiles padding) (wideSnippet 150) := by
  refine pipeline_sound .zero 0 (wideFiles padding) (wideSnippet 150)
    (wide_scannedFit length_padding 150) fun j hj hk => ?_
  rw [wide_rows, wide_groups length_padding] at hk
  obtain rfl : j = 1 := Nat.le_antisymm hk hj
  decide

/-- With `csd_block_count` 100 they count 100 and 0. -/
theorem wide_row_stranded :
    ScannedFit (wideFiles padding) (wideSnippet 100) ∧ ¬ Sound .zero 0 (wideFiles padding) (wideSnippet 100) := by
  refine ⟨wide_scannedFit length_padding 100, ?_⟩
  rintro ⟨batches, hScan, hSound⟩
  obtain rfl : wideBatches padding = batches := by
    rw [sstFileFullScan_scanned (wide_scannedFit length_padding 100), wide_rows, Option.some_inj, sstBatches,
      wide_groups length_padding] at hScan
    exact hScan
  obtain ⟨σ, hRun, hσ⟩ := Option.map_eq_some_iff.mp (wide_observed padding)
  simp only [Prod.mk.injEq] at hσ
  obtain ⟨⟨hScanning, hFilter, hQueue, hPc⟩, hMessages, -⟩ := hσ
  have hDrained : Drained (wideSnippet 100) σ := by
    refine ⟨hScanning, by rw [hFilter]; rfl, fun v => v.elim0, by rw [hQueue]; rfl, fun w => ?_⟩
    rw [Subsingleton.elim w 0, hPc]
    intro h
    cases h
  have hOutside : ∀ action ∈ wideActions, Outside (wideSnippet 100) action := by
    intro action hAction
    rcases List.mem_append.mp hAction with hAction | hAction
    · rcases List.mem_pair.mp hAction with rfl | rfl <;> trivial
    · rw [List.eq_of_mem_replicate hAction]
      trivial
  have hOutcome := ((hSound 0 1 wideActions σ hOutside hRun).2 hDrained).rows_perm
  rw [hMessages, wide_rows, wide_deliverable] at hOutcome
  exact absurd hOutcome.length_eq (by decide)

end CsdWorker.Pipeline
