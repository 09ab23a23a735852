import CsdWorker.Lib.QuotaOrder
import CsdWorker.ProjectionBuffers

/-! # The projection of one snippet as a job with a quota

`view` forgets everything that is filed under other keys. Every step of the projection is a step of
the job or does not touch it.
-/

namespace CsdWorker.Projection

open Memory Run

set_option autoImplicit false

/-- Rows, blocks, scanned rows and filtered rows. -/
abbrev Content := Multiset Bytes × ℤ × ℕ × ℕ

def rowsContent (rows : List Bytes) : Content := (↑rows, 0, 0, 0)

def countsContent (d : Data) : Content := (0, d.currentBlockCount, d.scannedRowCount, d.filteredRowCount)

def contentOf (d : Data) : Content := rowsContent d.messageRows + countsContent d

def blocksHom : Content →+ ℤ := (AddMonoidHom.fst ℤ (ℕ × ℕ)).comp (AddMonoidHom.snd (Multiset Bytes) (ℤ × ℕ × ℕ))

section Rows
variable (u : KValue) (work : Work)

def projectedFrom (i : Nat) : List Bytes :=
  (List.range' i (work.data.rowCount - i)).filterMap fun j => projectRow u work.snippet (work.data.rowAt j)

def projectedRows : List Bytes := projectedFrom u work 0

variable {u work}

theorem projectedFrom_of_lt {i : Nat} {row : Bytes} (hi : i < work.data.rowCount)
    (hRow : projectRow u work.snippet (work.data.rowAt i) = some row) :
    projectedFrom u work i = row :: projectedFrom u work (i + 1) := by
  have hCount : work.data.rowCount - i = (work.data.rowCount - (i + 1)) + 1 := by omega
  rw [projectedFrom, hCount, List.range'_succ, 
    List.filterMap_cons_some (f := fun j => projectRow u work.snippet (work.data.rowAt j)) hRow, projectedFrom]

theorem projectedFrom_of_not_lt {i : Nat} (hi : ¬ i < work.data.rowCount) : projectedFrom u work i = [] := by
  rw [projectedFrom, show work.data.rowCount - i = 0 by omega, List.range'_zero, List.filterMap_nil]

end Rows

def spec (u : KValue) : Quota.Spec Work Content where
  body work := rowsContent (projectedRows u work)
  stamp work := countsContent work.data
  blocks := blocksHom
  quota work := work.snippet.resultInfo.csdBlockCount
  blocks_body _ := rfl

def workOf (result : CsdResult) : Option Work := result.snippet.map fun snippet => ⟨snippet, result.data⟩

def worksOf (key : String) (results : List CsdResult) : List Work :=
  (results.filterMap workOf).filter fun work => work.key = key

def stageOf {n : Nat} (u : KValue) (key : String) : Pc n → Quota.Stage (Fin n) Work Content
  | .notStarted | .waiting => .away
  | .popped work => if work.key = key then .taken work else .away
  | .counted work => if work.key = key then .opened work else .away
  | .merging work i => if work.key = key then .merging work (rowsContent (projectedFrom u work i)) else .away
  | .writing work i row =>
    if work.key = key then .merging work (rowsContent (row :: projectedFrom u work (i + 1))) else .away
  | .adding work => if work.key = key then .merging work 0 else .away
  | .counting work => if work.key = key then .counting work else .away
  | .releasing key' todo _ => if key' = key then .releasing todo else .away

section StageOf
variable {n : Nat} (u : KValue) (work : Work)

@[simp] theorem stageOf_popped : stageOf (n := n) u work.key (.popped work) = .taken work := if_pos rfl

@[simp] theorem stageOf_counted : stageOf (n := n) u work.key (.counted work) = .opened work := if_pos rfl

@[simp] theorem stageOf_merging (i : Nat) : stageOf (n := n) u work.key (.merging work i) =
    .merging work (rowsContent (projectedFrom u work i)) := if_pos rfl

@[simp] theorem stageOf_writing (i : Nat) (row : Bytes) : stageOf (n := n) u work.key (.writing work i row) =
    .merging work (rowsContent (row :: projectedFrom u work (i + 1))) := if_pos rfl

@[simp] theorem stageOf_adding : stageOf (n := n) u work.key (.adding work) = .merging work 0 := if_pos rfl

@[simp] theorem stageOf_counting : stageOf (n := n) u work.key (.counting work) = .counting work := if_pos rfl

@[simp] theorem stageOf_releasing (key : String) (todo : List (Fin n)) (flag : Bool) :
    stageOf u key (.releasing key todo flag) = .releasing todo := if_pos rfl

def Pc.key : Pc n → Option String
  | .notStarted | .waiting => none
  | .popped work | .counted work | .merging work _ | .writing work _ _ | .adding work | .counting work =>
    some work.key
  | .releasing key _ _ => some key

theorem stageOf_away {key : String} {pc : Pc n} (h : pc.key ≠ some key) : stageOf u key pc = .away := by
  cases pc with
  | notStarted | waiting => rfl
  | popped work | counted work | merging work i | writing work i row | adding work | counting work
  | releasing key' todo flag => exact if_neg fun hKey => h (congrArg some hKey)

end StageOf

def messagesOf (key : String) (returned : List (String × CsdResult)) : List CsdResult :=
  (returned.filter fun m => m.1 = key).map Prod.snd

def view {n : Nat} (u : KValue) (key : String) (σ : State n) : Quota.State (Fin n) Work Content where
  arrived := worksOf key σ.enqueued
  queued := worksOf key σ.queue
  finished := worksOf key σ.processed
  stage w := stageOf u key (σ.pc w)
  counter := σ.idBlockCountMap key
  buffer w := (σ.idBufferMap w key).map fun buffer => contentOf buffer.data
  shipped := (messagesOf key σ.returned).map fun message => contentOf message.data
  zeros := σ.zeroCount key

section Content

theorem contentOf_clear : contentOf Data.clear = 0 := rfl

theorem rowsContent_cons (row : Bytes) (rows : List Bytes) :
    rowsContent (row :: rows) = rowsContent [row] + rowsContent rows := by
  rw [rowsContent, rowsContent, rowsContent, Prod.mk_add_mk, Multiset.coe_add]
  rfl

theorem contentOf_pushRow {d : Data} {rows : List Bytes} (h : d.Holds rows) (row : Bytes) :
    contentOf (d.pushRow row) = contentOf d + rowsContent [row] := by
  have hRows : (d.pushRow row).messageRows = d.messageRows ++ [row] := by
    rw [(h.pushRow row).messageRows_eq, h.messageRows_eq]
  have hAppend : rowsContent (d.messageRows ++ [row]) = rowsContent d.messageRows + rowsContent [row] := by
    rw [rowsContent, rowsContent, rowsContent, Prod.mk_add_mk, Multiset.coe_add]
    rfl
  have hCounts : countsContent (d.pushRow row) = countsContent d := rfl
  rw [contentOf, contentOf, hRows, hAppend, hCounts]
  abel

theorem contentOf_addCounts (d counts : Data) :
    contentOf (Data.addCounts d counts) = contentOf d + countsContent counts := by
  have hRows : (Data.addCounts d counts).messageRows = d.messageRows := rfl
  have hCounts : countsContent (Data.addCounts d counts) = countsContent d + countsContent counts := by
    simp [countsContent, Data.addCounts]
  rw [contentOf, contentOf, hRows, hCounts, add_assoc]

end Content

section Frame
variable {n : Nat} {u : KValue} {σ σ' : State n} {w : Fin n} {key : String}

theorem stage_setPc (u : KValue) (key : String) (w : Fin n) (pc : Pc n) :
    (fun v => stageOf u key (setPc σ w pc v)) =
      Function.update (fun v => stageOf u key (σ.pc v)) w (stageOf u key pc) := by
  funext v
  rcases eq_or_ne v w with rfl | hv
  · simp [setPc]
  · simp [setPc, hv]

theorem stage_setPc_other (u : KValue) (key : String) (w : Fin n) (pc : Pc n) (hOld : (σ.pc w).key ≠ some key)
    (hNew : pc.key ≠ some key) :
    (fun v => stageOf u key (setPc σ w pc v)) = fun v => stageOf u key (σ.pc v) := by
  rw [stage_setPc, stageOf_away u hNew, ← stageOf_away u hOld]
  exact Function.update_eq_self w (fun v => stageOf u key (σ.pc v))

theorem buffer_setBuffer (w : Fin n) (key : String) (buffer : Option CsdResult) :
    (fun v => (setBuffer σ w key buffer v key).map fun b => contentOf b.data) =
      Function.update (fun v => (σ.idBufferMap v key).map fun b => contentOf b.data) w
        (buffer.map fun b => contentOf b.data) := by
  funext v
  rw [setBuffer_eq]
  rcases eq_or_ne v w with rfl | hv
  · simp
  · simp [hv]

theorem buffer_setBuffer_other {key' : String} (h : key' ≠ key) (buffer : Option CsdResult) :
    (fun v => (setBuffer σ w key' buffer v key).map fun b => contentOf b.data) =
      fun v => (σ.idBufferMap v key).map fun b => contentOf b.data := by
  funext v
  rw [setBuffer_eq, if_neg (fun hEq => h hEq.2.symm)]

theorem worksOf_append (key : String) (results : List CsdResult) (work : Work) :
    worksOf key (results ++ [work.toResult]) = worksOf key results ++ if work.key = key then [work] else [] := by
  have hWork : workOf work.toResult = some work := rfl
  by_cases h : work.key = key <;> simp [worksOf, hWork, h]

theorem worksOf_cons (key : String) (results : List CsdResult) (work : Work) :
    worksOf key (work.toResult :: results) = (if work.key = key then [work] else []) ++ worksOf key results := by
  have hWork : workOf work.toResult = some work := rfl
  by_cases h : work.key = key <;> simp [worksOf, hWork, h]

theorem messagesOf_append_self (key : String) (returned : List (String × CsdResult)) (message : CsdResult) :
    messagesOf key (returned ++ [(key, message)]) = messagesOf key returned ++ [message] := by
  simp [messagesOf]

theorem messagesOf_append_other {key' : String} (h : key' ≠ key) (returned : List (String × CsdResult))
    (message : CsdResult) : messagesOf key (returned ++ [(key', message)]) = messagesOf key returned := by
  simp [messagesOf, h]

theorem amount_view (u : KValue) (key : String) (w : Fin n) :
    (view u key σ).amount w = contentOf (bufferAt σ w key).data := by
  change ((σ.idBufferMap w key).map fun b : CsdResult => contentOf b.data).getD 0 = _
  rw [bufferAt]
  cases σ.idBufferMap w key with
  | none => rfl
  | some buffer => rfl

theorem buffer_isSome_view (u : KValue) (key : String) (w : Fin n) :
    ((view u key σ).buffer w).isSome ↔ ∃ buffer, σ.idBufferMap w key = some buffer := by
  change ((σ.idBufferMap w key).map fun buffer : CsdResult => contentOf buffer.data).isSome ↔ _
  rw [Option.isSome_map, Option.isSome_iff_exists]

end Frame

section Simulation
variable {n : Nat} {u : KValue} {σ σ' : State n} {w : Fin n} {key : String}

theorem releasing_of_stageOf (pc : Pc n) {todo : List (Fin n)} (h : stageOf u key pc = .releasing todo) :
    ∃ flag, pc = .releasing key todo flag := by
  cases pc with
  | notStarted | waiting => cases h
  | releasing key' todo' flag =>
    rw [stageOf] at h
    split at h
    · rename_i hKey
      cases h
      exact ⟨flag, by rw [hKey]⟩
    · cases h
  | popped work | counted work | merging work i | writing work i row | adding work | counting work =>
    rw [stageOf] at h
    split at h
    · cases h
    · cases h

theorem view_free (hGood : Good u σ) (hMu : σ.mu = none) : (view u key σ).Free := by
  intro v todo h
  obtain ⟨flag, hPc⟩ := releasing_of_stageOf (σ.pc v) h
  have hLock := hGood.lock v key todo flag hPc
  rw [hMu] at hLock
  cases hLock

theorem simulate_pop {work : Work} {queue : List CsdResult} (hPc : σ.pc w = .waiting)
    (hQueue : σ.queue = work.toResult :: queue) :
    view u key (popWork σ w work queue) = view u key σ ∨
      Quota.Step (spec u) (view u key σ) (view u key (popWork σ w work queue)) := by
  rcases eq_or_ne work.key key with rfl | hKey
  · right
    have hStage : stageOf u work.key (σ.pc w) = .away := by rw [hPc]; rfl
    have hView : view u work.key (popWork σ w work queue) = { view u work.key σ with
        queued := (worksOf work.key queue : Multiset Work)
        stage := Function.update (view u work.key σ).stage w (.taken work) } := by
      simp only [view, popWork, stage_setPc, stageOf_popped]
    rw [hView]
    refine .take w work _ hStage ?_
    change ((worksOf work.key σ.queue : List Work) : Multiset Work) = worksOf work.key queue + {work}
    rw [hQueue, worksOf_cons, if_pos rfl, ← Multiset.coe_add, add_comm]
    rfl
  · left
    have hSame := stage_setPc_other (σ := σ) u key w (.popped work)
      (by rw [hPc]; simp [Pc.key]) (by simpa [Pc.key] using hKey)
    simp only [view, popWork, hSame, hQueue, worksOf_cons, if_neg hKey, List.nil_append]

theorem simulate_insert (hGood : Good u σ) {work : Work} (hPc : σ.pc w = .popped work) (hMu : σ.mu = none) :
    view u key (insertBlockCount σ w work) = view u key σ ∨
      Quota.Step (spec u) (view u key σ) (view u key (insertBlockCount σ w work)) := by
  rcases eq_or_ne work.key key with rfl | hKey
  · right
    have hStage : stageOf u work.key (σ.pc w) = .taken work := by rw [hPc, stageOf_popped]
    have hView : view u work.key (insertBlockCount σ w work) = { view u work.key σ with
        stage := Function.update (view u work.key σ).stage w (.opened work)
        counter := some ((view u work.key σ).counter.getD ((spec u).quota work)) } := by
      simp only [view, insertBlockCount, stage_setPc, stageOf_counted, Function.update_self]
      rfl
    rw [hView]
    exact .openCounter w work hStage (view_free hGood hMu)
  · left
    have hSame := stage_setPc_other (σ := σ) u key w (.counted work)
      (by simpa [hPc, Pc.key] using hKey) (by simpa [Pc.key] using hKey)
    simp only [view, insertBlockCount, hSame, Function.update_of_ne hKey.symm]

theorem simulate_check {work : Work} (hPc : σ.pc w = .counted work) :
    view u key (checkIdBuffer σ w work) = view u key σ ∨
      Quota.Step (spec u) (view u key σ) (view u key (checkIdBuffer σ w work)) := by
  rcases eq_or_ne work.key key with rfl | hKey
  · right
    have hStage : stageOf u work.key (σ.pc w) = .opened work := by rw [hPc, stageOf_counted]
    have hBuffer : contentOf ((σ.idBufferMap w work.key).getD ⟨some work.snippet, Data.clear⟩).data =
        (view u work.key σ).amount w := by
      rw [amount_view, bufferAt]
      cases σ.idBufferMap w work.key with
      | none => rfl
      | some buffer => rfl
    have hView : view u work.key (checkIdBuffer σ w work) = { view u work.key σ with
        stage := Function.update (view u work.key σ).stage w (.merging work ((spec u).body work))
        buffer := Function.update (view u work.key σ).buffer w (some ((view u work.key σ).amount w)) } := by
      rw [← hBuffer]
      simp only [view, checkIdBuffer, stage_setPc, stageOf_merging, buffer_setBuffer, Option.map_some]
      rfl
    rw [hView]
    exact .begin w work hStage
  · left
    have hSame := stage_setPc_other (σ := σ) u key w (.merging work 0)
      (by simpa [hPc, Pc.key] using hKey) (by simpa [Pc.key] using hKey)
    simp only [view, checkIdBuffer, hSame, buffer_setBuffer_other hKey]

theorem stage_writing {work : Work} {i : Nat} {row : Bytes} (hPc : σ.pc w = .merging work i)
    (hi : i < work.data.rowCount) (hRow : projectRow u work.snippet (work.data.rowAt i) = some row) :
    (fun v => stageOf u work.key (setPc σ w (.writing work i row) v)) = fun v => stageOf u work.key (σ.pc v) := by
  rw [stage_setPc, stageOf_writing, ← projectedFrom_of_lt hi hRow, ← stageOf_merging (n := n), ← hPc]
  exact Function.update_eq_self w (fun v => stageOf u work.key (σ.pc v))

theorem simulate_flush {work : Work} {i : Nat} {row : Bytes} (hPc : σ.pc w = .merging work i)
    (hi : i < work.data.rowCount) (hRow : projectRow u work.snippet (work.data.rowAt i) = some row) :
    view u key (flushBuffer σ w work i row) = view u key σ ∨
      Quota.Step (spec u) (view u key σ) (view u key (flushBuffer σ w work i row)) := by
  rcases eq_or_ne work.key key with rfl | hKey
  · right
    have hStage : stageOf u work.key (σ.pc w) = .merging work (rowsContent (projectedFrom u work i)) := by
      rw [hPc, stageOf_merging]
    have hView : view u work.key (flushBuffer σ w work i row) = { view u work.key σ with
        buffer := Function.update (view u work.key σ).buffer w (some 0)
        shipped := (view u work.key σ).shipped ++ [(view u work.key σ).amount w] } := by
      rw [amount_view]
      simp only [view, flushBuffer, stage_writing hPc hi hRow, buffer_setBuffer, Option.map_some, contentOf_clear,
        messagesOf_append_self, List.map_append, List.map_cons, List.map_nil]
    rw [hView]
    exact .flush w work _ hStage
  · left
    have hSame := stage_setPc_other (σ := σ) u key w (.writing work i row)
      (by simpa [hPc, Pc.key] using hKey) (by simpa [Pc.key] using hKey)
    simp only [view, flushBuffer, hSame, buffer_setBuffer_other hKey, messagesOf_append_other hKey]

theorem simulate_keep {work : Work} {i : Nat} {row : Bytes} (hPc : σ.pc w = .merging work i)
    (hi : i < work.data.rowCount) (hRow : projectRow u work.snippet (work.data.rowAt i) = some row) :
    view u key (keepBuffer σ w work i row) = view u key σ ∨
      Quota.Step (spec u) (view u key σ) (view u key (keepBuffer σ w work i row)) := by
  rcases eq_or_ne work.key key with rfl | hKey
  · right
    have hStage : stageOf u work.key (σ.pc w) = .merging work (rowsContent (projectedFrom u work i)) := by
      rw [hPc, stageOf_merging]
    have hView : view u work.key (keepBuffer σ w work i row) = { view u work.key σ with
        buffer := Function.update (view u work.key σ).buffer w (some ((view u work.key σ).amount w)) } := by
      rw [amount_view]
      simp only [view, keepBuffer, stage_writing hPc hi hRow, buffer_setBuffer, Option.map_some]
    rw [hView]
    exact .touch w work _ hStage
  · left
    have hSame := stage_setPc_other (σ := σ) u key w (.writing work i row)
      (by simpa [hPc, Pc.key] using hKey) (by simpa [Pc.key] using hKey)
    simp only [view, keepBuffer, hSame, buffer_setBuffer_other hKey]

theorem simulate_rowsEnd {work : Work} {i : Nat} (hPc : σ.pc w = .merging work i) (hi : ¬ i < work.data.rowCount) :
    view u key (endRows σ w work) = view u key σ := by
  have hSame : (fun v => stageOf u key (setPc σ w (.adding work) v)) = fun v => stageOf u key (σ.pc v) := by
    rcases eq_or_ne work.key key with rfl | hKey
    · have hStage : stageOf u work.key (σ.pc w) = .merging work 0 := by
        rw [hPc, stageOf_merging, projectedFrom_of_not_lt hi]
        rfl
      rw [stage_setPc, stageOf_adding, ← hStage]
      exact Function.update_eq_self w (fun v => stageOf u work.key (σ.pc v))
    · exact stage_setPc_other u key w _ (by simpa [hPc, Pc.key] using hKey) (by simpa [Pc.key] using hKey)
  simp only [view, endRows, hSame]

theorem simulate_write (hGood : Good u σ) {work : Work} {i : Nat} {row : Bytes} (hPc : σ.pc w = .writing work i row) :
    view u key (writeRow σ w work i row) = view u key σ ∨
      Quota.Step (spec u) (view u key σ) (view u key (writeRow σ w work i row)) := by
  rcases eq_or_ne work.key key with rfl | hKey
  · right
    obtain ⟨rows, hRows⟩ := (bufferAt_ok hGood (hGood.started w (by simp [hPc])) work.key).holds
    have hStage : stageOf u work.key (σ.pc w) =
        .merging work (rowsContent [row] + rowsContent (projectedFrom u work (i + 1))) := by
      rw [hPc, stageOf_writing, rowsContent_cons]
    have hView : view u work.key (writeRow σ w work i row) = { view u work.key σ with
        stage := Function.update (view u work.key σ).stage w
          (.merging work (rowsContent (projectedFrom u work (i + 1))))
        buffer := Function.update (view u work.key σ).buffer w
          (some ((view u work.key σ).amount w + rowsContent [row])) } := by
      rw [amount_view, ← contentOf_pushRow hRows]
      simp only [view, writeRow, stage_setPc, stageOf_merging, buffer_setBuffer, Option.map_some]
    rw [hView]
    exact .merge w work _ _ hStage rfl
  · left
    have hSame := stage_setPc_other (σ := σ) u key w (.merging work (i + 1))
      (by simpa [hPc, Pc.key] using hKey) (by simpa [Pc.key] using hKey)
    simp only [view, writeRow, hSame, buffer_setBuffer_other hKey]

theorem simulate_add {work : Work} (hPc : σ.pc w = .adding work) :
    view u key (addCounts σ w work) = view u key σ ∨
      Quota.Step (spec u) (view u key σ) (view u key (addCounts σ w work)) := by
  rcases eq_or_ne work.key key with rfl | hKey
  · right
    have hStage : stageOf u work.key (σ.pc w) = .merging work 0 := by rw [hPc, stageOf_adding]
    have hView : view u work.key (addCounts σ w work) = { view u work.key σ with
        stage := Function.update (view u work.key σ).stage w (.counting work)
        buffer := Function.update (view u work.key σ).buffer w
          (some ((view u work.key σ).amount w + (spec u).stamp work)) } := by
      rw [amount_view]
      simp only [view, addCounts, stage_setPc, stageOf_counting, buffer_setBuffer, Option.map_some,
        contentOf_addCounts]
      rfl
    rw [hView]
    exact .stamp w work hStage
  · left
    have hSame := stage_setPc_other (σ := σ) u key w (.counting work)
      (by simpa [hPc, Pc.key] using hKey) (by simpa [Pc.key] using hKey)
    simp only [view, addCounts, hSame, buffer_setBuffer_other hKey]

theorem finished_append (processed : List CsdResult) (work : Work) :
    ((worksOf work.key (processed ++ [work.toResult]) : List Work) : Multiset Work) =
      worksOf work.key processed + {work} := by
  rw [worksOf_append, if_pos rfl, ← Multiset.coe_add]
  rfl

theorem finished_append_other {work : Work} (hKey : work.key ≠ key) (processed : List CsdResult) :
    worksOf key (processed ++ [work.toResult]) = worksOf key processed := by
  rw [worksOf_append, if_neg hKey, List.append_nil]

theorem simulate_skip (hGood : Good u σ) {work : Work} (hPc : σ.pc w = .counting work) (hMu : σ.mu = none)
    (hCount : σ.idBlockCountMap work.key = none) :
    view u key (skipCount σ w work) = view u key σ ∨
      Quota.Step (spec u) (view u key σ) (view u key (skipCount σ w work)) := by
  rcases eq_or_ne work.key key with rfl | hKey
  · right
    have hStage : stageOf u work.key (σ.pc w) = .counting work := by rw [hPc, stageOf_counting]
    have hView : view u work.key (skipCount σ w work) = { view u work.key σ with
        stage := Function.update (view u work.key σ).stage w .away
        finished := (view u work.key σ).finished + {work} } := by
      simp only [view, skipCount, stage_setPc, finished_append]
      rfl
    rw [hView]
    exact .countMissing w work hStage (view_free hGood hMu) hCount
  · left
    have hSame := stage_setPc_other (σ := σ) u key w .waiting
      (by simpa [hPc, Pc.key] using hKey) (by simp [Pc.key])
    simp only [view, skipCount, hSame, finished_append_other hKey]

theorem simulate_down (hGood : Good u σ) {work : Work} {count : Int} (hPc : σ.pc w = .counting work) (hMu : σ.mu = none)
    (hCount : σ.idBlockCountMap work.key = some count) (hMore : count - work.data.currentBlockCount ≠ 0) :
    view u key (countDown σ w work (count - work.data.currentBlockCount)) = view u key σ ∨
      Quota.Step (spec u) (view u key σ) (view u key (countDown σ w work (count - work.data.currentBlockCount))) := by
  rcases eq_or_ne work.key key with rfl | hKey
  · right
    have hStage : stageOf u work.key (σ.pc w) = .counting work := by rw [hPc, stageOf_counting]
    have hView : view u work.key (countDown σ w work (count - work.data.currentBlockCount)) =
        { view u work.key σ with
          stage := Function.update (view u work.key σ).stage w .away
          finished := (view u work.key σ).finished + {work}
          counter := some (count - (spec u).weight work) } := by
      simp only [view, countDown, stage_setPc, finished_append, Function.update_self]
      rfl
    rw [hView]
    exact .countDown w work count hStage (view_free hGood hMu) hCount hMore
  · left
    have hSame := stage_setPc_other (σ := σ) u key w .waiting
      (by simpa [hPc, Pc.key] using hKey) (by simp [Pc.key])
    simp only [view, countDown, hSame, finished_append_other hKey, Function.update_of_ne hKey.symm]

theorem simulate_zero (hGood : Good u σ) {work : Work} {count : Int} (hPc : σ.pc w = .counting work) (hMu : σ.mu = none)
    (hCount : σ.idBlockCountMap work.key = some count) (hZero : count - work.data.currentBlockCount = 0) :
    view u key (startRelease σ w work) = view u key σ ∨
      Quota.Step (spec u) (view u key σ) (view u key (startRelease σ w work)) := by
  rcases eq_or_ne work.key key with rfl | hKey
  · right
    have hStage : stageOf u work.key (σ.pc w) = .counting work := by rw [hPc, stageOf_counting]
    have hView : view u work.key (startRelease σ w work) = { view u work.key σ with
        stage := Function.update (view u work.key σ).stage w (.releasing σ.mergeBufferList)
        finished := (view u work.key σ).finished + {work}
        counter := some 0
        zeros := (view u work.key σ).zeros + 1 } := by
      simp only [view, startRelease, stage_setPc, stageOf_releasing, finished_append, Function.update_self]
    rw [hView]
    refine .countZero w work count _ hStage (view_free hGood hMu) hCount hZero fun v hv => ?_
    obtain ⟨buffer, hBuffer⟩ := (buffer_isSome_view u work.key v).mp hv
    exact (hGood.buffers v work.key buffer hBuffer).registered
  · left
    have hSame := stage_setPc_other (σ := σ) u key w (.releasing work.key σ.mergeBufferList true)
      (by simpa [hPc, Pc.key] using hKey) (by simpa [Pc.key] using hKey)
    simp only [view, startRelease, hSame, finished_append_other hKey, Function.update_of_ne hKey.symm]

theorem simulate_pass {key' : String} {v : Fin n} {todo : List (Fin n)} {flag : Bool}
    (hPc : σ.pc w = .releasing key' (v :: todo) flag) (hBuffer : σ.idBufferMap v key' = none) :
    view u key (passBuffer σ w key' todo flag) = view u key σ ∨
      Quota.Step (spec u) (view u key σ) (view u key (passBuffer σ w key' todo flag)) := by
  rcases eq_or_ne key' key with rfl | hKey
  · right
    have hStage : stageOf u key' (σ.pc w) = .releasing (v :: todo) := by rw [hPc, stageOf_releasing]
    have hNone : (view u key' σ).buffer v = none := by
      change (σ.idBufferMap v key').map _ = none
      rw [hBuffer, Option.map_none]
    have hView : view u key' (passBuffer σ w key' todo flag) = { view u key' σ with
        stage := Function.update (view u key' σ).stage w (.releasing todo)
        buffer := Function.update (view u key' σ).buffer v none
        shipped := (view u key' σ).shipped ++ ((view u key' σ).buffer v).toList } := by
      rw [hNone, Option.toList_none, List.append_nil, ← hNone, Function.update_eq_self]
      simp only [view, passBuffer, stage_setPc, stageOf_releasing]
    rw [hView]
    exact .release w v todo hStage
  · left
    have hSame := stage_setPc_other (σ := σ) u key w (.releasing key' todo flag)
      (by simpa [hPc, Pc.key] using hKey) (by simpa [Pc.key] using hKey)
    simp only [view, passBuffer, hSame]

theorem simulate_ship {key' : String} {v : Fin n} {todo : List (Fin n)} {flag : Bool} {buffer : CsdResult}
    (hPc : σ.pc w = .releasing key' (v :: todo) flag) (hBuffer : σ.idBufferMap v key' = some buffer) :
    view u key (shipBuffer σ w key' v todo buffer) = view u key σ ∨
      Quota.Step (spec u) (view u key σ) (view u key (shipBuffer σ w key' v todo buffer)) := by
  rcases eq_or_ne key' key with rfl | hKey
  · right
    have hStage : stageOf u key' (σ.pc w) = .releasing (v :: todo) := by rw [hPc, stageOf_releasing]
    have hSome : (view u key' σ).buffer v = some (contentOf buffer.data) := by
      change (σ.idBufferMap v key').map _ = _
      rw [hBuffer, Option.map_some]
    have hView : view u key' (shipBuffer σ w key' v todo buffer) = { view u key' σ with
        stage := Function.update (view u key' σ).stage w (.releasing todo)
        buffer := Function.update (view u key' σ).buffer v none
        shipped := (view u key' σ).shipped ++ ((view u key' σ).buffer v).toList } := by
      rw [hSome]
      simp only [view, shipBuffer, stage_setPc, stageOf_releasing, buffer_setBuffer, Option.map_none,
        messagesOf_append_self, List.map_append, List.map_cons, List.map_nil, Option.toList_some]
    rw [hView]
    exact .release w v todo hStage
  · left
    have hSame := stage_setPc_other (σ := σ) u key w (.releasing key' todo false)
      (by simpa [hPc, Pc.key] using hKey) (by simpa [Pc.key] using hKey)
    simp only [view, shipBuffer, hSame, buffer_setBuffer_other hKey, messagesOf_append_other hKey]

theorem simulate_erase {key' : String} {flag : Bool} (hPc : σ.pc w = .releasing key' [] flag) :
    view u key (eraseBlockCount σ w key') = view u key σ ∨
      Quota.Step (spec u) (view u key σ) (view u key (eraseBlockCount σ w key')) := by
  rcases eq_or_ne key' key with rfl | hKey
  · right
    have hStage : stageOf u key' (σ.pc w) = .releasing [] := by rw [hPc, stageOf_releasing]
    have hView : view u key' (eraseBlockCount σ w key') = { view u key' σ with
        stage := Function.update (view u key' σ).stage w .away
        counter := none } := by
      simp only [view, eraseBlockCount, stage_setPc, Function.update_self]
      rfl
    rw [hView]
    exact .finish w hStage
  · left
    have hSame := stage_setPc_other (σ := σ) u key w .waiting
      (by simpa [hPc, Pc.key] using hKey) (by simp [Pc.key])
    simp only [view, eraseBlockCount, hSame, Function.update_of_ne hKey.symm]

/-- A step of a worker is a step of the job or leaves it as it is. -/
theorem simulate_transition (hGood : Good u σ) (h : Transition u σ w σ') :
    view u key σ' = view u key σ ∨ Quota.Step (spec u) (view u key σ) (view u key σ') := by
  cases h with
  | start hPc =>
    left
    have hSame := stage_setPc_other (σ := σ) u key w .waiting
      (by simp [hPc, Pc.key]) (by simp [Pc.key])
    simp only [view, projectionWorker, hSame]
  | pop work queue hPc hQueue => exact simulate_pop hPc hQueue
  | insert work hPc hMu => exact simulate_insert hGood hPc hMu
  | check work hPc => exact simulate_check hPc
  | flush work i row hPc hi hRow => exact simulate_flush hPc hi hRow
  | keep work i row hPc hi hRow => exact simulate_keep hPc hi hRow
  | rowsEnd work i hPc hi => exact Or.inl (simulate_rowsEnd hPc hi)
  | write work i row hPc => exact simulate_write hGood hPc
  | add work hPc => exact simulate_add hPc
  | skip work hPc hMu hCount => exact simulate_skip hGood hPc hMu hCount
  | down work count hPc hMu hCount hMore => exact simulate_down hGood hPc hMu hCount hMore
  | zero work count hPc hMu hCount hZero => exact simulate_zero hGood hPc hMu hCount hZero
  | pass key' v todo flag hPc hBuffer => exact simulate_pass hPc hBuffer
  | ship key' v todo flag buffer hPc hBuffer => exact simulate_ship hPc hBuffer
  | erase key' flag hPc => exact simulate_erase hPc

theorem simulate_step (key : String) {action : Action n} (hGood : Good u σ) (h : step u σ action = some σ') :
    view u key σ' = view u key σ ∨ Quota.Step (spec u) (view u key σ) (view u key σ') := by
  cases action with
  | work w => exact simulate_transition hGood (transition_of_workerStep h)
  | enqueue result =>
    cases h
    cases hWork : workOf result with
    | none =>
      left
      simp [view, enqueueProjection, worksOf, hWork]
    | some work =>
      obtain ⟨snippet, hSnippet, rfl⟩ := Option.map_eq_some_iff.mp hWork
      have hResult : result = (⟨snippet, result.data⟩ : Work).toResult := by rw [Work.toResult, ← hSnippet]
      rw [hResult]
      generalize (⟨snippet, result.data⟩ : Work) = work
      rcases eq_or_ne work.key key with rfl | hKey
      · right
        have hView : view u work.key (enqueueProjection σ work.toResult) = { view u work.key σ with
            arrived := (view u work.key σ).arrived + {work}
            queued := (view u work.key σ).queued + {work} } := by
          simp only [view, enqueueProjection, finished_append]
        rw [hView]
        exact .arrive work
      · left
        simp only [view, enqueueProjection, finished_append_other hKey]

end Simulation

end CsdWorker.Projection
