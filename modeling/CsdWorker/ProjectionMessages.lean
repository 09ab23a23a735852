import CsdWorker.ProjectionCorrect
import CsdWorker.ProjectionOrder

/-! # The messages of the projection

`projectioning` sends a buffer before a row that does not fit. While projected rows are no longer than a buffer, every
message is a sequence of whole rows that fits.
-/

namespace CsdWorker.Projection

open Memory Run

set_option autoImplicit false

variable {n : Nat} {u : KValue}

/-- The projected rows of a result are no longer than a buffer. -/
def SmallRows (u : KValue) (result : CsdResult) : Prop :=
  ∀ snippet ∈ result.snippet, ∀ i < result.data.rowCount, ∀ row,
    projectRow u snippet (result.data.rowAt i) = some row → row.length ≤ bufferSize

instance (u : KValue) (result : CsdResult) : Decidable (SmallRows u result) :=
  inferInstanceAs (Decidable (∀ snippet ∈ result.snippet, ∀ i < result.data.rowCount,
    ∀ row ∈ projectRow u snippet (result.data.rowAt i), row.length ≤ bufferSize))

/-- A message as `send_data` sends it: offsets without a closing one, the last row ends with the data. -/
structure MessageOk (d : Data) : Prop where
  holds : d.Holds d.messageRows
  fits : d.dataLength ≤ bufferSize

/-- What the receiver of a message relies on. -/
structure MessageFormed (d : Data) : Prop where
  count : d.rowOffset.length = d.rowCount
  first : d.rowCount ≠ 0 → d.rowOffset[0]? = some 0
  rows : ∀ i row, d.messageRows[i]? = some row → ∃ start stop, d.rowOffset[i]? = some start ∧
    (d.rowOffset ++ [d.dataLength])[i + 1]? = some stop ∧ start + row.length = stop ∧
      read d.rawData start row.length = row
  total : d.dataLength = (d.messageRows.map List.length).sum
  fits : d.dataLength ≤ bufferSize

theorem getElem?_rowStarts_closed (rows : List Bytes) {i : Nat} (hi : i ≤ rows.length) :
    (rowStarts 0 rows ++ [rows.flatten.length])[i]? = some (rows.take i).flatten.length := by
  obtain hLess | rfl := Nat.lt_or_eq_of_le hi
  · rw [List.getElem?_append_left (by simpa using hLess), getElem?_rowStarts 0 rows hLess, Nat.zero_add]
  · rw [List.getElem?_append_right (by simp)]
    simp

theorem MessageOk.formed {d : Data} (h : MessageOk d) : MessageFormed d where
  count := by rw [h.holds.rowOffset, length_rowStarts, h.holds.rowCount]
  first := by
    intro hCount
    rw [h.holds.rowCount] at hCount
    rw [h.holds.rowOffset, getElem?_rowStarts 0 _ (Nat.pos_of_ne_zero hCount)]
    rfl
  rows := by
    intro i row hRow
    obtain ⟨before, after, hSplit, rfl⟩ := exists_split_of_getElem? hRow
    have hLength : before.length < d.messageRows.length := (List.getElem?_eq_some_iff.mp hRow).1
    have hStop : (d.messageRows.take (before.length + 1)).flatten.length = before.flatten.length + row.length := by
      rw [hSplit, List.take_append, List.take_of_length_le (Nat.le_succ _), Nat.add_sub_cancel_left,
        List.flatten_append, List.length_append]
      simp
    have hBytes := read_of_prefix h.holds.bytes before.flatten.length row.length (by
      rw [h.holds.dataLength, hSplit]
      simp)
    refine ⟨before.flatten.length, before.flatten.length + row.length, ?_, ?_, rfl, ?_⟩
    · rw [h.holds.rowOffset, getElem?_rowStarts 0 _ hLength, hSplit, List.take_left, Nat.zero_add]
    · rw [h.holds.rowOffset, h.holds.dataLength, getElem?_rowStarts_closed _ hLength, hStop]
    · rw [Nat.zero_add] at hBytes
      rw [hBytes, hSplit, List.flatten_append, List.drop_left, List.flatten_cons, List.take_left]
  total := by rw [h.holds.dataLength, List.length_flatten]
  fits := h.fits

theorem messageOk_of_holds {d : Data} {rows : List Bytes} (h : d.Holds rows) (hFits : d.dataLength ≤ bufferSize) :
    MessageOk d :=
  ⟨h.messageRows_eq.symm ▸ h, hFits⟩

def Pc.merges : Pc n → Option Work
  | .popped work | .counted work | .merging work _ | .writing work _ _ => some work
  | .notStarted | .waiting | .adding _ | .counting _ | .releasing _ _ _ => none

structure Fits (u : KValue) (σ : State n) : Prop where
  queue : ∀ result ∈ σ.queue, SmallRows u result
  works : ∀ w, ∀ work ∈ (σ.pc w).merges, SmallRows u work.toResult
  buffers : ∀ w key, (bufferAt σ w key).data.dataLength ≤ bufferSize
  writing : ∀ w work i row, σ.pc w = .writing work i row →
    (bufferAt σ w work.key).data.dataLength + row.length ≤ bufferSize
  messages : ∀ m ∈ σ.returned, MessageOk m.2.data

theorem fits_initial (u : KValue) : Fits u (initial n) where
  queue := by simp [initial]
  works := by simp [initial, Pc.merges]
  buffers := fun _ _ => Nat.zero_le _
  writing := by simp [initial]
  messages := by simp [initial]

section Step
variable {σ σ' : State n} {w : Fin n}

/-- A step of `w` lets the buffers of the others grow in no case, and its own within the bound. -/
theorem fits_of_step {pc : Pc n} (h : Fits u σ) (hPc : σ'.pc = setPc σ w pc)
    (hQueue : ∀ result ∈ σ'.queue, result ∈ σ.queue) (hWorks : ∀ work ∈ pc.merges, SmallRows u work.toResult)
    (hBuffers : ∀ v key, (bufferAt σ' v key).data.dataLength ≤ (bufferAt σ v key).data.dataLength ∨
      v = w ∧ (bufferAt σ' v key).data.dataLength ≤ bufferSize)
    (hWriting : ∀ work i row, pc = .writing work i row →
      (bufferAt σ' w work.key).data.dataLength + row.length ≤ bufferSize)
    (hMessages : ∀ m ∈ σ'.returned, m ∈ σ.returned ∨ MessageOk m.2.data) : Fits u σ' where
  queue := fun result hResult => h.queue result (hQueue result hResult)
  works := by
    intro v work hWork
    rw [hPc] at hWork
    obtain rfl | hv := eq_or_ne v w
    · rw [setPc, Function.update_self] at hWork
      exact hWorks work hWork
    · rw [setPc, Function.update_of_ne hv] at hWork
      exact h.works v work hWork
  buffers := by
    intro v key
    obtain hLess | ⟨-, hFits⟩ := hBuffers v key
    · exact hLess.trans (h.buffers v key)
    · exact hFits
  writing := by
    intro v work i row hRow
    rw [hPc] at hRow
    obtain rfl | hv := eq_or_ne v w
    · rw [setPc, Function.update_self] at hRow
      exact hWriting work i row hRow
    · rw [setPc, Function.update_of_ne hv] at hRow
      obtain hLess | ⟨hSelf, -⟩ := hBuffers v work.key
      · exact (Nat.add_le_add_right hLess _).trans (h.writing v work i row hRow)
      · exact absurd hSelf hv
  messages := by
    intro m hm
    obtain hOld | hNew := hMessages m hm
    · exact h.messages m hOld
    · exact hNew

theorem dataLength_setBuffer {key : String} {buffer : Option CsdResult} (h : σ'.idBufferMap = setBuffer σ w key buffer)
    (hLess : (buffer.getD ⟨none, Data.clear⟩).data.dataLength ≤ (bufferAt σ w key).data.dataLength) (v : Fin n)
    (key' : String) :
    (bufferAt σ' v key').data.dataLength ≤ (bufferAt σ v key').data.dataLength := by
  rw [bufferAt_setBuffer h]
  split
  · rename_i hEq
    obtain ⟨rfl, rfl⟩ := hEq
    exact hLess
  · exact le_rfl

theorem projectNext_keep {work : Work} {i : Nat} {row : Bytes}
    (h : projectNext u σ w work i = some (keepBuffer σ w work i row)) (hi : i < work.data.rowCount)
    (hRow : projectRow u work.snippet (work.data.rowAt i) = some row) :
    (bufferAt σ w work.key).data.dataLength + row.length ≤ bufferSize := by
  by_contra hFull
  rw [projectNext, if_pos hi, hRow, Option.bind_eq_bind, Option.bind_some, if_pos (not_le.mp hFull)] at h
  have hReturned := congrArg (fun σ' : State n => σ'.returned.length) (Option.some_inj.mp h)
  simp [flushBuffer, keepBuffer] at hReturned

theorem Fits.works_of_merges (h : Fits u σ) {pc : Pc n} (hMerges : pc.merges = (σ.pc w).merges) :
    ∀ work ∈ pc.merges, SmallRows u work.toResult :=
  fun work hWork => h.works w work (hMerges ▸ hWork)

/-- A buffer that is sent as it is makes a message that fits. -/
theorem Fits.sent (h : Fits u σ) (hGood : Good u σ) {v : Fin n} (hv : v ∈ σ.mergeBufferList) (key : String) :
    ∀ m ∈ σ.returned ++ [(key, bufferAt σ v key)], m ∈ σ.returned ∨ MessageOk m.2.data := by
  intro m hm
  obtain hOld | hNew := List.mem_append.mp hm
  · exact Or.inl hOld
  · obtain rfl := List.mem_singleton.mp hNew
    obtain ⟨rows, hRows⟩ := (bufferAt_ok hGood hv key).holds
    exact Or.inr (messageOk_of_holds hRows (h.buffers v key))

section Steps
variable {work : Work} {i : Nat} {row : Bytes} (h : Fits u σ)
include h

theorem fits_pop {queue : List CsdResult} (hQueue : σ.queue = work.toResult :: queue) :
    Fits u (popWork σ w work queue) := by
  refine fits_of_step h rfl (fun _ hr => hQueue ▸ List.mem_cons_of_mem _ hr) ?_ (fun _ _ => Or.inl le_rfl) (by simp)
    fun _ hm => Or.inl hm
  intro other hOther
  obtain rfl := Option.some_inj.mp hOther
  exact h.queue _ (hQueue ▸ List.mem_cons_self)

theorem fits_check (hPc : σ.pc w = .counted work) : Fits u (checkIdBuffer σ w work) := by
  have hLess : ((σ.idBufferMap w work.key).getD ⟨some work.snippet, Data.clear⟩).data.dataLength ≤
      (bufferAt σ w work.key).data.dataLength := by
    rw [bufferAt]
    cases σ.idBufferMap w work.key with
    | none => exact le_rfl
    | some buffer => exact le_rfl
  exact fits_of_step h rfl (fun _ hr => hr) (h.works_of_merges (by rw [hPc]; rfl))
    (fun v key => Or.inl (dataLength_setBuffer rfl hLess v key)) (by simp) fun _ hm => Or.inl hm

theorem fits_flush (hGood : Good u σ) (hPc : σ.pc w = .merging work i) (hi : i < work.data.rowCount)
    (hRow : projectRow u work.snippet (work.data.rowAt i) = some row) : Fits u (flushBuffer σ w work i row) := by
  have hSmall : SmallRows u work.toResult := h.works w work (by rw [hPc]; rfl)
  refine fits_of_step h rfl (fun _ hr => hr) (h.works_of_merges (by rw [hPc]; rfl))
    (fun v key => Or.inl (dataLength_setBuffer rfl (Nat.zero_le _) v key)) ?_
    (h.sent hGood (hGood.started w (by simp [hPc])) work.key)
  intro _ _ _ hWriting
  obtain ⟨rfl, rfl, rfl⟩ := Pc.writing.inj hWriting
  rw [bufferAt_setBuffer rfl, if_pos ⟨rfl, rfl⟩]
  exact (Nat.zero_add _).trans_le (hSmall work.snippet rfl i hi row hRow)

theorem fits_keep (hPc : σ.pc w = .merging work i)
    (hRoom : (bufferAt σ w work.key).data.dataLength + row.length ≤ bufferSize) :
    Fits u (keepBuffer σ w work i row) := by
  have hBuffers : (keepBuffer σ w work i row).idBufferMap = setBuffer σ w work.key (some (bufferAt σ w work.key)) := rfl
  refine fits_of_step h rfl (fun _ hr => hr) (h.works_of_merges (by rw [hPc]; rfl))
    (fun v key => Or.inl (dataLength_setBuffer hBuffers le_rfl v key)) ?_ fun _ hm => Or.inl hm
  intro _ _ _ hWriting
  obtain ⟨rfl, rfl, rfl⟩ := Pc.writing.inj hWriting
  rw [bufferAt_setBuffer hBuffers, if_pos ⟨rfl, rfl⟩]
  exact hRoom

theorem fits_write (hPc : σ.pc w = .writing work i row) : Fits u (writeRow σ w work i row) := by
  refine fits_of_step h rfl (fun _ hr => hr) (h.works_of_merges (by rw [hPc]; rfl)) ?_ (by simp) fun _ hm => Or.inl hm
  intro v key
  rw [bufferAt_setBuffer (rfl : (writeRow σ w work i row).idBufferMap = _)]
  split
  · rename_i hEq
    exact Or.inr ⟨hEq.1, h.writing w work i row hPc⟩
  · exact Or.inl le_rfl

theorem fits_add : Fits u (addCounts σ w work) := by
  have hBuffers : (addCounts σ w work).idBufferMap = setBuffer σ w work.key
      (some { bufferAt σ w work.key with data := Data.addCounts (bufferAt σ w work.key).data work.data }) := rfl
  exact fits_of_step h rfl (fun _ hr => hr) (by simp [Pc.merges])
    (fun v key => Or.inl (dataLength_setBuffer hBuffers le_rfl v key)) (by simp) fun _ hm => Or.inl hm

theorem fits_ship (hGood : Good u σ) {key : String} {v : Fin n} {todo : List (Fin n)} {buffer : CsdResult}
    (hBuffer : σ.idBufferMap v key = some buffer) : Fits u (shipBuffer σ w key v todo buffer) := by
  have hSelf : buffer = bufferAt σ v key := by rw [bufferAt, hBuffer]; rfl
  refine fits_of_step h rfl (fun _ hr => hr) (by simp [Pc.merges])
    (fun v' key' => Or.inl (dataLength_setBuffer rfl (Nat.zero_le _) v' key')) (by simp) ?_
  rw [hSelf]
  exact h.sent hGood (hGood.buffers v key buffer hBuffer).registered key

end Steps

theorem fits_worker (hGood : Good u σ) (h : Fits u σ) (hStep : workerStep u σ w = some σ') : Fits u σ' := by
  cases transition_of_workerStep hStep with
  | pop work queue hPc hQueue => exact fits_pop h hQueue
  | check work hPc => exact fits_check h hPc
  | flush work i row hPc hi hRow => exact fits_flush h hGood hPc hi hRow
  | keep work i row hPc hi hRow =>
    rw [workerStep, hPc] at hStep
    exact fits_keep h hPc (projectNext_keep hStep hi hRow)
  | write work i row hPc => exact fits_write h hPc
  | add work hPc => exact fits_add h
  | ship key v todo flag buffer hPc hBuffer => exact fits_ship h hGood hBuffer
  | insert work hPc hMu =>
    exact fits_of_step h rfl (fun _ hr => hr) (h.works_of_merges (by rw [hPc]; rfl)) (fun _ _ => Or.inl le_rfl)
      (by simp)
      fun _ hm => Or.inl hm
  | start hPc | rowsEnd work i hPc hi | skip work hPc hMu hCount | down work count hPc hMu hCount hMore
  | zero work count hPc hMu hCount hZero | pass key v todo flag hPc hBuffer | erase key flag hPc =>
    exact fits_of_step h rfl (fun _ hr => hr) (by simp [Pc.merges]) (fun _ _ => Or.inl le_rfl) (by simp) fun _ hm =>
      Or.inl hm

end Step

/-- The actions hand over results whose projected rows are no longer than a buffer. -/
def HandsSmall (u : KValue) (action : Action n) : Prop := ∀ result, action = .enqueue result → SmallRows u result

theorem fits_step {σ σ' : State n} {action : Action n} (hSmall : HandsSmall u action) (h : Good u σ ∧ Fits u σ)
    (hStep : step u σ action = some σ') : Good u σ' ∧ Fits u σ' := by
  refine ⟨good_step h.1 hStep, ?_⟩
  cases action with
  | enqueue result =>
    obtain rfl := Option.some_inj.mp hStep
    refine ⟨?_, h.2.works, h.2.buffers, h.2.writing, h.2.messages⟩
    intro other hOther
    obtain hOld | hNew := List.mem_append.mp hOther
    · exact h.2.queue other hOld
    · obtain rfl := List.mem_singleton.mp hNew
      exact hSmall _ rfl
  | work w => exact fits_worker h.1 h.2 hStep

theorem fits_run {σ : State n} {actions : List (Action n)} (hSmall : ∀ action ∈ actions, HandsSmall u action)
    (h : run (step u) (initial n) actions = some σ) : Fits u σ :=
  (run_preserves_of (fun _ _ _ hAction hs hStep => fits_step hAction hs hStep) hSmall
    ⟨good_initial u, fits_initial u⟩ h).2

/-- A row that has left a buffer is the projection of a row that the worker took for that snippet. -/
theorem InOrder.projected {l : Logged n} (h : InOrder u l) {w : Fin n} {m : String × CsdResult} (hm : m ∈ l.sent w)
    {row : Bytes} (hRow : row ∈ m.2.data.messageRows) :
    ∃ work ∈ l.taken w, work.key = m.1 ∧
      ∃ i < work.data.rowCount, projectRow u work.snippet (work.data.rowAt i) = some row := by
  have hSent : row ∈ sentRows m.1 (l.sent w) := by
    refine List.mem_flatMap.mpr ⟨m.2, List.mem_map.mpr ⟨m, ?_, rfl⟩, hRow⟩
    exact List.mem_filter.mpr ⟨hm, decide_eq_true rfl⟩
  have hTaken : row ∈ takenRows u m.1 (l.taken w) := h.rows w m.1 ▸ List.mem_append_left _ hSent
  obtain ⟨work, hWork, hProjected⟩ := List.mem_flatMap.mp hTaken
  obtain ⟨hWork, hKey⟩ := List.mem_filter.mp hWork
  obtain ⟨i, hi, hRow⟩ := List.mem_filterMap.mp hProjected
  have hRange : i < work.data.rowCount := by
    rw [List.mem_range'_1] at hi
    omega
  exact ⟨work, hWork, of_decide_eq_true hKey, i, hRange, hRow⟩

/-- Every message of a run is well formed, and for each snippet a worker's rows are sent in the order in which it took
them. -/
theorem messages_formed_and_ordered (u : KValue) (n : Nat) (actions : List (Action n)) (l : Logged n)
    (hRun : run (loggedStep u) (loggedInitial n) actions = some l)
    (hSmall : ∀ result, Action.enqueue result ∈ actions → SmallRows u result) :
    run (step u) (initial n) actions = some l.state ∧
      (∀ m ∈ l.state.returned, MessageFormed m.2.data ∧ ∃ w, m ∈ l.sent w) ∧
      (∀ w, ∀ m ∈ l.sent w, ∀ row ∈ m.2.data.messageRows, ∃ work ∈ l.taken w, work.key = m.1 ∧
        ∃ i < work.data.rowCount, projectRow u work.snippet (work.data.rowAt i) = some row) ∧
      (∀ w, ∀ work ∈ l.taken w, work.toResult ∈ l.state.enqueued) ∧
      ∀ w key, sentRows key (l.sent w) <+: takenRows u key (l.taken w) := by
  have hState : run (step u) (initial n) actions = some l.state := by
    have hLogged := run_logged (u := u) (loggedInitial n) actions
    rw [hRun] at hLogged
    exact hLogged.symm
  have hOrder := inOrder_run hRun
  have hFits : Fits u l.state := by
    refine fits_run ?_ hState
    rintro action hAction result rfl
    exact hSmall result hAction
  exact ⟨hState, fun m hm => ⟨(hFits.messages m hm).formed, (hOrder.messages m).mp hm⟩,
    fun w m hm row hRow => hOrder.projected hm hRow, hOrder.taken, fun w key => ⟨_, hOrder.rows w key⟩⟩

/-- A result of the snippet with the given work id. -/
def numberedResult (workId csdBlockCount blocks : Int) (rows : List Bytes) : CsdResult :=
  ⟨some { keySnippet csdBlockCount with workId := workId },
    { (Scan.batchOf rows).pushEnd with currentBlockCount := blocks }⟩

/-- Between two results of the first snippet the worker takes the only one of the second. -/
def interleavedResults : List CsdResult :=
  [numberedResult 0 2 1 [[1, 0, 0, 0, 7, 8]], numberedResult 1 1 1 [[2, 0, 0, 0, 7, 8]], numberedResult 0 2 1 []]

def interleavedActions : List (Action 1) := interleavedResults.map .enqueue ++ List.replicate 27 (.work (Fin.last 0))

theorem interleaved_observed :
    (run (loggedStep .zero) (loggedInitial 1) interleavedActions).map (fun l =>
      ((l.sent 0).map fun m => m.2.data.messageRows, (l.taken 0).map (projectedRows .zero))) =
      some ([[[2, 0, 0, 0]], [[1, 0, 0, 0]]], [[[1, 0, 0, 0]], [[2, 0, 0, 0]], []]) := by
  decide +kernel

theorem interleaved_small (result : CsdResult) (hResult : Action.enqueue result ∈ interleavedActions) :
    SmallRows .zero result := by
  have hAll : ∀ result ∈ interleavedResults, SmallRows .zero result := by decide +kernel
  obtain hEnqueued | hWork := List.mem_append.mp hResult
  · obtain ⟨other, hOther, hEq⟩ := List.mem_map.mp hEnqueued
    cases hEq
    exact hAll result hOther
  · cases List.eq_of_mem_replicate hWork

theorem interleaved_formed_and_ordered :
    ∃ l, run (loggedStep .zero) (loggedInitial 1) interleavedActions = some l ∧ (l.sent 0).length = 2 ∧
      (∀ m ∈ l.state.returned, MessageFormed m.2.data) ∧
      ∀ key, sentRows key (l.sent 0) <+: takenRows .zero key (l.taken 0) := by
  obtain ⟨l, hRun, hl⟩ := Option.map_eq_some_iff.mp interleaved_observed
  obtain ⟨-, hFormed, -, -, hOrder⟩ := messages_formed_and_ordered .zero 1 interleavedActions l hRun interleaved_small
  refine ⟨l, hRun, ?_, fun m hm => (hFormed m hm).1, hOrder 0⟩
  have hSent := congrArg (fun rows => rows.1.length) hl
  rwa [List.length_map] at hSent

/-- There is one buffer per snippet, so the row that was taken last is sent first. -/
theorem interleaved_sent_reordered :
    (∀ result, Action.enqueue result ∈ interleavedActions → SmallRows .zero result) ∧
      ∃ l, run (loggedStep .zero) (loggedInitial 1) interleavedActions = some l ∧
        ¬ ((l.sent 0).flatMap fun m => m.2.data.messageRows).Sublist ((l.taken 0).flatMap (projectedRows .zero)) := by
  refine ⟨interleaved_small, ?_⟩
  obtain ⟨l, hRun, hl⟩ := Option.map_eq_some_iff.mp interleaved_observed
  obtain ⟨hSent, hTaken⟩ := Prod.mk.injEq .. ▸ hl
  refine ⟨l, hRun, ?_⟩
  rw [List.flatMap_def, List.flatMap_def, hSent, hTaken]
  decide

end CsdWorker.Projection
