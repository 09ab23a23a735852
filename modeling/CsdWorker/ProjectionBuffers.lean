import CsdWorker.Projection

/-! # The merge buffers of a run

What every reachable state of the projection satisfies, whatever is enqueued: buffers and messages are
well formed and filed under the key of their snippet, and the lock is held by the worker that releases.
-/

namespace CsdWorker.Projection

open Memory Run

set_option autoImplicit false

variable {n : Nat} {u : KValue} {σ σ' : State n}

structure BufferOk (workers : List (Fin n)) (w : Fin n) (key : String) (buffer : CsdResult) : Prop where
  holds : ∃ rows, buffer.data.Holds rows
  snippetKey : ∀ snippet ∈ buffer.snippet, Snippet.key snippet = key
  registered : w ∈ workers

structure Good (u : KValue) (σ : State n) : Prop where
  buffers : ∀ w key buffer, σ.idBufferMap w key = some buffer → BufferOk σ.mergeBufferList w key buffer
  messages : ∀ m ∈ σ.returned, ∀ snippet ∈ m.2.snippet, Snippet.key snippet = m.1
  lock : ∀ w key todo flag, σ.pc w = .releasing key todo flag → σ.mu = some w
  started : ∀ w, σ.pc w ≠ .notStarted → w ∈ σ.mergeBufferList
  writing : ∀ w work i row, σ.pc w = .writing work i row →
    i < work.data.rowCount ∧ projectRow u work.snippet (work.data.rowAt i) = some row

theorem good_initial (u : KValue) : Good u (initial n) := by
  refine ⟨fun w key buffer h => ?_, fun m hm => ?_, fun w key todo flag h => ?_, fun w h => ?_,
    fun w work i row h => ?_⟩
  · cases h
  · cases hm
  · cases h
  · exact absurd rfl h
  · cases h

theorem setBuffer_eq (w v : Fin n) (key key' : String) (buffer : Option CsdResult) :
    setBuffer σ w key buffer v key' = if v = w ∧ key' = key then buffer else σ.idBufferMap v key' := by
  unfold setBuffer
  rcases eq_or_ne v w with rfl | hv
  · rcases eq_or_ne key' key with rfl | hKey
    · simp
    · simp [hKey]
  · simp [hv]

theorem bufferAt_ok (hGood : Good u σ) {w : Fin n} (hStarted : w ∈ σ.mergeBufferList) (key : String) :
    BufferOk σ.mergeBufferList w key (bufferAt σ w key) := by
  rw [bufferAt]
  cases hBuffer : σ.idBufferMap w key with
  | none => exact ⟨⟨[], Data.holds_clear⟩, fun _ h => by simp at h, hStarted⟩
  | some buffer => exact hGood.buffers w key buffer hBuffer

theorem setBuffer_ok (hGood : Good u σ) {w : Fin n} {key : String} {buffer : Option CsdResult}
    (hNew : ∀ b ∈ buffer, BufferOk σ.mergeBufferList w key b) :
    ∀ v key' b, setBuffer σ w key buffer v key' = some b → BufferOk σ.mergeBufferList v key' b := by
  intro v key' b h
  rw [setBuffer_eq] at h
  split at h
  · rename_i hEq
    obtain ⟨rfl, rfl⟩ := hEq
    exact hNew b h
  · exact hGood.buffers v key' b h

theorem storeBuffer_ok (hGood : Good u σ) {w : Fin n} {key : String} {buffer : CsdResult}
    (hNew : BufferOk σ.mergeBufferList w key buffer) :
    ∀ v key' b, setBuffer σ w key (some buffer) v key' = some b → BufferOk σ.mergeBufferList v key' b := by
  refine setBuffer_ok hGood fun b hb => ?_
  obtain rfl := Option.mem_some_iff.mp hb
  exact hNew

section Pc
variable {w : Fin n} {pc : Pc n}

theorem setPc_lock (hGood : Good u σ) (hPc : ∀ key todo flag, pc ≠ .releasing key todo flag) :
    ∀ v key todo flag, setPc σ w pc v = .releasing key todo flag → σ.mu = some v := by
  intro v key todo flag h
  rcases eq_or_ne v w with rfl | hv
  · rw [setPc, Function.update_self] at h
    exact absurd h (hPc key todo flag)
  · rw [setPc, Function.update_of_ne hv] at h
    exact hGood.lock v key todo flag h

theorem setPc_releasing (hGood : Good u σ) {key : String} {todo rest : List (Fin n)} {flag flag' : Bool}
    (hPc : σ.pc w = .releasing key todo flag) :
    ∀ v key' todo' f, setPc σ w (.releasing key rest flag') v = .releasing key' todo' f → σ.mu = some v := by
  intro v key' todo' f h
  rcases eq_or_ne v w with rfl | hv
  · exact hGood.lock v key todo flag hPc
  · rw [setPc, Function.update_of_ne hv] at h
    exact hGood.lock v key' todo' f h

theorem setPc_started (hGood : Good u σ) (hw : w ∈ σ.mergeBufferList) :
    ∀ v, setPc σ w pc v ≠ .notStarted → v ∈ σ.mergeBufferList := by
  intro v h
  rcases eq_or_ne v w with rfl | hv
  · exact hw
  · rw [setPc, Function.update_of_ne hv] at h
    exact hGood.started v h

theorem setPc_writing (hGood : Good u σ) (hPc : ∀ work i row, pc ≠ .writing work i row) :
    ∀ v work i row, setPc σ w pc v = .writing work i row →
      i < work.data.rowCount ∧ projectRow u work.snippet (work.data.rowAt i) = some row := by
  intro v work i row h
  rcases eq_or_ne v w with rfl | hv
  · rw [setPc, Function.update_self] at h
    exact absurd h (hPc work i row)
  · rw [setPc, Function.update_of_ne hv] at h
    exact hGood.writing v work i row h

theorem setPc_written (hGood : Good u σ) {work : Work} {i : Nat} {row : Bytes} (hi : i < work.data.rowCount)
    (hRow : projectRow u work.snippet (work.data.rowAt i) = some row) :
    ∀ v work' i' row', setPc σ w (.writing work i row) v = .writing work' i' row' →
      i' < work'.data.rowCount ∧ projectRow u work'.snippet (work'.data.rowAt i') = some row' := by
  intro v work' i' row' h
  rcases eq_or_ne v w with rfl | hv
  · rw [setPc, Function.update_self] at h
    cases h
    exact ⟨hi, hRow⟩
  · rw [setPc, Function.update_of_ne hv] at h
    exact hGood.writing v work' i' row' h

end Pc

theorem holds_addCounts {d counts : Data} {rows : List Bytes} (h : d.Holds rows) :
    (Data.addCounts d counts).Holds rows :=
  ⟨h.rowOffset, h.dataLength, h.rowCount, h.bytes⟩

theorem messages_append (hGood : Good u σ) {workers : List (Fin n)} {w : Fin n} {key : String} {buffer : CsdResult}
    (hBuffer : BufferOk workers w key buffer) :
    ∀ m ∈ σ.returned ++ [(key, buffer)], ∀ snippet ∈ m.2.snippet, Snippet.key snippet = m.1 :=
  List.forall_mem_append.mpr ⟨hGood.messages, List.forall_mem_singleton.mpr hBuffer.snippetKey⟩

theorem good_transition {w : Fin n} (hGood : Good u σ) (h : Transition u σ w σ') : Good u σ' := by
  have hStarted : σ.pc w ≠ .notStarted → w ∈ σ.mergeBufferList := hGood.started w
  cases h with
  | start hPc =>
    refine ⟨fun v key buffer h => ?_, hGood.messages, setPc_lock hGood (by simp), fun v h => ?_,
      setPc_writing hGood (by simp)⟩
    · have hOk := hGood.buffers v key buffer h
      exact ⟨hOk.holds, hOk.snippetKey, List.mem_append_left _ hOk.registered⟩
    · change setPc σ w .waiting v ≠ .notStarted at h
      rcases eq_or_ne v w with rfl | hv
      · exact List.mem_append_right _ List.mem_cons_self
      · rw [setPc, Function.update_of_ne hv] at h
        exact List.mem_append_left _ (hGood.started v h)
  | pop work queue hPc hQueue =>
    exact ⟨hGood.buffers, hGood.messages, setPc_lock hGood (by simp), setPc_started hGood (hStarted (by simp [hPc])),
      setPc_writing hGood (by simp)⟩
  | insert work hPc hMu =>
    exact ⟨hGood.buffers, hGood.messages, setPc_lock hGood (by simp), setPc_started hGood (hStarted (by simp [hPc])),
      setPc_writing hGood (by simp)⟩
  | check work hPc =>
    have hw := hStarted (by simp [hPc])
    refine ⟨storeBuffer_ok hGood ?_, hGood.messages, setPc_lock hGood (by simp), setPc_started hGood hw,
      setPc_writing hGood (by simp)⟩
    cases hBuffer : σ.idBufferMap w work.key with
    | none => exact ⟨⟨[], Data.holds_clear⟩, fun snippet h => by cases h; rfl, hw⟩
    | some buffer => exact hGood.buffers w work.key buffer hBuffer
  | flush work i row hPc hi hRow =>
    have hw := hStarted (by simp [hPc])
    have hOk := bufferAt_ok hGood hw work.key
    exact ⟨storeBuffer_ok hGood ⟨⟨[], Data.holds_clear⟩, hOk.snippetKey, hw⟩, messages_append hGood hOk,
      setPc_lock hGood (by simp), setPc_started hGood hw, setPc_written hGood hi hRow⟩
  | keep work i row hPc hi hRow =>
    have hw := hStarted (by simp [hPc])
    exact ⟨storeBuffer_ok hGood (bufferAt_ok hGood hw work.key), hGood.messages, setPc_lock hGood (by simp),
      setPc_started hGood hw, setPc_written hGood hi hRow⟩
  | rowsEnd work i hPc hi =>
    exact ⟨hGood.buffers, hGood.messages, setPc_lock hGood (by simp), setPc_started hGood (hStarted (by simp [hPc])),
      setPc_writing hGood (by simp)⟩
  | write work i row hPc =>
    have hw := hStarted (by simp [hPc])
    have hOk := bufferAt_ok hGood hw work.key
    obtain ⟨rows, hRows⟩ := hOk.holds
    exact ⟨storeBuffer_ok hGood ⟨⟨rows ++ [row], hRows.pushRow row⟩, hOk.snippetKey, hw⟩, hGood.messages,
      setPc_lock hGood (by simp), setPc_started hGood hw, setPc_writing hGood (by simp)⟩
  | add work hPc =>
    have hw := hStarted (by simp [hPc])
    have hOk := bufferAt_ok hGood hw work.key
    obtain ⟨rows, hRows⟩ := hOk.holds
    exact ⟨storeBuffer_ok hGood ⟨⟨rows, holds_addCounts hRows⟩, hOk.snippetKey, hw⟩, hGood.messages,
      setPc_lock hGood (by simp), setPc_started hGood hw, setPc_writing hGood (by simp)⟩
  | skip work hPc hMu hCount =>
    exact ⟨hGood.buffers, hGood.messages, setPc_lock hGood (by simp), setPc_started hGood (hStarted (by simp [hPc])),
      setPc_writing hGood (by simp)⟩
  | down work count hPc hMu hCount hMore =>
    exact ⟨hGood.buffers, hGood.messages, setPc_lock hGood (by simp), setPc_started hGood (hStarted (by simp [hPc])),
      setPc_writing hGood (by simp)⟩
  | zero work count hPc hMu hCount hZero =>
    refine ⟨hGood.buffers, hGood.messages, fun v key todo flag h => ?_,
      setPc_started hGood (hStarted (by simp [hPc])), setPc_writing hGood (by simp)⟩
    change setPc σ w _ v = _ at h
    rcases eq_or_ne v w with rfl | hv
    · rfl
    · rw [setPc, Function.update_of_ne hv] at h
      have hLock := hGood.lock v key todo flag h
      rw [hMu] at hLock
      cases hLock
  | pass key v todo flag hPc hBuffer =>
    exact ⟨hGood.buffers, hGood.messages, setPc_releasing hGood hPc, setPc_started hGood (hStarted (by simp [hPc])),
      setPc_writing hGood (by simp)⟩
  | ship key v todo flag buffer hPc hBuffer =>
    exact ⟨setBuffer_ok hGood fun b hb => by simp at hb, messages_append hGood (hGood.buffers v key buffer hBuffer),
      setPc_releasing hGood hPc, setPc_started hGood (hStarted (by simp [hPc])), setPc_writing hGood (by simp)⟩
  | erase key flag hPc =>
    refine ⟨hGood.buffers, hGood.messages, fun v key' todo' flag' h => ?_,
      setPc_started hGood (hStarted (by simp [hPc])), setPc_writing hGood (by simp)⟩
    change setPc σ w _ v = _ at h
    rcases eq_or_ne v w with rfl | hv
    · rw [setPc, Function.update_self] at h
      cases h
    · rw [setPc, Function.update_of_ne hv] at h
      have hLock := hGood.lock v key' todo' flag' h
      rw [hGood.lock w _ _ _ hPc, Option.some_inj] at hLock
      exact absurd hLock.symm hv

theorem good_step {action : Action n} (hGood : Good u σ) (h : step u σ action = some σ') : Good u σ' := by
  cases action with
  | enqueue result =>
    cases h
    exact ⟨hGood.buffers, hGood.messages, hGood.lock, hGood.started, hGood.writing⟩
  | work w => exact good_transition hGood (transition_of_workerStep h)

theorem good_run {actions : List (Action n)} (h : run (step u) (initial n) actions = some σ) : Good u σ :=
  run_preserves (fun _ _ _ hGood hStep => good_step hGood hStep) (good_initial u) h

end CsdWorker.Projection
