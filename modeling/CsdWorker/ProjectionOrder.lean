import CsdWorker.ProjectionView

/-! # The order of the projected rows

Every worker keeps one buffer a snippet. What a worker has taken for a snippet and what has left its buffer of that
snippet are the same rows in the same order, but for those that are still on their way.
-/

namespace CsdWorker.Projection

open Memory Run

set_option autoImplicit false

variable {n : Nat} {u : KValue}

/-- A run with the results that each worker took, and the messages that were made of its buffers. -/
structure Logged (n : Nat) where
  state : State n
  taken : Fin n → List Work
  sent : Fin n → List (String × CsdResult)

section Log
variable (σ : State n) (w : Fin n)

/-- The worker whose buffer is sent: a worker that releases a snippet sends the buffers of all. -/
def sender : Fin n :=
  match σ.pc w with
  | .releasing _ (v :: _) _ => v
  | _ => w

def popped : List Work :=
  match σ.pc w with
  | .waiting => (σ.queue.head?.bind workOf).toList
  | _ => []

def newMessages (σ' : State n) : List (String × CsdResult) := σ'.returned.drop σ.returned.length

end Log

def Logged.record (l : Logged n) (w : Fin n) (σ' : State n) : Logged n :=
  { state := σ'
    taken := Function.update l.taken w (l.taken w ++ popped l.state w)
    sent := Function.update l.sent (sender l.state w) (l.sent (sender l.state w) ++ newMessages l.state σ') }

def loggedStep (u : KValue) (l : Logged n) : Action n → Option (Logged n)
  | .enqueue result => some { l with state := enqueueProjection l.state result }
  | .work w => (workerStep u l.state w).map (l.record w)

def loggedInitial (n : Nat) : Logged n := ⟨initial n, fun _ => [], fun _ => []⟩

theorem loggedStep_state (l : Logged n) (action : Action n) :
    (loggedStep u l action).map Logged.state = step u l.state action := by
  cases action with
  | enqueue result => rfl
  | work w =>
    rw [loggedStep, Option.map_map]
    exact Option.map_id'

/-- The log does not change a run. -/
theorem run_logged (l : Logged n) (actions : List (Action n)) :
    (run (loggedStep u) l actions).map Logged.state = run (step u) l.state actions := by
  induction actions generalizing l with
  | nil => rfl
  | cons action actions ih =>
    rw [run_cons, run_cons, ← loggedStep_state, Option.map_bind, Option.bind_map]
    exact Option.bind_congr fun l' _ => ih l'

def bufferRows (σ : State n) (w : Fin n) (key : String) : List Bytes := (bufferAt σ w key).data.messageRows

def pendingRows (u : KValue) (key : String) : Pc n → List Bytes
  | .popped work | .counted work => if work.key = key then projectedRows u work else []
  | .merging work i => if work.key = key then projectedFrom u work i else []
  | .writing work i row => if work.key = key then row :: projectedFrom u work (i + 1) else []
  | .notStarted | .waiting | .adding _ | .counting _ | .releasing _ _ _ => []

/-- The rows that the worker has taken and not yet sent. -/
def dueRows (u : KValue) (σ : State n) (w : Fin n) (key : String) : List Bytes :=
  bufferRows σ w key ++ pendingRows u key (σ.pc w)

def sentRows (key : String) (messages : List (String × CsdResult)) : List Bytes :=
  (messagesOf key messages).flatMap fun message => message.data.messageRows

def takenRows (u : KValue) (key : String) (works : List Work) : List Bytes :=
  (works.filter fun work => work.key = key).flatMap (projectedRows u)

theorem sentRows_append (key : String) (messages more : List (String × CsdResult)) :
    sentRows key (messages ++ more) = sentRows key messages ++ sentRows key more := by
  simp [sentRows, messagesOf]

theorem takenRows_append (key : String) (works more : List Work) :
    takenRows u key (works ++ more) = takenRows u key works ++ takenRows u key more := by
  simp [takenRows]

section Step
variable {σ σ' : State n} {w : Fin n}

/-- What a step sends and takes is made up for by what is due. -/
def Balanced (u : KValue) (σ σ' : State n) (w : Fin n) : Prop :=
  ∀ v key, sentRows key (if v = sender σ w then newMessages σ σ' else []) ++ dueRows u σ' v key =
    dueRows u σ v key ++ takenRows u key (if v = w then popped σ w else [])

/-- A step that sends and takes nothing, and changes neither the rows of a buffer nor what is pending. -/
theorem balanced_of_quiet {pc : Pc n} (hPc : σ'.pc = setPc σ w pc) (hReturned : σ'.returned = σ.returned)
    (hPopped : popped σ w = []) (hBuffer : ∀ v key, bufferRows σ' v key = bufferRows σ v key)
    (hPending : ∀ key, pendingRows u key pc = pendingRows u key (σ.pc w)) : Balanced u σ σ' w := by
  intro v key
  have hNew : newMessages σ σ' = [] := by rw [newMessages, hReturned, List.drop_length]
  have hDue : dueRows u σ' v key = dueRows u σ v key := by
    rw [dueRows, dueRows, hBuffer, hPc]
    obtain rfl | hv := eq_or_ne v w
    · rw [setPc, Function.update_self, hPending]
    · rw [setPc, Function.update_of_ne hv]
  rw [hNew, hPopped, ite_self, ite_self, hDue]
  exact (List.append_nil _).symm

theorem bufferAt_setBuffer {key : String} {buffer : Option CsdResult} (h : σ'.idBufferMap = setBuffer σ w key buffer)
    (v : Fin n) (key' : String) :
    bufferAt σ' v key' = if v = w ∧ key' = key then buffer.getD ⟨none, Data.clear⟩ else bufferAt σ v key' := by
  rw [bufferAt, h, setBuffer_eq]
  split
  · rfl
  · rfl

theorem bufferRows_setBuffer {key : String} {buffer : Option CsdResult} (h : σ'.idBufferMap = setBuffer σ w key buffer)
    (v : Fin n) (key' : String) :
    bufferRows σ' v key' =
      if v = w ∧ key' = key then (buffer.getD ⟨none, Data.clear⟩).data.messageRows else bufferRows σ v key' := by
  rw [bufferRows, bufferAt_setBuffer h]
  split
  · rfl
  · rfl

/-- A buffer that is set to one with the same rows. -/
theorem bufferRows_same {key : String} {buffer : CsdResult} (h : σ'.idBufferMap = setBuffer σ w key (some buffer))
    (hRows : buffer.data.messageRows = bufferRows σ w key) (v : Fin n) (key' : String) :
    bufferRows σ' v key' = bufferRows σ v key' := by
  rw [bufferRows_setBuffer h]
  split
  · rename_i hEq
    obtain ⟨rfl, rfl⟩ := hEq
    exact hRows
  · rfl

theorem balanced_pop {work : Work} {queue : List CsdResult} (hPc : σ.pc w = .waiting)
    (hQueue : σ.queue = work.toResult :: queue) :
    Balanced u σ (popWork σ w work queue) w := by
  intro v key
  have hNew : newMessages σ (popWork σ w work queue) = [] := by rw [newMessages]; exact List.drop_length
  have hPopped : popped σ w = [work] := by rw [popped, hPc, hQueue]; rfl
  rw [hNew, hPopped, ite_self, dueRows, dueRows]
  change [] ++ (bufferRows σ v key ++ pendingRows u key (setPc σ w (.popped work) v)) = _
  obtain rfl | hv := eq_or_ne v w
  · rw [setPc, Function.update_self, if_pos rfl, hPc, pendingRows, pendingRows, List.append_nil, takenRows]
    by_cases hKey : work.key = key
    · simp [hKey]
    · simp [hKey]
  · rw [setPc, Function.update_of_ne hv, if_neg hv]
    simp [takenRows]

theorem newMessages_append {messages : List (String × CsdResult)} (h : σ'.returned = σ.returned ++ messages) :
    newMessages σ σ' = messages := by
  rw [newMessages, h, List.drop_left]

theorem sentRows_singleton (key key' : String) (message : CsdResult) :
    sentRows key [(key', message)] = if key' = key then message.data.messageRows else [] := by
  by_cases hKey : key' = key
  · simp [sentRows, messagesOf, hKey]
  · simp [sentRows, messagesOf, hKey]

theorem balanced_flush {work : Work} {i : Nat} {row : Bytes} (hPc : σ.pc w = .merging work i)
    (hi : i < work.data.rowCount) (hRow : projectRow u work.snippet (work.data.rowAt i) = some row) :
    Balanced u σ (flushBuffer σ w work i row) w := by
  intro v key
  have hSender : sender σ w = w := by rw [sender, hPc]
  have hPopped : popped σ w = [] := by rw [popped, hPc]
  have hNew : newMessages σ (flushBuffer σ w work i row) = [(work.key, bufferAt σ w work.key)] := newMessages_append rfl
  rw [hSender, hPopped, ite_self, hNew, dueRows, dueRows,
    bufferRows_setBuffer (rfl : (flushBuffer σ w work i row).idBufferMap = _)]
  change _ ++ (_ ++ pendingRows u key (setPc σ w (.writing work i row) v)) = _
  obtain rfl | hv := eq_or_ne v w
  · rw [if_pos rfl, sentRows_singleton, setPc, Function.update_self, hPc, pendingRows, pendingRows]
    by_cases hKey : work.key = key
    · subst hKey
      rw [if_pos rfl, if_pos ⟨rfl, rfl⟩, if_pos rfl, if_pos rfl, projectedFrom_of_lt hi hRow]
      exact (List.append_nil _).symm
    · rw [if_neg hKey, if_neg (fun h => hKey h.2.symm), if_neg hKey, if_neg hKey]
      exact (List.append_nil _).symm
  · rw [if_neg hv, if_neg (fun h => hv h.1), setPc, Function.update_of_ne hv]
    exact (List.append_nil _).symm

theorem balanced_write (hGood : Good u σ) {work : Work} {i : Nat} {row : Bytes} (hPc : σ.pc w = .writing work i row) :
    Balanced u σ (writeRow σ w work i row) w := by
  intro v key
  have hPopped : popped σ w = [] := by rw [popped, hPc]
  have hNew : newMessages σ (writeRow σ w work i row) = [] := newMessages_append (List.append_nil _).symm
  have hStarted : w ∈ σ.mergeBufferList := hGood.started w (by simp [hPc])
  obtain ⟨rows, hRows⟩ := (bufferAt_ok hGood hStarted work.key).holds
  have hPush : ((bufferAt σ w work.key).data.pushRow row).messageRows = bufferRows σ w work.key ++ [row] := by
    rw [(hRows.pushRow row).messageRows_eq, bufferRows, hRows.messageRows_eq]
  rw [hPopped, hNew, ite_self, ite_self, dueRows, dueRows,
    bufferRows_setBuffer (rfl : (writeRow σ w work i row).idBufferMap = _)]
  change [] ++ (_ ++ pendingRows u key (setPc σ w (.merging work (i + 1)) v)) = _
  obtain rfl | hv := eq_or_ne v w
  · rw [setPc, Function.update_self, hPc, pendingRows, pendingRows]
    by_cases hKey : work.key = key
    · subst hKey
      rw [if_pos ⟨rfl, rfl⟩, if_pos rfl, if_pos rfl, Option.getD_some, hPush, List.nil_append, List.append_assoc]
      exact (List.append_nil _).symm
    · rw [if_neg (fun h => hKey h.2.symm), if_neg hKey, if_neg hKey]
      exact (List.append_nil _).symm
  · rw [if_neg (fun h => hv h.1), setPc, Function.update_of_ne hv]
    exact (List.append_nil _).symm

theorem balanced_ship {key : String} {v : Fin n} {todo : List (Fin n)} {flag : Bool} {buffer : CsdResult}
    (hPc : σ.pc w = .releasing key (v :: todo) flag) (hBuffer : σ.idBufferMap v key = some buffer) :
    Balanced u σ (shipBuffer σ w key v todo buffer) w := by
  intro v' key'
  have hSender : sender σ w = v := by rw [sender, hPc]
  have hPopped : popped σ w = [] := by rw [popped, hPc]
  have hNew : newMessages σ (shipBuffer σ w key v todo buffer) = [(key, buffer)] := newMessages_append rfl
  have hPending : pendingRows u key' (setPc σ w (.releasing key todo false) v') = pendingRows u key' (σ.pc v') := by
    obtain rfl | hv := eq_or_ne v' w
    · rw [setPc, Function.update_self, hPc, pendingRows, pendingRows]
    · rw [setPc, Function.update_of_ne hv]
  rw [hSender, hPopped, ite_self, hNew, dueRows, dueRows,
    bufferRows_setBuffer (rfl : (shipBuffer σ w key v todo buffer).idBufferMap = _)]
  change _ ++ (_ ++ pendingRows u key' (setPc σ w (.releasing key todo false) v')) = _
  rw [hPending]
  obtain rfl | hv := eq_or_ne v' v
  · rw [if_pos rfl, sentRows_singleton]
    by_cases hKey : key = key'
    · subst hKey
      have hRows : bufferRows σ v' key = buffer.data.messageRows := by rw [bufferRows, bufferAt, hBuffer]; rfl
      rw [if_pos rfl, if_pos ⟨rfl, rfl⟩, hRows]
      exact (List.append_nil _).symm
    · rw [if_neg hKey, if_neg (fun h => hKey h.2.symm)]
      exact (List.append_nil _).symm
  · rw [if_neg hv, if_neg (fun h => hv h.1)]
    exact (List.append_nil _).symm

theorem balanced_transition (hGood : Good u σ) (h : Transition u σ w σ') : Balanced u σ σ' w := by
  cases h with
  | pop work queue hPc hQueue => exact balanced_pop hPc hQueue
  | flush work i row hPc hi hRow => exact balanced_flush hPc hi hRow
  | write work i row hPc => exact balanced_write hGood hPc
  | ship key v todo flag buffer hPc hBuffer => exact balanced_ship hPc hBuffer
  | check work hPc =>
    refine balanced_of_quiet rfl rfl (by rw [popped, hPc]) (bufferRows_same rfl ?_) fun key => by rw [hPc]; rfl
    rw [bufferRows, bufferAt]
    cases σ.idBufferMap w work.key with
    | none => rfl
    | some buffer => rfl
  | keep work i row hPc hi hRow =>
    refine balanced_of_quiet rfl rfl (by rw [popped, hPc]) (bufferRows_same rfl rfl) fun key => ?_
    rw [hPc, pendingRows, pendingRows, projectedFrom_of_lt hi hRow]
  | rowsEnd work i hPc hi =>
    refine balanced_of_quiet rfl rfl (by rw [popped, hPc]) (fun _ _ => rfl) fun key => ?_
    rw [hPc, pendingRows, pendingRows, projectedFrom_of_not_lt hi, ite_self]
  | add work hPc =>
    exact balanced_of_quiet rfl rfl (by rw [popped, hPc]) (bufferRows_same rfl rfl) fun key => by rw [hPc]; rfl
  | start hPc | insert work hPc hMu | skip work hPc hMu hCount | down work count hPc hMu hCount hMore
  | zero work count hPc hMu hCount hZero | pass key v todo flag hPc hBuffer | erase key flag hPc =>
    exact balanced_of_quiet rfl rfl (by rw [popped, hPc]) (fun _ _ => rfl) fun key => by rw [hPc]; rfl

theorem returned_transition (h : Transition u σ w σ') : σ'.returned = σ.returned ++ newMessages σ σ' := by
  have hGrows : ∃ messages, σ'.returned = σ.returned ++ messages := by
    cases h with
    | flush work i row hPc hi hRow => exact ⟨_, rfl⟩
    | ship key v todo flag buffer hPc hBuffer => exact ⟨_, rfl⟩
    | _ => exact ⟨[], (List.append_nil _).symm⟩
  obtain ⟨messages, hMessages⟩ := hGrows
  rw [newMessages_append hMessages, hMessages]

theorem queue_transition (h : Transition u σ w σ') :
    σ'.enqueued = σ.enqueued ∧ σ.queue = (popped σ w).map Work.toResult ++ σ'.queue := by
  cases h with
  | pop work queue hPc hQueue =>
    refine ⟨rfl, ?_⟩
    rw [popped, hPc, hQueue]
    rfl
  | start hPc | insert work hPc hMu | check work hPc | flush work i row hPc hi hRow | keep work i row hPc hi hRow
  | rowsEnd work i hPc hi | write work i row hPc | add work hPc | skip work hPc hMu hCount
  | down work count hPc hMu hCount hMore | zero work count hPc hMu hCount hZero | pass key v todo flag hPc hBuffer
  | ship key v todo flag buffer hPc hBuffer | erase key flag hPc =>
    exact ⟨rfl, by rw [popped, hPc]; rfl⟩

end Step

/-- What is known of a run of which the log is kept. -/
structure InOrder (u : KValue) (l : Logged n) : Prop where
  good : Good u l.state
  rows : ∀ w key, sentRows key (l.sent w) ++ dueRows u l.state w key = takenRows u key (l.taken w)
  messages : ∀ m, m ∈ l.state.returned ↔ ∃ w, m ∈ l.sent w
  queue : ∀ result ∈ l.state.queue, result ∈ l.state.enqueued
  taken : ∀ w, ∀ work ∈ l.taken w, work.toResult ∈ l.state.enqueued

theorem inOrder_initial (u : KValue) (n : Nat) : InOrder u (loggedInitial n) where
  good := good_initial u
  rows := fun _ _ => rfl
  messages := by simp [loggedInitial, initial]
  queue := by simp [loggedInitial, initial]
  taken := by simp [loggedInitial]

section Record
variable {l : Logged n} {w : Fin n} {σ' : State n}

theorem record_sent (v : Fin n) :
    (l.record w σ').sent v = l.sent v ++ if v = sender l.state w then newMessages l.state σ' else [] := by
  obtain rfl | hv := eq_or_ne v (sender l.state w)
  · rw [if_pos rfl]
    exact Function.update_self ..
  · rw [if_neg hv, List.append_nil]
    exact Function.update_of_ne hv ..

theorem record_taken (v : Fin n) : (l.record w σ').taken v = l.taken v ++ if v = w then popped l.state w else [] := by
  obtain rfl | hv := eq_or_ne v w
  · rw [if_pos rfl]
    exact Function.update_self ..
  · rw [if_neg hv, List.append_nil]
    exact Function.update_of_ne hv ..

theorem inOrder_record (h : InOrder u l) (hStep : Transition u l.state w σ') : InOrder u (l.record w σ') := by
  obtain ⟨hEnqueued, hQueue⟩ := queue_transition hStep
  refine ⟨good_transition h.good hStep, ?_, ?_, ?_, ?_⟩
  · intro v key
    rw [record_sent, record_taken, sentRows_append, takenRows_append, ← h.rows v key, List.append_assoc,
      List.append_assoc]
    exact congrArg _ (balanced_transition h.good hStep v key)
  · intro m
    change m ∈ σ'.returned ↔ _
    rw [returned_transition hStep, List.mem_append, h.messages m]
    constructor
    · rintro (⟨v, hv⟩ | hNew)
      · exact ⟨v, by rw [record_sent]; exact List.mem_append_left _ hv⟩
      · exact ⟨sender l.state w, by rw [record_sent, if_pos rfl]; exact List.mem_append_right _ hNew⟩
    · rintro ⟨v, hv⟩
      rw [record_sent, List.mem_append] at hv
      obtain hOld | hNew := hv
      · exact Or.inl ⟨v, hOld⟩
      · split at hNew
        · exact Or.inr hNew
        · cases hNew
  · intro result hResult
    change result ∈ σ'.enqueued
    rw [hEnqueued]
    exact h.queue result (hQueue ▸ List.mem_append_right _ hResult)
  · intro v work hWork
    change work.toResult ∈ σ'.enqueued
    rw [hEnqueued]
    rw [record_taken, List.mem_append] at hWork
    obtain hOld | hNew := hWork
    · exact h.taken v work hOld
    · split at hNew
      · exact h.queue _ (hQueue ▸ List.mem_append_left _ (List.mem_map_of_mem hNew))
      · cases hNew

end Record

theorem inOrder_step {l l' : Logged n} {action : Action n} (h : InOrder u l) (hStep : loggedStep u l action = some l') :
    InOrder u l' := by
  cases action with
  | enqueue result =>
    obtain rfl := Option.some_inj.mp hStep
    have hEnqueue : step u l.state (.enqueue result) = some (enqueueProjection l.state result) := rfl
    refine ⟨good_step h.good hEnqueue, h.rows, h.messages, ?_, ?_⟩
    · intro other hOther
      obtain hOld | hNew := List.mem_append.mp hOther
      · exact List.mem_append_left _ (h.queue other hOld)
      · exact List.mem_append_right _ hNew
    · intro w work hWork
      exact List.mem_append_left _ (h.taken w work hWork)
  | work w =>
    obtain ⟨σ', hWorker, rfl⟩ := Option.map_eq_some_iff.mp hStep
    exact inOrder_record h (transition_of_workerStep hWorker)

theorem inOrder_run {l : Logged n} {actions : List (Action n)}
    (h : run (loggedStep u) (loggedInitial n) actions = some l) :
    InOrder u l :=
  run_preserves (fun _ _ _ hs hStep => inOrder_step hs hStep) (inOrder_initial u n) h

end CsdWorker.Projection
