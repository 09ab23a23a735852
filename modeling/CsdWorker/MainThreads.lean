import CsdWorker.StorageDevice
import CsdWorker.Tmax.Service

/-! # The threads of the module

All the threads that `main` starts, in any interleaving. The TMAX workers have their snippets from the same input worker
as the scan layer.
-/

namespace CsdWorker.MainThreads

open Memory Run Scan Endian
open Input (Arrival TSnippet TmaxOrder knownTexts parseSnippet)
open Json (CInt CLong CText Reader Reads Tree)
open Return (Calls)
open Tmax (Result)
open Tmax.Service (Answered Environment ResultsOf Serves equalASnippet missingSnippet oneFile tmaxWorkingTurn)

set_option autoImplicit false

structure State (k m n l : Nat) where
  device : Device.State k m n
  service : Tmax.Service.State l

inductive Action (k m n l : Nat) where
  | device (a : Device.Action k m n)
  | work (worker : Fin l)
  | answer (calls : Calls)

def initial (k m n l : Nat) : State k m n l := ⟨Device.initial k m n, Tmax.Service.initial l⟩

section Steps
variable {Value : Type} {k m n l : Nat} (reader : Reader Value) (storage : Storage) (u : KValue) (depth : Nat)
variable (write : Tree → Bytes) (env : Environment) (σ : State k m n l)

/-- `enqueue_worker` for each of the snippets. -/
def handOver (service : Tmax.Service.State l) (snippets : List TSnippet) : Tmax.Service.State l :=
  { service with workers := { service.workers with
      received := service.workers.received ++ snippets, queue := service.workers.queue ++ snippets } }

/-- What the input worker takes for a TMAX snippet goes to the queue of the TMAX workers. -/
def step : Action k m n l → Option (State k m n l)
  | .device a => (Device.step reader storage u depth write σ.device a).map fun device =>
      ⟨device, handOver σ.service (device.tmaxWork.drop σ.device.tmaxWork.length)⟩
  | .work worker => (Tmax.Service.step env write σ.service (.work (.work worker))).map fun service => { σ with service }
  | .answer calls => (Tmax.Service.step env write σ.service (.answer calls)).map fun service => { σ with service }

end Steps

section Run
variable {Value : Type} {k m n l : Nat} {reader : Reader Value} {storage : Storage} {u : KValue} {depth : Nat}
variable {write : Tree → Bytes} {env : Environment} {σ σ' : State k m n l}

theorem run_handOver (service : Tmax.Service.State l) (snippets : List TSnippet) :
    run (Tmax.Service.step env write) service (snippets.map fun t => .work (.receive t)) =
      some (handOver service snippets) := by
  induction snippets generalizing service with
  | nil =>
    simp only [handOver, List.append_nil]
    rfl
  | cons t snippets ih =>
    rw [List.map_cons, run_cons]
    refine (ih _).trans ?_
    simp only [handOver, List.append_assoc, List.singleton_append]

/-- A step of the device only puts snippets aside. -/
theorem tmaxWork_of_step {δ δ' : Device.State k m n} {a : Device.Action k m n}
    (h : Device.step reader storage u depth write δ a = some δ') : δ.tmaxWork <+: δ'.tmaxWork := by
  cases a with
  | accept turns indeterminate connection =>
    obtain ⟨json, rest, -, ⟨t, -, rfl⟩ | ⟨p, -, rfl⟩⟩ := Device.inputWorker_cases h
    · exact List.prefix_append _ _
    · exact List.prefix_rfl
  | work a =>
    rw [Device.step] at h
    split at h
    · obtain ⟨csd, -, rfl⟩ := Option.map_eq_some_iff.mp h
      exact List.prefix_rfl
    · cases h
  | answer calls =>
    obtain ⟨csd, -, rfl⟩ := Option.map_eq_some_iff.mp h
    exact List.prefix_rfl

/-- The TMAX workers have received what the input worker has put aside, and do not know where it comes from. -/
structure Joint (env : Environment) (write : Tree → Bytes) (σ : State k m n l) : Prop where
  reachable : ∃ actions, run (Tmax.Service.step env write) (Tmax.Service.initial l) actions = some σ.service
  received : σ.service.workers.received = σ.device.tmaxWork

theorem joint_step {a : Action k m n l} (h : Joint env write σ)
    (hStep : step reader storage u depth write env σ a = some σ') :
    Joint env write σ' := by
  obtain ⟨actions, hRun⟩ := h.reachable
  have hNext : ∀ {service : Tmax.Service.State l} {a : Tmax.Service.Action l},
      Tmax.Service.step env write σ.service a = some service →
        run (Tmax.Service.step env write) (Tmax.Service.initial l) (actions ++ [a]) = some service := by
    intro service a hService
    rw [run_append, hRun, Option.bind_some, run_cons, hService]
    rfl
  cases a with
  | device a =>
    obtain ⟨device, hDevice, rfl⟩ := Option.map_eq_some_iff.mp hStep
    obtain ⟨more, hMore⟩ := tmaxWork_of_step hDevice
    have hDrop : device.tmaxWork.drop σ.device.tmaxWork.length = more := by rw [← hMore, List.drop_left]
    refine ⟨⟨actions ++ more.map fun t => .work (.receive t), ?_⟩, ?_⟩
    · rw [run_append, hRun, Option.bind_some, run_handOver, hDrop]
    · rw [hDrop]
      exact (congrArg (· ++ more) h.received).trans hMore
  | work worker =>
    obtain ⟨service, hService, rfl⟩ := Option.map_eq_some_iff.mp hStep
    obtain ⟨workers, hWorkers, rfl⟩ := Option.map_eq_some_iff.mp hService
    exact ⟨⟨_, hNext hService⟩, (Workers.received_of_workerStep hWorkers).trans h.received⟩
  | answer calls =>
    obtain ⟨service, hService, rfl⟩ := Option.map_eq_some_iff.mp hStep
    refine ⟨⟨_, hNext hService⟩, ?_⟩
    obtain ⟨result, -, hEnd⟩ := Option.bind_eq_some_iff.mp hService
    obtain rfl := Option.some_inj.mp hEnd
    exact h.received

theorem joint_run {actions : List (Action k m n l)}
    (h : run (step reader storage u depth write env) (initial k m n l) actions = some σ) : Joint env write σ :=
  run_preserves (fun _ _ _ hs hStep => joint_step hs hStep) ⟨⟨[], rfl⟩, rfl⟩ h

theorem tmaxWork_of_jointStep {a : Action k m n l} (h : step reader storage u depth write env σ a = some σ') :
    σ.device.tmaxWork <+: σ'.device.tmaxWork := by
  cases a with
  | device a =>
    obtain ⟨device, hDevice, rfl⟩ := Option.map_eq_some_iff.mp h
    exact tmaxWork_of_step hDevice
  | work worker =>
    obtain ⟨service, -, rfl⟩ := Option.map_eq_some_iff.mp h
    exact List.prefix_rfl
  | answer calls =>
    obtain ⟨service, -, rfl⟩ := Option.map_eq_some_iff.mp h
    exact List.prefix_rfl

/-- The input worker puts the order aside. -/
theorem inputWorker_tmax {δ : Device.State k m n} {turns : Nat} {indeterminate : Mem} {connection : List Arrival}
    {text : Bytes} {o : TmaxOrder} (hReads : Reads reader text o.document) (h : Input.Carried turns connection text) :
    Device.inputWorker reader δ turns indeterminate connection =
      some { δ with tmaxWork := δ.tmaxWork ++ [o.tSnippet] } := by
  obtain ⟨rest, hReceived⟩ := h.receive indeterminate
  have hParsed : parseSnippet reader text = some (.tmax o.tSnippet) :=
    Input.parseSnippet_text (s := .tmax o) h.noZero hReads
  rw [Device.inputWorker, hReceived, Option.bind_eq_bind, Option.bind_some]
  simp only [hParsed]
  rfl

/-- An order that came over one of the connections is with the TMAX workers. -/
theorem tmaxWork_of_carried {actions : List (Action k m n l)} {turns : Nat} {indeterminate : Mem}
    {connection : List Arrival} {text : Bytes} {o : TmaxOrder} (hReads : Reads reader text o.document)
    (hCarried : Input.Carried turns connection text)
    (hRun : run (step reader storage u depth write env) σ actions = some σ')
    (hAccept : .device (.accept turns indeterminate connection) ∈ actions) : o.tSnippet ∈ σ'.device.tmaxWork := by
  induction actions generalizing σ with
  | nil => cases hAccept
  | cons a actions ih =>
    rw [run_cons] at hRun
    obtain ⟨t, hFirst, hRest⟩ := Option.bind_eq_some_iff.mp hRun
    obtain rfl | hLater := List.mem_cons.mp hAccept
    · have hKept : t.device.tmaxWork <+: σ'.device.tmaxWork :=
        run_preserves (I := fun s => t.device.tmaxWork <+: s.device.tmaxWork)
          (fun _ _ _ hs hStep => hs.trans (tmaxWork_of_jointStep hStep)) List.prefix_rfl hRest
      refine hKept.subset ?_
      obtain ⟨device, hDevice, rfl⟩ := Option.map_eq_some_iff.mp hFirst
      obtain rfl := Option.some_inj.mp ((inputWorker_tmax hReads hCarried).symm.trans hDevice)
      exact List.mem_append_right _ List.mem_cons_self
    · exact ih hRest hLater

end Run

def equalAOrder : TmaxOrder :=
  { id := CInt.wrap 7, blockSize := CInt.wrap 8192, bufferSize := CInt.wrap 65536
    filterInfo := CText.cut equalASnippet.filterInfo, fileName := CText.cut equalASnippet.fileName
    chunks := [(⟨8192, by decide⟩, ⟨20000, by decide⟩)] }

def missingOrder : TmaxOrder :=
  { equalAOrder with id := CInt.wrap 8, fileName := CText.cut missingSnippet.fileName }

def equalAText : Bytes := bytesOf "rows " ++ bytesOf "with A"

def missingText : Bytes := bytesOf "missing " ++ bytesOf "file"

def twoOrders : Reader Tree := knownTexts [(equalAText, .tmax equalAOrder), (missingText, .tmax missingOrder)]

def equalAConnection : List Arrival :=
  [.data (natLe 8 equalAText.length), .data (bytesOf "rows "), .data (bytesOf "with A")]

def missingConnection : List Arrival :=
  [.data (natLe 8 missingText.length), .data (bytesOf "missing "), .data (bytesOf "file")]

theorem equalAConnection_carried : Input.Carried 2 equalAConnection equalAText :=
  Input.carried_two (bytesOf "rows ") (bytesOf "with A") (by decide) (by decide) (by decide) (by decide)

theorem missingConnection_carried : Input.Carried 2 missingConnection missingText :=
  Input.carried_two (bytesOf "missing ") (bytesOf "file") (by decide) (by decide) (by decide) (by decide)

theorem equalAText_read : Reads twoOrders equalAText equalAOrder.document :=
  Input.reads_knownTexts (s := .tmax equalAOrder) rfl

theorem missingText_read : Reads twoOrders missingText missingOrder.document :=
  Input.reads_knownTexts (s := .tmax missingOrder) rfl

/-- One worker has a snippet with two rows while the other passes over a snippet whose file is missing. -/
def twoTurns : List (Action 1 1 1 2) :=
  [.device (.accept 2 zeroed equalAConnection), .device (.accept 2 zeroed missingConnection), .work (Fin.last 1),
    .work (Fin.last 0).castSucc, .work (Fin.last 1), .answer (Return.wholeCalls 6 12 [])]

theorem twoTurns_observed {result : Result} (hTurn : tmaxWorkingTurn oneFile equalASnippet = some [result])
    (hMissing : tmaxWorkingTurn oneFile missingSnippet = some []) :
    ∃ σ, run (step twoOrders WorkerModule.ordersStorage .zero 0 Device.plainHeader oneFile) (initial 1 1 1 2) twoTurns =
        some σ ∧ σ.device.tmaxWork = [equalASnippet, missingSnippet] ∧
      Tmax.Service.Still oneFile Device.plainHeader σ.service ∧
      σ.service.sent = [Tmax.Service.sendResult Device.plainHeader result (Return.wholeCalls 6 12 [])] := by
  have hOrder : equalAOrder.tSnippet = equalASnippet := rfl
  have hOther : missingOrder.tSnippet = missingSnippet := rfl
  have hEnd : ∀ σ : State 1 1 1 2,
      run (step twoOrders WorkerModule.ordersStorage .zero 0 Device.plainHeader oneFile) σ [] = some σ := fun _ => rfl
  have hHands : Function.update (Function.update (Function.update (fun _ : Fin 2 => ([] : List Result)) 1 [result])
      0 []) 1 [] = fun _ => [] := by
    funext worker
    fin_cases worker <;> rfl
  have hRun :
    run (step twoOrders WorkerModule.ordersStorage .zero 0 Device.plainHeader oneFile) (initial 1 1 1 2) twoTurns =
      some
      { device := { Device.initial 1 1 1 with tmaxWork := [equalASnippet, missingSnippet] }
        service :=
          { workers :=
              { received := [equalASnippet, missingSnippet], queue := [], hands := fun _ => [], out := [result] }
            sent := [Tmax.Service.sendResult Device.plainHeader result (Return.wholeCalls 6 12 [])] } } := by
    simp [twoTurns, run_cons, step, Device.step, Device.initial,
      inputWorker_tmax equalAText_read equalAConnection_carried,
      inputWorker_tmax missingText_read missingConnection_carried, hOrder, hOther, handOver, Tmax.Service.step,
      Workers.step, Workers.workerStep, initial, Tmax.Service.initial, Workers.initial, hTurn, hMissing,
      Tmax.Service.tmaxReturn, hEnd, hHands]
  exact ⟨_, hRun, rfl, ⟨fun worker => rfl, fun reply => rfl⟩, rfl⟩

end CsdWorker.MainThreads
