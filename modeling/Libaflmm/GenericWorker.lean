import Libaflmm.SocketSync

/-!
# Workers that share testcases

A worker marks a testcase as seen when it sends it and when it imports it,
and imports nothing it has seen. What travels is a handle of the input; its
backend is a parameter, and an import whose content has another id than the
announced one is an error.
-/

namespace Libaflmm

open Call

/-- The trait `InputHandleBackend`. -/
class InputHandleBackend (HB : Type) (I H : outParam Type) where
  createHandle : I → HB → Result H × HB
  resolveHandle : H → HB → Result I × HB

/-- The handle is the serialised input. -/
structure SerializedInputHandleBackend (I : Type) where
deriving Inhabited, DecidableEq

/-- Nothing is shared. -/
structure UnreachableInputHandleBackend (I : Type) where
deriving Inhabited, DecidableEq

instance {I : Type} [Input I] :
    InputHandleBackend (SerializedInputHandleBackend I) I (List UInt8) where
  createHandle input self := ((Input.toAllocvec input).mapError .serialize, self)
  resolveHandle handle self := ((Input.fromBytes handle).mapError .serialize, self)

def notShared : Error :=
  .internalBug "The orchestrator is not supposed to share any testcase, this is an internal bug."

instance {I : Type} : InputHandleBackend (UnreachableInputHandleBackend I) I Unit where
  createHandle _ self := (.error notShared, self)
  resolveHandle _ self := (.error notShared, self)

structure GenericWorker (HB H U : Type) where
  descriptor : StdDescriptor
  handleBackend : HB
  workerSync : SocketWorkerSync (GenericCommand H U) (GenericNotification H U)
  seenTestcases : HashSet TestcaseId
  pendingImports : List (TestcaseId × H)
  pendingCustoms : List U
  shutdownRequested : Bool
  shouldReport : Bool
deriving DecidableEq

namespace GenericWorker

variable {HB I H U : Type}

def new (descriptor : StdDescriptor) (handleBackend : HB)
    (workerSync : SocketWorkerSync (GenericCommand H U) (GenericNotification H U))
    (shouldReport : Bool) : GenericWorker HB H U where
  descriptor
  handleBackend
  workerSync
  shouldReport
  seenTestcases := ∅
  pendingImports := []
  pendingCustoms := []
  shutdownRequested := false

abbrev Working (HB H U α : Type) := Call Error (GenericWorker HB H U) α

def onSync {α : Type}
    (x : Call Error (SocketWorkerSync (GenericCommand H U) (GenericNotification H U)) α) :
    Working HB H U α :=
  .on workerSync (fun workerSync worker => { worker with workerSync }) x.run

/-- What `poll` does with one command. -/
def accept (command : GenericCommand H U) (worker : GenericWorker HB H U) : GenericWorker HB H U :=
  match command with
  | .shutdown => { worker with shutdownRequested := true }
  | .importFrom _ id handle =>
    { worker with pendingImports := worker.pendingImports ++ [(id, handle)] }
  | .custom payload => { worker with pendingCustoms := worker.pendingCustoms ++ [payload] }

def poll : Working HB H U Bool := do
  let commands ← onSync (ofFn Connection.poll)
  .update fun worker => commands.foldl (fun worker command => worker.accept command) worker
  return !commands.isEmpty

def markSeen (id : TestcaseId) : Working HB H U Bool := ofFn fun worker =>
  let (isNew, seenTestcases) := HashSet.insertNew id worker.seenTestcases
  some (.ok isNew, { worker with seenTestcases })

section

variable [Input I] [InputHandleBackend HB I H]

def createHandle (input : I) : Working HB H U H := ofFn fun worker =>
  let (handle, handleBackend) := InputHandleBackend.createHandle input worker.handleBackend
  some (handle, { worker with handleBackend })

def resolveHandle (handle : H) : Working HB H U I := ofFn fun worker =>
  let (input, handleBackend) := InputHandleBackend.resolveHandle handle worker.handleBackend
  some (input, { worker with handleBackend })

def sendTestcase (testcase : Testcase I) (serialized : Result Unit) (answer : Result SendResult) :
    Working HB H U Unit := do
  if (← .read shouldReport) then
    let _ ← markSeen testcase.id
    let handle ← createHandle testcase.input
    onSync (SocketWorkerSync.send (.newTestcase testcase.id handle) serialized answer)

/-- The iterator chain of `recv_testcases`, up to the first error. -/
def importAll : List (TestcaseId × H) → Working HB H U (List (Testcase I))
  | [] => return []
  | (id, handle) :: imports => do
    if (← markSeen id) then
      let testcase := Testcase.new (← resolveHandle handle)
      if testcase.id ≠ id then
        ofResult (.error (.illegalArgument "imported ID does not match input content"))
      else
        let testcases ← importAll imports
        return testcase :: testcases
    else importAll imports

/-- The buffer is drained, also where an error ends the call. -/
def recvTestcases : Working HB H U (List (Testcase I)) := do
  let imports ← .read pendingImports
  .update fun worker => { worker with pendingImports := [] }
  importAll imports

def sendCustom (payload : U) (serialized : Result Unit) (answer : Result SendResult) :
    Working HB H U Unit :=
  onSync (SocketWorkerSync.send (.custom payload) serialized answer)

def recvCustom : Working HB H U (List U) := ofFn fun worker =>
  some (.ok worker.pendingCustoms, { worker with pendingCustoms := [] })

end

end GenericWorker

end Libaflmm
