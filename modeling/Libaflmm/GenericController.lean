import Libaflmm.GenericWorker

/-!
# The controller

The controller registers workers with a router, creates their connections,
and then forwards what they send: every notification becomes a command to
all destinations the router gives for its source.

An error inside the forwarding loop ends the call. The notifications after
it have been taken out of the buffer by then.
-/

namespace Libaflmm

open Call

structure GenericController (K HB H U : Type) where
  router : GraphRouter K
  controllerConns : Option
    (HashMap WorkerId (Connection (GenericNotification H U) (GenericCommand H U)))
  controllerSync : Option (SocketControllerSync (GenericCommand H U) (GenericNotification H U))
  descriptors : HashMap WorkerId StdDescriptor
  workers : HashMap GroupId (List (GenericWorker HB H U))
  finalized : Bool
  workerIdCtr : Nat
  usedCores : HashSet Nat
  pendingNotifications : List (GenericNotification H U × WorkerId)
deriving DecidableEq

/-- One worker of a group: the core it is pinned on, and whether its
directory can be made. -/
structure WorkerSlot where
  coreId : Option Nat
  layout : Result Unit

/-- What the environment answers in one call of `wait_notifications`, with one
`Sending` for each notification it forwards. -/
structure Waiting where
  waited : Result WaitResult
  sending : Nat → Sending

namespace GenericController

variable {K HB H U : Type}

abbrev Controlling (K HB H U α : Type) := Call Error (GenericController K HB H U) α

def unwrap {α : Type} (o : Option α) : Controlling K HB H U α :=
  ofFn fun controller => o.map fun a => (.ok a, controller)

def onRouter {α : Type} (x : Call Error (GraphRouter K) α) : Controlling K HB H U α :=
  .on router (fun router controller => { controller with router }) x.run

/-- A call on `controller_sync.as_mut().unwrap()`. -/
def onSync {α : Type}
    (x : Call Error (SocketControllerSync (GenericCommand H U) (GenericNotification H U)) α) :
    Controlling K HB H U α :=
  ofFn fun controller => do
    let sync ← controller.controllerSync
    let (r, sync) ← x.run sync
    return (r, { controller with controllerSync := some sync })

/-! ## Registering -/

def new (router : GraphRouter K) : GenericController K HB H U where
  router
  controllerConns := some ∅
  controllerSync := none
  descriptors := ∅
  workers := ∅
  finalized := false
  workerIdCtr := 0
  usedCores := ∅
  pendingNotifications := []

def useCore (coreId : Nat) : Controlling K HB H U Bool := ofFn fun controller =>
  let (isNew, usedCores) := HashSet.insertNew coreId controller.usedCores
  some (.ok isNew, { controller with usedCores })

def checkCore : Option Nat → Controlling K HB H U Unit
  | none => return
  | some coreId => do
    if !(← useCore coreId) then
      ofResult (.error (.illegalArgument (s!"core CoreId({coreId}) is getting pinned on by " ++
        "multiple workers. Use unpinned cores instead.")))

def nextWorkerId : Controlling K HB H U WorkerId := ofFn fun controller =>
  some (.ok ⟨controller.workerIdCtr⟩, { controller with workerIdCtr := controller.workerIdCtr + 1 })

section

variable [DecidableEq K] [Debug K]

def registerSlot (groupId : GroupId) (slot : WorkerSlot) : Controlling K HB H U Unit := do
  checkCore slot.coreId
  let workerId ← nextWorkerId
  ofResult slot.layout
  let desc : StdDescriptor := { workerId, groupId }
  onRouter (GraphRouter.registerWorker desc)
  .update fun controller =>
    { controller with descriptors := controller.descriptors.insert workerId desc }

def registerGroup (config : K) (slots : List WorkerSlot) : Controlling K HB H U GroupId := do
  if (← .read finalized) then
    ofResult (.error (.illegalState
      "Trying to register a group in a finalized controller. This is not legal."))
  else
    let groupId ← onRouter (GraphRouter.registerGroup config)
    slots.forM (registerSlot groupId)
    return groupId

/-! ## Finalizing -/

/-- `DirectTransfer::create_worker_sync`. Both ends of the pair are new. -/
def createWorkerSync (worker : WorkerId) (create : Result Unit) :
    Controlling K HB H U (SocketWorkerSync (GenericCommand H U) (GenericNotification H U)) := do
  match (← .read controllerConns) with
  | none =>
    ofResult (.error (.illegalState
      "controller sync has already been created, no worker sync can be created anymore."))
  | some conns =>
    ofResult create
    .update fun controller =>
      { controller with controllerConns := some (conns.insert worker Connection.fromFd) }
    return Connection.fromFd

/-- `DirectTransfer::create_controller_sync`. -/
def createControllerSync :
    Controlling K HB H U
      (SocketControllerSync (GenericCommand H U) (GenericNotification H U)) := do
  match (← .read controllerConns) with
  | none => ofResult (.error (.illegalState "controller sync has already been created."))
  | some workers =>
    .update fun controller => { controller with controllerConns := none }
    return { workers, pendingNotifs := [], dropped := [] }

/-- One turn of the loop of `finalize_orchestration`. The handle backend is
the default one, whatever the sources are. -/
def createWorker [Inhabited HB] (create : WorkerId → Result Unit) (desc : StdDescriptor) :
    Controlling K HB H U Unit := do
  let wid := desc.workerId
  let sourceWids ← unwrap ((← .read router).sources wid)
  let descriptors ← .read descriptors
  sourceWids.forM fun srcWid => do
    let _ ← unwrap (descriptors.lookup srcWid)
  let workerSync ← createWorkerSync wid (create wid)
  let shouldReport ← unwrap ((← .read router).hasDestinations wid)
  let worker := GenericWorker.new desc default workerSync shouldReport
  .update fun controller =>
    let members := (controller.workers.lookup desc.groupId).getD []
    { controller with workers := controller.workers.insert desc.groupId (members ++ [worker]) }

def finalizeOrchestration [Inhabited HB] (create : WorkerId → Result Unit) :
    Controlling K HB H U Unit := do
  let finalizedBefore ← .read finalized
  .update fun controller => { controller with finalized := true }
  if finalizedBefore then
    ofResult (.error (.illegalState
      "Trying to finalize a controller more than one time. This is not legal."))
  else
    onRouter GraphRouter.finalize
    (← .read descriptors).entries.forM fun e => createWorker create e.2
    let sync ← createControllerSync
    .update fun controller => { controller with controllerSync := some sync }

def takeGroupWorkers (group : GroupId) : Controlling K HB H U (List (GenericWorker HB H U)) := do
  match (← .read workers).lookup group with
  | none => ofResult (.error (.illegalArgument
      s!"The group ID {Debug.fmt group} has not been registered"))
  | some members =>
    .update fun controller => { controller with workers := controller.workers.erase group }
    return members

end

/-! ## Running -/

/-- The body of `on_worker_exit` and of `on_worker_termination`. -/
def removeWorker (worker : WorkerId) : Controlling K HB H U Unit :=
  onSync (SocketControllerSync.removeWorker worker)

def onWorkerExit (descriptor : StdDescriptor) : Controlling K HB H U Unit :=
  removeWorker descriptor.workerId

def onWorkerTermination (descriptor : StdDescriptor) : Controlling K HB H U Unit :=
  removeWorker descriptor.workerId

def shutdown (worker : WorkerId) (sending : Sending) : Controlling K HB H U Unit :=
  onSync (SocketControllerSync.sendTo worker .shutdown sending)

/-- One turn of the loop of `wait_notifications`. -/
def forward (notification : GenericNotification H U) (source : WorkerId) (sending : Sending) :
    Controlling K HB H U Unit := do
  let srcDesc ← unwrap ((← .read descriptors).lookup source)
  match ← ofResult (notification.intoCommand srcDesc.groupId) with
  | none => return
  | some command =>
    let destinations ← ofResult (← unwrap ((← .read router).route source))
    onSync (SocketControllerSync.send destinations command sending)

def forwardAll (sending : Nat → Sending) :
    Nat → List (GenericNotification H U × WorkerId) → Controlling K HB H U Unit
  | _, [] => return
  | i, (notification, source) :: pending => do
    forward notification source (sending i)
    forwardAll sending (i + 1) pending

def waitNotifications (waiting : Waiting) : Controlling K HB H U Unit := do
  match ← onSync (ofResult waiting.waited) with
  | .timeout => return
  | .event =>
    let notifs ← onSync SocketControllerSync.poll
    let pending := (← .read pendingNotifications) ++ notifs
    .update fun controller => { controller with pendingNotifications := [] }
    forwardAll waiting.sending 0 pending

end GenericController

end Libaflmm
