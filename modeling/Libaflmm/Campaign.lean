import Libaflmm.ControllerExit
import Libaflmm.StdFuzzer

/-!
# A campaign of workers

A campaign is a controller and the fuzzer instances of its workers, each a
process of its own. Messages stay in the order in which they were sent over a
connection and are carried to the other end one at a time, at any moment; a
connection may break off in either direction.

An instance polls and imports at the start of each round of `fuzz_one`, then
evaluates what it has imported; in between its stages evaluate inputs of
their own. What an instance has sent of a testcase that it did not import is
recorded as `found`, what it has imported as `received`, and the imports it
has evaluated as `evaluated`; these lists are no state of the code.
-/

namespace Libaflmm

open Call

/-- What the feedbacks, the hooks and the kernel answer in one evaluation. -/
structure Sharing (I : Type) [Input I] where
  interest : Result Interest
  preAddAll : Testcase I → Result (Testcase I)
  serialized : Result Unit
  answer : Result SendResult

structure FuzzInstance (HB I H U : Type) [Input I] where
  worker : GenericWorker HB H U
  pendingTestcases : List (Testcase I)
  received : List TestcaseId
  evaluated : List TestcaseId
  found : List TestcaseId

namespace FuzzInstance

variable {HB I H U : Type} [Input I]

def new (worker : GenericWorker HB H U) : FuzzInstance HB I H U := ⟨worker, [], [], [], []⟩

abbrev Fuzzing (HB I H U α : Type) [Input I] := Call Error (FuzzInstance HB I H U) α

def onWorker {α : Type} (x : Call Error (GenericWorker HB H U) α) : Fuzzing HB I H U α :=
  .on worker (fun worker self => { self with worker }) x.run

def nextPendingTestcase : Fuzzing HB I H U (Option (Testcase I)) := ofFn fun self =>
  match self.pendingTestcases with
  | [] => some (.ok none, self)
  | testcase :: pendingTestcases =>
    some (.ok (some testcase), { self with
      pendingTestcases
      evaluated := self.evaluated ++ [testcase.id] })

variable [InputHandleBackend HB I H]

/-- The start of `fuzz_one`. -/
def importTestcases : Fuzzing HB I H U Unit := do
  if ← onWorker GenericWorker.poll then
    let testcases ← onWorker GenericWorker.recvTestcases
    .update fun self => { self with
      pendingTestcases := self.pendingTestcases ++ testcases
      received := self.received ++ testcases.map Testcase.id }

/-- `post_execution`, as far as the worker takes part in it. `imported` is the
id of the input where it is an import. -/
def share (input : I) (imported : Option TestcaseId) (cb : Sharing I) : Fuzzing HB I H U Unit := do
  match ← ofResult cb.interest with
  | .uninteresting | .objective => return
  | .corpus =>
    let testcase ← ofResult (cb.preAddAll (Testcase.new input))
    .update fun self =>
      if imported = some testcase.id then self
      else { self with found := self.found ++ [testcase.id] }
    onWorker (GenericWorker.sendTestcase testcase cb.serialized cb.answer)

/-- One turn of the import loop of `fuzz_one`. -/
def evaluateImport (cb : Sharing I) : Fuzzing HB I H U Unit := do
  match ← nextPendingTestcase with
  | none => return
  | some testcase => share testcase.input (some testcase.id) cb

end FuzzInstance

/-- `up` and `down` count what was carried of the messages of a worker, and
of those for it. -/
structure Campaign (K HB I H U : Type) [Input I] where
  controller : GenericController K HB H U
  instances : WorkerId → FuzzInstance HB I H U
  up : WorkerId → Nat
  down : WorkerId → Nat

inductive CampaignEvent (I H U : Type) [Input I] where
  | imports (worker : WorkerId)
  | evaluates (worker : WorkerId) (cb : Sharing I)
  | executes (worker : WorkerId) (input : I) (cb : Sharing I)
  | sendsCustom (worker : WorkerId) (payload : U) (serialized : Result Unit)
      (answer : Result SendResult)
  | carriesUp (worker : WorkerId)
  | carriesDown (worker : WorkerId)
  | breaksUp (worker : WorkerId) (err : Option Error)
  | breaksDown (worker : WorkerId) (err : Option Error)
  | exits (descriptor : StdDescriptor)
  | terminates (descriptor : StdDescriptor)
  | shutdown (worker : WorkerId) (sending : Sending)
  | waits (waiting : Waiting)

/-- A connection ends with an error or an end of file. -/
def breakOff {In : Type} : Option Error → Recv In
  | some err => .error err
  | none => .eof

namespace Campaign

variable {K HB I H U : Type} [Input I]

def start (controller : GenericController K HB H U) (workers : WorkerId → GenericWorker HB H U) :
    Campaign K HB I H U where
  controller
  instances worker := .new (workers worker)
  up _ := 0
  down _ := 0

def setInstance (worker : WorkerId) (self : FuzzInstance HB I H U) (s : Campaign K HB I H U) :
    Campaign K HB I H U :=
  { s with instances := Function.update s.instances worker self }

/-- An instance makes a call; its error is for the instance. -/
def act (worker : WorkerId) (x : Call Error (FuzzInstance HB I H U) Unit)
    (s : Campaign K HB I H U) : Option (Campaign K HB I H U) :=
  (x.run (s.instances worker)).map fun (_, self) => s.setInstance worker self

/-- The controller makes a call, or something arrives for it. -/
def control (event : GenericController.ControllerEvent H U) (s : Campaign K HB I H U) :
    Option (Campaign K HB I H U) :=
  (s.controller.exec event).map fun controller => { s with controller }

def hear (worker : WorkerId) (item : Recv (GenericCommand H U)) (s : Campaign K HB I H U) :
    Campaign K HB I H U :=
  let self := s.instances worker
  s.setInstance worker
    { self with worker.workerSync := self.worker.workerSync.arrive item }

/-- The commands for a worker, also over a connection that was closed. -/
def commandsFor (worker : WorkerId) (s : Campaign K HB I H U) : List (GenericCommand H U) :=
  match s.controller.sync.workers.lookup worker with
  | some conn => conn.tx
  | none => (s.controller.sync.dropped.filter (·.1 = worker)).flatMap (·.2.tx)

variable [InputHandleBackend HB I H]

def exec (s : Campaign K HB I H U) : CampaignEvent I H U → Option (Campaign K HB I H U)
  | .imports worker => s.act worker FuzzInstance.importTestcases
  | .evaluates worker cb => s.act worker (FuzzInstance.evaluateImport cb)
  | .executes worker input cb => s.act worker (FuzzInstance.share input none cb)
  | .sendsCustom worker payload serialized answer =>
    s.act worker (FuzzInstance.onWorker (GenericWorker.sendCustom payload serialized answer))
  | .carriesUp worker =>
    match (s.instances worker).worker.workerSync.tx[s.up worker]? with
    | none => some s
    | some notif =>
      { s with up := Function.update s.up worker (s.up worker + 1) }.control
        (.arrives worker (.packet notif))
  | .carriesDown worker =>
    match (s.commandsFor worker)[s.down worker]? with
    | none => some s
    | some command =>
      some ({ s with down := Function.update s.down worker (s.down worker + 1) }.hear worker
        (.packet command))
  | .breaksUp worker err => s.control (.arrives worker (breakOff err))
  | .breaksDown worker err => some (s.hear worker (breakOff err))
  | .exits descriptor => s.control (.exits descriptor)
  | .terminates descriptor => s.control (.terminates descriptor)
  | .shutdown worker sending => s.control (.shutdown worker sending)
  | .waits waiting => s.control (.waits waiting)

end Campaign

end Libaflmm
