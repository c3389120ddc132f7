import Libaflmm.Executions
import Libaflmm.ShmChannel

/-!
# Terminations and restarts

A signal and a panic end the child process of the restarting runtime. Inside an
execution the handlers of the fuzzer say what has happened, the state is sent to
the parent, and the child exits with the code that makes the parent restart from
that state. Outside of one the child exits with another code.

The first thing that a handler does is to take the input, so that a termination
which is raised in a handler is not in an execution any more. The depth of the
handlers is bounded.

The panic hook exits with the restart code whatever the handler of the fuzzer
says. An execution that returns an error leaves the input set, and what is
raised after it is taken for a termination in an execution.
-/

namespace Libaflmm

open Call

inductive Termination where
  | signal (signal : Nat)
  | panic
deriving DecidableEq

def sigAbort : Nat := 6

def sigUser2 : Nat := 12

def sigAlarm : Nat := 14

/-- SIGALRM, SIGUSR2, SIGABRT, SIGBUS, SIGFPE, SIGILL, SIGSEGV and SIGTRAP. -/
def commonSignals : List Nat := [sigAlarm, sigUser2, sigAbort, 7, 8, 4, 11, 5]

inductive ChildExit where
  | exited (status : Nat)
  | signaled (signal : Nat)
deriving DecidableEq

/-! ## The child -/

inductive UserStep (S : Type) where
  | change (f : S → S)
  | raise (termination : Termination)

/-- Code of the target or of the fuzzer: what it does, and what it returns if
nothing that it raises ends the process. -/
structure UserCode (S α : Type) where
  steps : List (UserStep S)
  result : Except Unit α

/-- What the executor and the fuzzer do in a handler. Writing the report does not
change the state. -/
structure Handlers (S : Type) where
  handleCrash : Termination → UserCode S CrashStatus
  handleTimeout : UserCode S TimeoutStatus
  handleObjective : UserCode S Bool
  report : List Termination

inductive Classification where
  | crash (status : CrashStatus)
  | timeout (status : TimeoutStatus)
deriving DecidableEq

/-- What is known of the last termination: whether it was raised in an execution,
how the handler has classified it, and the state that was sent. -/
structure TerminationRecord (S : Type) where
  inExecution : Bool
  classified : Option Classification
  sent : Option S

/-- `inHook` is whether a panic is being processed, and the last two fields are
there for what is said about the code. -/
structure Child (S : Type) where
  state : S
  shm : SharedMemory
  depth : Nat
  inputSet : Bool
  handlersSet : Bool
  inHook : Bool
  inExecution : Bool
  termination : Option (TerminationRecord S)

abbrev ChildCall (S α : Type) := Call ChildExit (Child S) α

namespace Child

variable {S α : Type}

def terminationHandlerMaxDepth : Nat := 3

def exit (status : Nat) : ChildCall S α := ofResult (.error (.exited status))

/-- What follows a panic, whose hook never returns. -/
def unreachable : ChildCall S α := ofFn fun _ => none

def enter : ChildCall S Unit := do
  update fun c => { c with depth := c.depth + 1 }
  let depth ← read (·.depth)
  if terminationHandlerMaxDepth ≤ depth then exit libaflmmExitTerminationInfiniteRecursion
  else pure ()

def leave : ChildCall S Unit := update fun c => { c with depth := c.depth - 1 }

def recordTermination : ChildCall S Unit :=
  update fun c =>
    { c with termination := some ⟨c.inExecution && c.depth == 0, none, none⟩ }

def recordClassified (status : Classification) : ChildCall S Unit :=
  update fun c =>
    { c with termination := c.termination.map ({ · with classified := some status }) }

def recordSent : ChildCall S Unit :=
  update fun c => { c with termination := c.termination.map ({ · with sent := some c.state }) }

section

variable (raise : Termination → ChildCall S Unit)

def panics : ChildCall S α := do
  raise .panic
  unreachable

def runSteps : List (UserStep S) → ChildCall S Unit
  | [] => pure ()
  | .change f :: steps => do
    update fun c => { c with state := f c.state }
    runSteps steps
  | .raise termination :: steps => do
    raise termination
    runSteps steps

def runCode (code : UserCode S α) : ChildCall S (Except Unit α) := do
  runSteps raise code.steps
  pure code.result

def expect (result : Except Unit α) : ChildCall S α :=
  match result with
  | .ok a => pure a
  | .error _ => panics raise

def writeReport (shouldReport : Bool) (report : List Termination) : ChildCall S Unit :=
  if shouldReport then runSteps raise (report.map .raise) else pure ()

end

section

variable (p : Postcard S) (szMax : Nat) (handlers : Handlers S)
  (raise : Termination → ChildCall S Unit)

/-- `AnonShmSender::send` of the state -/
def send : ChildCall S (Except Unit Unit) := do
  let sent ← read fun c => shmSend p szMax c.state c.shm
  match sent with
  | none => panics raise
  | some (.error _, shm) => do
    update fun c => { c with shm }
    pure (.error ())
  | some (.ok _, shm) => do
    update fun c => { c with shm }
    recordSent
    pure (.ok ())

def assertInFuzzing : ChildCall S Unit := do
  let inFuzzing ← read (·.inputSet)
  if inFuzzing then pure () else panics raise

def takeInput : ChildCall S Unit := update fun c => { c with inputSet := false }

/-- `std_on_crash` -/
def onCrash (termination : Termination) : ChildCall S (Except Unit CrashStatus) := do
  assertInFuzzing raise
  takeInput
  let status ← runCode raise (handlers.handleCrash termination)
  match status with
  | .error e => pure (.error e)
  | .ok .targetCrash => do
    let worthy ← runCode raise handlers.handleObjective
    match worthy with
    | .error e => pure (.error e)
    | .ok worthy => pure (.ok (if worthy then .targetCrash else .duplicateTargetCrash))
  | .ok status => pure (.ok status)

/-- `std_on_timeout` -/
def onTimeout : ChildCall S (Except Unit TimeoutStatus) := do
  assertInFuzzing raise
  takeInput
  let status ← runCode raise handlers.handleTimeout
  match status with
  | .error e => pure (.error e)
  | .ok status => do
    let worthy ← runCode raise handlers.handleObjective
    match worthy with
    | .error e => pure (.error e)
    | .ok _ => pure (.ok status)

/-- The saver is set together with the handlers. -/
def stdInprocessCrash (termination : Termination) : ChildCall S (Except Unit CrashStatus) := do
  let handlersSet ← read (·.handlersSet)
  if handlersSet then do
    let status ← onCrash handlers raise termination
    match status with
    | .error e => pure (.error e)
    | .ok status => do
      recordClassified (.crash status)
      let sent ← send p szMax raise
      pure (sent.map fun _ => status)
  else panics raise

def stdInprocessTimeout : ChildCall S (Except Unit TimeoutStatus) := do
  let handlersSet ← read (·.handlersSet)
  if handlersSet then do
    let status ← onTimeout handlers raise
    match status with
    | .error e => pure (.error e)
    | .ok status => do
      recordClassified (.timeout status)
      let sent ← send p szMax raise
      pure (sent.map fun _ => status)
  else panics raise

def crashHandler (signal : Nat) : ChildCall S Unit := do
  let inFuzzing ← read (·.inputSet)
  if inFuzzing then do
    let result ← stdInprocessCrash p szMax handlers raise (.signal signal)
    let status ← expect raise result
    writeReport raise status.shouldReport handlers.report
    if status.isTargetCrash then exit libaflmmExitRestart else exit (128 + signal)
  else exit (128 + signal)

def timeoutHandler (signal : Nat) : ChildCall S Unit := do
  enter
  let inFuzzing ← read (·.inputSet)
  if inFuzzing then do
    let result ← stdInprocessTimeout p szMax handlers raise
    let status ← expect raise result
    match status with
    | .exit => exit libaflmmExitRestart
    | .resume => leave
  else exit (128 + signal)

def handle (signal : Nat) : ChildCall S Unit := do
  enter
  if signal = sigUser2 ∨ signal = sigAlarm then timeoutHandler p szMax handlers raise signal
  else crashHandler p szMax handlers raise signal
  leave

/-- The hook that `setup_panic_hook` sets. -/
def panicHook : ChildCall S Unit := do
  update fun c => { c with inHook := true }
  enter
  let inFuzzing ← read (·.inputSet)
  if inFuzzing then do
    let result ← stdInprocessCrash p szMax handlers raise .panic
    let status ← expect raise result
    writeReport raise status.shouldReport handlers.report
    exit libaflmmExitRestart
  else exit (128 + sigAbort)

/-- A panic in the panic hook aborts. -/
def terminate (termination : Termination) : ChildCall S Unit := do
  recordTermination
  match termination with
  | .signal signal =>
    if signal ∈ commonSignals then handle p szMax handlers raise signal
    else ofResult (.error (.signaled signal))
  | .panic => do
    let inHook ← read (·.inHook)
    if inHook then handle p szMax handlers raise sigAbort
    else panicHook p szMax handlers raise

end

/-- What is raised in a handler is answered at the level below. -/
def raise (p : Postcard S) (szMax : Nat) (handlers : Nat → Handlers S) :
    Nat → Termination → ChildCall S Unit
  | 0, _ => unreachable
  | level + 1, termination =>
    terminate p szMax (handlers (level + 1)) (raise p szMax handlers level) termination

end Child

/-! ## The life of a child -/

/-- With the answers of the handlers at each level of nesting. -/
inductive ChildEvent (S : Type) where
  | initTerminationHandlers (handlers : Nat → Handlers S)
  | work (code : UserCode S Unit) (handlers : Nat → Handlers S)
  | execute (target : UserCode S Unit) (handlers : Nat → Handlers S)
  | taskReturns (result : Except Unit Unit) (handlers : Nat → Handlers S)

namespace Child

variable {S : Type} (p : Postcard S) (szMax : Nat)

def raiseTop (handlers : Nat → Handlers S) : Termination → ChildCall S Unit :=
  raise p szMax handlers terminationHandlerMaxDepth

def initTerminationHandlers (handlers : Nat → Handlers S) : ChildCall S Unit := do
  let handlersSet ← read (·.handlersSet)
  if handlersSet then panics (raiseTop p szMax handlers)
  else update fun c => { c with handlersSet := true }

def work (code : UserCode S Unit) (handlers : Nat → Handlers S) : ChildCall S Unit := do
  let _ ← runCode (raiseTop p szMax handlers) code
  pure ()

/-- An error returns early. -/
def execute (target : UserCode S Unit) (handlers : Nat → Handlers S) : ChildCall S Unit := do
  update fun c => { c with inputSet := true, inExecution := true }
  let result ← runCode (raiseTop p szMax handlers) target
  update fun c => { c with inExecution := false }
  match result with
  | .ok _ => update fun c => { c with inputSet := false }
  | .error _ => pure ()

def taskReturns (result : Except Unit Unit) (handlers : Nat → Handlers S) : ChildCall S Unit := do
  expect (raiseTop p szMax handlers) result
  exit libaflmmExitEnd

def event : ChildEvent S → ChildCall S Unit
  | .initTerminationHandlers handlers => initTerminationHandlers p szMax handlers
  | .work code handlers => work p szMax code handlers
  | .execute target handlers => execute p szMax target handlers
  | .taskReturns result handlers => taskReturns p szMax result handlers

def live : List (ChildEvent S) → ChildCall S Unit
  | [] => pure ()
  | e :: events => do
    event p szMax e
    live events

end Child

/-! ## The parent -/

structure Restarter (S : Type) where
  state : S
  shm : SharedMemory

inductive ParentStatus (S : Type) where
  | restarts (r : Restarter S)
  | returns (result : Except Unit Unit)
  | exits (status : Nat)
  | panics

namespace Restarter

variable {S : Type} (p : Postcard S) (szMax : Nat)

def new (state : S) (data : List UInt8) : Restarter S := ⟨state, .new szMax data⟩

def fork (r : Restarter S) : Child S := ⟨r.state, r.shm, 0, false, false, false, false, none⟩

def childExited (status : Nat) (shm : SharedMemory) : ParentStatus S :=
  if status = libaflmmExitEnd then .returns (.ok ())
  else if status = libaflmmExitRestart then
    match shmReceive p szMax shm with
    | (.ok state, shm) => .restarts ⟨state, shm⟩
    | (.error _, _) => .returns (.error ())
  else if status = libaflmmExitTerminationInfiniteRecursion then .returns (.error ())
  else if status < 128 then .returns (.error ())
  else .exits status

def waitpid (exit : ChildExit) (shm : SharedMemory) : ParentStatus S :=
  match exit with
  | .exited status => childExited p szMax status shm
  | .signaled _ => .panics

/-- A child with the memory of the parent lives until it exits. -/
def step (r : Restarter S) (lifetime : List (ChildEvent S)) : Option (Restarter S) :=
  match (Child.live p szMax lifetime).run r.fork with
  | some (.error exit, c) =>
    match waitpid p szMax exit c.shm with
    | .restarts r => some r
    | _ => none
  | _ => none

end Restarter

end Libaflmm
