import Libaflmm.Calls
import Libaflmm.Runs
import Libaflmm.StdFuzzer

/-!
# The evaluation of an execution in the process

An execution that returns is evaluated by the fuzzer. One that crashes or times
out is evaluated by the termination handlers, in the signal, and the process
exits then. A timeout handler may also answer that the execution is to go on.

The handlers evaluate the execution before they look at the answer, so that an
execution that goes on is evaluated again when it returns. The timer is still
armed when the modules of an emulator are told of the end of an execution, and a
timeout tells them all again.
-/

namespace Libaflmm

open Call

inductive CrashStatus where
  | fuzzerCrash
  | targetCrash
  | duplicateTargetCrash
deriving DecidableEq

namespace CrashStatus

def isTargetCrash : CrashStatus → Bool
  | targetCrash | duplicateTargetCrash => true
  | fuzzerCrash => false

def shouldReport : CrashStatus → Bool
  | duplicateTargetCrash => false
  | _ => true

end CrashStatus

inductive TimeoutStatus where
  | resume
  | exit
deriving DecidableEq

def libaflmmExitEnd : Nat := 100

def libaflmmExitRestart : Nat := 101

def libaflmmExitTerminationInfiniteRecursion : Nat := 102

/-! ## Executors -/

inductive QemuFatalSignal where
  | none
  | host
  | target
deriving DecidableEq

/-- How a signal finds QEMU. -/
inductive QemuStatus where
  | uninitialized
  | stopped
  | running (fatal : QemuFatalSignal)
deriving DecidableEq

/-- A module may change the exit kind. -/
abbrev EmulatorModule := ExitKind → ExitKind

/-- An executor of the trait with its answers, of which the default ones are
`targetCrash` and `exit`, or a QEMU executor with its closure and its modules. -/
inductive InProcessExecutor where
  | plain (handleCrash : CrashStatus) (handleTimeout : TimeoutStatus)
  | qemu (systemmode : Bool) (postExec : ExitKind → ExitKind) (modules : List EmulatorModule)

def InProcessExecutor.modules : InProcessExecutor → List EmulatorModule
  | plain _ _ => []
  | qemu _ _ modules => modules

/-- The closure of a QEMU executor may change the exit kind before the modules. -/
def InProcessExecutor.found (executor : InProcessExecutor) (exitKind : ExitKind) : ExitKind :=
  match executor with
  | .plain _ _ => exitKind
  | .qemu _ postExec _ => postExec exitKind

/-- Where a timeout finds the execution. -/
inductive TimeoutPoint where
  | inTarget
  | inPostExec (called : Nat)
deriving DecidableEq

/-- How an execution ends: with the exit kind of the target, or with a signal. A
target that has timed out has an exit kind if it goes on. -/
inductive RunEnding where
  | returns (exitKind : ExitKind)
  | crashes (signal : Nat) (qemu : QemuStatus) (worthy : Bool)
  | timesOut (signal : Nat) (breakOnTimeout : Bool) (point : TimeoutPoint) (exitKind : ExitKind)

/-! ## Evaluations -/

inductive Evaluation where
  | modulePostExec (i : Nat) (exitKind : ExitKind)
  | observersPostExecAll (exitKind : ExitKind)
  | postExecution (exitKind : ExitKind)
deriving DecidableEq

/-- `inputSet` is whether the termination data has an input. -/
structure FuzzingProcess where
  inputSet : Bool
  evaluations : List Evaluation

/-- A process that exits leaves its code. -/
abbrev ProcessCall (α : Type) := Call Nat FuzzingProcess α

namespace FuzzingProcess

def new : FuzzingProcess := ⟨false, []⟩

def evaluate (evaluation : Evaluation) : ProcessCall Unit :=
  update fun p => { p with evaluations := p.evaluations ++ [evaluation] }

def setInput (inputSet : Bool) : ProcessCall Unit := update fun p => { p with inputSet }

def exit {α : Type} (code : Nat) : ProcessCall α := ofResult (.error code)

/-- The signal comes when as many modules as `point` says have been called. -/
def signalAt (point : Option Nat) (signal : ProcessCall Unit) (i : Nat) : ProcessCall Unit :=
  if point = some i then signal else pure ()

/-- `post_exec_all` of the modules from the `i`-th on. -/
def postExecAll (point : Option Nat) (signal : ProcessCall Unit) :
    List EmulatorModule → Nat → ExitKind → ProcessCall ExitKind
  | [], i, exitKind => do
    signalAt point signal i
    pure exitKind
  | postExec :: modules, i, exitKind => do
    signalAt point signal i
    evaluate (.modulePostExec i exitKind)
    postExecAll point signal modules (i + 1) (postExec exitKind)

/-- `post_exec` of the emulator in a handler, where no signal comes. -/
def emulatorPostExec (modules : List EmulatorModule) (exitKind : ExitKind) :
    ProcessCall ExitKind :=
  postExecAll none (pure ()) modules 0 exitKind

def handleCrash (executor : InProcessExecutor) (qemu : QemuStatus) : ProcessCall CrashStatus :=
  match executor with
  | .plain handleCrash _ => pure handleCrash
  | .qemu systemmode _ modules =>
    if systemmode then pure .fuzzerCrash
    else
      match qemu with
      | .running .target => do
        let _ ← emulatorPostExec modules .crash
        pure .targetCrash
      | _ => pure .fuzzerCrash

def handleTimeout (executor : InProcessExecutor) (breakOnTimeout : Bool) :
    ProcessCall TimeoutStatus :=
  match executor with
  | .plain _ handleTimeout => pure handleTimeout
  | .qemu systemmode _ modules => do
    let _ ← emulatorPostExec modules .timeout
    if systemmode && breakOnTimeout then pure .resume else pure .exit

def handleObjectiveInTerminationHandler (exitKind : ExitKind) : ProcessCall Unit := do
  evaluate (.observersPostExecAll exitKind)
  evaluate (.postExecution exitKind)

def stdOnCrash (executor : InProcessExecutor) (qemu : QemuStatus) (worthy : Bool) :
    ProcessCall CrashStatus := do
  setInput false
  let status ← handleCrash executor qemu
  if status = .targetCrash then do
    handleObjectiveInTerminationHandler .crash
    if worthy then pure status else pure .duplicateTargetCrash
  else pure status

def stdOnTimeout (executor : InProcessExecutor) (breakOnTimeout : Bool) :
    ProcessCall TimeoutStatus := do
  setInput false
  let status ← handleTimeout executor breakOnTimeout
  handleObjectiveInTerminationHandler .timeout
  pure status

/-- A crash of the fuzzer exits with the signal. -/
def crashHandler (executor : InProcessExecutor) (signal : Nat) (qemu : QemuStatus)
    (worthy : Bool) : ProcessCall Unit := do
  let inFuzzing ← read (·.inputSet)
  if inFuzzing then do
    let status ← stdOnCrash executor qemu worthy
    if status.isTargetCrash then exit libaflmmExitRestart else exit (128 + signal)
  else exit (128 + signal)

def timeoutHandler (executor : InProcessExecutor) (signal : Nat) (breakOnTimeout : Bool) :
    ProcessCall Unit := do
  let inFuzzing ← read (·.inputSet)
  if inFuzzing then do
    let status ← stdOnTimeout executor breakOnTimeout
    match status with
    | .exit => exit libaflmmExitRestart
    | .resume => pure ()
  else exit (128 + signal)

/-! ## The execution -/

/-- The target, up to where it stops. -/
def harness (executor : InProcessExecutor) : RunEnding → ProcessCall ExitKind
  | .returns exitKind => pure exitKind
  | .crashes signal qemu worthy => do
    crashHandler executor signal qemu worthy
    pure .crash
  | .timesOut signal breakOnTimeout .inTarget exitKind => do
    timeoutHandler executor signal breakOnTimeout
    pure exitKind
  | .timesOut _ _ (.inPostExec _) exitKind => pure exitKind

/-- A timeout after the last module comes before the input is cleared. -/
def executeImpl (executor : InProcessExecutor) (ending : RunEnding) : ProcessCall ExitKind := do
  let exitKind ← harness executor ending
  let exitKind := executor.found exitKind
  match ending with
  | .timesOut signal breakOnTimeout (.inPostExec called) _ =>
    postExecAll (some (min called executor.modules.length))
      (timeoutHandler executor signal breakOnTimeout) executor.modules 0 exitKind
  | _ => emulatorPostExec executor.modules exitKind

def execute (executor : InProcessExecutor) (ending : RunEnding) : ProcessCall ExitKind := do
  setInput true
  let exitKind ← executeImpl executor ending
  setInput false
  evaluate (.observersPostExecAll exitKind)
  pure exitKind

def evaluateInput (executor : InProcessExecutor) (ending : RunEnding) : ProcessCall Unit := do
  let exitKind ← execute executor ending
  evaluate (.postExecution exitKind)

/-- After a restart there is a new process, and no more execution after another
exit. -/
def step (executor : InProcessExecutor) (p : FuzzingProcess) (ending : RunEnding) :
    Option FuzzingProcess :=
  match (evaluateInput executor ending).run p with
  | some (.ok _, p) => some p
  | some (.error code, p) =>
    if code = libaflmmExitRestart then some { p with inputSet := false } else none
  | none => none

/-! ## What is evaluated -/

/-- The calls of the modules from the `i`-th on, and the exit kind they leave. -/
def moduleCalls : List EmulatorModule → Nat → ExitKind → List Evaluation × ExitKind
  | [], _, exitKind => ([], exitKind)
  | postExec :: modules, i, exitKind =>
    let (calls, left) := moduleCalls modules (i + 1) (postExec exitKind)
    (.modulePostExec i exitKind :: calls, left)

/-- Each of the calls once: a module is called with the exit kind that the
modules before have left, and the observers and the fuzzer get `reported`. -/
def once (executor : InProcessExecutor) (exitKind reported : ExitKind) : List Evaluation :=
  (moduleCalls executor.modules 0 exitKind).1 ++
    [.observersPostExecAll reported, .postExecution reported]

/-- The crashes that are not one of the fuzzer. -/
def IsTargetCrash (executor : InProcessExecutor) (qemu : QemuStatus) : Prop :=
  match executor with
  | .plain handleCrash _ => handleCrash ≠ .fuzzerCrash
  | .qemu systemmode _ _ => systemmode = false ∧ qemu = .running .target

/-- Whatever the execution leaves, it is evaluated exactly once. -/
def EvaluatedOnce (executor : InProcessExecutor) (p : FuzzingProcess) (ending : RunEnding) :
    Prop :=
  (evaluateInput executor ending).Yields p fun _ p' =>
    match ending with
    | .returns exitKind =>
      let found := executor.found exitKind
      p'.evaluations = p.evaluations ++
        once executor found (moduleCalls executor.modules 0 found).2
    | .crashes _ qemu _ => IsTargetCrash executor qemu →
      p'.evaluations = p.evaluations ++ once executor .crash .crash
    | .timesOut _ _ _ _ => p'.evaluations = p.evaluations ++ once executor .timeout .timeout

/-- A timeout is answered with an exit and finds no module that has been called,
and a crash is not answered as a duplicate by the executor. -/
def EndsOnce (executor : InProcessExecutor) : RunEnding → Prop
  | .returns _ => True
  | .crashes _ _ _ =>
    match executor with
    | .plain handleCrash _ => handleCrash ≠ .duplicateTargetCrash
    | .qemu _ _ _ => True
  | .timesOut _ breakOnTimeout point _ =>
    match executor with
    | .plain _ handleTimeout => handleTimeout = .exit
    | .qemu systemmode _ modules =>
      (systemmode && breakOnTimeout) = false ∧ ∀ called, point = .inPostExec called →
        min called modules.length = 0

/-! ## The modules -/

@[simp] theorem run_evaluate (evaluation : Evaluation) (p : FuzzingProcess) :
    (evaluate evaluation).run p =
      some (.ok (), { p with evaluations := p.evaluations ++ [evaluation] }) := rfl

@[simp] theorem run_setInput (inputSet : Bool) (p : FuzzingProcess) :
    (setInput inputSet).run p = some (.ok (), { p with inputSet }) := rfl

/-- Where no signal comes any more. -/
theorem run_postExecAll {point : Option Nat} {signal : ProcessCall Unit}
    {modules : List EmulatorModule} {i : Nat} {exitKind : ExitKind} {p : FuzzingProcess}
    (h : ∀ j, i ≤ j → point ≠ some j) :
    (postExecAll point signal modules i exitKind).run p =
      some (.ok (moduleCalls modules i exitKind).2,
        { p with evaluations := p.evaluations ++ (moduleCalls modules i exitKind).1 }) := by
  induction modules generalizing i exitKind p with
  | nil =>
      unfold postExecAll
      rw [signalAt, if_neg (h i (Nat.le_refl i)), run_bind_of_ok (run_pure _ _), run_pure]
      simp [moduleCalls]
  | cons postExec modules ih =>
      unfold postExecAll
      rw [signalAt, if_neg (h i (Nat.le_refl i)), run_bind_of_ok (run_pure _ _),
        run_bind_of_ok (run_evaluate _ _), ih fun j hj => h j (Nat.le_of_succ_le hj)]
      simp [moduleCalls]

theorem run_emulatorPostExec (modules : List EmulatorModule) (exitKind : ExitKind)
    (p : FuzzingProcess) :
    (emulatorPostExec modules exitKind).run p =
      some (.ok (moduleCalls modules 0 exitKind).2,
        { p with evaluations := p.evaluations ++ (moduleCalls modules 0 exitKind).1 }) :=
  run_postExecAll fun _ _ => by simp

/-- A signal that exits: the modules before it have been called. -/
theorem run_postExecAll_exits {signal : ProcessCall Unit} {code : Nat}
    {evaluations : List Evaluation}
    (hsignal : ∀ q, q.inputSet = true →
      signal.run q = some (.error code, ⟨false, q.evaluations ++ evaluations⟩))
    {modules : List EmulatorModule} {i m : Nat} (hm : m ≤ modules.length) {exitKind : ExitKind}
    {p : FuzzingProcess} (hp : p.inputSet = true) :
    (postExecAll (some (i + m)) signal modules i exitKind).run p =
      some (.error code, ⟨false,
        p.evaluations ++ (moduleCalls modules i exitKind).1.take m ++ evaluations⟩) := by
  induction modules generalizing i m exitKind p with
  | nil =>
      obtain rfl : m = 0 := Nat.le_zero.mp hm
      unfold postExecAll
      rw [signalAt, if_pos (congrArg some (Nat.add_zero i)), run_bind_of_error (hsignal p hp)]
      simp [moduleCalls]
  | cons postExec modules ih =>
      unfold postExecAll
      rcases m with _ | m
      · rw [signalAt, if_pos (congrArg some (Nat.add_zero i)), run_bind_of_error (hsignal p hp)]
        simp
      · rw [signalAt, if_neg (by simp), run_bind_of_ok (run_pure _ _),
          run_bind_of_ok (run_evaluate _ _), show i + (m + 1) = i + 1 + m by omega,
          ih (Nat.le_of_succ_le_succ hm) (p := ⟨p.inputSet, p.evaluations ++ [_]⟩) hp]
        simp [moduleCalls]

/-- A signal that resumes comes between two modules. -/
theorem run_postExecAll_resumes {signal : ProcessCall Unit} {evaluations : List Evaluation}
    (hsignal : ∀ q, q.inputSet = true →
      signal.run q = some (.ok (), ⟨false, q.evaluations ++ evaluations⟩))
    {modules : List EmulatorModule} {i m : Nat} (hm : m ≤ modules.length) {exitKind : ExitKind}
    {p : FuzzingProcess} (hp : p.inputSet = true) :
    (postExecAll (some (i + m)) signal modules i exitKind).run p =
      some (.ok (moduleCalls modules i exitKind).2, ⟨false,
        p.evaluations ++ (moduleCalls modules i exitKind).1.take m ++ evaluations ++
          (moduleCalls modules i exitKind).1.drop m⟩) := by
  induction modules generalizing i m exitKind p with
  | nil =>
      obtain rfl : m = 0 := Nat.le_zero.mp hm
      unfold postExecAll
      rw [signalAt, if_pos (congrArg some (Nat.add_zero i)), run_bind_of_ok (hsignal p hp),
        run_pure]
      simp [moduleCalls]
  | cons postExec modules ih =>
      unfold postExecAll
      rcases m with _ | m
      · rw [signalAt, if_pos (congrArg some (Nat.add_zero i)), run_bind_of_ok (hsignal p hp),
          run_bind_of_ok (run_evaluate _ _), run_postExecAll fun j hj heq => by
            have := Option.some.inj heq
            omega]
        simp [moduleCalls]
      · rw [signalAt, if_neg (by simp), run_bind_of_ok (run_pure _ _),
          run_bind_of_ok (run_evaluate _ _), show i + (m + 1) = i + 1 + m by omega,
          ih (Nat.le_of_succ_le_succ hm) (p := ⟨p.inputSet, p.evaluations ++ [_]⟩) hp]
        simp [moduleCalls]

/-! ## The handlers -/

/-- What the timeout handler answers. -/
def timeoutStatus (executor : InProcessExecutor) (breakOnTimeout : Bool) : TimeoutStatus :=
  match executor with
  | .plain _ handleTimeout => handleTimeout
  | .qemu systemmode _ _ => if systemmode && breakOnTimeout then .resume else .exit

@[simp] theorem run_handleObjectiveInTerminationHandler (exitKind : ExitKind)
    (p : FuzzingProcess) :
    (handleObjectiveInTerminationHandler exitKind).run p =
      some (.ok (), { p with evaluations :=
        p.evaluations ++ [.observersPostExecAll exitKind, .postExecution exitKind] }) := by
  unfold handleObjectiveInTerminationHandler
  rw [run_bind_of_ok (run_evaluate _ _), run_evaluate]
  simp

theorem run_stdOnTimeout (executor : InProcessExecutor) (breakOnTimeout : Bool)
    (p : FuzzingProcess) :
    (stdOnTimeout executor breakOnTimeout).run p =
      some (.ok (timeoutStatus executor breakOnTimeout),
        ⟨false, p.evaluations ++ once executor .timeout .timeout⟩) := by
  unfold stdOnTimeout timeoutStatus once handleTimeout
  rw [run_bind_of_ok (run_setInput _ _)]
  rcases executor with ⟨crash, timeout⟩ | ⟨systemmode, postExec, modules⟩
  · rw [run_bind_of_ok (run_pure _ _), run_bind_of_ok (run_handleObjectiveInTerminationHandler ..)]
    simp [InProcessExecutor.modules, moduleCalls]
  · simp only
    rw [run_bind, run_bind_of_ok (run_emulatorPostExec ..)]
    split <;> simp [run_map, Except.map, InProcessExecutor.modules]

theorem run_timeoutHandler_exit {executor : InProcessExecutor} {signal : Nat}
    {breakOnTimeout : Bool} (h : timeoutStatus executor breakOnTimeout = .exit)
    {p : FuzzingProcess} (hp : p.inputSet = true) :
    (timeoutHandler executor signal breakOnTimeout).run p =
      some (.error libaflmmExitRestart,
        ⟨false, p.evaluations ++ once executor .timeout .timeout⟩) := by
  unfold timeoutHandler
  rw [run_bind_of_ok (run_read _ _), if_pos hp, run_bind_of_ok (run_stdOnTimeout ..), h]
  rfl

theorem run_timeoutHandler_resume {executor : InProcessExecutor} {signal : Nat}
    {breakOnTimeout : Bool} (h : timeoutStatus executor breakOnTimeout = .resume)
    {p : FuzzingProcess} (hp : p.inputSet = true) :
    (timeoutHandler executor signal breakOnTimeout).run p =
      some (.ok (), ⟨false, p.evaluations ++ once executor .timeout .timeout⟩) := by
  unfold timeoutHandler
  rw [run_bind_of_ok (run_read _ _), if_pos hp, run_bind_of_ok (run_stdOnTimeout ..), h]
  rfl

/-! ## The executions -/

theorem run_evaluateInput {executor : InProcessExecutor} {ending : RunEnding}
    {p t : FuzzingProcess} {exitKind : ExitKind}
    (h : (executeImpl executor ending).run { p with inputSet := true } = some (.ok exitKind, t)) :
    (evaluateInput executor ending).run p = some (.ok (), ⟨false,
      t.evaluations ++ [.observersPostExecAll exitKind, .postExecution exitKind]⟩) := by
  have hexec : (execute executor ending).run p =
      some (.ok exitKind, ⟨false, t.evaluations ++ [.observersPostExecAll exitKind]⟩) := by
    unfold execute
    rw [run_bind_of_ok (run_setInput _ _), run_bind_of_ok h, run_bind_of_ok (run_setInput _ _),
      run_bind_of_ok (run_evaluate _ _), run_pure]
  unfold evaluateInput
  rw [run_bind_of_ok hexec, run_evaluate]
  simp

theorem run_evaluateInput_error {executor : InProcessExecutor} {ending : RunEnding}
    {p t : FuzzingProcess} {code : Nat}
    (h : (executeImpl executor ending).run { p with inputSet := true } = some (.error code, t)) :
    (evaluateInput executor ending).run p = some (.error code, t) := by
  unfold evaluateInput execute
  rw [run_bind, run_bind_of_ok (run_setInput _ _), run_bind_of_error h]
  rfl

theorem evaluatedOnce_returns (executor : InProcessExecutor) (p : FuzzingProcess)
    (exitKind : ExitKind) : EvaluatedOnce executor p (.returns exitKind) := by
  unfold EvaluatedOnce
  have hexec : (executeImpl executor (.returns exitKind)).run { p with inputSet := true } =
      some (.ok (moduleCalls executor.modules 0 (executor.found exitKind)).2, ⟨true,
        p.evaluations ++ (moduleCalls executor.modules 0 (executor.found exitKind)).1⟩) := by
    unfold executeImpl harness
    rw [run_bind_of_ok (run_pure _ _)]
    exact run_emulatorPostExec ..
  rw [yields_of_run (run_evaluateInput hexec)]
  simp [once]

/-- A crash leaves the process, with what the handler has evaluated. -/
theorem evaluatedOnce_crashes_of_run {executor : InProcessExecutor} {p t : FuzzingProcess}
    {signal : Nat} {qemu : QemuStatus} {worthy : Bool} {status : CrashStatus}
    (h : (stdOnCrash executor qemu worthy).run { p with inputSet := true } =
      some (.ok status, t)) :
    EvaluatedOnce executor p (.crashes signal qemu worthy) ↔ (IsTargetCrash executor qemu →
      t.evaluations = p.evaluations ++ once executor .crash .crash) := by
  have hhandler : ∃ code,
      (crashHandler executor signal qemu worthy).run { p with inputSet := true } =
        some (.error code, t) := by
    unfold crashHandler
    rw [run_bind_of_ok (run_read _ _), if_pos rfl, run_bind_of_ok h]
    cases status.isTargetCrash
    · exact ⟨_, rfl⟩
    · exact ⟨_, rfl⟩
  obtain ⟨code, hcode⟩ := hhandler
  have hexec : (executeImpl executor (.crashes signal qemu worthy)).run
      { p with inputSet := true } = some (.error code, t) := by
    unfold executeImpl harness
    rw [run_bind, run_bind_of_error hcode]
    rfl
  unfold EvaluatedOnce
  rw [yields_of_run (run_evaluateInput_error hexec)]

theorem run_handleCrash_of_not {executor : InProcessExecutor} {qemu : QemuStatus}
    (h : ¬IsTargetCrash executor qemu) (p : FuzzingProcess) :
    (handleCrash executor qemu).run p = some (.ok .fuzzerCrash, p) := by
  unfold IsTargetCrash at h
  unfold handleCrash
  rcases executor with ⟨handleCrash, handleTimeout⟩ | ⟨systemmode, postExec, modules⟩
  · rw [Decidable.not_not.mp h]
    rfl
  · cases systemmode
    · rcases qemu with _ | _ | _ | _ | _
      case running.target => exact absurd ⟨rfl, rfl⟩ h
      all_goals rfl
    · rfl

/-- A crash that a target has not caused is not evaluated. -/
theorem run_stdOnCrash_of_not {executor : InProcessExecutor} {qemu : QemuStatus}
    (h : ¬IsTargetCrash executor qemu) (worthy : Bool) (p : FuzzingProcess) :
    (stdOnCrash executor qemu worthy).run p = some (.ok .fuzzerCrash, ⟨false, p.evaluations⟩) := by
  unfold stdOnCrash
  rw [run_bind_of_ok (run_setInput _ _), run_bind_of_ok (run_handleCrash_of_not h _),
    if_neg (by decide), run_pure]

theorem run_stdOnCrash_target {executor : InProcessExecutor} {qemu : QemuStatus} {worthy : Bool}
    {p t : FuzzingProcess}
    (h : (handleCrash executor qemu).run { p with inputSet := false } =
      some (.ok .targetCrash, t)) :
    ∃ status, (stdOnCrash executor qemu worthy).run p = some (.ok status, { t with evaluations :=
      t.evaluations ++ [.observersPostExecAll .crash, .postExecution .crash] }) := by
  unfold stdOnCrash
  rw [run_bind_of_ok (run_setInput _ _), run_bind_of_ok h, if_pos rfl,
    run_bind_of_ok (run_handleObjectiveInTerminationHandler ..)]
  cases worthy
  · exact ⟨_, rfl⟩
  · exact ⟨_, rfl⟩

theorem evaluatedOnce_crashes_iff (executor : InProcessExecutor) (p : FuzzingProcess)
    (signal : Nat) (qemu : QemuStatus) (worthy : Bool) :
    EvaluatedOnce executor p (.crashes signal qemu worthy) ↔
      EndsOnce executor (.crashes signal qemu worthy) := by
  rcases executor with ⟨status, handleTimeout⟩ | ⟨systemmode, postExec, modules⟩
  · rcases status with _ | _ | _
    · rw [evaluatedOnce_crashes_of_run (run_stdOnCrash_of_not (by simp [IsTargetCrash]) ..)]
      simp [IsTargetCrash, EndsOnce]
    · have hcrash : (handleCrash (.plain .targetCrash handleTimeout) qemu).run
          ⟨false, p.evaluations⟩ = some (.ok .targetCrash, ⟨false, p.evaluations⟩) := rfl
      obtain ⟨status, hrun⟩ := run_stdOnCrash_target (p := ⟨true, p.evaluations⟩) hcrash
      rw [evaluatedOnce_crashes_of_run hrun]
      simp [EndsOnce, once, moduleCalls, InProcessExecutor.modules]
    · rw [evaluatedOnce_crashes_of_run rfl]
      simp [IsTargetCrash, EndsOnce, once]
  · by_cases htarget : IsTargetCrash (.qemu systemmode postExec modules) qemu
    · obtain ⟨rfl, rfl⟩ := id htarget
      have hcrash : (handleCrash (.qemu false postExec modules) (.running .target)).run
          ⟨false, p.evaluations⟩ = some (.ok .targetCrash,
            ⟨false, p.evaluations ++ (moduleCalls modules 0 .crash).1⟩) := by
        simp only [handleCrash, Bool.false_eq_true, if_false]
        rw [run_bind_of_ok (run_emulatorPostExec ..), run_pure]
      obtain ⟨status, hrun⟩ := run_stdOnCrash_target (p := ⟨true, p.evaluations⟩) hcrash
      rw [evaluatedOnce_crashes_of_run hrun]
      simp [EndsOnce, once, InProcessExecutor.modules]
    · rw [evaluatedOnce_crashes_of_run (run_stdOnCrash_of_not htarget ..)]
      exact iff_of_true (fun h => absurd h htarget) trivial

/-! ## The timeouts -/

@[simp] theorem length_moduleCalls (modules : List EmulatorModule) (i : Nat)
    (exitKind : ExitKind) : (moduleCalls modules i exitKind).1.length = modules.length := by
  induction modules generalizing i exitKind with
  | nil => rfl
  | cons postExec modules ih => simp [moduleCalls, ih]

theorem endsOnce_timesOut_iff {executor : InProcessExecutor} {signal : Nat}
    {breakOnTimeout : Bool} {point : TimeoutPoint} {exitKind : ExitKind} :
    EndsOnce executor (.timesOut signal breakOnTimeout point exitKind) ↔
      timeoutStatus executor breakOnTimeout = .exit ∧ ∀ called, point = .inPostExec called →
        min called executor.modules.length = 0 := by
  rcases executor with ⟨handleCrash, status⟩ | ⟨systemmode, postExec, modules⟩
  · simp [EndsOnce, timeoutStatus, InProcessExecutor.modules]
  · simp only [EndsOnce, timeoutStatus, InProcessExecutor.modules]
    cases systemmode && breakOnTimeout
    · simp
    · simp

/-- A timeout that exits: the modules that have been called are called again. -/
theorem run_executeImpl_exits {executor : InProcessExecutor} {signal : Nat}
    {breakOnTimeout : Bool} (h : timeoutStatus executor breakOnTimeout = .exit)
    (point : TimeoutPoint) (exitKind : ExitKind) (p : FuzzingProcess) :
    ∃ before : List Evaluation,
      (executeImpl executor (.timesOut signal breakOnTimeout point exitKind)).run
        { p with inputSet := true } = some (.error libaflmmExitRestart,
          ⟨false, p.evaluations ++ before ++ once executor .timeout .timeout⟩) ∧
      (before = [] ↔ ∀ called, point = .inPostExec called →
        min called executor.modules.length = 0) := by
  unfold executeImpl harness
  rcases point with _ | called
  · refine ⟨[], ?_, by simp⟩
    rw [run_bind, run_bind_of_error (run_timeoutHandler_exit h rfl)]
    simp
  · refine ⟨(moduleCalls executor.modules 0 (executor.found exitKind)).1.take
      (min called executor.modules.length), ?_, ?_⟩
    · rw [run_bind_of_ok (run_pure _ _)]
      have hrun : (postExecAll (some (0 + min called executor.modules.length))
          (timeoutHandler executor signal breakOnTimeout) executor.modules 0
          (executor.found exitKind)).run ⟨true, p.evaluations⟩ = _ :=
        run_postExecAll_exits (fun q hq => run_timeoutHandler_exit h hq)
          (Nat.min_le_right called executor.modules.length) rfl
      rwa [Nat.zero_add] at hrun
    · rw [← List.length_eq_zero_iff, List.length_take, length_moduleCalls]
      simp

/-- A timeout that resumes: the execution is evaluated again when it returns. -/
theorem run_executeImpl_resumes {executor : InProcessExecutor} {signal : Nat}
    {breakOnTimeout : Bool} (h : timeoutStatus executor breakOnTimeout = .resume)
    (point : TimeoutPoint) (exitKind : ExitKind) (p : FuzzingProcess) :
    ∃ left t, (executeImpl executor (.timesOut signal breakOnTimeout point exitKind)).run
        { p with inputSet := true } = some (.ok left, t) ∧
      t.evaluations.length =
        (p.evaluations ++ once executor .timeout .timeout).length + executor.modules.length := by
  unfold executeImpl harness
  rcases point with _ | called
  · have hpost := run_emulatorPostExec executor.modules (executor.found exitKind)
      ⟨false, p.evaluations ++ once executor .timeout .timeout⟩
    refine ⟨_, ⟨_, _⟩, Eq.trans ?_ hpost, by simp [Nat.add_assoc]⟩
    rw [run_bind, run_bind_of_ok (run_timeoutHandler_resume h rfl), run_pure]
    rfl
  · have hpost : (postExecAll (some (0 + min called executor.modules.length))
        (timeoutHandler executor signal breakOnTimeout) executor.modules 0
        (executor.found exitKind)).run ⟨true, p.evaluations⟩ = _ :=
      run_postExecAll_resumes (fun q hq => run_timeoutHandler_resume h hq)
        (Nat.min_le_right called executor.modules.length) rfl
    rw [Nat.zero_add] at hpost
    refine ⟨_, _, Eq.trans ?_ hpost, ?_⟩
    · rw [run_bind_of_ok (run_pure _ _)]
    · simp only [List.length_append, List.length_take, List.length_drop, length_moduleCalls]
      omega

theorem evaluatedOnce_timesOut_iff (executor : InProcessExecutor) (p : FuzzingProcess)
    (signal : Nat) (breakOnTimeout : Bool) (point : TimeoutPoint) (exitKind : ExitKind) :
    EvaluatedOnce executor p (.timesOut signal breakOnTimeout point exitKind) ↔
      EndsOnce executor (.timesOut signal breakOnTimeout point exitKind) := by
  rw [endsOnce_timesOut_iff]
  unfold EvaluatedOnce
  rcases hstatus : timeoutStatus executor breakOnTimeout with _ | _
  · obtain ⟨left, t, hrun, hlength⟩ := run_executeImpl_resumes hstatus point exitKind p
    rw [yields_of_run (run_evaluateInput hrun)]
    refine iff_of_false (fun heq => ?_) (fun h => by cases h.1)
    -- the observers and the fuzzer come on top of what the handler has evaluated
    have := congrArg List.length heq
    simp only [List.length_append, List.length_cons, List.length_nil] at this hlength
    omega
  · obtain ⟨before, hrun, hbefore⟩ := run_executeImpl_exits hstatus point exitKind p
    rw [yields_of_run (run_evaluateInput_error hrun), ← hbefore]
    simp

/-! ## The runs -/

theorem evaluatedOnce_iff (executor : InProcessExecutor) (p : FuzzingProcess)
    (ending : RunEnding) : EvaluatedOnce executor p ending ↔ EndsOnce executor ending := by
  cases ending with
  | returns exitKind => exact iff_of_true (evaluatedOnce_returns executor p exitKind) trivial
  | crashes signal qemu worthy => exact evaluatedOnce_crashes_iff executor p signal qemu worthy
  | timesOut signal breakOnTimeout point exitKind =>
      exact evaluatedOnce_timesOut_iff executor p signal breakOnTimeout point exitKind

/-- In every sequence of executions, all that are run are evaluated exactly once if
and only if every timeout among them exits before a module is called, and the
executor answers no crash as a duplicate. -/
theorem allEvaluatedOnce_iff (executor : InProcessExecutor) (endings : List RunEnding) :
    StepsMeet (step executor) new endings (EvaluatedOnce executor) ↔
      StepsMeet (step executor) new endings (fun _ => EndsOnce executor) :=
  stepsMeet_congr (fun _ => True) trivial
    (fun p ending _ _ => evaluatedOnce_iff executor p ending) fun _ _ _ _ _ _ _ => trivial

/-- A full system emulator with one module that breaks on a timeout. -/
theorem not_allEvaluatedOnce_resume :
    ¬StepsMeet (step (.qemu true id [id])) new [.timesOut 14 true .inTarget .timeout]
      (EvaluatedOnce (.qemu true id [id])) := by
  intro h
  rw [allEvaluatedOnce_iff, stepsMeet_cons] at h
  cases h.1.1

end FuzzingProcess

end Libaflmm
