import Libaflmm.StdFuzzer
import Std.Data.TreeMap.Lemmas

/-!
# Loading inputs under a restarting runtime

`StdFuzzer::load` keeps its progress in the state, under `LoaderMetadata`:
for every load the inputs that still have to be run and the results of those
that were. When the target crashes or times out, the termination handler
records the result of the running input, the state is saved and the process
exits; `RestartingRuntime` forks a new one from the saved state, whose
loading stage starts over. Only `loading_stage`, the number of the next load,
lives in the process.

The rest of the state and the evaluation of an input are parameters,
collected in `Target`; `StdFuzzer.target` is the one of the fuzzer.
-/

namespace Libaflmm

structure RanInput where
  input : List UInt8
  result : EvaluationResult
deriving DecidableEq, Repr

structure Loading where
  inputsToRun : List (List UInt8)
  ranInputs : List RanInput
deriving DecidableEq, Repr

structure LoadResult (I : Type) where
  input : I
  result : EvaluationResult
deriving DecidableEq, Repr

/-- Metadata that is not in the state yet is the default one. -/
structure LoaderMetadata where
  loads : Std.TreeMap Nat Loading
  runningInput : Option (Nat × List UInt8)

namespace LoaderMetadata

def default : LoaderMetadata := ⟨∅, none⟩

def unknownLoad (loadId : Nat) : Error := .illegalState s!"Unknown load: {loadId}"

/-- The input is taken off its queue, and is running from now on. -/
def nextInput (loadId : Nat) (md : LoaderMetadata) :
    Result (Option (List UInt8)) × LoaderMetadata :=
  match md.loads[loadId]? with
  | none => (.error (unknownLoad loadId), { md with runningInput := none })
  | some loading =>
    match loading.inputsToRun with
    | [] => (.ok none, { md with runningInput := none })
    | input :: inputsToRun =>
      (.ok (some input), {
        loads := md.loads.insert loadId { loading with inputsToRun }
        runningInput := some (loadId, input) })

def recordResult (result : EvaluationResult) (md : LoaderMetadata) : Result Unit × LoaderMetadata :=
  match md.runningInput with
  | none => (.ok (), md)
  | some (loadId, input) =>
    match md.loads[loadId]? with
    | none => (.error (unknownLoad loadId), { md with runningInput := none })
    | some loading =>
      (.ok (), {
        loads := md.loads.insert loadId
          { loading with ranInputs := loading.ranInputs ++ [⟨input, result⟩] }
        runningInput := none })

/-- A `mem::take`. -/
def takeRanInputs (loadId : Nat) (md : LoaderMetadata) : Result (List RanInput) × LoaderMetadata :=
  match md.loads[loadId]? with
  | none => (.error (unknownLoad loadId), md)
  | some loading =>
    (.ok loading.ranInputs,
      { md with loads := md.loads.insert loadId { loading with ranInputs := [] } })

end LoaderMetadata

/-! ## The target -/

/-- How executions go: the `m`-th of load `j` may end in the termination
handler, and evaluating its input changes the rest `T` of the state. -/
structure Target (I T : Type) where
  terminates : Nat → Nat → Bool
  evaluate : Nat → Nat → I → Call Error T EvaluationResult

/-- Why a process stops early: an error, or the termination of the target. -/
inductive Stop where
  | failed (err : Error)
  | terminated

/-- The state of a loading process. What is saved of it are `fuzzer` and `md`;
`evaluated` is no state of the code, it lists the evaluations of all processes so far. -/
structure LoaderState (I T : Type) where
  fuzzer : T
  md : LoaderMetadata
  loadingStage : Nat
  evaluated : List (Nat × LoadResult I)

namespace LoaderState

variable {I T : Type}

def new (fuzzer : T) : LoaderState I T := ⟨fuzzer, .default, 0, []⟩

/-- The evaluations of one load. -/
def evaluationsOf (s : LoaderState I T) (loadId : Nat) : List (LoadResult I) :=
  (s.evaluated.filter fun e => e.1 == loadId).map (·.2)

end LoaderState

/-! ## The loader -/

namespace Loader

variable {I T : Type} [Input I]

abbrev Process (I T α : Type) := Call Stop (LoaderState I T) α

open Call

def ofResult {α : Type} (r : Result α) : Process I T α := Call.ofResult (r.mapError .failed)

def onMd {α : Type} (f : LoaderMetadata → Result α × LoaderMetadata) : Process I T α :=
  Call.ofFn fun s => some ((f s.md).1.mapError .failed, { s with md := (f s.md).2 })

def toAllocvec (input : I) : Result (List UInt8) := (Input.toAllocvec input).mapError .serialize

def fromBytes (bytes : List UInt8) : Result I := (Input.fromBytes bytes).mapError .serialize

/-- Evaluates the input, in the process or in its termination handler. -/
def evaluate (target : Target I T) (loadId : Nat) (input : I) : Process I T EvaluationResult := do
  let m ← read fun s => (s.evaluationsOf loadId).length
  let result ← on (·.fuzzer) (fun fuzzer s => { s with fuzzer }) fun fuzzer =>
    ((target.evaluate loadId m input).run fuzzer).map fun (r, fuzzer) =>
      (r.mapError .failed, fuzzer)
  update fun s => { s with evaluated := s.evaluated ++ [(loadId, ⟨input, result⟩)] }
  pure result

/-- The loop of `load`, at most `fuel` times. -/
def runInputs (target : Target I T) (loadId : Nat) : Nat → Process I T Unit
  | 0 => ofFn fun _ => none
  | fuel + 1 => do
    match ← onMd (·.nextInput loadId) with
    | none => pure ()
    | some bytes =>
      let input ← ofResult (fromBytes bytes)
      let m ← read fun s => (s.evaluationsOf loadId).length
      let result ← evaluate target loadId input
      onMd (·.recordResult result)
      -- the handler exits the process after `record_result`
      if target.terminates loadId m then
        Call.ofResult (.error .terminated)
      else
        runInputs target loadId fuel

/-- The inputs are asked for only where the load is new. -/
def startLoad (loadingStage : Nat) (inputsFn : Result (List I)) : Process I T Unit := do
  if ← read fun s => !s.md.loads.contains loadingStage then
    let inputs ← ofResult inputsFn
    let inputsToRun ← ofResult (inputs.mapM toAllocvec)
    onMd fun md => (.ok (), { md with loads := md.loads.insert loadingStage ⟨inputsToRun, []⟩ })

def RanInput.toLoadResult (ran : RanInput) : Result (LoadResult I) :=
  (fromBytes ran.input).map fun input => ⟨input, ran.result⟩

def load (target : Target I T) (inputsFn : Result (List I)) :
    Process I T (List (LoadResult I)) := do
  let loadingStage ← read (·.loadingStage)
  startLoad loadingStage inputsFn
  let fuel ← read fun s => (s.md.loads.getD loadingStage ⟨[], []⟩).inputsToRun.length + 1
  runInputs target loadingStage fuel
  update fun s => { s with loadingStage := s.loadingStage + 1 }
  let ran ← onMd (·.takeRanInputs loadingStage)
  ofResult (ran.mapM RanInput.toLoadResult)

/-- A loading stage that performs these loads. -/
def loadAll (target : Target I T) (loads : List (List I)) :
    Process I T (List (List (LoadResult I))) :=
  loads.mapM fun inputs => load target (.ok inputs)

end Loader

/-! ## The target of the fuzzer -/

inductive Ending where
  | returns (exitKind : ExitKind)
  | fails (err : Error)
  | crashes
  | timesOut
deriving DecidableEq, Repr

/-- What the environment decides in one execution. -/
structure Execution (I Env OEnv : Type) [Input I] where
  ending : Ending
  callbacks : Callbacks I Env OEnv
  reportStats : Result Unit

namespace StdFuzzer

variable {X OX I Env OEnv SC : Type} [Input I] [ScheduledCorpus X I Env SC] [Corpus OX I OEnv]

/-- `evaluate_input` where the execution returns, the termination handler where
it does not. -/
def evaluateInput (ex : Execution I Env OEnv) (input : I) :
    Call Error (StdState X OX) EvaluationResult := do
  Call.update (·.incrementExecs)
  match ex.ending with
  | .returns exitKind => do
    let res ← postExecution input exitKind ex.callbacks
    Call.ofResult ex.reportStats
    pure res
  | .fails err => Call.ofResult (.error err)
  | .crashes => postExecution input .crash ex.callbacks
  | .timesOut => postExecution input .timeout ex.callbacks

def target (executions : Nat → Nat → Execution I Env OEnv) : Target I (StdState X OX) where
  terminates j m := (executions j m).ending matches .crashes | .timesOut
  evaluate j m input := evaluateInput (executions j m) input

end StdFuzzer

/-! ## The runtime -/

/-- `RestartingRuntime::run_impl` for a task that returns, `lives` processes
at most. Every process starts at the first load. -/
def RestartingRuntime.run {I T α : Type} (task : Loader.Process I T α) :
    Nat → LoaderState I T → Option (Result α × LoaderState I T)
  | 0, _ => none
  | lives + 1, s =>
    (task.run { s with loadingStage := 0 }).bind fun
      | (.ok a, s) => some (.ok a, s)
      | (.error (.failed err), s) => some (.error err, s)
      | (.error .terminated, s) => run task lives s

end Libaflmm
