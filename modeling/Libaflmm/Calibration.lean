import Libaflmm.Hitcounts
import Libaflmm.StdFuzzer
import Mathlib.Data.Finset.Union

/-!
# Calibration

`CalibrationHook` runs the target again on every new testcase of the corpus,
and records the map entries on which the runs disagree. The observers other
than the hit count map, the timing and the power schedule are left out; what
the environment decides in one execution is a `TargetRun`.
-/

namespace Libaflmm

/-- A hit count observer over a slice; how `align_to_mut` splits the slice
depends on where it lies in memory. -/
structure HitcountsMapObserver where
  map : List UInt8
  initial : UInt8
  alignTo : Nat → AlignTo

namespace HitcountsMapObserver

def resetMap (o : HitcountsMapObserver) : HitcountsMapObserver :=
  { o with map := o.map.map fun _ => o.initial }

def preExec (o : HitcountsMapObserver) : HitcountsMapObserver := o.resetMap

def postExec (o : HitcountsMapObserver) : HitcountsMapObserver :=
  { o with map := classifyCounts (o.alignTo o.map.length) o.map }

def countBytes (o : HitcountsMapObserver) : Nat := o.map.countP (· != o.initial)

end HitcountsMapObserver

structure MapFeedbackMetadata where
  historyMap : List UInt8
  numCoveredMapIndexes : Nat
deriving DecidableEq, Repr

structure UnstableEntriesMetadata where
  unstableEntries : Finset Nat
  filledEntriesCount : Nat
deriving DecidableEq

/-- What a calibration reads and writes. The metadata of unstable entries is
there from the start, registered by the hook. -/
structure CalibrationState where
  observer : HitcountsMapObserver
  executions : Nat
  mapFeedback : Option MapFeedbackMetadata
  unstable : UnstableEntriesMetadata

/-- One execution: the counters the target makes of the map it finds, how it
ends, and whether the runtime and the clock behave. -/
structure TargetRun where
  writes : List UInt8 → List UInt8
  armTimeout : Result Unit
  executeImpl : Result ExitKind
  disarmTimeout : Result Unit
  duration : Result Unit

namespace CalibrationState

def preExecAll (s : CalibrationState) : CalibrationState :=
  { s with observer := s.observer.preExec }

def postExecAll (s : CalibrationState) : CalibrationState :=
  { s with observer := s.observer.postExec }

def incrementExecs (s : CalibrationState) : CalibrationState :=
  { s with executions := s.executions + 1 }

def runTarget (run : TargetRun) (s : CalibrationState) : CalibrationState :=
  { s with observer.map := run.writes s.observer.map }

end CalibrationState

open Call

/-- `Executor::execute`. -/
def Executor.execute (run : TargetRun) : Call Error CalibrationState ExitKind := do
  update (·.incrementExecs)
  update (·.preExecAll)
  ofResult run.armTimeout
  update (·.runTarget run)
  let exitKind ← ofResult run.executeImpl
  ofResult run.disarmTimeout
  update (·.postExecAll)
  pure exitKind

def runTargetMeasuringTime (run : TargetRun) : Call Error CalibrationState ExitKind := do
  update (·.preExecAll)
  let exitKind ← Executor.execute run
  ofResult run.duration
  update (·.postExecAll)
  pure exitKind

namespace CalibrationHook

def calStageMax : Nat := 8

/-- The loop over the entries of the two maps and the history, at index `idx`:
the history, how many entries became covered, and the indexes found unstable. -/
def compareEntries : Nat → List UInt8 → List UInt8 → List UInt8 → List UInt8 × Nat × List Nat
  | idx, first :: firsts, cur :: curs, history :: histories =>
    let (histories, covered, unstable) := compareEntries (idx + 1) firsts curs histories
    if first ≠ cur ∧ history ≠ 255 then
      (255 :: histories, covered + (if history = 0 then 1 else 0), idx :: unstable)
    else
      (history :: histories, covered, unstable)
  | _, _, _, histories => (histories, 0, [])

/-- `resize` with the default entry, where the history is shorter than the map. -/
def resizeHistory (len : Nat) (historyMap : List UInt8) : List UInt8 :=
  if historyMap.length < len then
    historyMap ++ List.replicate (len - historyMap.length) 0
  else historyMap

/-- The metadata is unwrapped. -/
def compareRun (first : List UInt8) : Call Error CalibrationState (List Nat) :=
  ofFn fun s => s.mapFeedback.map fun md =>
    let (historyMap, covered, unstable) :=
      compareEntries 0 first s.observer.map (resizeHistory first.length md.historyMap)
    (.ok unstable, { s with
      mapFeedback := some ⟨historyMap, md.numCoveredMapIndexes + covered⟩ })

def repeatRuns (first : List UInt8) :
    List TargetRun → List Nat → Call Error CalibrationState (List Nat)
  | [], unstableEntries => pure unstableEntries
  | run :: runs, unstableEntries => do
    let exitKind ← runTargetMeasuringTime run
    if exitKind ≠ .timeout then
      let unstable ← compareRun first
      repeatRuns first runs (unstableEntries ++ unstable)
    else
      repeatRuns first runs unstableEntries

def filledCount (s : CalibrationState) : Nat :=
  match s.mapFeedback with
  | some md => md.numCoveredMapIndexes
  | none => s.observer.countBytes

def recordUnstable (unstableEntries : List Nat) (filledEntriesCount : Nat) (s : CalibrationState) :
    CalibrationState :=
  if unstableEntries.isEmpty then s
  else { s with unstable :=
    ⟨s.unstable.unstableEntries ∪ unstableEntries.toFinset, filledEntriesCount⟩ }

/-- `lookup` is the result of reading the testcase from the corpus, `runs` the
executions in their order. -/
def postAdd (verdict : Verdict) (lookup : Result Unit) (runs : Nat → TargetRun) :
    Call Error CalibrationState Unit :=
  match verdict with
  | .corpus _ => do
    ofResult lookup
    let _ ← runTargetMeasuringTime (runs 0)
    let mapFirstFilledCount ← read filledCount
    let mapFirstEntries ← read (·.observer.map)
    let unstableEntries ←
      repeatRuns mapFirstEntries ((List.range' 1 (calStageMax - 1)).map runs) []
    update (recordUnstable unstableEntries mapFirstFilledCount)
  | _ => pure ()

end CalibrationHook

end Libaflmm
