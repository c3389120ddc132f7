import Libaflmm.Cache
import Libaflmm.Calls

/-!
# Evaluating inputs

`StdFuzzer::post_execution` on the state of the fuzzer: the two corpora, the
metadata of their testcases and the statistics.

What the fuzzer is generic over (the feedbacks, the hooks, the worker) takes
part in a call only through its answers, collected in `Callbacks`. Of the
state modelled here this code changes nothing but what the cache of a corpus
keeps, by looking testcases up.
-/

namespace Libaflmm

inductive ExitKind where
  | ok
  | crash
  | oom
  | timeout
deriving DecidableEq, Repr

inductive Interest where
  | uninteresting
  | corpus
  | objective
deriving DecidableEq, Repr

inductive Verdict where
  | uninteresting
  | corpus (id : TestcaseId)
  | objective (id : TestcaseId)
deriving DecidableEq, Repr

structure EvaluationResult where
  exitKind : ExitKind
  verdict : Verdict
deriving DecidableEq, Repr

/-! ## The state -/

structure Stats where
  executions : Nat
  corpus : Nat
  objective : Nat
  lastFoundTime : Nat
deriving DecidableEq, Repr

structure TestcaseMetadata where
  executions : Nat
  objectivesFound : Nat
deriving DecidableEq, Repr

def usizeMax : Nat := 2 ^ 64 - 1

namespace TestcaseMetadata

def default : TestcaseMetadata := ⟨0, 0⟩

def setExecutions (executions : Nat) (md : TestcaseMetadata) : TestcaseMetadata :=
  { md with executions }

/-- A `saturating_add`. -/
def foundObjective (md : TestcaseMetadata) : TestcaseMetadata :=
  { md with objectivesFound := min (md.objectivesFound + 1) usizeMax }

end TestcaseMetadata

structure StdState (X OX : Type) where
  corpus : X
  objectiveCorpus : OX
  testcaseMetadata : IdMap TestcaseMetadata
  stats : Stats

namespace StdState

variable {X OX : Type}

def new (corpus : X) (objectiveCorpus : OX) : StdState X OX :=
  ⟨corpus, objectiveCorpus, ∅, ⟨0, 0, 0, 0⟩⟩

def incrementExecs (s : StdState X OX) : StdState X OX :=
  { s with stats := { s.stats with executions := s.stats.executions + 1 } }

/-- Writing through `testcase_md_mut_from_id`, `entry(id).or_default()`. -/
def updateTestcaseMd (id : TestcaseId) (f : TestcaseMetadata → TestcaseMetadata)
    (s : StdState X OX) : StdState X OX :=
  let md := s.testcaseMetadata.getD id .default
  { s with testcaseMetadata := s.testcaseMetadata.insert id (f md) }

def countCorpus (currentTime : Nat) (s : StdState X OX) : StdState X OX :=
  { s with stats := { s.stats with lastFoundTime := currentTime, corpus := s.stats.corpus + 1 } }

def countObjective (currentTime : Nat) (s : StdState X OX) : StdState X OX :=
  { s with
    stats := { s.stats with lastFoundTime := currentTime, objective := s.stats.objective + 1 } }

end StdState

/-! ## The evaluation of an execution -/

/-- The answers in one call of `post_execution`, and what the environments of
the two corpora decide. A hook may change the testcase before it is added. -/
structure Callbacks (I Env OEnv : Type) [Input I] where
  objectiveIsInteresting : Result Bool
  feedbackIsInteresting : Result Bool
  preAddAll : Testcase I → Result (Testcase I)
  sendTestcase : Result Unit
  env : Env
  objectiveEnv : OEnv
  appendMetadata : Result Unit
  currentTime : Nat
  postAddAll : Result Unit

/-- Feedbacks of fixed verdicts, the hooks `()` and a worker that sends. -/
def Callbacks.succeed {I Env OEnv : Type} [Input I] (objective corpus : Bool) (env : Env)
    (objectiveEnv : OEnv) : Callbacks I Env OEnv where
  objectiveIsInteresting := .ok objective
  feedbackIsInteresting := .ok corpus
  preAddAll := .ok
  sendTestcase := .ok ()
  env := env
  objectiveEnv := objectiveEnv
  appendMetadata := .ok ()
  currentTime := 0
  postAddAll := .ok ()

namespace StdFuzzer

variable {X OX I Env OEnv SC : Type} [Input I] [ScheduledCorpus X I Env SC] [Corpus OX I OEnv]

def evaluateExecution (cb : Callbacks I Env OEnv) : Result Interest := do
  let isSolution ← cb.objectiveIsInteresting
  if isSolution then
    return .objective
  let corpusWorthy ← cb.feedbackIsInteresting
  return if corpusWorthy then .corpus else .uninteresting

open Call

def postExecution (input : I) (exitKind : ExitKind) (cb : Callbacks I Env OEnv) :
    Call Error (StdState X OX) EvaluationResult := do
  let interest ← ofResult (evaluateExecution cb)
  let verdict ← match interest with
    | .objective => do
      let executions ← read (·.stats.executions)
      let testcase ← ofResult (cb.preAddAll (Testcase.new input))
      let testcaseId ← on (·.objectiveCorpus) (fun objectiveCorpus s => { s with objectiveCorpus })
        (addObjective testcase cb.objectiveEnv)
      update (·.updateTestcaseMd testcaseId fun md => (md.setExecutions executions).foundObjective)
      ofResult cb.appendMetadata
      update (·.countObjective cb.currentTime)
      ofResult cb.postAddAll
      pure (.objective testcaseId)
    | .corpus => do
      let executions ← read (·.stats.executions)
      let testcase ← ofResult (cb.preAddAll (Testcase.new input))
      ofResult cb.sendTestcase
      let testcaseId ← on (·.corpus) (fun corpus s => { s with corpus })
        (ScheduledCorpus.add testcase cb.env)
      update (·.updateTestcaseMd testcaseId fun md => md.setExecutions executions)
      ofResult cb.appendMetadata
      update (·.countCorpus cb.currentTime)
      ofResult cb.postAddAll
      pure (.corpus testcaseId)
    | .uninteresting => pure .uninteresting
  pure ⟨exitKind, verdict⟩

end StdFuzzer

/-! ## Runs -/

/-- `post_execution`, and what happens to the state around it: executions are
counted, and hooks and stages look testcases up. -/
inductive FuzzerOp (I Env OEnv : Type) [Input I] where
  | postExecution (input : I) (exitKind : ExitKind) (cb : Callbacks I Env OEnv)
  | incrementExecs
  | getFrom (enabled : Bool) (id : TestcaseId)

/-- The state after one operation, whatever its result. -/
def FuzzerOp.exec {X OX I Env OEnv SC : Type} [Input I] [ScheduledCorpus X I Env SC]
    [Corpus OX I OEnv] (s : StdState X OX) : FuzzerOp I Env OEnv → Option (StdState X OX)
  | .postExecution input exitKind cb =>
    ((StdFuzzer.postExecution input exitKind cb).run s).map (·.2)
  | .incrementExecs => some s.incrementExecs
  | .getFrom enabled id =>
    (Corpus.getFrom enabled id s.corpus).map fun (_, corpus) => { s with corpus }

end Libaflmm
