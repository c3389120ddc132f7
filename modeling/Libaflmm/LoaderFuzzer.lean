import Libaflmm.FuzzerStats
import Libaflmm.LoaderRestart

/-!
# Loading into the fuzzer

The evaluations of `StdFuzzer` give a result whenever what they call
succeeds, so that the loader on top of them survives crashes, or loses
results, as `survivesCrashes_iff` says.
-/

namespace Libaflmm

open BackedCorpus PartitionedStore StdFuzzer Call Loader

section

variable {X OX S O I Env OEnv SC OSC : Type} [Input I] [PartitionedStore S I Env]
  [PartitionedStore O I OEnv] [Scheduler SC] [Scheduler OSC] [BackedCorpus X S I Env SC]
  [BackedCorpus OX O I OEnv OSC] {s : StdState X OX} {input : I} {exitKind : ExitKind}

structure Callbacks.Succeeds (S O : Type) [PartitionedStore S I Env] [PartitionedStore O I OEnv]
    (cb : Callbacks I Env OEnv) : Prop where
  objective : ∃ isSolution, cb.objectiveIsInteresting = .ok isSolution
  feedback : ∃ corpusWorthy, cb.feedbackIsInteresting = .ok corpusWorthy
  preAdd : ∀ testcase, ∃ tc, cb.preAddAll testcase = .ok tc
  send : cb.sendTestcase = .ok ()
  saves : ∀ (s : S) testcase, Saves s testcase cb.env
  savesObjective : ∀ (s : O) testcase, Saves s testcase cb.objectiveEnv
  append : cb.appendMetadata = .ok ()
  postAdd : cb.postAddAll = .ok ()

theorem postExecution_returns {cb : Callbacks I Env OEnv} (hcb : cb.Succeeds S O)
    (hsched : ∀ id (sc : SC), (Scheduler.onAdd id sc).1 = .ok ()) (hready : AllReady s) :
    ∃ r t, (postExecution input exitKind cb).run s = some (.ok r, t) := by
  obtain ⟨isSolution, hobjective⟩ := hcb.objective
  obtain ⟨corpusWorthy, hfeedback⟩ := hcb.feedback
  obtain ⟨testcase, hpre⟩ := hcb.preAdd (Testcase.new input)
  have hinterest : evaluateExecution cb = .ok (if isSolution then .objective
      else if corpusWorthy then .corpus else .uninteresting) := by
    rw [evaluateExecution, hobjective, hfeedback]
    cases isSolution <;> rfl
  cases isSolution with
  | true =>
      obtain ⟨r, x, hadd, -⟩ := addInner_returns true testcase cb.objectiveEnv hready.objective
      obtain ⟨res, hstore, rfl⟩ := addInner_store hadd
      obtain ⟨id, hid⟩ := (intoTestcaseId_ok_iff hstore).mpr
        ((em _).imp_right fun _ => ⟨hcb.savesObjective _ testcase, trivial⟩)
      rw [hid] at hadd
      simp [postExecution, run_bind, run_map, run_on, hinterest, hpre, addObjective, hadd,
        hcb.append, hcb.postAdd, Except.map]
  | false =>
    cases corpusWorthy with
    | true =>
        obtain ⟨r, x, hadd, -⟩ := addShared_returns true testcase cb.env hready.corpus
        obtain ⟨res, hstore, hnotify⟩ := addShared_store hadd
        obtain ⟨id, hid⟩ := (notifyStored_ok_iff (ScheduledCorpus.scheduler s.corpus) hstore).mpr
          ((em _).imp_right fun _ => ⟨hcb.saves _ testcase, hsched _ _⟩)
        have hr : r = .ok id := (Prod.mk.inj hnotify).1.trans hid
        rw [hr] at hadd
        simp [postExecution, run_bind, run_map, run_on, hinterest, hpre, hcb.send,
          ScheduledCorpus.add, hadd, hcb.append, hcb.postAdd, Except.map]
    | false => simp [postExecution, run_bind, hinterest]

structure Execution.Succeeds (S O : Type) [PartitionedStore S I Env] [PartitionedStore O I OEnv]
    (ex : Execution I Env OEnv) : Prop where
  callbacks : ex.callbacks.Succeeds S O
  report : ex.reportStats = .ok ()
  ends : ∀ err, ex.ending ≠ .fails err

/-- **The evaluations of the fuzzer give results.** -/
theorem target_evaluates {executions : Nat → Nat → Execution I Env OEnv}
    (hex : ∀ j m, (executions j m).Succeeds S O)
    (hsched : ∀ id (sc : SC), (Scheduler.onAdd id sc).1 = .ok ()) :
    Evaluates (target executions) (AllReady : StdState X OX → Prop) := by
  intro j m input s hs
  have hpost (exitKind : ExitKind) : ∃ r t, (postExecution input exitKind
      (executions j m).callbacks).run s.incrementExecs = some (.ok r, t) ∧ AllReady t := by
    obtain ⟨r, t, hrun⟩ := postExecution_returns (hex j m).callbacks hsched hs.incrementExecs
    exact ⟨r, t, hrun, hs.incrementExecs.postExecution _ t hrun⟩
  show ∃ r t, (evaluateInput (executions j m) input).run s = some (.ok r, t) ∧ AllReady t
  rw [evaluateInput, run_bind_of_ok (run_update _ _)]
  cases hending : (executions j m).ending with
  | returns exitKind =>
      obtain ⟨r, t, hrun, ht⟩ := hpost exitKind
      refine ⟨r, t, ?_, ht⟩
      rw [run_bind_of_ok hrun, (hex j m).report]
      rfl
  | fails err => exact ((hex j m).ends err hending).elim
  | crashes => exact hpost .crash
  | timesOut => exact hpost .timeout

end

/-- The target crashes on the `m`-th input of load `j` where `crashes j m`; a crash is
an objective, and every other input is new coverage. -/
def crashingExecutions (crashes : Nat → Nat → Bool) (j m : Nat) :
    Execution ValueInput Unit Unit where
  ending := if crashes j m then .crashes else .returns .ok
  callbacks := .succeed (crashes j m) true () ()
  reportStats := .ok ()

theorem crashingExecutions_succeed (crashes : Nat → Nat → Bool) (j m : Nat) :
    (crashingExecutions crashes j m).Succeeds (InMemoryStore ValueInput HashCorpusMap)
      (InMemoryStore ValueInput HashCorpusMap) where
  callbacks := ⟨⟨_, rfl⟩, ⟨_, rfl⟩, fun _ => ⟨_, rfl⟩, rfl, fun _ _ => trivial, fun _ _ => trivial,
    rfl, rfl⟩
  report := rfl
  ends err := by
    simp only [crashingExecutions]
    split <;> exact nofun

/-- A crash in the first load loses nothing. -/
theorem survivesCrashes_first_load :
    SurvivesCrashes (target (crashingExecutions fun j m => j == 0 && m == 1))
      [[⟨1⟩, ⟨2⟩, ⟨3⟩], [⟨4⟩]]
      (.new ⟨.new, .new⟩ ⟨.new, ⟨⟩⟩ : StdState
        (SingleCorpus (InMemoryStore ValueInput HashCorpusMap) QueueScheduler)
        (SingleCorpus (InMemoryStore ValueInput HashCorpusMap) NopScheduler)) := by
  refine (survivesCrashes_iff (T := StdState
      (SingleCorpus (InMemoryStore ValueInput HashCorpusMap) QueueScheduler)
      (SingleCorpus (InMemoryStore ValueInput HashCorpusMap) NopScheduler))
    (target_evaluates (crashingExecutions_succeed _) fun _ _ => rfl)
    ⟨Partitions.AddOnly.empty, Partitions.AddOnly.empty⟩
    (fun _ _ input _ => (rfl : toAllocvec input = .ok [input.value]))).mpr ?_
  rintro i j hj ⟨m, hm, hterm⟩
  have hne : ¬ (i = 0 ∧ m = 1) := by omega
  simp [target, crashingExecutions, hne] at hterm

/-- A crash in the second load loses the results of the first. -/
theorem second_load_crash_loses_first :
    ¬ SurvivesCrashes (target (crashingExecutions fun j _ => j == 1)) [[⟨1⟩], [⟨2⟩]]
      (.new ⟨.new, .new⟩ ⟨.new, ⟨⟩⟩ : StdState
        (SingleCorpus (InMemoryStore ValueInput HashCorpusMap) QueueScheduler)
        (SingleCorpus (InMemoryStore ValueInput HashCorpusMap) NopScheduler)) := by
  rintro ⟨n, hn⟩
  obtain ⟨results, s, hrun, hloaded⟩ := hn (2 + n) (by omega)
  have htwo : ((RestartingRuntime.run (loadAll (target (crashingExecutions fun j _ => j == 1))
      [[⟨1⟩], [⟨2⟩]]) 2 (.new (.new ⟨.new, .new⟩ ⟨.new, ⟨⟩⟩ : StdState
        (SingleCorpus (InMemoryStore ValueInput HashCorpusMap) QueueScheduler)
        (SingleCorpus (InMemoryStore ValueInput HashCorpusMap) NopScheduler)))).map
      fun out => out.1.toOption) = some (some [[], [⟨⟨2⟩, .crash, .objective ⟨2⟩⟩]]) := by
    decide +kernel
  obtain ⟨⟨r, t⟩, htwo, hr⟩ := Option.map_eq_some_iff.mp htwo
  obtain ⟨rfl, rfl⟩ := Prod.mk.inj (Option.some.inj ((run_more n htwo).symm.trans hrun))
  obtain rfl := Option.some.inj hr
  have hfirst := hloaded.evaluated 0
  rw [← (List.cons.inj hloaded.returned).1] at hfirst
  cases hfirst

end Libaflmm
