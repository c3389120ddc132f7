import Libaflmm.CacheLaws
import Libaflmm.Runs
import Libaflmm.StdFuzzer

/-!
# The statistics count the corpora

`post_execution` counts a testcase after every add that returned an id,
whether or not the corpus has grown by it, and the corpus grows before the
statements that may still return early. So the counters agree with the
corpora exactly as long as every add that is reached is of a new testcase
and everything up to the counter succeeds.
-/

namespace Libaflmm

open BackedCorpus PartitionedStore StdFuzzer Call

section

variable {S I Env : Type} [Input I] [PartitionedStore S I Env]

theorem count_add {s s' : S} {testcase : Testcase I} {env : Env} {r : Result StorageResult}
    (h : Store.addShared true testcase env s = some (r, s')) :
    (Holds s true testcase.id → Store.count s' = Store.count s) ∧
      (¬ Holds s true testcase.id → Store.count s' = Store.count s + 1) := by
  have hset : {id | Holds s' true id} = insert testcase.id {id | Holds s true id} := by
    ext id
    simp [add_holds h true id]
  rw [count_eq, count_eq, hset]
  refine ⟨fun hold => ?_, fun hnot => Set.ncard_insert_of_notMem hnot (Set.toFinite _)⟩
  have hmem : testcase.id ∈ {id | Holds s true id} := hold
  rw [Set.insert_eq_of_mem hmem]

/-- How far the counter of a corpus moves after an add. -/
def counted (added : Result TestcaseId) (appended : Result Unit) : Nat :=
  match added, appended with
  | .ok _, .ok () => 1
  | _, _ => 0

/-- An add that the counter follows: it is new and succeeds up to the counter, or
it is a duplicate and the counter is not reached. -/
structure CountsOnce (s : S) (testcase : Testcase I) (env : Env) (notified : Prop)
    (appended : Result Unit) : Prop where
  fresh : ¬ Holds s true testcase.id → Saves s testcase env ∧ notified ∧ appended = .ok ()
  duplicate : Holds s true testcase.id → appended ≠ .ok ()

theorem counted_eq_count_iff {s s' : S} {testcase : Testcase I} {env : Env}
    {res : Result StorageResult} {added : Result TestcaseId} {notified : Prop} {n : Nat}
    (appended : Result Unit) (hadd : Store.addShared true testcase env s = some (res, s'))
    (hok : (∃ id, added = .ok id) ↔
      Holds s true testcase.id ∨ (Saves s testcase env ∧ notified)) (hn : n = Store.count s) :
    n + counted added appended = Store.count s' ↔ CountsOnce s testcase env notified appended := by
  have hcounted : counted added appended = 1 ∧ (∃ id, added = .ok id) ∧ appended = .ok () ∨
      counted added appended = 0 ∧ ¬ ((∃ id, added = .ok id) ∧ appended = .ok ()) := by
    cases added <;> cases appended <;> simp [counted]
  rw [hok] at hcounted
  obtain ⟨hdup, hnew⟩ := count_add hadd
  by_cases hold : Holds s true testcase.id
  · rw [hdup hold, hn]
    constructor
    · intro heq
      refine ⟨fun hnot => (hnot hold).elim, fun _ happ => ?_⟩
      rcases hcounted with ⟨h1, -⟩ | ⟨-, hnot⟩
      · omega
      · exact hnot ⟨Or.inl hold, happ⟩
    · intro h
      rcases hcounted with ⟨-, -, happ⟩ | ⟨h0, -⟩
      · exact (h.duplicate hold happ).elim
      · omega
  · rw [hnew hold, hn]
    constructor
    · intro heq
      rcases hcounted with ⟨-, hadded, happ⟩ | ⟨h0, -⟩
      · have hsaved := hadded.resolve_left hold
        exact ⟨fun _ => ⟨hsaved.1, hsaved.2, happ⟩, fun h => (hold h).elim⟩
      · omega
    · intro h
      obtain ⟨hsave, hnotified, happ⟩ := h.fresh hold
      rcases hcounted with ⟨h1, -⟩ | ⟨-, hnot⟩
      · omega
      · exact (hnot ⟨Or.inr ⟨hsave, hnotified⟩, happ⟩).elim

/-- When an add hands its id on. -/
theorem intoTestcaseId_ok_iff {s s' : S} {testcase : Testcase I} {env : Env}
    {res : Result StorageResult} (hadd : Store.addShared true testcase env s = some (res, s')) :
    (∃ id, res.map StorageResult.intoTestcaseId = .ok id) ↔
      Holds s true testcase.id ∨ (Saves s testcase env ∧ True) := by
  rcases add_result hadd with ⟨hold, rfl⟩ | ⟨hnot, hsave, rfl⟩ | ⟨hnot, hsave, err, rfl⟩
  · exact iff_of_true ⟨_, rfl⟩ (Or.inl hold)
  · exact iff_of_true ⟨_, rfl⟩ (Or.inr ⟨hsave, trivial⟩)
  · exact iff_of_false nofun fun h => h.elim hnot fun h => hsave h.1

theorem notifyStored_ok_iff {SC : Type} [Scheduler SC] {s s' : S} {testcase : Testcase I}
    {env : Env} {res : Result StorageResult} (sc : SC)
    (hadd : Store.addShared true testcase env s = some (res, s')) :
    (∃ id, (notifyStored res sc).1 = .ok id) ↔ Holds s true testcase.id ∨
      (Saves s testcase env ∧ (Scheduler.onAdd testcase.id sc).1 = .ok ()) := by
  rcases add_result hadd with ⟨hold, rfl⟩ | ⟨hnot, hsave, rfl⟩ | ⟨hnot, hsave, err, rfl⟩
  · exact iff_of_true ⟨_, rfl⟩ (Or.inl hold)
  · simp only [notifyStored, hnot, hsave, true_and, false_or]
    rcases Scheduler.onAdd testcase.id sc with ⟨err | _, sc'⟩ <;> simp
  · exact iff_of_false nofun fun h => h.elim hnot fun h => hsave h.1

end

section

variable {X OX S O I Env OEnv SC OSC : Type} [Input I] [PartitionedStore S I Env]
  [PartitionedStore O I OEnv] [Scheduler SC] [Scheduler OSC] [BackedCorpus X S I Env SC]
  [BackedCorpus OX O I OEnv OSC] {s s' : StdState X OX} {input : I} {exitKind : ExitKind}
  {cb : Callbacks I Env OEnv} {testcase : Testcase I}

/-! ## What a call does to corpora and counters -/

/-- A property of the corpora and their counters. -/
def On (Q : X → OX → Nat → Nat → Prop) (s : StdState X OX) : Prop :=
  Q s.corpus s.objectiveCorpus s.stats.corpus s.stats.objective

variable {Q : X → OX → Nat → Nat → Prop}

theorem postExecution_corpus (hinterest : evaluateExecution cb = .ok .corpus)
    (hpre : cb.preAddAll (Testcase.new input) = .ok testcase) (hsend : cb.sendTestcase = .ok ()) :
    (postExecution input exitKind cb).Leaves s (fun _ t => On Q t) ↔
      ∀ r x, ScheduledCorpus.add testcase cb.env s.corpus = some (r, x) →
        Q x s.objectiveCorpus (s.stats.corpus + counted r cb.appendMetadata) s.stats.objective := by
  rw [postExecution]
  simp only [leaves_bind, leaves_ofResult, leaves_read, leaves_update, leaves_pure, leaves_on,
    hinterest, hpre, hsend]
  refine forall₃_congr fun r x _ => ?_
  cases r <;> cases cb.appendMetadata <;> cases cb.postAddAll <;> exact Iff.rfl

theorem postExecution_objective (hinterest : evaluateExecution cb = .ok .objective)
    (hpre : cb.preAddAll (Testcase.new input) = .ok testcase) :
    (postExecution input exitKind cb).Leaves s (fun _ t => On Q t) ↔
      ∀ r x, addObjective testcase cb.objectiveEnv s.objectiveCorpus = some (r, x) →
        Q s.corpus x s.stats.corpus (s.stats.objective + counted r cb.appendMetadata) := by
  rw [postExecution]
  simp only [leaves_bind, leaves_ofResult, leaves_read, leaves_update, leaves_pure, leaves_on,
    hinterest, hpre]
  refine forall₃_congr fun r x _ => ?_
  cases r <;> cases cb.appendMetadata <;> cases cb.postAddAll <;> exact Iff.rfl

/-- The call returns before it adds anything. -/
def AddsNothing (input : I) (cb : Callbacks I Env OEnv) : Prop :=
  (evaluateExecution cb = .ok .objective → ∀ tc, cb.preAddAll (Testcase.new input) ≠ .ok tc) ∧
    (evaluateExecution cb = .ok .corpus →
      ∀ tc, cb.preAddAll (Testcase.new input) = .ok tc → cb.sendTestcase ≠ .ok ())

theorem postExecution_adds_nothing (hnothing : AddsNothing input cb) :
    (postExecution input exitKind cb).Leaves s (fun _ t => On Q t) ↔ On Q s := by
  rw [postExecution]
  simp only [leaves_bind, leaves_ofResult]
  cases hinterest : evaluateExecution cb with
  | error err => exact Iff.rfl
  | ok interest =>
    cases interest with
    | uninteresting => simp
    | objective =>
        cases hpre : cb.preAddAll (Testcase.new input) with
        | error err => simp
        | ok testcase => exact (hnothing.1 hinterest testcase hpre).elim
    | corpus =>
        cases hpre : cb.preAddAll (Testcase.new input) with
        | error err => simp
        | ok testcase =>
            cases hsend : cb.sendTestcase with
            | error err => simp
            | ok => exact (hnothing.2 hinterest testcase hpre hsend).elim

theorem adds_cases (input : I) (cb : Callbacks I Env OEnv) :
    (∃ tc, evaluateExecution cb = .ok .objective ∧ cb.preAddAll (Testcase.new input) = .ok tc) ∨
    (∃ tc, evaluateExecution cb = .ok .corpus ∧ cb.preAddAll (Testcase.new input) = .ok tc ∧
      cb.sendTestcase = .ok ()) ∨ AddsNothing input cb := by
  by_cases hobjective : ∃ tc, evaluateExecution cb = .ok .objective ∧
      cb.preAddAll (Testcase.new input) = .ok tc
  · exact Or.inl hobjective
  · by_cases hcorpus : ∃ tc, evaluateExecution cb = .ok .corpus ∧
        cb.preAddAll (Testcase.new input) = .ok tc ∧ cb.sendTestcase = .ok ()
    · exact Or.inr (Or.inl hcorpus)
    · exact Or.inr (Or.inr ⟨fun hi tc hpre => hobjective ⟨tc, hi, hpre⟩,
        fun hi tc hpre hsend => hcorpus ⟨tc, hi, hpre, hsend⟩⟩)

/-! ## Runs -/

structure Tallied (s : StdState X OX) : Prop where
  corpus : s.stats.corpus = Corpus.count s.corpus
  objective : s.stats.objective = Corpus.count s.objectiveCorpus

/-- Every add the operation reaches counts once. -/
def AddsOnce (s : StdState X OX) : FuzzerOp I Env OEnv → Prop
  | .postExecution input _ cb =>
      (evaluateExecution cb = .ok .objective →
        ∀ testcase, cb.preAddAll (Testcase.new input) = .ok testcase →
          CountsOnce (store s.objectiveCorpus) testcase cb.objectiveEnv True cb.appendMetadata) ∧
      (evaluateExecution cb = .ok .corpus →
        ∀ testcase, cb.preAddAll (Testcase.new input) = .ok testcase → cb.sendTestcase = .ok () →
          CountsOnce (store s.corpus) testcase cb.env
            ((Scheduler.onAdd testcase.id (ScheduledCorpus.scheduler s.corpus)).1 = .ok ())
            cb.appendMetadata)
  | .incrementExecs => True
  | .getFrom _ _ => True

structure AllReady (s : StdState X OX) : Prop where
  corpus : Ready s.corpus
  objective : Ready s.objectiveCorpus

theorem exec_postExecution_iff {P : StdState X OX → Prop} :
    (∀ t, (FuzzerOp.postExecution input exitKind cb).exec s = some t → P t) ↔
      (postExecution input exitKind cb).Leaves s fun _ t => P t := by
  simp only [FuzzerOp.exec, Option.map_eq_some_iff, Leaves]
  constructor
  · exact fun h r t hrun => h t ⟨(r, t), hrun, rfl⟩
  · rintro h t ⟨⟨r, t⟩, hrun, rfl⟩
    exact h r t hrun

theorem AllReady.postExecution (h : AllReady s) :
    (postExecution input exitKind cb).Leaves s fun _ t => AllReady t := by
  have hon : (StdFuzzer.postExecution input exitKind cb).Leaves s
      fun _ t => On (fun x ox _ _ => Ready x ∧ Ready ox) t := by
    rcases adds_cases input cb with ⟨tc, hi, hpre⟩ | ⟨tc, hi, hpre, hsend⟩ | hnothing
    · refine (postExecution_objective hi hpre).mpr fun r x hadd => ⟨h.corpus, ?_⟩
      obtain ⟨r', x', hadd', hready⟩ := addInner_returns true tc cb.objectiveEnv h.objective
      obtain ⟨-, rfl⟩ := Prod.mk.inj (Option.some.inj (hadd.symm.trans hadd'))
      exact hready
    · refine (postExecution_corpus hi hpre hsend).mpr fun r x hadd => ⟨?_, h.objective⟩
      obtain ⟨r', x', hadd', hready⟩ := addShared_returns true tc cb.env h.corpus
      obtain ⟨-, rfl⟩ := Prod.mk.inj (Option.some.inj (hadd.symm.trans hadd'))
      exact hready
    · exact (postExecution_adds_nothing hnothing).mpr ⟨h.corpus, h.objective⟩
  exact hon.mono fun _ t ht => ⟨ht.1, ht.2⟩

theorem AllReady.incrementExecs (h : AllReady s) : AllReady s.incrementExecs :=
  ⟨h.corpus, h.objective⟩

theorem AllReady.exec (h : AllReady s) (op : FuzzerOp I Env OEnv) :
    ∀ t, op.exec s = some t → AllReady t := by
  match op with
  | .incrementExecs =>
      rintro t ht
      obtain rfl := Option.some.inj ht
      exact h.incrementExecs
  | .getFrom enabled id =>
      rintro t ht
      obtain ⟨⟨r, x⟩, hget, rfl⟩ := Option.map_eq_some_iff.mp ht
      exact ⟨(getFrom_store hget).2 h.corpus, h.objective⟩
  | .postExecution input exitKind cb => exact exec_postExecution_iff.mpr h.postExecution

theorem tallied_iff_on : Tallied s ↔ On (fun x ox corpus objective =>
    corpus = Corpus.count x ∧ objective = Corpus.count ox) s :=
  ⟨fun h => ⟨h.1, h.2⟩, fun h => ⟨h.1, h.2⟩⟩

theorem objective_tallied_iff (hready : AllReady s) (hs : Tallied s)
    (hinterest : evaluateExecution cb = .ok .objective)
    (hpre : cb.preAddAll (Testcase.new input) = .ok testcase) :
    (postExecution input exitKind cb).Leaves s (fun _ t => Tallied t) ↔
      CountsOnce (store s.objectiveCorpus) testcase cb.objectiveEnv True cb.appendMetadata := by
  simp only [tallied_iff_on]
  rw [postExecution_objective hinterest hpre]
  obtain ⟨r, x, hadd, -⟩ := addInner_returns true testcase cb.objectiveEnv hready.objective
  obtain ⟨res, hstore, rfl⟩ := addInner_store hadd
  have hcount := counted_eq_count_iff cb.appendMetadata hstore
    (intoTestcaseId_ok_iff hstore) (hs.objective.trans (count_store _))
  rw [addObjective, forall_returned hadd, ← hcount, count_store x]
  exact and_iff_right hs.corpus

theorem corpus_tallied_iff (hready : AllReady s) (hs : Tallied s)
    (hinterest : evaluateExecution cb = .ok .corpus)
    (hpre : cb.preAddAll (Testcase.new input) = .ok testcase) (hsend : cb.sendTestcase = .ok ()) :
    (postExecution input exitKind cb).Leaves s (fun _ t => Tallied t) ↔
      CountsOnce (store s.corpus) testcase cb.env
        ((Scheduler.onAdd testcase.id (ScheduledCorpus.scheduler s.corpus)).1 = .ok ())
        cb.appendMetadata := by
  simp only [tallied_iff_on]
  rw [postExecution_corpus hinterest hpre hsend]
  obtain ⟨r, x, hadd, -⟩ := addShared_returns true testcase cb.env hready.corpus
  obtain ⟨res, hstore, hnotify⟩ := addShared_store hadd
  obtain ⟨rfl, -⟩ := Prod.mk.inj hnotify
  have hcount := counted_eq_count_iff cb.appendMetadata hstore
    (notifyStored_ok_iff (ScheduledCorpus.scheduler s.corpus) hstore)
    (hs.corpus.trans (count_store _))
  rw [ScheduledCorpus.add, forall_returned hadd, ← hcount, count_store x]
  exact and_iff_left hs.objective

/-- **The step lemma.** -/
theorem tallied_exec_iff (hready : AllReady s) (hs : Tallied s) (op : FuzzerOp I Env OEnv) :
    (∀ t, op.exec s = some t → Tallied t) ↔ AddsOnce s op := by
  match op with
  | .incrementExecs =>
      refine iff_of_true (fun t ht => ?_) trivial
      obtain rfl := Option.some.inj ht
      exact ⟨hs.corpus, hs.objective⟩
  | .getFrom enabled id =>
      refine iff_of_true (fun t ht => ?_) trivial
      obtain ⟨⟨r, x⟩, hget, rfl⟩ := Option.map_eq_some_iff.mp ht
      have hcount : Corpus.count x = Corpus.count s.corpus := by
        rw [count_store, count_store, (getFrom_store hget).1]
      exact ⟨hs.corpus.trans hcount.symm, hs.objective⟩
  | .postExecution input exitKind cb =>
      rw [exec_postExecution_iff]
      rcases adds_cases input cb with ⟨tc, hi, hpre⟩ | ⟨tc, hi, hpre, hsend⟩ | hnothing
      · rw [objective_tallied_iff hready hs hi hpre]
        simp [AddsOnce, hi, hpre]
      · rw [corpus_tallied_iff hready hs hi hpre hsend]
        simp [AddsOnce, hi, hpre, hsend]
      · simp only [tallied_iff_on]
        rw [postExecution_adds_nothing hnothing]
        refine iff_of_true (tallied_iff_on.mp hs) ⟨fun hi tc hpre => ?_, fun hi tc hpre hsend => ?_⟩
        · exact (hnothing.1 hi tc hpre).elim
        · exact (hnothing.2 hi tc hpre hsend).elim

/-- **The statistics match the corpora exactly as long as every add counts
once.** -/
theorem tallied_iff_addsOnce (hready : AllReady s) (hs : Tallied s)
    (ops : List (FuzzerOp I Env OEnv)) :
    StepsMeet FuzzerOp.exec s ops (fun s op => ∀ t, op.exec s = some t → Tallied t) ↔
      StepsMeet FuzzerOp.exec s ops AddsOnce := by
  refine stepsMeet_congr (fun s => AllReady s ∧ Tallied s) ⟨hready, hs⟩
    (fun s op _ h => tallied_exec_iff h.1 h.2 op) fun s op t _ h hop hexec => ?_
  exact ⟨h.1.exec op t hexec, (tallied_exec_iff h.1 h.2 op).mpr hop t hexec⟩

end

/-- A corpus entry and a solution, each new. -/
theorem tallied_new_testcases :
    StepsMeet FuzzerOp.exec
      (.new ⟨.new, .new⟩ ⟨.new, ⟨⟩⟩ : StdState
        (SingleCorpus (InMemoryStore ValueInput HashCorpusMap) QueueScheduler)
        (SingleCorpus (InMemoryStore ValueInput HashCorpusMap) NopScheduler))
      [.incrementExecs, .postExecution ⟨1⟩ .ok (.succeed false true () ()), .getFrom true ⟨1⟩,
        .postExecution ⟨2⟩ .crash (.succeed true false () ())]
      (fun s op => ∀ t, op.exec s = some t → Tallied t) := by
  refine (tallied_iff_addsOnce (S := InMemoryStore ValueInput HashCorpusMap)
    (O := InMemoryStore ValueInput HashCorpusMap)
    ⟨Partitions.AddOnly.empty, Partitions.AddOnly.empty⟩ ⟨rfl, rfl⟩ _).mpr ?_
  refine stepsMeet_cons.mpr ⟨trivial, fun s hs => stepsMeet_cons.mpr ⟨⟨nofun, ?_⟩, fun t ht =>
    stepsMeet_cons.mpr ⟨trivial, fun u hu => stepsMeet_cons.mpr ⟨⟨?_, nofun⟩, fun _ _ =>
      stepsMeet_nil⟩⟩⟩⟩
  · obtain rfl := Option.some.inj hs
    exact fun _ testcase _ _ => ⟨fun _ => ⟨trivial, rfl, rfl⟩,
      fun hold => (Partitions.not_holds_empty hold).elim⟩
  · obtain rfl := Option.some.inj hs
    obtain rfl := Option.some.inj ht
    obtain rfl := Option.some.inj hu
    exact fun _ testcase _ => ⟨fun _ => ⟨trivial, trivial, rfl⟩,
      fun hold => (Partitions.not_holds_empty hold).elim⟩

/-- An input that stays interesting is counted again. -/
theorem replay_not_tallied :
    ¬ ∀ ops : List (FuzzerOp ValueInput Unit Unit), StepsMeet FuzzerOp.exec
      (.new ⟨.new, .new⟩ ⟨.new, ⟨⟩⟩ : StdState
        (SingleCorpus (InMemoryStore ValueInput HashCorpusMap) QueueScheduler)
        (SingleCorpus (InMemoryStore ValueInput HashCorpusMap) NopScheduler)) ops
      (fun s op => ∀ t, op.exec s = some t → Tallied t) := by
  intro h
  have hs := h [.postExecution ⟨1⟩ .ok (.succeed false true () ()),
    .postExecution ⟨1⟩ .ok (.succeed false true () ())]
    [.postExecution ⟨1⟩ .ok (.succeed false true () ())] _ (List.prefix_refl _) _ rfl _ rfl
  exact absurd hs.corpus (by decide)

end Libaflmm
