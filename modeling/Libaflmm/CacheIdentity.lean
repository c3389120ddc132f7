import Libaflmm.Cache
import Libaflmm.Runs
import Libaflmm.StoreLaws

/-!
# The identity cache and its fallback store

`IdentityCache` adds to the cache store first and to the fallback store
second, with nothing to undo the first when the second fails. The invariant
`InStep` holds as long as no failed write leaves an id behind that cannot be
loaded; lookups and `disable` never break it, since a lookup reaches the
fallback store only for ids that the cache store holds as disabled.
-/

namespace Libaflmm

namespace IdentityCache

variable {I Env SC : Type} [Input I] {M : Type → Type} [InMemoryCorpusMap M]
  {FS : Type} [PartitionedStore FS I Env]

open PartitionedStore

/-! ## Agreement -/

/-- A pair of an id and a partition that the fallback store holds: the id is
there, and so is its testcase. -/
def FallbackHolds (fallbackStore : FS) (enabled : Bool) (id : TestcaseId) : Prop :=
  Holds fallbackStore enabled id ∧ Loads fallbackStore id

/-- The two stores hold the same pairs. -/
def Agree (x : CombinedCorpus IdentityCache (InMemoryStore I M) FS SC) : Prop :=
  ∀ enabled id, x.cacheStore.maps.Holds enabled id ↔ FallbackHolds x.fallbackStore enabled id

/-- The add finds the id in the fallback store, or leaves it there with a
testcase that loads (unless the partition is stuck in one of the stores). -/
def AddLands (x : CombinedCorpus IdentityCache (InMemoryStore I M) FS SC) :
    CacheOp I Env → Prop
  | .corpus (.add enabled testcase env) =>
      ¬ Stuck (x.cacheStore.maps.map enabled) → ¬ StuckIn x.fallbackStore enabled →
      ¬ Holds x.fallbackStore enabled testcase.id →
        Saves x.fallbackStore testcase env ∨ Loads x.fallbackStore testcase.id
  | .corpus (.getFrom _ _) | .disable _ => True

structure InStep (x : CombinedCorpus IdentityCache (InMemoryStore I M) FS SC) : Prop where
  wf : Wf x.fallbackStore
  holds : ∀ enabled id, x.cacheStore.maps.Holds enabled id ↔ Holds x.fallbackStore enabled id
  loads : ∀ enabled id, Holds x.fallbackStore enabled id → Loads x.fallbackStore id

variable {x x' : CombinedCorpus IdentityCache (InMemoryStore I M) FS SC} {enabled : Bool}
  {id : TestcaseId} {testcase : Testcase I} {env : Env}

theorem InStep.agree (h : InStep x) : Agree x := fun e k =>
  (h.holds e k).trans ⟨fun hk => ⟨hk, h.loads e k hk⟩, And.left⟩

variable [LawfulCorpusMap M] [Scheduler SC]

/-! ## `add` -/

theorem addShared_stores (h : (CorpusOp.add enabled testcase env).exec x = some x') :
    ∃ r₁ r₂, Store.addShared enabled testcase () x.cacheStore = some (r₁, x'.cacheStore) ∧
      Store.addShared enabled testcase env x.fallbackStore = some (r₂, x'.fallbackStore) := by
  obtain ⟨⟨r, y⟩, hcorpus, rfl⟩ := Option.map_eq_some_iff.mp h
  obtain ⟨⟨res, c, cs, fs⟩, hcache, heq⟩ := Option.map_eq_some_iff.mp hcorpus
  obtain ⟨-, rfl⟩ := Prod.mk.inj heq
  obtain ⟨⟨r₁, cs₁⟩, hcs, hrest⟩ := Option.bind_eq_some_iff.mp hcache
  obtain ⟨present, -, rfl⟩ := InMemoryStore.addShared_maps hcs
  obtain ⟨⟨r₂, fs₂⟩, hfs, heq⟩ := Option.map_eq_some_iff.mp hrest
  simp only [Prod.mk.injEq] at heq
  obtain ⟨-, -, rfl, rfl⟩ := heq
  exact ⟨_, _, hcs, hfs⟩

theorem exec_add_isSome {r₁ r₂ : Result StorageResult} {cs : InMemoryStore I M} {fs : FS}
    (hcs : Store.addShared enabled testcase () x.cacheStore = some (r₁, cs))
    (hfs : Store.addShared enabled testcase env x.fallbackStore = some (r₂, fs)) :
    ∃ x', (CorpusOp.add enabled testcase env).exec x = some x' := by
  obtain ⟨present, -, rfl⟩ := InMemoryStore.addShared_maps hcs
  refine ⟨_, Option.map_eq_some_iff.mpr ⟨_, Option.map_eq_some_iff.mpr
    ⟨(r₂, x.cache, cs, fs), ?_, rfl⟩, rfl⟩⟩
  show addShared enabled testcase env x.cache x.cacheStore x.fallbackStore = _
  rw [addShared, hcs, Option.bind_some]
  simp only [hfs, Option.map_some]

/-- Once the id is in both stores, they agree when its testcase loads. -/
theorem InStep.add_agree_iff (h : InStep x)
    (hexec : (CorpusOp.add enabled testcase env).exec x = some x') :
    Agree x' ↔ Loads x'.fallbackStore testcase.id := by
  obtain ⟨r₁, r₂, hcs, hfs⟩ := addShared_stores hexec
  have hcache : ∀ e k, x'.cacheStore.maps.Holds e k ↔ _ := add_holds hcs
  constructor
  · intro hagree
    exact ((hagree enabled testcase.id).mp ((hcache _ _).mpr (Or.inl ⟨rfl, rfl⟩))).2
  · intro hloads e k
    rw [hcache e k, FallbackHolds, add_holds hfs e k]
    change _ ∨ x.cacheStore.maps.Holds e k ↔ _
    rw [h.holds e k]
    refine ⟨fun hk => ⟨hk, ?_⟩, And.left⟩
    rcases hk with ⟨-, rfl⟩ | hk
    · exact hloads
    · exact (add_loads hfs k).mpr (Or.inl (h.loads e k hk))

theorem InStep.add_loads_iff (h : InStep x)
    (hexec : (CorpusOp.add enabled testcase env).exec x = some x') :
    Loads x'.fallbackStore testcase.id ↔
      (¬ Holds x.fallbackStore enabled testcase.id →
        Saves x.fallbackStore testcase env ∨ Loads x.fallbackStore testcase.id) := by
  obtain ⟨r₁, r₂, hcs, hfs⟩ := addShared_stores hexec
  rw [add_loads hfs testcase.id]
  have hloads := h.loads enabled testcase.id
  tauto

theorem InStep.add (h : InStep x)
    (hexec : (CorpusOp.add enabled testcase env).exec x = some x')
    (hloads : Loads x'.fallbackStore testcase.id) : InStep x' := by
  have hagree := (h.add_agree_iff hexec).mpr hloads
  obtain ⟨r₁, r₂, hcs, hfs⟩ := addShared_stores hexec
  have hheld : ∀ e k, Holds x'.fallbackStore e k → Loads x'.fallbackStore k := by
    intro e k hk
    rcases (add_holds hfs e k).mp hk with ⟨-, rfl⟩ | hk
    · exact hloads
    · exact (add_loads hfs k).mpr (Or.inl (h.loads e k hk))
  exact ⟨add_wf h.wf hfs, fun e k => (hagree e k).trans ⟨And.left, fun hk => ⟨hk, hheld e k hk⟩⟩,
    hheld⟩

/-! ## `get_from` and `disable` -/

theorem getFrom_stores
    (h : (CorpusOp.getFrom enabled id : CorpusOp I Env).exec x = some x') :
    x'.fallbackStore = x.fallbackStore ∧
      (x'.cacheStore = x.cacheStore ∨
        (∃ err, Store.getFrom true id x.cacheStore = .error err) ∧
        ∃ tc r, Store.getFrom enabled id x.fallbackStore = .ok tc ∧
          Store.addShared enabled tc () x.cacheStore = some (r, x'.cacheStore)) := by
  obtain ⟨⟨r, y⟩, hcorpus, rfl⟩ := Option.map_eq_some_iff.mp h
  obtain ⟨⟨res, c, cs⟩, hcache, heq⟩ := Option.map_eq_some_iff.mp hcorpus
  obtain ⟨-, rfl⟩ := Prod.mk.inj heq
  refine ⟨rfl, ?_⟩
  change getFrom enabled id x.cache x.cacheStore x.fallbackStore = some (res, c, cs) at hcache
  unfold getFrom at hcache
  split at hcache
  · simp only [Option.some.injEq, Prod.mk.injEq] at hcache
    exact Or.inl hcache.2.2.symm
  · next message hget =>
      split at hcache
      · simp only [Option.some.injEq, Prod.mk.injEq] at hcache
        exact Or.inl hcache.2.2.symm
      · next tc hfs =>
          obtain ⟨⟨r₁, cs₁⟩, hcs, heq⟩ := Option.map_eq_some_iff.mp hcache
          refine Or.inr ⟨⟨_, hget⟩, tc, r₁, hfs, ?_⟩
          cases r₁ <;>
          · simp only [Prod.mk.injEq] at heq
            obtain ⟨-, -, rfl⟩ := heq
            exact hcs
  · simp only [Option.some.injEq, Prod.mk.injEq] at hcache
    exact Or.inl hcache.2.2.symm

/-- A lookup reaches the fallback store for disabled ids only, and puts back
in the cache store what is there already. -/
theorem InStep.getFrom (h : InStep x)
    (hexec : (CorpusOp.getFrom enabled id : CorpusOp I Env).exec x = some x') : InStep x' := by
  obtain ⟨hfs, hcs | ⟨⟨err, hmiss⟩, tc, r, hget, hadd⟩⟩ := getFrom_stores hexec
  · exact ⟨hfs ▸ h.wf, by rw [hcs, hfs]; exact h.holds, hfs ▸ h.loads⟩
  · have hnot : ¬ Holds x.fallbackStore true id := by
      intro hold
      obtain ⟨tc, hfind⟩ := Option.isSome_iff_exists.mp ((h.holds true id).mpr hold)
      change x.cacheStore.getFrom true id = .error err at hmiss
      rw [InMemoryStore.getFrom, Partitions.getFrom_true, hfind] at hmiss
      cases hmiss
    have hheld : enabled = false ∧ Holds x.fallbackStore false id := by
      by_contra hcon
      obtain ⟨message, herr⟩ := getFrom_not_held (fun hor => hor.elim hnot hcon)
      rw [herr] at hget
      cases hget
    obtain ⟨tc', hok, hid⟩ :=
      getFrom_held h.wf (Or.inr hheld) (h.loads false id hheld.2)
    obtain rfl : tc = tc' := Except.ok.inj (hget.symm.trans hok)
    have hcache : ∀ e k, x'.cacheStore.maps.Holds e k ↔ _ := add_holds hadd
    refine ⟨hfs ▸ h.wf, fun e k => ?_, hfs ▸ h.loads⟩
    rw [hcache e k, hfs, ← h.holds e k]
    refine or_iff_right_of_imp ?_
    rintro ⟨rfl, rfl⟩
    rw [hheld.1, hid]
    exact (h.holds false id).mpr hheld.2

theorem disable_stores (h : (CacheOp.disable id : CacheOp I Env).exec x = some x') :
    ∃ r₁, Store.disable id x.cacheStore = some (r₁, x'.cacheStore) ∧
      ((r₁ = .ok () ∧ ∃ r₂, Store.disable id x.fallbackStore = some (r₂, x'.fallbackStore)) ∨
        (r₁ ≠ .ok () ∧ x'.fallbackStore = x.fallbackStore)) := by
  obtain ⟨⟨r, y⟩, hcorpus, rfl⟩ := Option.map_eq_some_iff.mp h
  obtain ⟨⟨res, c, cs, fs⟩, hcache, heq⟩ := Option.map_eq_some_iff.mp hcorpus
  obtain ⟨-, rfl⟩ := Prod.mk.inj heq
  obtain ⟨⟨r₁, cs₁⟩, hcs, hrest⟩ := Option.bind_eq_some_iff.mp hcache
  refine ⟨r₁, ?_⟩
  cases r₁ with
  | error err =>
      simp only [Option.some.injEq, Prod.mk.injEq] at hrest
      obtain ⟨-, -, rfl, rfl⟩ := hrest
      exact ⟨hcs, Or.inr ⟨nofun, rfl⟩⟩
  | ok =>
      obtain ⟨⟨r₂, fs₂⟩, hfs, heq⟩ := Option.map_eq_some_iff.mp hrest
      simp only [Prod.mk.injEq] at heq
      obtain ⟨-, -, rfl, rfl⟩ := heq
      exact ⟨hcs, Or.inl ⟨rfl, r₂, hfs⟩⟩

theorem InStep.disable (h : InStep x)
    (hexec : (CacheOp.disable id : CacheOp I Env).exec x = some x') : InStep x' := by
  obtain ⟨r₁, hcs, hcase⟩ := disable_stores hexec
  have hcache : ∀ e k, x'.cacheStore.maps.Holds e k ↔
      (k = id ∧ x.cacheStore.maps.Holds true id ∧ e = false) ∨
        (¬ (k = id ∧ x.cacheStore.maps.Holds true id) ∧ x.cacheStore.maps.Holds e k) :=
    disable_holds hcs
  have hres : r₁ = .ok () ↔ x.cacheStore.maps.Holds true id := disable_result hcs
  rcases hcase with ⟨-, r₂, hfs⟩ | ⟨hr, hfs⟩
  · refine ⟨disable_wf h.wf hfs, fun e k => ?_, fun e k hk => ?_⟩
    · rw [hcache e k, disable_holds hfs e k, h.holds, h.holds]
    · rw [disable_loads hfs k]
      rcases (disable_holds hfs e k).mp hk with ⟨rfl, hold, -⟩ | ⟨-, hold⟩
      · exact h.loads true k hold
      · exact h.loads e k hold
  · have hnot : ¬ x.cacheStore.maps.Holds true id := mt hres.mpr hr
    refine ⟨hfs ▸ h.wf, fun e k => ?_, hfs ▸ h.loads⟩
    rw [hcache e k, hfs, ← h.holds e k]
    simp [hnot]

/-! ## Whole runs -/

/-- **The step lemma.** From stores in step an operation that returns leaves
them in agreement exactly when its add lands. -/
theorem InStep.agree_iff (h : InStep x) (op : CacheOp I Env) :
    (∀ x', op.exec x = some x' → Agree x') ↔ AddLands x op := by
  match op with
  | .disable id => exact iff_of_true (fun _ hexec => (h.disable hexec).agree) trivial
  | .corpus (.getFrom enabled id) =>
      exact iff_of_true (fun _ hexec => (h.getFrom hexec).agree) trivial
  | .corpus (.add enabled testcase env) =>
      constructor
      · intro hagree hcs hfs
        have hcs : ¬ StuckIn x.cacheStore enabled := hcs
        obtain ⟨⟨r₁, cs⟩, hcs⟩ := add_of_not_stuck testcase () hcs
        obtain ⟨⟨r₂, fs⟩, hfs⟩ := add_of_not_stuck testcase env hfs
        obtain ⟨x', hexec⟩ : ∃ x', (CorpusOp.add enabled testcase env).exec x = some x' :=
          exec_add_isSome hcs hfs
        exact (h.add_loads_iff hexec).mp ((h.add_agree_iff hexec).mp (hagree x' hexec))
      · intro hlands x' hexec
        obtain ⟨r₁, r₂, hcs, hfs⟩ := addShared_stores hexec
        exact (h.add_agree_iff hexec).mpr
          ((h.add_loads_iff hexec).mpr (hlands (not_stuck_of_add hcs) (not_stuck_of_add hfs)))

theorem InStep.exec (h : InStep x) {op : CacheOp I Env} (hop : AddLands x op)
    (hexec : op.exec x = some x') : InStep x' := by
  match op with
  | .disable id => exact h.disable hexec
  | .corpus (.getFrom enabled id) => exact h.getFrom hexec
  | .corpus (.add enabled testcase env) =>
      exact h.add hexec ((h.add_agree_iff hexec).mp ((h.agree_iff _).mpr hop x' hexec))

/-- **The identity cache agrees with its fallback store exactly as long as
every add lands.** In a run of adds, lookups and disables from an empty
corpus, each operation that returns leaves the two stores holding the same
pairs if and only if each add finds its id in the fallback store or leaves
it there with a testcase that loads. -/
theorem agree_iff_addLands (fallbackStore : FS) (scheduler : SC)
    (hwf : Wf fallbackStore) (hempty : ∀ enabled id, ¬ Holds fallbackStore enabled id)
    (ops : List (CacheOp I Env)) :
    StepsMeet CacheOp.exec
        (⟨.new, fallbackStore, {}, scheduler⟩ :
          CombinedCorpus IdentityCache (InMemoryStore I M) FS SC) ops
        (fun x op => ∀ x', op.exec x = some x' → Agree x') ↔
      StepsMeet CacheOp.exec
        (⟨.new, fallbackStore, {}, scheduler⟩ :
          CombinedCorpus IdentityCache (InMemoryStore I M) FS SC) ops AddLands := by
  refine stepsMeet_congr InStep ⟨hwf, fun e k => ?_, fun e k hk => (hempty e k hk).elim⟩
    (fun x op _ h => h.agree_iff op) fun x op x' _ h hop => h.exec hop
  refine iff_of_false ?_ (hempty e k)
  show ¬ ((Partitions.empty : Partitions M (Testcase I)).find e k).isSome = true
  simp

theorem agree_added_then_found :
    StepsMeet CacheOp.exec
      (⟨.new, .new .id fun _ => none, {}, .new⟩ :
        CombinedCorpus IdentityCache (InMemoryStore ValueInput HashCorpusMap)
          (OnDiskStore ValueInput HashCorpusMap) QueueScheduler)
      [.corpus (.add true (.new ⟨1⟩) .completes), .corpus (.getFrom false ⟨1⟩)]
      (fun x op => ∀ x', op.exec x = some x' → Agree x') :=
  (agree_iff_addLands _ _ Partitions.Keyed.empty (fun e k h => by cases e <;> cases h) _).mpr
    (stepsMeet_cons.mpr ⟨fun _ _ _ => Or.inl ⟨rfl, rfl, rfl⟩,
      fun _ _ => stepsMeet_cons.mpr ⟨trivial, fun _ _ => stepsMeet_nil⟩⟩)

/-- A write that cannot open its file leaves the testcase in the cache only. -/
theorem add_unwritten_disagrees :
    ¬ ∀ ops : List (CacheOp ValueInput WriteOutcome), StepsMeet CacheOp.exec
      (⟨.new, .new .id fun _ => none, {}, .new⟩ :
        CombinedCorpus IdentityCache (InMemoryStore ValueInput HashCorpusMap)
          (OnDiskStore ValueInput HashCorpusMap) QueueScheduler) ops
      (fun x op => ∀ x', op.exec x = some x' → Agree x') := by
  intro h
  have hagree := h [.corpus (.add true (.new ⟨1⟩) (.openFails .other))] [] _ (List.prefix_refl _)
    _ rfl _ rfl
  obtain ⟨-, tc, -, hload⟩ := (hagree true ⟨1⟩).mp (by decide)
  cases hload

end IdentityCache

end Libaflmm
