import Libaflmm.Cache
import Libaflmm.StoreLaws

/-!
# Corpora and the store behind them

A corpus adds every testcase to one store, the single one or the fallback
store of its cache, and tells the scheduler what that store reported.
`BackedCorpus` is this much of a corpus; everything proved of it holds of
`SingleCorpus` and of `CombinedCorpus` with either cache.
-/

namespace Libaflmm

/-- A cache whose adds are those of the fallback store. -/
class LawfulCache (C CS FS : Type) (I Env : outParam Type) [Input I] [Store FS I Env] extends
    Cache C CS FS I Env where
  /-- The cache store takes any add. -/
  Ready : CS → Prop
  add_fallback {e : Bool} {tc : Testcase I} {env : Env} {c c' : C} {cs cs' : CS} {fs fs' : FS}
    {r : Result StorageResult} : addShared e tc env c cs fs = some (r, c', cs', fs') →
      Store.addShared e tc env fs = some (r, fs')
  add_returns {e : Bool} {tc : Testcase I} {env : Env} {cs : CS} {fs fs' : FS}
    {r : Result StorageResult} (c : C) : Ready cs →
      Store.addShared e tc env fs = some (r, fs') →
      ∃ c' cs', addShared e tc env c cs fs = some (r, c', cs', fs') ∧ Ready cs'
  getFrom_ready {e : Bool} {id : TestcaseId} {c c' : C} {cs cs' : CS} {fs : FS}
    {r : Result (Testcase I)} :
    getFrom e id c cs fs = some (r, c', cs') → Ready cs → Ready cs'

class BackedCorpus (X : Type) (S I Env SC : outParam Type) [Input I] [PartitionedStore S I Env]
    [Scheduler SC] extends ScheduledCorpus X I Env SC where
  store : X → S
  Ready : X → Prop
  count_store (x : X) : count x = Store.count (store x)
  addShared_store {e : Bool} {tc : Testcase I} {env : Env} {x x' : X} {r : Result TestcaseId} :
    addShared e tc env x = some (r, x') →
      ∃ res, Store.addShared e tc env (store x) = some (res, store x') ∧
        (r, scheduler x') = notifyStored res (scheduler x)
  addShared_returns {x : X} (e : Bool) (tc : Testcase I) (env : Env) :
    Ready x → ∃ r x', addShared e tc env x = some (r, x') ∧ Ready x'
  addInner_store {e : Bool} {tc : Testcase I} {env : Env} {x x' : X} {r : Result TestcaseId} :
    addInner e tc env x = some (r, x') →
      ∃ res, Store.addShared e tc env (store x) = some (res, store x') ∧
        r = res.map StorageResult.intoTestcaseId
  addInner_returns {x : X} (e : Bool) (tc : Testcase I) (env : Env) :
    Ready x → ∃ r x', addInner e tc env x = some (r, x') ∧ Ready x'
  getFrom_store {e : Bool} {id : TestcaseId} {x x' : X} {r : Result (Testcase I)} :
    getFrom e id x = some (r, x') → store x' = store x ∧ (Ready x → Ready x')
  scheduler_set (sc : SC) (x : X) : scheduler (setScheduler sc x) = sc
  store_set (sc : SC) (x : X) : store (setScheduler sc x) = store x
  ready_set {sc : SC} {x : X} : Ready x → Ready (setScheduler sc x)

variable {I Env SC : Type} [Input I] [Scheduler SC]

/-! ## The two caches -/

instance {CS FS : Type} [RemovableStore CS I Unit] [Store FS I Env] :
    LawfulCache FifoCache CS FS I Env where
  Ready _ := True
  add_fallback h := by
    obtain ⟨⟨r, fs⟩, hadd, heq⟩ := Option.map_eq_some_iff.mp h
    simp only [Prod.mk.injEq] at heq
    obtain ⟨rfl, -, -, rfl⟩ := heq
    exact hadd
  add_returns {e tc env cs fs fs' r} c _ h := by
    refine ⟨c, cs, ?_, trivial⟩
    show FifoCache.addShared e tc env c cs fs = _
    rw [FifoCache.addShared, h]
    rfl
  getFrom_ready _ _ := trivial

instance {M : Type → Type} [InMemoryCorpusMap M] [LawfulCorpusMap M] {FS : Type}
    [Store FS I Env] : LawfulCache IdentityCache (InMemoryStore I M) FS I Env where
  Ready cs := cs.maps.AddOnly
  add_fallback h := by
    obtain ⟨⟨r₁, cs₁⟩, hcs, hrest⟩ := Option.bind_eq_some_iff.mp h
    obtain ⟨present, -, rfl⟩ := InMemoryStore.addShared_maps hcs
    obtain ⟨⟨r₂, fs₂⟩, hfs, heq⟩ := Option.map_eq_some_iff.mp hrest
    simp only [Prod.mk.injEq] at heq
    obtain ⟨rfl, -, -, rfl⟩ := heq
    exact hfs
  add_returns {e tc env cs fs fs' r} c hcs h := by
    obtain ⟨present, maps, hadd, haddOnly⟩ := hcs.add e tc.id tc
    refine ⟨c, ⟨maps⟩, ?_, haddOnly⟩
    show IdentityCache.addShared e tc env c cs fs = _
    have hstore : Store.addShared e tc () cs = some
        (.ok (if present then .duplicate tc.id else .stored tc.id), (⟨maps⟩ : InMemoryStore I M)) :=
      congrArg (Option.map _) hadd
    rw [IdentityCache.addShared, hstore]
    simp only [Option.bind_some, h, Option.map_some]
  getFrom_ready {e id c c' cs cs' fs r} h hcs := by
    change IdentityCache.getFrom e id c cs fs = some (r, c', cs') at h
    rw [IdentityCache.getFrom] at h
    split at h
    · cases h
      exact hcs
    · split at h
      · cases h
        exact hcs
      · next fbTc _ =>
          obtain ⟨⟨res, cs₁⟩, hadd, heq⟩ := Option.map_eq_some_iff.mp h
          obtain ⟨r', cs₂, hadd', hcs₂⟩ := PartitionedStore.add_returns (s := cs) e fbTc () hcs
          obtain ⟨rfl, rfl⟩ := Prod.mk.inj (Option.some.inj (hadd.symm.trans hadd'))
          cases res <;> (cases heq; exact hcs₂)
    · cases h
      exact hcs

/-! ## The two corpora -/

instance {S : Type} [PartitionedStore S I Env] : BackedCorpus (SingleCorpus S SC) S I Env SC where
  store x := x.store
  Ready x := PartitionedStore.AddOnly x.store
  count_store _ := rfl
  addShared_store h := by
    obtain ⟨⟨res, s⟩, hadd, heq⟩ := Option.map_eq_some_iff.mp h
    obtain ⟨rfl, rfl⟩ := Prod.mk.inj heq
    exact ⟨res, hadd, rfl⟩
  addShared_returns e tc env h := by
    obtain ⟨res, s, hadd, haddOnly⟩ := PartitionedStore.add_returns e tc env h
    exact ⟨_, _, congrArg (Option.map _) hadd, haddOnly⟩
  addInner_store h := by
    obtain ⟨⟨res, s⟩, hadd, heq⟩ := Option.map_eq_some_iff.mp h
    obtain ⟨rfl, rfl⟩ := Prod.mk.inj heq
    exact ⟨res, hadd, rfl⟩
  addInner_returns e tc env h := by
    obtain ⟨res, s, hadd, haddOnly⟩ := PartitionedStore.add_returns e tc env h
    exact ⟨_, _, congrArg (Option.map _) hadd, haddOnly⟩
  getFrom_store h := by
    obtain ⟨-, rfl⟩ := Prod.mk.inj (Option.some.inj h)
    exact ⟨rfl, id⟩
  scheduler_set _ _ := rfl
  store_set _ _ := rfl
  ready_set h := h

instance {C CS FS : Type} [PartitionedStore FS I Env] [LawfulCache C CS FS I Env] :
    BackedCorpus (CombinedCorpus C CS FS SC) FS I Env SC where
  store x := x.fallbackStore
  Ready x := PartitionedStore.AddOnly x.fallbackStore ∧
    LawfulCache.Ready C FS x.cacheStore
  count_store _ := rfl
  addShared_store h := by
    obtain ⟨⟨res, c, cs, fs⟩, hadd, heq⟩ := Option.map_eq_some_iff.mp h
    obtain ⟨rfl, rfl⟩ := Prod.mk.inj heq
    exact ⟨res, LawfulCache.add_fallback hadd, rfl⟩
  addShared_returns {x} e tc env h := by
    obtain ⟨res, fs, hadd, haddOnly⟩ := PartitionedStore.add_returns e tc env h.1
    obtain ⟨c, cs, hcache, hready⟩ := LawfulCache.add_returns x.cache h.2 hadd
    exact ⟨_, _, congrArg (Option.map _) hcache, haddOnly, hready⟩
  addInner_store h := by
    obtain ⟨⟨res, c, cs, fs⟩, hadd, heq⟩ := Option.map_eq_some_iff.mp h
    obtain ⟨rfl, rfl⟩ := Prod.mk.inj heq
    exact ⟨res, LawfulCache.add_fallback hadd, rfl⟩
  addInner_returns {x} e tc env h := by
    obtain ⟨res, fs, hadd, haddOnly⟩ := PartitionedStore.add_returns e tc env h.1
    obtain ⟨c, cs, hcache, hready⟩ := LawfulCache.add_returns x.cache h.2 hadd
    exact ⟨_, _, congrArg (Option.map _) hcache, haddOnly, hready⟩
  getFrom_store h := by
    obtain ⟨⟨res, c, cs⟩, hget, heq⟩ := Option.map_eq_some_iff.mp h
    obtain ⟨-, rfl⟩ := Prod.mk.inj heq
    exact ⟨rfl, fun hx => ⟨hx.1, LawfulCache.getFrom_ready hget hx.2⟩⟩
  scheduler_set _ _ := rfl
  store_set _ _ := rfl
  ready_set h := h

end Libaflmm
