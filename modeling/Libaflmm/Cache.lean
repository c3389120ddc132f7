import Libaflmm.Store

/-!
# Caches and corpora

The trait `Cache` over a cache store and a fallback store, its two policies
`IdentityCache` and `FifoCache`, the schedulers, and the corpora built from
them: `SingleCorpus` over one store, `CombinedCorpus` over a cache.

Every function follows its source through each `?`: an early return leaves
the stores as the statements before it did.
-/

namespace Libaflmm

/-! ## Caches -/

class Cache (C CS FS : Type) (I Env : outParam Type) [Input I] where
  addShared (enabled : Bool) (testcase : Testcase I) (env : Env) :
    C → CS → FS → Option (Result StorageResult × C × CS × FS)
  getFrom (enabled : Bool) (id : TestcaseId) :
    C → CS → FS → Option (Result (Testcase I) × C × CS)
  disable (id : TestcaseId) : C → CS → FS → Option (Result Unit × C × CS × FS)

section

variable {CS FS I Env : Type} [Input I] [RemovableStore CS I Unit] [Store FS I Env]

/-- `cache_store.disable(id)?; fallback_store.disable(id)`. -/
def disableBoth {C : Type} (id : TestcaseId) (c : C) (cacheStore : CS) (fallbackStore : FS) :
    Option (Result Unit × C × CS × FS) :=
  (Store.disable id cacheStore).bind fun
    | (.error err, cacheStore) => some (.error err, c, cacheStore, fallbackStore)
    | (.ok (), cacheStore) =>
      (Store.disable id fallbackStore).map fun (res, fallbackStore) =>
        (res, c, cacheStore, fallbackStore)

/-- Everything goes to both stores, to the cache store first. -/
structure IdentityCache where

namespace IdentityCache

def addShared (enabled : Bool) (testcase : Testcase I) (env : Env) (c : IdentityCache)
    (cacheStore : CS) (fallbackStore : FS) :
    Option (Result StorageResult × IdentityCache × CS × FS) :=
  (Store.addShared enabled testcase () cacheStore).bind fun
    | (.error err, cacheStore) => some (.error err, c, cacheStore, fallbackStore)
    | (.ok _, cacheStore) =>
      (Store.addShared enabled testcase env fallbackStore).map fun (res, fallbackStore) =>
        (res, c, cacheStore, fallbackStore)

def getFrom (enabled : Bool) (id : TestcaseId) (c : IdentityCache) (cacheStore : CS)
    (fallbackStore : FS) : Option (Result (Testcase I) × IdentityCache × CS) :=
  match Store.get id cacheStore with
  | .ok testcase => some (.ok testcase, c, cacheStore)
  | .error (.keyNotFound _) =>
    match Store.getFrom enabled id fallbackStore with
    | .error err => some (.error err, c, cacheStore)
    | .ok fbTc =>
      (Store.addShared enabled fbTc () cacheStore).map fun
        | (.error err, cacheStore) => (.error err, c, cacheStore)
        | (.ok _, cacheStore) => (.ok fbTc, c, cacheStore)
  | .error err => some (.error err, c, cacheStore)

instance : Cache IdentityCache CS FS I Env where
  addShared := addShared
  getFrom := getFrom
  disable := disableBoth

end IdentityCache

/-- At most `cacheMaxLen` testcases are kept in the cache store; the ids of
those, the newest in front. -/
structure FifoCache where
  cachedIds : List TestcaseId
  cacheMaxLen : Nat
deriving DecidableEq, Repr

namespace FifoCache

def new (cacheMaxLen : Nat) : FifoCache := ⟨[], cacheMaxLen⟩

def addShared (enabled : Bool) (testcase : Testcase I) (env : Env) (c : FifoCache)
    (cacheStore : CS) (fallbackStore : FS) :
    Option (Result StorageResult × FifoCache × CS × FS) :=
  (Store.addShared enabled testcase env fallbackStore).map fun (res, fallbackStore) =>
    (res, c, cacheStore, fallbackStore)

/-- Makes room in a full cache: `pop_back().unwrap()`, and removes the id. -/
def evict (c : FifoCache) (cacheStore : CS) : Option (Result Unit × FifoCache × CS) :=
  if c.cachedIds.length = c.cacheMaxLen then
    c.cachedIds.getLast?.bind fun toEvict =>
      (RemovableStore.remove toEvict cacheStore).map fun (res, cacheStore) =>
        (res.map fun _ => (), { c with cachedIds := c.cachedIds.dropLast }, cacheStore)
  else
    some (.ok (), c, cacheStore)

/-- The `debug_assert!` is taken as a panic. -/
def getFrom (enabled : Bool) (id : TestcaseId) (c : FifoCache) (cacheStore : CS)
    (fallbackStore : FS) : Option (Result (Testcase I) × FifoCache × CS) :=
  if id ∈ c.cachedIds then
    some (Store.get id cacheStore, c, cacheStore)
  else
    (c.evict cacheStore).bind fun
      | (.error err, c, cacheStore) => some (.error err, c, cacheStore)
      | (.ok (), c, cacheStore) =>
        if c.cachedIds.length < c.cacheMaxLen then
          match Store.getFrom enabled id fallbackStore with
          | .error err => some (.error err, c, cacheStore)
          | .ok fbTc =>
            (Store.addShared enabled fbTc () cacheStore).map fun
              | (.error err, cacheStore) => (.error err, c, cacheStore)
              | (.ok _, cacheStore) =>
                (Store.get fbTc.id cacheStore, { c with cachedIds := fbTc.id :: c.cachedIds },
                  cacheStore)
        else
          none

instance : Cache FifoCache CS FS I Env where
  addShared := addShared
  getFrom := getFrom
  disable := disableBoth

end FifoCache

end

/-! ## Schedulers -/

class Scheduler (SC : Type) where
  onAdd : TestcaseId → SC → Result Unit × SC
  current : SC → Option TestcaseId
  next : SC → Result (Option TestcaseId) × SC
  ids : SC → List TestcaseId

structure QueueScheduler where
  queue : List TestcaseId
  current : Option Nat
deriving DecidableEq, Repr

namespace QueueScheduler

def new : QueueScheduler := ⟨[], none⟩

def onAdd (id : TestcaseId) (sc : QueueScheduler) : Result Unit × QueueScheduler :=
  (.ok (), { sc with queue := sc.queue ++ [id] })

/-- The index after the current one, or the start of the queue. -/
def nextIdx (sc : QueueScheduler) : Nat :=
  match sc.current with
  | some current => if (sc.queue[current + 1]?).isSome then current + 1 else 0
  | none => 0

/-- The index is in bounds, so `queue[idx]` does not panic. -/
def next (sc : QueueScheduler) : Result (Option TestcaseId) × QueueScheduler :=
  if sc.queue.isEmpty then
    (.ok none, sc)
  else
    (.ok sc.queue[sc.nextIdx]?, { sc with current := some sc.nextIdx })

instance : Scheduler QueueScheduler where
  onAdd := onAdd
  -- the queue only grows, so `queue[idx]` stays in bounds
  current sc := sc.current.bind fun idx => sc.queue[idx]?
  next := next
  ids sc := sc.queue

end QueueScheduler

structure NopScheduler where

instance : Scheduler NopScheduler where
  onAdd _ sc := (.ok (), sc)
  current _ := none
  next sc := (.ok none, sc)
  ids _ := []

/-! ## Corpora -/

class Corpus (X : Type) (I Env : outParam Type) [Input I] where
  count : X → Nat
  countDisabled : X → Nat
  countAll : X → Nat
  addInner (enabled : Bool) (testcase : Testcase I) (env : Env) :
    X → Option (Result TestcaseId × X)
  getFrom (enabled : Bool) (id : TestcaseId) : X → Option (Result (Testcase I) × X)

class ScheduledCorpus (X : Type) (I Env SC : outParam Type) [Input I] extends
    Corpus X I Env where
  scheduler : X → SC
  /-- What the caller of `scheduler_mut` leaves there. -/
  setScheduler : SC → X → X
  addShared (enabled : Bool) (testcase : Testcase I) (env : Env) :
    X → Option (Result TestcaseId × X)

section

variable {X I Env SC : Type} [Input I]

def Corpus.get [Corpus X I Env] (id : TestcaseId) (x : X) : Option (Result (Testcase I) × X) :=
  getFrom true id x

def ScheduledCorpus.add [ScheduledCorpus X I Env SC] (testcase : Testcase I) (env : Env) (x : X) :
    Option (Result TestcaseId × X) :=
  addShared true testcase env x

def ScheduledCorpus.addDisabled [ScheduledCorpus X I Env SC] (testcase : Testcase I) (env : Env)
    (x : X) : Option (Result TestcaseId × X) :=
  addShared false testcase env x

/-- The default method of the trait `ObjectiveCorpus`. -/
def addObjective [Corpus X I Env] (testcase : Testcase I) (env : Env) (x : X) :
    Option (Result TestcaseId × X) :=
  Corpus.addInner true testcase env x

end

/-- What both corpora do with the result of their store: the scheduler hears
of a stored testcase, not of a duplicate. -/
def notifyStored {SC : Type} [Scheduler SC] (res : Result StorageResult) (sc : SC) :
    Result TestcaseId × SC :=
  match res with
  | .error err => (.error err, sc)
  | .ok (.stored id) =>
    match Scheduler.onAdd id sc with
    | (.error err, sc) => (.error err, sc)
    | (.ok (), sc) => (.ok id, sc)
  | .ok (.duplicate id) => (.ok id, sc)

structure SingleCorpus (S SC : Type) where
  store : S
  scheduler : SC

namespace SingleCorpus

variable {S I Env SC : Type} [Input I] [Store S I Env] [Scheduler SC]

def addInner (enabled : Bool) (testcase : Testcase I) (env : Env) (x : SingleCorpus S SC) :
    Option (Result TestcaseId × SingleCorpus S SC) :=
  (Store.addShared enabled testcase env x.store).map fun (res, store) =>
    (res.map StorageResult.intoTestcaseId, { x with store })

def addShared (enabled : Bool) (testcase : Testcase I) (env : Env) (x : SingleCorpus S SC) :
    Option (Result TestcaseId × SingleCorpus S SC) :=
  (Store.addShared enabled testcase env x.store).map fun (res, store) =>
    ((notifyStored res x.scheduler).1, { store, scheduler := (notifyStored res x.scheduler).2 })

instance : ScheduledCorpus (SingleCorpus S SC) I Env SC where
  count x := Store.count x.store
  countDisabled x := Store.countDisabled x.store
  countAll x := Store.countAll x.store
  addInner := addInner
  getFrom enabled id x := some (Store.getFrom enabled id x.store, x)
  scheduler := SingleCorpus.scheduler
  setScheduler scheduler x := { x with scheduler }
  addShared := addShared

end SingleCorpus

structure CombinedCorpus (C CS FS SC : Type) where
  cacheStore : CS
  fallbackStore : FS
  cache : C
  scheduler : SC

namespace CombinedCorpus

variable {C CS FS I Env SC : Type} [Input I] [Store FS I Env] [Cache C CS FS I Env]
  [Scheduler SC]

def addInner (enabled : Bool) (testcase : Testcase I) (env : Env)
    (x : CombinedCorpus C CS FS SC) : Option (Result TestcaseId × CombinedCorpus C CS FS SC) :=
  (Cache.addShared enabled testcase env x.cache x.cacheStore x.fallbackStore).map
    fun (res, cache, cacheStore, fallbackStore) =>
      (res.map StorageResult.intoTestcaseId, { x with cache, cacheStore, fallbackStore })

def getFrom (enabled : Bool) (id : TestcaseId) (x : CombinedCorpus C CS FS SC) :
    Option (Result (Testcase I) × CombinedCorpus C CS FS SC) :=
  (Cache.getFrom enabled id x.cache x.cacheStore x.fallbackStore).map
    fun (res, cache, cacheStore) => (res, { x with cache, cacheStore })

def addShared (enabled : Bool) (testcase : Testcase I) (env : Env)
    (x : CombinedCorpus C CS FS SC) : Option (Result TestcaseId × CombinedCorpus C CS FS SC) :=
  (Cache.addShared enabled testcase env x.cache x.cacheStore x.fallbackStore).map
    fun (res, cache, cacheStore, fallbackStore) =>
      ((notifyStored res x.scheduler).1,
        { cache, cacheStore, fallbackStore, scheduler := (notifyStored res x.scheduler).2 })

/-- The trait `Cache` on the stores of a corpus; no corpus calls it. -/
def disable (id : TestcaseId) (x : CombinedCorpus C CS FS SC) :
    Option (Result Unit × CombinedCorpus C CS FS SC) :=
  (Cache.disable id x.cache x.cacheStore x.fallbackStore).map
    fun (res, cache, cacheStore, fallbackStore) =>
      (res, { x with cache, cacheStore, fallbackStore })

instance : ScheduledCorpus (CombinedCorpus C CS FS SC) I Env SC where
  count x := Store.count x.fallbackStore
  countDisabled x := Store.countDisabled x.fallbackStore
  countAll x := Store.countAll x.fallbackStore
  addInner := addInner
  getFrom := getFrom
  scheduler := CombinedCorpus.scheduler
  setScheduler scheduler x := { x with scheduler }
  addShared := addShared

end CombinedCorpus

/-! ## Operations on a corpus -/

inductive CorpusOp (I Env : Type) [Input I] where
  | add (enabled : Bool) (testcase : Testcase I) (env : Env)
  | getFrom (enabled : Bool) (id : TestcaseId)

/-- With the operation of the cache that no corpus calls. -/
inductive CacheOp (I Env : Type) [Input I] where
  | corpus (op : CorpusOp I Env)
  | disable (id : TestcaseId)

section

variable {I Env SC : Type} [Input I]

/-- The corpus after one operation, whatever its result. -/
def CorpusOp.exec {X : Type} [ScheduledCorpus X I Env SC] (x : X) : CorpusOp I Env → Option X
  | .add enabled testcase env => (ScheduledCorpus.addShared enabled testcase env x).map (·.2)
  | .getFrom enabled id => (Corpus.getFrom enabled id x).map (·.2)

def CacheOp.exec {C CS FS : Type} [Store FS I Env] [Cache C CS FS I Env] [Scheduler SC]
    (x : CombinedCorpus C CS FS SC) : CacheOp I Env → Option (CombinedCorpus C CS FS SC)
  | .corpus op => op.exec x
  | .disable id => (x.disable id).map (·.2)

end

end Libaflmm
