import Libaflmm.Calls
import Libaflmm.HashTables
import Libaflmm.Store

/-!
# Messages and their routing

Commands go from the controller to a worker, notifications the other way.
The `GraphRouter` says which workers a notification is for: groups of
workers are registered under keys, and `finalize` turns the declared routes
between keys into tables of destinations and sources per worker. The tables
are not touched again.
-/

namespace Libaflmm

/-- The trait `Debug`, as `{:?}` prints a value. -/
class Debug (α : Type) where
  fmt : α → String

structure WorkerId where
  val : Nat
deriving DecidableEq, Repr

structure GroupId where
  id : Nat
deriving DecidableEq, Repr

instance : Debug Nat := ⟨toString⟩

instance : Debug WorkerId := ⟨fun worker => s!"WorkerId({worker.val})"⟩

instance : Debug GroupId := ⟨fun group => s!"GroupId \x7b id: {group.id} \x7d"⟩

/-! ## Messages -/

inductive GenericCommand (H U : Type) where
  | shutdown
  | importFrom (source : GroupId) (id : TestcaseId) (handle : H)
  | custom (payload : U)
deriving DecidableEq

inductive GenericNotification (H U : Type) where
  | newTestcase (id : TestcaseId) (handle : H)
  | custom (payload : U)
deriving DecidableEq

def GenericNotification.intoCommand {H U : Type} (source : GroupId) :
    GenericNotification H U → Result (Option (GenericCommand H U))
  | .newTestcase id handle => .ok (some (.importFrom source id handle))
  | .custom payload => .ok (some (.custom payload))

/-- The two ids a descriptor is registered under. -/
structure StdDescriptor where
  workerId : WorkerId
  groupId : GroupId
deriving DecidableEq, Repr

/-! ## The router -/

structure GraphRouter (K : Type) where
  groupKeys : HashMap K GroupId
  groupIds : HashMap GroupId (HashSet WorkerId)
  workers : HashMap WorkerId GroupId
  routes : HashSet (K × K)
  dsts : HashMap WorkerId (HashSet WorkerId)
  srcs : HashMap WorkerId (HashSet WorkerId)
  groupIdCtr : Nat
  finalized : Bool
deriving DecidableEq

structure GraphRouterBuilder (K : Type) where
  routes : HashSet (K × K)

section

variable {K : Type} [DecidableEq K] [Debug K]

namespace GraphRouterBuilder

def default : GraphRouterBuilder K := ⟨∅⟩

def route (src dst : K) (self : GraphRouterBuilder K) : Result (GraphRouterBuilder K) :=
  if (src, dst) ∈ self.routes then
    .error (.illegalArgument s!"The route {Debug.fmt src} -> {Debug.fmt dst} already exists")
  else .ok ⟨self.routes.insert (src, dst) ()⟩

def share (node otherNode : K) (self : GraphRouterBuilder K) : Result (GraphRouterBuilder K) := do
  let self ← self.route node otherNode
  self.route otherNode node

def build (self : GraphRouterBuilder K) : GraphRouter K where
  routes := self.routes
  groupIdCtr := 0
  dsts := ∅
  finalized := false
  groupIds := ∅
  groupKeys := ∅
  srcs := ∅
  workers := ∅

end GraphRouterBuilder

namespace GraphRouter

abbrev Routing (K α : Type) := Call Error (GraphRouter K) α

/-- `HashMap::get` or `get_mut`, followed by `unwrap`. -/
def unwrap {α : Type} (o : GraphRouter K → Option α) : Routing K α :=
  .ofFn fun router => (o router).map fun a => (.ok a, router)

def allocGroupId : Routing K GroupId := .ofFn fun router =>
  some (.ok ⟨router.groupIdCtr⟩, { router with groupIdCtr := router.groupIdCtr + 1 })

def checkRegistering : Routing K Unit := do
  if (← .read finalized) then
    .ofResult (.error (.illegalArgument
      "graph router has already been finalized, it cannot register anything else"))

def registerGroup (groupKey : K) : Routing K GroupId := do
  checkRegistering
  match (← .read groupKeys).lookup groupKey with
  | some registered =>
    .ofResult (.error (.illegalArgument
      s!"Group with key {Debug.fmt registered} has already been registered"))
  | none =>
    let groupId ← allocGroupId
    .update fun router => { router with groupIds := router.groupIds.insert groupId ∅ }
    .update fun router => { router with groupKeys := router.groupKeys.insert groupKey groupId }
    return groupId

def registerWorker (desc : StdDescriptor) : Routing K Unit := do
  checkRegistering
  let worker := desc.workerId
  let group := desc.groupId
  if worker ∈ (← .read workers) then
    .ofResult (.error (.internalBug "The same worker has been registered multiple times"))
  else
    match (← .read groupIds).lookup group with
    | none => .ofResult (.error (.illegalArgument "An unknown group ID has been provided"))
    | some members =>
      .update fun router => { router with workers := router.workers.insert worker group }
      .update fun router =>
        { router with groupIds := router.groupIds.replace group (members.insert worker ()) }

/-- The first loop of `finalize`. Both texts name the source key. -/
def resolveRoutes (groupKeys : HashMap K GroupId) :
    List (K × K) → HashSet (GroupId × GroupId) → Result (HashSet (GroupId × GroupId))
  | [], groupRoutes => .ok groupRoutes
  | (srcKey, dstKey) :: routes, groupRoutes =>
    match groupKeys.lookup srcKey with
    | none =>
      .error (.illegalArgument s!"using unregistered source group {Debug.fmt srcKey}")
    | some src =>
      match groupKeys.lookup dstKey with
      | none =>
        .error (.illegalArgument s!"using unregistered destination group {Debug.fmt srcKey}")
      | some dst => resolveRoutes groupKeys routes (groupRoutes.insert (src, dst) ())

def addEdge (src dst : WorkerId) : Routing K Unit := do
  if src = dst then .ofResult (.error (.illegalState "groups must be disjoint"))
  else
    let dsts ← unwrap fun router => router.dsts.lookup src
    .update fun router => { router with dsts := router.dsts.replace src (dsts.insert dst ()) }
    let srcs ← unwrap fun router => router.srcs.lookup dst
    .update fun router => { router with srcs := router.srcs.replace dst (srcs.insert src ()) }

def addRoute (route : GroupId × GroupId) : Routing K Unit := do
  let srcs ← unwrap fun router => router.groupIds.lookup route.1
  let dsts ← unwrap fun router => router.groupIds.lookup route.2
  srcs.keys.forM fun src => dsts.keys.forM (addEdge src)

def finalize : Routing K Unit := do
  let finalizedBefore ← .read finalized
  .update fun router => { router with finalized := true }
  if finalizedBefore then
    .ofResult (.error (.illegalState "graph router has already been finalized"))
  else
    let groupKeys ← .read groupKeys
    let groupRoutes ← .ofResult (resolveRoutes groupKeys (← .read routes).keys ∅)
    (← .read workers).keys.forM fun worker => do
      .update fun router => { router with srcs := router.srcs.insert worker ∅ }
      .update fun router => { router with dsts := router.dsts.insert worker ∅ }
    groupRoutes.keys.forM addRoute

/-- A finalized router stays finalized. -/
def StaysFinalized (s t : GraphRouter K) : Prop := s.finalized → t.finalized

omit [DecidableEq K] [Debug K] in
instance : IsPreorder (GraphRouter K) StaysFinalized where
  refl _ h := h
  trans _ _ _ hst htu h := htu (hst h)

omit [DecidableEq K] [Debug K] in
theorem unwrap_staysFinalized {α : Type} {o : GraphRouter K → Option α} :
    (unwrap o).Keeps StaysFinalized := by
  refine Call.keeps_ofFn fun s r t h => ?_
  obtain ⟨a, -, heq⟩ := Option.map_eq_some_iff.mp h
  obtain ⟨-, rfl⟩ := Prod.mk.inj heq
  exact id

omit [DecidableEq K] [Debug K] in
theorem addRoute_staysFinalized (route : GroupId × GroupId) :
    (addRoute route : Routing K Unit).Keeps StaysFinalized := by
  refine Call.keeps_bind unwrap_staysFinalized fun srcs => ?_
  refine Call.keeps_bind unwrap_staysFinalized fun dsts => ?_
  refine Call.keeps_forM fun src _ => Call.keeps_forM fun dst _ => ?_
  unfold addEdge
  split
  · exact Call.keeps_ofResult
  · refine Call.keeps_bind unwrap_staysFinalized fun dsts => ?_
    refine Call.keeps_bind (Call.keeps_update fun _ => id) fun _ => ?_
    exact Call.keeps_bind unwrap_staysFinalized fun srcs => Call.keeps_update fun _ => id

theorem finalize_finalized (router : GraphRouter K) :
    (finalize : Routing K Unit).Leaves router fun _ t => t.finalized := by
  refine Call.leaves_bind.mpr (Call.leaves_read.mpr ?_)
  refine Call.leaves_bind.mpr (Call.leaves_update.mpr ?_)
  refine Call.Leaves.mono (Call.Keeps.leaves (R := StaysFinalized) ?_ _) fun _ t h => h rfl
  split
  · exact Call.keeps_ofResult
  · refine Call.keeps_bind Call.keeps_read fun groupKeys => ?_
    refine Call.keeps_bind Call.keeps_read fun routes => ?_
    refine Call.keeps_bind Call.keeps_ofResult fun groupRoutes => ?_
    refine Call.keeps_bind Call.keeps_read fun workers => ?_
    refine Call.keeps_bind (Call.keeps_forM fun worker _ => ?_) fun _ =>
      Call.keeps_forM fun route _ => addRoute_staysFinalized route
    exact Call.keeps_bind (Call.keeps_update fun _ => id) fun _ => Call.keeps_update fun _ => id

end GraphRouter

end

/-! ## The tables -/

namespace GraphRouter

variable {K : Type}

/-- A table lookup behind `check_finalized().unwrap()`. -/
def neighbours (table : GraphRouter K → HashMap WorkerId (HashSet WorkerId)) (worker : WorkerId)
    (router : GraphRouter K) : Option (List WorkerId) :=
  if router.finalized then some (((table router).lookup worker).elim [] AList.keys) else none

def destinations (worker : WorkerId) (router : GraphRouter K) : Option (List WorkerId) :=
  neighbours dsts worker router

def sources (worker : WorkerId) (router : GraphRouter K) : Option (List WorkerId) :=
  neighbours srcs worker router

def hasDestinations (worker : WorkerId) (router : GraphRouter K) : Option Bool :=
  (router.destinations worker).map fun dsts => dsts.length != 0

/-- The command plays no part. -/
def route (source : WorkerId) (router : GraphRouter K) : Option (Result (List WorkerId)) :=
  (router.destinations source).map .ok

/-- Where the notifications of a worker go, once the router is finalized. -/
def destinationsOf (router : GraphRouter K) (worker : WorkerId) : List WorkerId :=
  (router.dsts.lookup worker).elim [] AList.keys

theorem destinationsOf_nodup (router : GraphRouter K) (worker : WorkerId) :
    (router.destinationsOf worker).Nodup := by
  unfold destinationsOf
  cases router.dsts.lookup worker with
  | none => exact List.nodup_nil
  | some dsts => exact dsts.keys_nodup

theorem route_eq {router : GraphRouter K} (h : router.finalized) (worker : WorkerId) :
    router.route worker = some (.ok (router.destinationsOf worker)) := by
  simp [route, destinations, neighbours, h, destinationsOf]

end GraphRouter

end Libaflmm
