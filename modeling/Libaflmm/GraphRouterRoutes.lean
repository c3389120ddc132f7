import Libaflmm.GraphRouter
import Mathlib.Data.List.ProdSigma

/-!
# What a finalized router routes

Groups and workers are registered one call at a time; a call that is refused
leaves the router as it was. `finalize` expands the declared routes between
group keys to edges between workers, and enters every edge into both tables.
The tables hold exactly the edges: from a worker to every other worker of a
group its own group has a route to.
-/

namespace Libaflmm

section

variable {K : Type} [DecidableEq K] [Debug K]

/-- The routes of a builder, declared one after another. -/
def GraphRouterBuilder.routeAll (routes : List (K × K)) (self : GraphRouterBuilder K) :
    Result (GraphRouterBuilder K) :=
  routes.foldlM (fun builder edge => builder.route edge.1 edge.2) self

/-- A registration with its answer. -/
inductive RouterEvent (K : Type) where
  | group (key : K) (answer : Result GroupId)
  | worker (desc : StdDescriptor) (answer : Result Unit)

namespace GraphRouter

/-- The registrations of a router, in order, from one state to another. -/
inductive Registers : GraphRouter K → List (RouterEvent K) → GraphRouter K → Prop where
  | nil (router) : Registers router [] router
  | group {router mid router' events key answer} :
      (registerGroup key).run router = some (answer, mid) → Registers mid events router' →
      Registers router (.group key answer :: events) router'
  | worker {router mid router' events desc answer} :
      (registerWorker desc).run router = some (answer, mid) → Registers mid events router' →
      Registers router (.worker desc answer :: events) router'

end GraphRouter

/-- The worker was registered in the group with the key. -/
def InGroup (events : List (RouterEvent K)) (worker : WorkerId) (key : K) : Prop :=
  ∃ id, .group key (.ok id) ∈ events ∧ .worker ⟨worker, id⟩ (.ok ()) ∈ events

/-- One of the declared routes goes from the group of `s` to the group of `d`. -/
def RouteDeclared (routes : List (K × K)) (events : List (RouterEvent K)) (s d : WorkerId) : Prop :=
  ∃ edge ∈ routes, InGroup events s edge.1 ∧ InGroup events d edge.2

namespace GraphRouter

/-! ## Registration -/

/-- What the router knows of the registrations so far. -/
structure Registered (routes : List (K × K)) (events : List (RouterEvent K))
    (router : GraphRouter K) : Prop where
  routes : ∀ edge, edge ∈ router.routes ↔ edge ∈ routes
  groupKeys : ∀ key id, router.groupKeys.lookup key = some id ↔ .group key (.ok id) ∈ events
  workers : ∀ w id, router.workers.lookup w = some id ↔ .worker ⟨w, id⟩ (.ok ()) ∈ events
  members : ∀ id set, router.groupIds.lookup id = some set →
    ∀ w, w ∈ set ↔ router.workers.lookup w = some id
  known : ∀ w id, router.workers.lookup w = some id → id ∈ router.groupIds
  fresh : ∀ id ∈ router.groupIds, id.id < router.groupIdCtr
  dsts : router.dsts = ∅
  srcs : router.srcs = ∅

theorem mem_routeAll {routes : List (K × K)} {builder builder' : GraphRouterBuilder K}
    (h : builder.routeAll routes = .ok builder') (edge : K × K) :
    edge ∈ builder'.routes ↔ edge ∈ builder.routes ∨ edge ∈ routes := by
  induction routes generalizing builder with
  | nil =>
      obtain rfl := Except.ok.inj h
      simp
  | cons first routes ih =>
      unfold GraphRouterBuilder.routeAll at h
      rw [List.foldlM_cons] at h
      unfold GraphRouterBuilder.route at h
      split at h
      · cases h
      · have hrest := @ih ⟨builder.routes.insert first ()⟩ h
        rw [hrest, AList.mem_insert, List.mem_cons]
        tauto

theorem registered_build {routes : List (K × K)} {builder : GraphRouterBuilder K}
    (h : GraphRouterBuilder.default.routeAll routes = .ok builder) :
    Registered routes [] builder.build where
  routes edge := by
    rw [GraphRouterBuilder.build, mem_routeAll h]
    simp [GraphRouterBuilder.default]
  groupKeys key id := by simp [GraphRouterBuilder.build]
  workers w id := by simp [GraphRouterBuilder.build]
  members id set h := by simp [GraphRouterBuilder.build] at h
  known w id h := by simp [GraphRouterBuilder.build] at h
  fresh id h := absurd h (AList.notMem_empty id)
  dsts := rfl
  srcs := rfl

variable {routes : List (K × K)} {events : List (RouterEvent K)} {router router' : GraphRouter K}

omit [DecidableEq K] [Debug K] in
theorem run_checkRegistering (router : GraphRouter K) :
    (checkRegistering : Routing K Unit).run router = some
      (if router.finalized then .error (.illegalArgument
          "graph router has already been finalized, it cannot register anything else")
        else .ok (), router) := by
  unfold checkRegistering
  rw [Call.run_bind_of_ok (Call.run_read _ _)]
  split <;> rfl

omit [Debug K] in
/-- A group that is registered gets an id of its own, and is empty. -/
theorem registerGroup_cases {key : K} {answer : Result GroupId}
    (h : (registerGroup key).run router = some (answer, router')) :
    (∃ e, answer = .error e ∧ router' = router) ∨
    (router.groupKeys.lookup key = none ∧ answer = .ok ⟨router.groupIdCtr⟩ ∧
      router' = { router with
        groupIdCtr := router.groupIdCtr + 1
        groupIds := router.groupIds.insert ⟨router.groupIdCtr⟩ ∅
        groupKeys := router.groupKeys.insert key ⟨router.groupIdCtr⟩ }) := by
  unfold registerGroup at h
  by_cases hfinalized : router.finalized
  · rw [Call.run_bind_of_error
      ((run_checkRegistering router).trans (by rw [if_pos hfinalized]))] at h
    obtain ⟨rfl, rfl⟩ := Prod.mk.inj (Option.some.inj h)
    exact .inl ⟨_, rfl, rfl⟩
  · rw [Call.run_bind_of_ok ((run_checkRegistering router).trans (by rw [if_neg hfinalized])),
      Call.run_bind_of_ok (Call.run_read _ _)] at h
    cases hlookup : router.groupKeys.lookup key with
    | some registered =>
        rw [hlookup] at h
        obtain ⟨rfl, rfl⟩ := Prod.mk.inj (Option.some.inj h)
        exact .inl ⟨_, rfl, rfl⟩
    | none =>
        rw [hlookup] at h
        obtain ⟨rfl, rfl⟩ := Prod.mk.inj (Option.some.inj h)
        exact .inr ⟨rfl, rfl, rfl⟩

omit [DecidableEq K] [Debug K] in
theorem registerWorker_cases {desc : StdDescriptor} {answer : Result Unit}
    (h : (registerWorker desc).run router = some (answer, router')) :
    (∃ e, answer = .error e ∧ router' = router) ∨
    (∃ members, desc.workerId ∉ router.workers ∧
      router.groupIds.lookup desc.groupId = some members ∧ answer = .ok () ∧
      router' = { router with
        workers := router.workers.insert desc.workerId desc.groupId
        groupIds := router.groupIds.replace desc.groupId
          (members.insert desc.workerId ()) }) := by
  unfold registerWorker at h
  by_cases hfinalized : router.finalized
  · rw [Call.run_bind_of_error
      ((run_checkRegistering router).trans (by rw [if_pos hfinalized]))] at h
    obtain ⟨rfl, rfl⟩ := Prod.mk.inj (Option.some.inj h)
    exact .inl ⟨_, rfl, rfl⟩
  · rw [Call.run_bind_of_ok ((run_checkRegistering router).trans (by rw [if_neg hfinalized])),
      Call.run_bind_of_ok (Call.run_read _ _)] at h
    by_cases hworker : desc.workerId ∈ router.workers
    · rw [if_pos hworker] at h
      obtain ⟨rfl, rfl⟩ := Prod.mk.inj (Option.some.inj h)
      exact .inl ⟨_, rfl, rfl⟩
    · rw [if_neg hworker, Call.run_bind_of_ok (Call.run_read _ _)] at h
      cases hlookup : router.groupIds.lookup desc.groupId with
      | none =>
          rw [hlookup] at h
          obtain ⟨rfl, rfl⟩ := Prod.mk.inj (Option.some.inj h)
          exact .inl ⟨_, rfl, rfl⟩
      | some members =>
          rw [hlookup] at h
          obtain ⟨rfl, rfl⟩ := Prod.mk.inj (Option.some.inj h)
          exact .inr ⟨members, hworker, rfl, rfl, rfl⟩

omit [Debug K] in
/-- An answer that is an error adds nothing to what is registered. -/
theorem Registered.refused (h : Registered routes events router) {event : RouterEvent K}
    (hgroup : ∀ key id, event ≠ .group key (.ok id))
    (hworker : ∀ desc, event ≠ .worker desc (.ok ())) :
    Registered routes (events ++ [event]) router :=
  { h with
    groupKeys := fun key id => by
      rw [h.groupKeys, List.mem_append, List.mem_singleton]
      exact (or_iff_left fun heq => hgroup key id heq.symm).symm
    workers := fun w id => by
      rw [h.workers, List.mem_append, List.mem_singleton]
      exact (or_iff_left fun heq => hworker _ heq.symm).symm }

omit [Debug K] in
theorem Registered.registerGroup (h : Registered routes events router) {key : K}
    {answer : Result GroupId}
    (hrun : (GraphRouter.registerGroup key).run router = some (answer, router')) :
    Registered routes (events ++ [.group key answer]) router' := by
  rcases registerGroup_cases hrun with ⟨e, rfl, rfl⟩ | ⟨hnew, rfl, rfl⟩
  · exact h.refused (by simp) (by simp)
  have hfresh : (⟨router.groupIdCtr⟩ : GroupId) ∉ router.groupIds :=
    fun hmem => Nat.lt_irrefl _ (h.fresh _ hmem)
  refine ⟨h.routes, fun key' id => ?_, fun w id => ?_, fun id set hset w => ?_, fun w id hw => ?_,
    fun id hid => ?_, h.dsts, h.srcs⟩
  · rw [HashMap.lookup_insert, List.mem_append, List.mem_singleton, ← h.groupKeys]
    split
    · next heq =>
        subst heq
        simp [hnew, eq_comm]
    · next hne => simp [hne]
  · simp [h.workers w id]
  · rw [HashMap.lookup_insert] at hset
    split at hset
    · next heq =>
        obtain rfl := Option.some.inj hset
        refine iff_of_false (AList.notMem_empty w) fun hw => ?_
        exact hfresh (heq ▸ h.known w id hw)
    · exact h.members id set hset w
  · exact (AList.mem_insert _).mpr (.inr (h.known w id hw))
  · rcases (AList.mem_insert _).mp hid with rfl | hid
    · exact Nat.lt_succ_self _
    · exact Nat.lt_succ_of_lt (h.fresh id hid)

omit [Debug K] in
theorem Registered.registerWorker (h : Registered routes events router) {desc : StdDescriptor}
    {answer : Result Unit}
    (hrun : (GraphRouter.registerWorker desc).run router = some (answer, router')) :
    Registered routes (events ++ [.worker desc answer]) router' := by
  rcases registerWorker_cases hrun with ⟨e, rfl, rfl⟩ | ⟨members, hnew, hgroup, rfl, rfl⟩
  · exact h.refused (by simp) (by simp)
  have hmem : desc.groupId ∈ router.groupIds :=
    AList.lookup_isSome.mp (by rw [hgroup]; rfl)
  have hnone : router.workers.lookup desc.workerId = none := AList.lookup_eq_none.mpr hnew
  refine ⟨h.routes, fun key' id => ?_, fun w id => ?_, fun id set hset w => ?_, fun w id hw => ?_,
    fun id hid => ?_, h.dsts, h.srcs⟩
  · simp [h.groupKeys key' id]
  · rw [HashMap.lookup_insert, List.mem_append, List.mem_singleton, ← h.workers]
    split
    · next heq =>
        subst heq
        rcases desc with ⟨worker, group⟩
        simp [hnone, eq_comm]
    · next hne =>
        rcases desc with ⟨worker, group⟩
        simp [hne]
  · rw [HashMap.lookup_replace hmem] at hset
    rw [HashMap.lookup_insert]
    split at hset
    · next heq =>
        obtain rfl := Option.some.inj hset
        rw [AList.mem_insert, h.members _ _ hgroup, heq]
        split
        · next hw => simp [hw]
        · next hw => simp [hw]
    · next hne =>
        rw [h.members id set hset]
        split
        · next hw =>
            rw [hw, hnone]
            simp [Ne.symm hne]
        · rfl
  · rw [HashMap.lookup_insert] at hw
    rw [AList.mem_replace]
    split at hw
    · obtain rfl := Option.some.inj hw
      exact hmem
    · exact h.known w id hw
  · exact h.fresh id (AList.mem_replace.mp hid)

omit [Debug K] in
/-- **What is registered after any sequence of registrations.** -/
theorem Registered.registers {before : List (RouterEvent K)} (h : Registered routes before router)
    (hreg : Registers router events router') : Registered routes (before ++ events) router' := by
  induction hreg generalizing before with
  | nil => rwa [List.append_nil]
  | group hrun hrest ih =>
      rw [← List.singleton_append, ← List.append_assoc]
      exact ih (h.registerGroup hrun)
  | worker hrun hrest ih =>
      rw [← List.singleton_append, ← List.append_assoc]
      exact ih (h.registerWorker hrun)

/-! ## Finalizing -/

theorem mem_resolveRoutes {groupKeys : HashMap K GroupId} {keyRoutes : List (K × K)}
    {groupRoutes groupRoutes' : HashSet (GroupId × GroupId)}
    (h : resolveRoutes groupKeys keyRoutes groupRoutes = .ok groupRoutes')
    (route : GroupId × GroupId) :
    route ∈ groupRoutes' ↔ route ∈ groupRoutes ∨
      ∃ edge ∈ keyRoutes, groupKeys.lookup edge.1 = some route.1 ∧
        groupKeys.lookup edge.2 = some route.2 := by
  induction keyRoutes generalizing groupRoutes with
  | nil =>
      obtain rfl := Except.ok.inj h
      simp
  | cons first keyRoutes ih =>
      rcases first with ⟨srcKey, dstKey⟩
      rw [resolveRoutes] at h
      cases hsrc : groupKeys.lookup srcKey with
      | none =>
          rw [hsrc] at h
          cases h
      | some src =>
          cases hdst : groupKeys.lookup dstKey with
          | none =>
              rw [hsrc, hdst] at h
              cases h
          | some dst =>
              rw [hsrc, hdst] at h
              rw [ih h, AList.mem_insert, List.exists_mem_cons_iff, hsrc, hdst, Option.some_inj,
                Option.some_inj, Prod.ext_iff, eq_comm (a := src), eq_comm (a := dst)]
              tauto

def sourcesOf (router : GraphRouter K) (worker : WorkerId) : List WorkerId :=
  (router.srcs.lookup worker).elim [] AList.keys

/-- The tables hold the edges entered so far. -/
structure Tabulates (groupIds : HashMap GroupId (HashSet WorkerId))
    (edges : List (WorkerId × WorkerId)) (router : GraphRouter K) : Prop where
  groupIds : router.groupIds = groupIds
  finalized : router.finalized
  destinations : ∀ s d, d ∈ router.destinationsOf s ↔ (s, d) ∈ edges
  sources : ∀ s d, s ∈ router.sourcesOf d ↔ (s, d) ∈ edges
  apart : ∀ s d, (s, d) ∈ edges → s ≠ d

omit [DecidableEq K] [Debug K] in
theorem run_unwrap {α : Type} {o : GraphRouter K → Option α} {a : α}
    (h : (unwrap o).run router = some (.ok a, router')) : o router = some a ∧ router' = router := by
  obtain ⟨b, hb, heq⟩ := Option.map_eq_some_iff.mp h
  obtain ⟨hba, rfl⟩ := Prod.mk.inj heq
  exact ⟨hb.trans (congrArg some (Except.ok.inj hba)), rfl⟩

/-- A worker that is added to the set of a worker in a table. -/
theorem mem_keys_elim_replace {table : HashMap WorkerId (HashSet WorkerId)} {a : WorkerId}
    {set : HashSet WorkerId} (h : table.lookup a = some set) (b w v : WorkerId) :
    v ∈ ((table.replace a (set.insert b ())).lookup w).elim [] AList.keys ↔
      v ∈ (table.lookup w).elim [] AList.keys ∨ (w = a ∧ v = b) := by
  rw [HashMap.lookup_replace (AList.lookup_isSome.mp (by rw [h]; rfl))]
  split
  · next heq =>
      subst heq
      rw [h]
      show v ∈ set.insert b () ↔ v ∈ set ∨ _
      rw [AList.mem_insert]
      tauto
  · next hne => simp [hne]

variable {groupIds : HashMap GroupId (HashSet WorkerId)} {edges : List (WorkerId × WorkerId)}

omit [DecidableEq K] [Debug K] in
theorem Tabulates.addEdge (h : Tabulates groupIds edges router) {s d : WorkerId}
    (hrun : (GraphRouter.addEdge s d).run router = some (.ok ⟨⟩, router')) :
    Tabulates groupIds (edges ++ [(s, d)]) router' := by
  unfold GraphRouter.addEdge at hrun
  split at hrun
  · cases hrun
  · next hne =>
      obtain ⟨dsts, mid, hread, hrest⟩ := Call.run_bind_eq_ok.mp hrun
      obtain ⟨hdsts, rfl⟩ := run_unwrap hread
      rw [Call.run_bind_of_ok (Call.run_update _ _)] at hrest
      obtain ⟨srcs, mid', hread', hlast⟩ := Call.run_bind_eq_ok.mp hrest
      obtain ⟨hsrcs, rfl⟩ := run_unwrap hread'
      obtain ⟨-, rfl⟩ := Prod.mk.inj (Option.some.inj hlast)
      refine ⟨h.groupIds, h.finalized, fun s' d' => ?_, fun s' d' => ?_, fun s' d' hmem => ?_⟩
      · rw [destinationsOf, mem_keys_elim_replace hdsts, List.mem_append, List.mem_singleton,
          Prod.mk.injEq, ← h.destinations]
        rfl
      · rw [sourcesOf, mem_keys_elim_replace hsrcs, List.mem_append, List.mem_singleton,
          Prod.mk.injEq, ← h.sources, and_comm (a := s' = s)]
        rfl
      · rcases List.mem_append.mp hmem with hmem | hmem
        · exact h.apart s' d' hmem
        · obtain ⟨rfl, rfl⟩ := Prod.mk.inj (List.mem_singleton.mp hmem)
          exact hne

/-- The members of a group, none of a group that is not there. -/
def membersOf (groupIds : HashMap GroupId (HashSet WorkerId)) (group : GroupId) : List WorkerId :=
  (groupIds.lookup group).elim [] AList.keys

/-- The edges a route between two groups stands for. -/
def edgesOf (groupIds : HashMap GroupId (HashSet WorkerId)) (route : GroupId × GroupId) :
    List (WorkerId × WorkerId) :=
  membersOf groupIds route.1 ×ˢ membersOf groupIds route.2

omit [DecidableEq K] [Debug K] in
theorem Tabulates.addRoute (h : Tabulates groupIds edges router) {route : GroupId × GroupId}
    (hrun : (GraphRouter.addRoute route).run router = some (.ok ⟨⟩, router')) :
    Tabulates groupIds (edges ++ edgesOf groupIds route) router' := by
  obtain ⟨srcs, mid, hread, hrest⟩ := Call.run_bind_eq_ok.mp hrun
  obtain ⟨hsrcs, rfl⟩ := run_unwrap hread
  obtain ⟨dsts, mid', hread', hloop⟩ := Call.run_bind_eq_ok.mp hrest
  obtain ⟨hdsts, rfl⟩ := run_unwrap hread'
  rw [h.groupIds] at hsrcs hdsts
  have hedges : edgesOf groupIds route = srcs.keys ×ˢ dsts.keys := by
    rw [edgesOf, membersOf, membersOf, hsrcs, hdsts]
    rfl
  rw [hedges]
  refine Call.run_forM_invariant
    (fun pre => Tabulates groupIds (edges ++ pre ×ˢ dsts.keys)) ?_
    (by rwa [List.nil_product, List.append_nil]) hloop
  intro pre src s t hs hinner
  have hrow := Call.run_forM_invariant
    (fun row => Tabulates groupIds (edges ++ pre ×ˢ dsts.keys ++ row.map (src, ·)))
    (fun row dst s t hs hstep => by simpa [List.append_assoc] using hs.addEdge hstep)
    (by rwa [List.map_nil, List.append_nil]) hinner
  simpa [SProd.sprod, List.product, List.append_assoc] using hrow

omit [Debug K] in
/-- The tables before the routes are added. -/
theorem tabulates_of_registered (h : Registered routes events router)
    (hrun : (router.workers.keys.forM fun worker => (do
      .update fun router => { router with srcs := router.srcs.insert worker ∅ }
      .update fun router => { router with dsts := router.dsts.insert worker ∅ } :
        Routing K Unit)).run { router with finalized := true } = some (.ok ⟨⟩, router')) :
    Tabulates router.groupIds [] router' := by
  refine Call.run_forM_invariant (fun _ => Tabulates router.groupIds []) ?_ ?_ hrun
  · intro pre worker s t hs hstep
    obtain ⟨-, rfl⟩ := Prod.mk.inj (Option.some.inj hstep)
    refine ⟨hs.groupIds, hs.finalized, fun s' d' => ?_, fun s' d' => ?_, fun _ _ => by simp⟩
    · rw [← hs.destinations, destinationsOf, destinationsOf, HashMap.lookup_insert]
      have hnone := hs.destinations s' d'
      split
      · simpa [destinationsOf] using hnone
      · rfl
    · rw [← hs.sources, sourcesOf, sourcesOf, HashMap.lookup_insert]
      have hnone := hs.sources s' d'
      split
      · simpa [sourcesOf] using hnone
      · rfl
  · refine ⟨rfl, rfl, fun s d => ?_, fun s d => ?_, fun _ _ => by simp⟩
    · simp [destinationsOf, h.dsts]
    · simp [sourcesOf, h.srcs]

/-- A finalized router holds the edges of the routes between its groups. -/
theorem tabulates_of_finalize (h : Registered routes events router)
    (hrun : (finalize : Routing K Unit).run router = some (.ok (), router')) :
    ∃ groupRoutes : HashSet (GroupId × GroupId),
      Tabulates router.groupIds (groupRoutes.keys.flatMap (edgesOf router.groupIds)) router' ∧
      ∀ route, route ∈ groupRoutes ↔ ∃ edge ∈ routes,
        router.groupKeys.lookup edge.1 = some route.1 ∧
        router.groupKeys.lookup edge.2 = some route.2 := by
  unfold finalize at hrun
  rw [Call.run_bind_of_ok (Call.run_read _ _), Call.run_bind_of_ok (Call.run_update _ _)] at hrun
  split at hrun
  · cases hrun
  rw [Call.run_bind_of_ok (Call.run_read _ _), Call.run_bind_of_ok (Call.run_read _ _)] at hrun
  obtain ⟨groupRoutes, mid, hread, hrest⟩ := Call.run_bind_eq_ok.mp hrun
  obtain ⟨hresolve, rfl⟩ := Prod.mk.inj (Option.some.inj hread)
  rw [Call.run_bind_of_ok (Call.run_read _ _)] at hrest
  obtain ⟨⟨⟩, mid, hempty, hloop⟩ := Call.run_bind_eq_ok.mp hrest
  refine ⟨groupRoutes, ?_, fun route => ?_⟩
  · refine Call.run_forM_invariant
      (fun pre => Tabulates router.groupIds (pre.flatMap (edgesOf router.groupIds))) ?_
      (tabulates_of_registered h hempty) hloop
    intro pre route s t hs hstep
    rw [List.flatMap_append, List.flatMap_singleton]
    exact hs.addRoute hstep
  · rw [mem_resolveRoutes hresolve]
    refine (or_iff_right (AList.notMem_empty route)).trans ?_
    refine exists_congr fun edge => and_congr_left fun _ => ?_
    exact h.routes edge

omit [Debug K] in
/-- The members of the groups are the workers registered in them. -/
theorem Registered.mem_membersOf (h : Registered routes events router) (id : GroupId)
    (w : WorkerId) : w ∈ membersOf router.groupIds id ↔ .worker ⟨w, id⟩ (.ok ()) ∈ events := by
  rw [← h.workers, membersOf]
  cases hset : router.groupIds.lookup id with
  | none =>
      refine iff_of_false (List.not_mem_nil) fun hw => ?_
      exact AList.lookup_eq_none.mp hset (h.known w id hw)
  | some set => exact h.members id set hset w

/-- **A finalized router routes what was declared.** The destinations and the
sources of a worker are the other workers whose groups a declared route joins
to its own. -/
theorem destinations_iff_sources_iff_routeDeclared {builder : GraphRouterBuilder K}
    (hb : GraphRouterBuilder.default.routeAll routes = .ok builder)
    (hreg : Registers builder.build events router)
    (hrun : (finalize : Routing K Unit).run router = some (.ok (), router')) (s d : WorkerId) :
    ∃ dsts srcs, router'.destinations s = some dsts ∧ router'.sources d = some srcs ∧
      (d ∈ dsts ↔ s ∈ srcs) ∧ (d ∈ dsts ↔ s ≠ d ∧ RouteDeclared routes events s d) := by
  have h := (registered_build hb).registers hreg
  obtain ⟨groupRoutes, htab, hroutes⟩ := tabulates_of_finalize h hrun
  refine ⟨router'.destinationsOf s, router'.sourcesOf d, ?_, ?_, ?_, ?_⟩
  · exact if_pos htab.finalized
  · exact if_pos htab.finalized
  · rw [htab.destinations, htab.sources]
  have hedge : (s, d) ∈ groupRoutes.keys.flatMap (edgesOf router.groupIds) ↔
      RouteDeclared routes events s d := by
    rw [List.mem_flatMap]
    constructor
    · rintro ⟨route, hroute, hmem⟩
      obtain ⟨edge, hedge, hsrc, hdst⟩ := (hroutes route).mp hroute
      obtain ⟨hs, hd⟩ := List.mem_product.mp hmem
      exact ⟨edge, hedge, ⟨route.1, (h.groupKeys _ _).mp hsrc, (h.mem_membersOf _ _).mp hs⟩,
        route.2, (h.groupKeys _ _).mp hdst, (h.mem_membersOf _ _).mp hd⟩
    · rintro ⟨edge, hedge, ⟨src, hsrc, hs⟩, dst, hdst, hd⟩
      refine ⟨(src, dst), (hroutes _).mpr ⟨edge, hedge, (h.groupKeys _ _).mpr hsrc,
        (h.groupKeys _ _).mpr hdst⟩, ?_⟩
      exact List.mem_product.mpr ⟨(h.mem_membersOf _ _).mpr hs, (h.mem_membersOf _ _).mpr hd⟩
  rw [htab.destinations, hedge]
  exact (and_iff_right_of_imp fun hd => htab.apart s d (hedge.mpr hd)).symm

/-- Two groups with a worker each, and a route from the first to the second. -/
theorem destinations_iff_two_groups :
    ∃ builder router router' dsts srcs,
      GraphRouterBuilder.default.routeAll [(10, 20)] = .ok builder ∧
      Registers builder.build [.group 10 (.ok ⟨0⟩), .group 20 (.ok ⟨1⟩),
        .worker ⟨⟨7⟩, ⟨0⟩⟩ (.ok ()), .worker ⟨⟨8⟩, ⟨1⟩⟩ (.ok ())] router ∧
      (finalize : Routing Nat Unit).run router = some (.ok (), router') ∧
      router'.destinations ⟨7⟩ = some dsts ∧ router'.sources ⟨8⟩ = some srcs ∧
      ⟨8⟩ ∈ dsts ∧ ⟨7⟩ ∈ srcs := by
  have hb : GraphRouterBuilder.default.routeAll [((10 : Nat), (20 : Nat))] =
      .ok ⟨AList.insert (10, 20) () ∅⟩ := rfl
  have hreg : ∃ router, Registers (GraphRouterBuilder.build ⟨AList.insert (10, 20) () ∅⟩)
      [.group 10 (.ok ⟨0⟩), .group 20 (.ok ⟨1⟩), .worker ⟨⟨7⟩, ⟨0⟩⟩ (.ok ()),
        .worker ⟨⟨8⟩, ⟨1⟩⟩ (.ok ())] router ∧
      ∃ router', (finalize : Routing Nat Unit).run router = some (.ok (), router') := by
    refine ⟨_, .group rfl (.group rfl (.worker rfl (.worker rfl (.nil _)))), ?_⟩
    exact ⟨_, rfl⟩
  obtain ⟨router, hreg, router', hrun⟩ := hreg
  obtain ⟨dsts, srcs, hdsts, hsrcs, hiff, hmem⟩ :=
    destinations_iff_sources_iff_routeDeclared hb hreg hrun ⟨7⟩ ⟨8⟩
  have hdst : ⟨8⟩ ∈ dsts := hmem.mpr ⟨by decide, (10, 20), by simp, ⟨⟨0⟩, by simp, by simp⟩,
    ⟨1⟩, by simp, by simp⟩
  exact ⟨_, _, _, dsts, srcs, hb, hreg, hrun, hdsts, hsrcs, hdst, hiff.mp hdst⟩

end GraphRouter

end

end Libaflmm
