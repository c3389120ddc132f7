import Libaflmm.GraphRouterRoutes

/-!
# A router is finalized once

`finalize` marks the router before it looks at the routes, and fills the
tables while a route can still be refused. A router it fails on is therefore
done with: it takes no registration any more, nor a second `finalize`, and
whatever is missing must be registered before. The tables are as they were
unless a worker would have had to send to itself.
-/

namespace Libaflmm

namespace GraphRouter

variable {K : Type} [DecidableEq K] [Debug K] {router t : GraphRouter K}

/-- A route joins two groups that are not known both. -/
def NamesUnknown (router : GraphRouter K) : Prop :=
  ∃ edge ∈ router.routes, edge.1 ∉ router.groupKeys ∨ edge.2 ∉ router.groupKeys

/-- A route joins two groups with a worker in common. -/
def JoinsWorkerToItself (router : GraphRouter K) : Prop :=
  ∃ edge ∈ router.routes, ∃ src dst, router.groupKeys.lookup edge.1 = some src ∧
    router.groupKeys.lookup edge.2 = some dst ∧
    ∃ worker ∈ membersOf router.groupIds src, worker ∈ membersOf router.groupIds dst

/-- Nothing but the tables differs. -/
def SameButTables (s t : GraphRouter K) : Prop := t = { s with srcs := t.srcs, dsts := t.dsts }

omit [DecidableEq K] [Debug K] in
theorem SameButTables.trans {s u : GraphRouter K} (hst : SameButTables s t)
    (htu : SameButTables t u) : SameButTables s u := by
  unfold SameButTables at *
  rw [htu, hst]

theorem resolveRoutes_error {groupKeys : HashMap K GroupId} {keyRoutes : List (K × K)}
    {groupRoutes : HashSet (GroupId × GroupId)} {e : Error}
    (h : resolveRoutes groupKeys keyRoutes groupRoutes = .error e) :
    ∃ edge ∈ keyRoutes, edge.1 ∉ groupKeys ∨ edge.2 ∉ groupKeys := by
  induction keyRoutes generalizing groupRoutes with
  | nil => cases h
  | cons first keyRoutes ih =>
      rcases first with ⟨srcKey, dstKey⟩
      rw [resolveRoutes] at h
      cases hsrc : groupKeys.lookup srcKey with
      | none => exact ⟨_, List.mem_cons_self, .inl (AList.lookup_eq_none.mp hsrc)⟩
      | some src =>
          cases hdst : groupKeys.lookup dstKey with
          | none => exact ⟨_, List.mem_cons_self, .inr (AList.lookup_eq_none.mp hdst)⟩
          | some dst =>
              rw [hsrc, hdst] at h
              obtain ⟨edge, hedge, hunknown⟩ := ih h
              exact ⟨edge, List.mem_cons_of_mem _ hedge, hunknown⟩

/-! ## The loops over the tables -/

/-- How a loop over the tables ends that goes over the pairs in `Pair`. -/
def TablesEnd (router : GraphRouter K) (Pair : WorkerId → WorkerId → Prop) :
    Result Unit → GraphRouter K → Prop :=
  Call.EndsIn (SameButTables router) fun e t =>
    e = .illegalState "groups must be disjoint" ∧ (∃ worker, Pair worker worker) ∧
      SameButTables router t

omit [DecidableEq K] [Debug K] in
theorem leaves_unwrap {α : Type} {o : GraphRouter K → Option α}
    {Q : Result α → GraphRouter K → Prop} :
    (unwrap o).Leaves t Q ↔ ∀ a, o t = some a → Q (.ok a) t := by
  constructor
  · intro h a ho
    exact h _ _ (by rw [unwrap, Call.run_ofFn, ho]; rfl)
  · intro h r u hrun
    obtain ⟨a, ho, heq⟩ := Option.map_eq_some_iff.mp hrun
    obtain ⟨rfl, rfl⟩ := Prod.mk.inj heq
    exact h a ho

omit [DecidableEq K] [Debug K] in
theorem addEdge_leaves {Pair : WorkerId → WorkerId → Prop} {src dst : WorkerId}
    (hpair : Pair src dst) (h : SameButTables router t) :
    (addEdge src dst).Leaves t (TablesEnd router Pair) := by
  unfold addEdge
  split
  · next heq => exact Call.leaves_ofResult.mpr ⟨rfl, ⟨src, heq ▸ hpair⟩, h⟩
  · refine Call.leaves_bind.mpr (leaves_unwrap.mpr fun dsts _ => ?_)
    refine Call.leaves_bind.mpr (Call.leaves_update.mpr ?_)
    refine Call.leaves_bind.mpr (leaves_unwrap.mpr fun srcs _ => ?_)
    exact Call.leaves_update.mpr (h.trans rfl)

omit [DecidableEq K] [Debug K] in
theorem addRoute_leaves {Pair : WorkerId → WorkerId → Prop} {route : GroupId × GroupId}
    (hpair : ∀ src ∈ membersOf router.groupIds route.1, ∀ dst ∈ membersOf router.groupIds route.2,
      Pair src dst)
    (h : SameButTables router t) : (addRoute route).Leaves t (TablesEnd router Pair) := by
  have hids : t.groupIds = router.groupIds := by rw [h]
  refine Call.leaves_bind.mpr (leaves_unwrap.mpr fun srcs hsrcs => ?_)
  refine Call.leaves_bind.mpr (leaves_unwrap.mpr fun dsts hdsts => ?_)
  rw [hids] at hsrcs hdsts
  simp only [membersOf, hsrcs, hdsts, Option.elim_some] at hpair
  refine Call.leaves_forM (fun src hsrc s hs => ?_) h
  exact Call.leaves_forM (fun dst hdst s hs => addEdge_leaves (hpair src hsrc dst hdst) hs) hs

/-! ## Finalizing -/

def marked (router : GraphRouter K) : GraphRouter K := { router with finalized := true }

/-- What a `finalize` that fails has found, and what it leaves. -/
def FinalizeFails (router : GraphRouter K) (e : Error) (t : GraphRouter K) : Prop :=
  (router.finalized ∨ NamesUnknown router) ∧ t = router.marked ∨
    e = .illegalState "groups must be disjoint" ∧ JoinsWorkerToItself router ∧
      SameButTables router.marked t

theorem finalize_leaves (router : GraphRouter K) : (finalize : Routing K Unit).Leaves router
    (Call.EndsIn (SameButTables router.marked) (FinalizeFails router)) := by
  refine Call.leaves_bind.mpr (Call.leaves_read.mpr ?_)
  refine Call.leaves_bind.mpr (Call.leaves_update.mpr ?_)
  show Call.Leaves _ router.marked _
  by_cases hfinalized : router.finalized
  · rw [if_pos hfinalized]
    exact Call.leaves_ofResult.mpr (.inl ⟨.inl hfinalized, rfl⟩)
  rw [if_neg hfinalized]
  refine Call.leaves_bind.mpr (Call.leaves_read.mpr ?_)
  refine Call.leaves_bind.mpr (Call.leaves_read.mpr ?_)
  refine Call.leaves_bind.mpr (Call.leaves_ofResult.mpr ?_)
  cases hresolve : resolveRoutes router.marked.groupKeys router.marked.routes.keys ∅ with
  | error e => exact .inl ⟨.inr (resolveRoutes_error hresolve), rfl⟩
  | ok groupRoutes =>
      refine Call.leaves_bind.mpr (Call.leaves_read.mpr ?_)
      have hempty : (router.workers.keys.forM fun worker => (do
          .update fun router => { router with srcs := router.srcs.insert worker ∅ }
          .update fun router => { router with dsts := router.dsts.insert worker ∅ } :
            Routing K Unit)).Leaves router.marked
          (Call.EndsIn (SameButTables router.marked) fun _ _ => False) :=
        Call.leaves_forM (fun worker _ s hs => Call.leaves_bind.mpr
          (Call.leaves_update.mpr (Call.leaves_update.mpr (hs.trans rfl)))) rfl
      refine Call.leaves_bind.mpr (hempty.mono fun r u hu => ?_)
      cases r with
      | error e => exact hu.elim
      | ok _ =>
          refine Call.leaves_forM (fun route hroute s hs => ?_) hu
          have hends : (addRoute route : Routing K Unit).Leaves s (TablesEnd router.marked
              fun src dst => src ∈ membersOf router.groupIds route.1 ∧
                dst ∈ membersOf router.groupIds route.2) :=
            addRoute_leaves (fun src hsrc dst hdst => ⟨hsrc, hdst⟩) hs
          refine hends.mono fun r t ht => ?_
          cases r with
          | ok _ => exact ht
          | error e =>
              obtain ⟨heq, ⟨worker, hsrc, hdst⟩, hsame⟩ := ht
              obtain ⟨edge, hedge, hroute⟩ := ((mem_resolveRoutes hresolve route).mp
                hroute).resolve_left (AList.notMem_empty route)
              exact .inr ⟨heq, ⟨edge, hedge, _, _, hroute.1, hroute.2, worker, hsrc, hdst⟩, hsame⟩

theorem run_finalize_of_finalized (h : t.finalized) : (finalize : Routing K Unit).run t =
    some (.error (.illegalState "graph router has already been finalized"), t) := by
  unfold finalize
  rw [Call.run_bind_of_ok (Call.run_read _ _), Call.run_bind_of_ok (Call.run_update _ _), if_pos h]
  rcases t with ⟨⟩
  cases h
  rfl

/-- Nothing can be done with a finalized router but to route. -/
theorem refused_of_finalized (h : t.finalized) :
    (∀ key, ∃ e, (registerGroup key).run t = some (.error e, t)) ∧
      (∀ desc, ∃ e, (registerWorker desc).run t = some (.error e, t)) ∧
      ∃ e, (finalize : Routing K Unit).run t = some (.error e, t) := by
  have hcheck := (run_checkRegistering t).trans (by rw [if_pos h])
  exact ⟨fun key => ⟨_, Call.run_bind_of_error hcheck⟩,
    fun desc => ⟨_, Call.run_bind_of_error hcheck⟩, _, run_finalize_of_finalized h⟩

/-- **A router that `finalize` fails on is done with.** -/
theorem finalize_fails {e : Error}
    (h : (finalize : Routing K Unit).run router = some (.error e, t)) :
    t.finalized ∧ FinalizeFails router e t ∧
      (∀ key, ∃ e', (registerGroup key).run t = some (.error e', t)) ∧
      (∀ desc, ∃ e', (registerWorker desc).run t = some (.error e', t)) ∧
      ∃ e', (finalize : Routing K Unit).run t = some (.error e', t) :=
  have hfinalized := finalize_finalized router _ _ h
  ⟨hfinalized, finalize_leaves router _ _ h, refused_of_finalized hfinalized⟩

/-- The group 20 is not registered yet when the router is finalized. -/
theorem finalize_fails_two_groups : ∃ router t e e',
    Registers (GraphRouterBuilder.build ⟨AList.insert (10, 20) () ∅⟩) [.group 10 (.ok ⟨0⟩)] router ∧
      (finalize : Routing Nat Unit).run router = some (.error e, t) ∧ t.finalized ∧
      (registerGroup 20).run t = some (.error e', t) := by
  have hreg : ∃ router, Registers (GraphRouterBuilder.build ⟨AList.insert (10, 20) () ∅⟩)
      [.group 10 (.ok ⟨0⟩)] router ∧
      ∃ e t, (finalize : Routing Nat Unit).run router = some (.error e, t) :=
    ⟨_, .group rfl (.nil _), _, _, rfl⟩
  obtain ⟨router, hreg, e, t, hrun⟩ := hreg
  obtain ⟨hfinalized, -, hgroup, -⟩ := finalize_fails hrun
  obtain ⟨e', hrefused⟩ := hgroup 20
  exact ⟨router, t, e, e', hreg, hrun, hfinalized, hrefused⟩

/-- A router that is not finalized, and is after a `finalize` that fails. -/
theorem finalize_not_atomic : ∃ router t e,
    Registers (GraphRouterBuilder.build ⟨AList.insert (10, 20) () ∅⟩) [.group 10 (.ok ⟨0⟩)] router ∧
      (finalize : Routing Nat Unit).run router = some (.error e, t) ∧
      ¬router.finalized ∧ t.finalized ∧
      (∃ answered, (registerGroup 20).run router = some (.ok ⟨1⟩, answered)) ∧
      (∃ e', (registerGroup 20).run t = some (.error e', t)) ∧
      ∃ e', (finalize : Routing Nat Unit).run t = some (.error e', t) :=
  ⟨_, _, _, .group rfl (.nil _), rfl, Bool.false_ne_true, rfl, ⟨_, rfl⟩, ⟨_, rfl⟩, ⟨_, rfl⟩⟩

end GraphRouter

end Libaflmm
