import Libaflmm.ControllerForward
import Libaflmm.Runs

/-!
# Workers that leave while others send

A controller that has been finalized is `Running`, and stays so whatever
happens to it. `Forwards` is what is wanted of a step: a wait returns, and
every worker still registered has got exactly what is routed to it.
`Undisturbed` is the exact condition: no connection holds an error, and each
destination of each notification is registered, has not been found closed
earlier in the same batch, and is not full.
-/

namespace Libaflmm

open Call

namespace GenericController

variable {K HB H U : Type}

section

variable {c t : GenericController K HB H U} {worker : WorkerId}

/-! ## From registration to running -/

/-- What holds until the controller is finalized. -/
structure Registering (c : GenericController K HB H U) : Prop where
  controllerConns : c.controllerConns = some ∅
  workerId : ∀ e ∈ c.descriptors.entries, e.2.workerId = e.1
  pendingNotifications : c.pendingNotifications = []

def KeepsRegistering (c t : GenericController K HB H U) : Prop := c.Registering → t.Registering

instance : IsPreorder (GenericController K HB H U) KeepsRegistering where
  refl _ h := h
  trans _ _ _ hst htu h := htu (hst h)

theorem new_registering (router : GraphRouter K) :
    (new router : GenericController K HB H U).Registering :=
  ⟨rfl, fun _ he => absurd he List.not_mem_nil, rfl⟩

theorem onRouter_keepsRegistering {α : Type} {x : Call Error (GraphRouter K) α} :
    (onRouter x : Controlling K HB H U α).Keeps KeepsRegistering := by
  refine keeps_ofFn fun c r t h hc => ?_
  obtain ⟨⟨r', router⟩, -, heq⟩ := Option.map_eq_some_iff.mp h
  obtain ⟨-, rfl⟩ := Prod.mk.inj heq
  exact ⟨hc.controllerConns, hc.workerId, hc.pendingNotifications⟩

theorem checkCore_keepsRegistering {coreId : Option Nat} :
    (checkCore coreId : Controlling K HB H U Unit).Keeps KeepsRegistering := by
  cases coreId with
  | none => exact keeps_pure
  | some coreId =>
      refine keeps_bind (keeps_ofFn fun c r t h hc => ?_) fun isNew => ?_
      · obtain ⟨-, rfl⟩ := Prod.mk.inj (Option.some.inj h)
        exact ⟨hc.controllerConns, hc.workerId, hc.pendingNotifications⟩
      · split
        · exact keeps_ofResult
        · exact keeps_pure

theorem registerSlot_keepsRegistering [DecidableEq K] [Debug K] {groupId : GroupId}
    {slot : WorkerSlot} :
    (registerSlot groupId slot : Controlling K HB H U Unit).Keeps KeepsRegistering := by
  refine keeps_bind checkCore_keepsRegistering fun _ => ?_
  refine keeps_bind (keeps_ofFn fun c r t h hc => ?_) fun workerId => ?_
  · obtain ⟨-, rfl⟩ := Prod.mk.inj (Option.some.inj h)
    exact ⟨hc.controllerConns, hc.workerId, hc.pendingNotifications⟩
  refine keeps_bind keeps_ofResult fun _ => ?_
  refine keeps_bind onRouter_keepsRegistering fun _ => keeps_update fun c hc => ?_
  refine ⟨hc.controllerConns, fun e he => ?_, hc.pendingNotifications⟩
  rcases List.mem_cons.mp he with rfl | he
  · rfl
  · exact hc.workerId e ((List.kerase_sublist _ _).subset he)

theorem registerGroup_keepsRegistering [DecidableEq K] [Debug K] {config : K}
    {slots : List WorkerSlot} :
    (registerGroup config slots : Controlling K HB H U GroupId).Keeps KeepsRegistering := by
  refine keeps_bind keeps_read fun finalized => ?_
  split
  · exact keeps_ofResult
  · refine keeps_bind onRouter_keepsRegistering fun groupId => ?_
    exact keeps_bind (keeps_forM fun slot _ => registerSlot_keepsRegistering) fun _ => keeps_pure

/-- A running controller over whose connections nothing has come or gone. -/
structure Fresh (c : GenericController K HB H U) : Prop extends Running c where
  connections : ∀ e ∈ c.sync.workers.entries, e.2 = Connection.fromFd
  pendingNotifs : c.sync.pendingNotifs = []
  dropped : c.sync.dropped = []

/-- New connections are only made for workers that satisfy `D`. -/
structure Connects (D : WorkerId → Prop) (c t : GenericController K HB H U) : Prop where
  router : t.router = c.router
  descriptors : t.descriptors = c.descriptors
  pendingNotifications : t.pendingNotifications = c.pendingNotifications
  known : ∀ conns', t.controllerConns = some conns' →
    ∃ conns, c.controllerConns = some conns ∧
      ∀ e ∈ conns'.entries, e ∈ conns.entries ∨ D e.1 ∧ e.2 = Connection.fromFd

instance (D : WorkerId → Prop) : IsPreorder (GenericController K HB H U) (Connects D) where
  refl c := ⟨rfl, rfl, rfl, fun conns h => ⟨conns, h, fun _ => .inl⟩⟩
  trans c u t hcu hut := by
    refine ⟨hut.router.trans hcu.router, hut.descriptors.trans hcu.descriptors,
      hut.pendingNotifications.trans hcu.pendingNotifications, fun conns' h => ?_⟩
    obtain ⟨mid, hmid, hsub⟩ := hut.known conns' h
    obtain ⟨conns, hconns, hsub'⟩ := hcu.known mid hmid
    exact ⟨conns, hconns, fun w hw => (hsub w hw).elim (hsub' w) .inr⟩

theorem unwrap_connects {α : Type} {o : Option α} {D : WorkerId → Prop} :
    (unwrap o : Controlling K HB H U α).Keeps (Connects D) := by
  refine keeps_ofFn fun c r t h => ?_
  obtain ⟨a, -, heq⟩ := Option.map_eq_some_iff.mp h
  obtain ⟨-, rfl⟩ := Prod.mk.inj heq
  exact refl_of (Connects D) _

theorem createWorkerSync_connects {create : Result Unit} {D : WorkerId → Prop} (hD : D worker) :
    (createWorkerSync worker create : Controlling K HB H U _).Keeps (Connects D) := by
  intro c
  rw [createWorkerSync, leaves_bind, leaves_read]
  dsimp only
  cases hconns : c.controllerConns with
  | none => exact leaves_ofResult.mpr (refl_of (Connects D) c)
  | some conns =>
      refine leaves_bind.mpr (leaves_ofResult.mpr ?_)
      cases create with
      | error err => exact refl_of (Connects D) c
      | ok u =>
          refine leaves_bind.mpr (leaves_update.mpr (leaves_pure.mpr ⟨rfl, rfl, rfl, ?_⟩))
          rintro conns' h
          obtain rfl := Option.some.inj h
          refine ⟨conns, hconns, fun w hw => ?_⟩
          rcases List.mem_cons.mp hw with rfl | hw
          · exact .inr ⟨hD, rfl⟩
          · exact .inl ((List.kerase_sublist _ _).subset hw)

theorem createWorker_connects [Inhabited HB] (create : WorkerId → Result Unit)
    {desc : StdDescriptor} {D : WorkerId → Prop} (hD : D desc.workerId) :
    (createWorker create desc : Controlling K HB H U Unit).Keeps (Connects D) := by
  refine keeps_bind keeps_read fun router => ?_
  refine keeps_bind unwrap_connects fun sourceWids => ?_
  refine keeps_bind keeps_read fun descriptors => ?_
  refine keeps_bind (keeps_forM fun srcWid _ => keeps_bind unwrap_connects fun _ => keeps_pure)
    fun _ => ?_
  refine keeps_bind (createWorkerSync_connects hD) fun workerSync => ?_
  refine keeps_bind keeps_read fun router => ?_
  refine keeps_bind unwrap_connects fun shouldReport => ?_
  exact keeps_update fun c => ⟨rfl, rfl, rfl, fun conns h => ⟨conns, h, fun _ => .inl⟩⟩

/-- **A controller that has been finalized runs.** -/
theorem Registering.fresh [DecidableEq K] [Debug K] [Inhabited HB]
    {create : WorkerId → Result Unit} (hc : c.Registering)
    (h : (finalizeOrchestration create).run c = some (.ok (), t)) : t.Fresh := by
  rw [finalizeOrchestration, run_bind_of_ok (run_read _ _), run_bind_of_ok (run_update _ _)] at h
  split at h
  · cases h
  obtain ⟨⟨⟩, u, hu, h⟩ := run_bind_eq_ok.mp h
  rw [onRouter, run_on] at hu
  obtain ⟨⟨r, router⟩, hrouter, heq⟩ := Option.map_eq_some_iff.mp hu
  obtain ⟨rfl, rfl⟩ := Prod.mk.inj heq
  have hfin := GraphRouter.finalize_finalized c.router _ _ hrouter
  rw [run_bind_of_ok (run_read _ _)] at h
  obtain ⟨⟨⟩, v, hv, h⟩ := run_bind_eq_ok.mp h
  have hloop := keeps_forM (R := Connects (· ∈ c.descriptors)) (fun e he => by
    refine createWorker_connects create ?_
    rw [hc.workerId e he]
    exact List.mem_keys_of_mem he) _ _ _ hv
  obtain ⟨sync, w, hw, h⟩ := run_bind_eq_ok.mp h
  obtain ⟨-, rfl⟩ := Prod.mk.inj (Option.some.inj h)
  rw [createControllerSync, run_bind_of_ok (run_read _ _)] at hw
  cases hconns : v.controllerConns with
  | none =>
      rw [hconns] at hw
      cases hw
  | some workers =>
      rw [hconns, run_bind_of_ok (run_update _ _), run_pure] at hw
      obtain ⟨hsync, rfl⟩ := Prod.mk.inj (Option.some.inj hw)
      obtain rfl := Except.ok.inj hsync
      obtain ⟨conns, hconns', hsub⟩ := hloop.known workers hconns
      obtain rfl := Option.some.inj (hc.controllerConns.symm.trans hconns')
      have hnew : ∀ e ∈ workers.entries, e.1 ∈ c.descriptors ∧ e.2 = Connection.fromFd :=
        fun e he => (hsub e he).resolve_left List.not_mem_nil
      refine ⟨⟨?_, rfl, fun worker hworker => ?_, ?_⟩, fun e he => (hnew e he).2, rfl, rfl⟩
      · show v.router.finalized
        rw [hloop.router]
        exact hfin
      · show worker ∈ v.descriptors
        rw [hloop.descriptors]
        obtain ⟨e, he, rfl⟩ := List.mem_map.mp hworker
        exact (hnew e he).1
      · show v.pendingNotifications = []
        rw [hloop.pendingNotifications]
        exact hc.pendingNotifications

end

/-! ## Runs -/

/-- What happens to a running controller: something arrives at one of its
connections, the launcher reports the end of a worker, a worker is asked to
shut down, or the controller waits for notifications. -/
inductive ControllerEvent (H U : Type) where
  | arrives (worker : WorkerId) (item : Recv (GenericNotification H U))
  | exits (descriptor : StdDescriptor)
  | terminates (descriptor : StdDescriptor)
  | shutdown (worker : WorkerId) (sending : Sending)
  | waits (waiting : Waiting)

def arrive (worker : WorkerId) (item : Recv (GenericNotification H U))
    (c : GenericController K HB H U) : GenericController K HB H U :=
  match c.sync.workers.lookup worker with
  | none => c
  | some conn =>
    c.withSync { c.sync with workers := c.sync.workers.replace worker (conn.arrive item) }

def exec (c : GenericController K HB H U) :
    ControllerEvent H U → Option (GenericController K HB H U)
  | .arrives worker item => some (c.arrive worker item)
  | .exits descriptor => ((onWorkerExit descriptor).run c).map (·.2)
  | .terminates descriptor => ((onWorkerTermination descriptor).run c).map (·.2)
  | .shutdown worker sending => ((GenericController.shutdown worker sending).run c).map (·.2)
  | .waits waiting => ((waitNotifications waiting).run c).map (·.2)

/-- A wait returns, and each worker that is still registered has got all that
the batch has for it. -/
def Forwards (c : GenericController K HB H U) : ControllerEvent H U → Prop
  | .waits waiting => (waitNotifications waiting).Yields c fun r t =>
      r = .ok () ∧ Forwarded c t (c.batchOf waiting)
  | _ => True

/-- The wait succeeds, no connection holds an error, and each destination of
each notification is registered, is not found closed earlier in the batch,
and takes the command or is found closed. -/
def Undisturbed (c : GenericController K HB H U) : ControllerEvent H U → Prop
  | .waits ⟨.error _, _⟩ => False
  | .waits ⟨.ok .timeout, _⟩ => True
  | .waits ⟨.ok .event, sending⟩ =>
      c.sync.Pollable ∧ Reaches c.dests (· ∈ c.sync.workers) sending c.pending
  | _ => True

section

variable {c t : GenericController K HB H U} {event : ControllerEvent H U}
  {events : List (ControllerEvent H U)}

theorem Running.forwards_iff (hc : c.Running) : Forwards c event ↔ Undisturbed c event := by
  cases event with
  | waits waiting =>
      obtain ⟨waited, sending⟩ := waiting
      have hyields : Forwards c (.waits ⟨waited, sending⟩) ↔
          ∃ t, (waitNotifications ⟨waited, sending⟩).run c = some (.ok (), t) := by
        constructor
        · rintro ⟨r, t, ht, rfl, -⟩
          exact ⟨t, ht⟩
        · rintro ⟨t, ht⟩
          exact ⟨_, t, ht, rfl, hc.wait_forwarded ht⟩
      rw [hyields]
      rcases waited with err | (_ | _)
      · refine iff_of_false (fun ⟨t, ht⟩ => ?_) id
        rw [waitNotifications, run_bind_of_error hc.run_waited] at ht
        cases ht
      · exact hc.wait_ok_iff rfl
      · refine iff_of_true ⟨c, ?_⟩ trivial
        rw [waitNotifications, run_bind_of_ok hc.run_waited]
        rfl
  | _ => exact Iff.rfl

theorem Running.arrive (hc : c.Running) (worker : WorkerId)
    (item : Recv (GenericNotification H U)) : (c.arrive worker item).Running := by
  unfold GenericController.arrive
  split
  · exact hc
  · exact hc.withSync fun w => AList.mem_replace.mp

theorem Running.exec (hc : c.Running) (h : c.exec event = some t) : t.Running := by
  have hcall : ∀ {x : Controlling K HB H U Unit}, x.Keeps KeepsRunning →
      (x.run c).map (·.2) = some t → t.Running := by
    intro x hx h
    obtain ⟨⟨r, u⟩, hu, rfl⟩ := Option.map_eq_some_iff.mp h
    exact hx c r u hu hc
  cases event with
  | arrives worker item =>
      obtain rfl := Option.some.inj h
      exact hc.arrive worker item
  | exits descriptor =>
      exact hcall (onSync_keepsRunning SocketControllerSync.removeWorker_shrinks) h
  | terminates descriptor =>
      exact hcall (onSync_keepsRunning SocketControllerSync.removeWorker_shrinks) h
  | shutdown worker sending =>
      exact hcall (onSync_keepsRunning SocketControllerSync.send_shrinks) h
  | waits waiting => exact hcall waitNotifications_keepsRunning h

/-- **When an exit disturbs the others.** In a run of a finalized controller
every wait returns and forwards what was sent to whoever is still registered,
exactly when no wait of the run is disturbed. -/
theorem forwards_iff_undisturbed (hc : c.Running) :
    StepsMeet exec c events Forwards ↔ StepsMeet exec c events Undisturbed :=
  stepsMeet_congr Running hc (fun _ _ _ ht => ht.forwards_iff) fun _ _ _ _ ht _ h => ht.exec h

end

/-! ## A worker sends to one that has exited -/

def everySend : Nat → Sending := fun _ => ⟨.ok (), fun _ => .ok .sent⟩

abbrev ByteController :=
  GenericController Nat (SerializedInputHandleBackend ValueInput) (List UInt8) Unit

/-- Two groups of one worker each, the first sharing with the second. -/
def registered : Call Error ByteController Unit := do
  let _ ← registerGroup 0 [⟨none, .ok ()⟩]
  let _ ← registerGroup 1 [⟨none, .ok ()⟩]

def pair : Option (Result Unit × ByteController) :=
  ((registered >>= fun _ => finalizeOrchestration fun _ => .ok ()) : Controlling _ _ _ _ Unit).run
    (new (GraphRouterBuilder.mk (AList.singleton (0, 1) ())).build)

theorem pair_isSome : pair.isSome := by decide +kernel

def twoWorkers : ByteController := (pair.get pair_isSome).2

theorem eq_some_of_get {α β : Type} {x : Option (α × β)} {a : α} (h : x.isSome)
    (ha : (x.get h).1 = a) : x = some (a, (x.get h).2) := by
  subst ha
  exact (Option.some_get h).symm

theorem twoWorkers_fresh : twoWorkers.Fresh := by
  have hok : (pair.get pair_isSome).1 = .ok () := by decide +kernel
  have hpair : pair = some (.ok (), twoWorkers) := eq_some_of_get pair_isSome hok
  rw [pair, run_bind_eq_ok] at hpair
  obtain ⟨⟨⟩, c, hc, ht⟩ := hpair
  have hkeeps : (registered : Controlling _ _ _ _ Unit).Keeps KeepsRegistering :=
    keeps_bind registerGroup_keepsRegistering fun _ =>
      keeps_bind registerGroup_keepsRegistering fun _ => keeps_pure
  exact (hkeeps _ _ _ hc (new_registering _)).fresh ht

/-- The first worker sends, then the second one exits. -/
def sendThenExit : List (ControllerEvent (List UInt8) Unit) :=
  [.arrives ⟨0⟩ (.packet (.custom ())), .waits ⟨.ok .event, everySend⟩, .exits ⟨⟨1⟩, ⟨1⟩⟩]

/-- The forwarding theorem at a pair of workers, over a send and an exit. -/
theorem forwards_iff_twoWorkers :
    StepsMeet exec twoWorkers sendThenExit Forwards ↔
      StepsMeet exec twoWorkers sendThenExit Undisturbed :=
  forwards_iff_undisturbed twoWorkers_fresh.toRunning

/-- The second worker exits, then the first one sends. -/
def exitThenSend : List (ControllerEvent (List UInt8) Unit) :=
  [.exits ⟨⟨1⟩, ⟨1⟩⟩, .arrives ⟨0⟩ (.packet (.custom ())), .waits ⟨.ok .event, everySend⟩]

theorem exit_stops_the_forwarding : ¬ StepsMeet exec twoWorkers exitThenSend Forwards := by
  intro h
  obtain ⟨t, ht⟩ : ∃ t, run exec twoWorkers (exitThenSend.take 2) = some t :=
    Option.isSome_iff_exists.mp (by decide +kernel)
  have hwait : ((run exec twoWorkers (exitThenSend.take 2)).bind fun t =>
      (waitNotifications ⟨.ok .event, everySend⟩).run t).map (·.1) =
      some (.error (.illegalArgument "unknown worker WorkerId(1)")) := by decide +kernel
  obtain ⟨r, u, hu, rfl, -⟩ := h (exitThenSend.take 2) _ (List.prefix_refl _) t ht
  rw [ht, Option.bind_some, hu] at hwait
  cases hwait

end GenericController

end Libaflmm
