import Libaflmm.GenericController

/-!
# One wait of a running controller

A wait polls every connection and forwards the batch it has got. The
router's tables are computed once, the table of connections shrinks with
every worker that leaves: a notification whose destinations include a worker
that is no longer in the table stops the loop with an error, and what comes
after it in the batch is lost.

`Reaches` is the exact condition under which a batch gets through, and
`Forwarded` what has then been sent over the connections that are left.
-/

namespace Libaflmm

open Call

def GenericNotification.commandFrom {H U : Type} (source : GroupId) :
    GenericNotification H U → GenericCommand H U
  | .newTestcase id handle => .importFrom source id handle
  | .custom payload => .custom payload

theorem GenericNotification.intoCommand_eq {H U : Type} (source : GroupId)
    (notification : GenericNotification H U) :
    notification.intoCommand source = .ok (some (notification.commandFrom source)) := by
  cases notification <;> rfl

/-! ## Batches -/

/-- Each message of a batch is sent, and each of its destinations is
registered, takes it or is found closed, and was not found closed before. -/
def Reaches {M : Type} (dests : M → List WorkerId) (registered : WorkerId → Prop)
    (sending : Nat → Sending) (batch : List M) : Prop :=
  ∀ j m, batch[j]? = some m → (sending j).serialized = .ok () ∧ ∀ dst ∈ dests m,
    registered dst ∧ SocketControllerSync.Delivers ((sending j).answer dst) ∧
      ∀ k m', k < j → batch[k]? = some m' → dst ∈ dests m' →
        (sending k).answer dst ≠ .ok .closed

section

variable {M : Type} {dests : M → List WorkerId} {registered : WorkerId → Prop}
  {sending : Nat → Sending} {m : M} {batch : List M}

theorem reaches_nil : Reaches dests registered sending [] := by
  intro j m hm
  simp at hm

/-- After the first message, who was found closed is no longer registered. -/
theorem reaches_cons :
    Reaches dests registered sending (m :: batch) ↔
      ((sending 0).serialized = .ok () ∧ ∀ dst ∈ dests m,
        registered dst ∧ SocketControllerSync.Delivers ((sending 0).answer dst)) ∧
      Reaches dests
        (fun w => registered w ∧ (w ∈ dests m → (sending 0).answer w ≠ .ok .closed))
        (fun j => sending (j + 1)) batch := by
  constructor
  · intro h
    refine ⟨⟨(h 0 m rfl).1, fun dst hd => ?_⟩, fun j m' hm => ⟨(h (j + 1) m' hm).1, ?_⟩⟩
    · obtain ⟨hr, hdel, -⟩ := (h 0 m rfl).2 dst hd
      exact ⟨hr, hdel⟩
    · intro dst hd
      obtain ⟨hr, hdel, hopen⟩ := (h (j + 1) m' hm).2 dst hd
      refine ⟨⟨hr, hopen 0 m (Nat.succ_pos j) rfl⟩, hdel, fun k m'' hk hm'' => ?_⟩
      exact hopen (k + 1) m'' (Nat.succ_lt_succ hk) hm''
  · rintro ⟨⟨hser, hhead⟩, htail⟩ j m' hm
    cases j with
    | zero =>
        obtain rfl : m = m' := by simpa using hm
        refine ⟨hser, fun dst hd => ⟨(hhead dst hd).1, (hhead dst hd).2, ?_⟩⟩
        intro k _ hk
        exact absurd hk (Nat.not_lt_zero k)
    | succ j =>
        obtain ⟨hser', hdests⟩ := htail j m' hm
        refine ⟨hser', fun dst hd => ?_⟩
        obtain ⟨⟨hr, hhead'⟩, hdel, hopen⟩ := hdests dst hd
        refine ⟨hr, hdel, fun k m'' hk hm'' hd'' => ?_⟩
        cases k with
        | zero =>
            obtain rfl : m = m'' := by simpa using hm''
            exact hhead' hd''
        | succ k => exact hopen k m'' (Nat.lt_of_succ_lt_succ hk) hm'' hd''

theorem Reaches.congr {registered' : WorkerId → Prop} (h : ∀ w, registered w ↔ registered' w) :
    Reaches dests registered sending batch ↔ Reaches dests registered' sending batch := by
  rw [show registered = registered' from funext fun w => propext (h w)]

end

/-! ## The controller while it runs -/

namespace GenericController

variable {K HB H U : Type}

/-- The table of connections, empty before the controller is finalized. -/
def sync (c : GenericController K HB H U) :
    SocketControllerSync (GenericCommand H U) (GenericNotification H U) :=
  c.controllerSync.getD ⟨∅, [], []⟩

/-- What a finalized controller keeps to: every connection belongs to a known
worker, and nothing is left in the buffer between two calls. -/
structure Running (c : GenericController K HB H U) : Prop where
  finalized : c.router.finalized
  controllerSync : c.controllerSync = some c.sync
  known : ∀ worker ∈ c.sync.workers, worker ∈ c.descriptors
  pendingNotifications : c.pendingNotifications = []

/-- What the next poll takes, with the source of each. -/
def pending (c : GenericController K HB H U) : List (GenericNotification H U × WorkerId) :=
  SocketControllerSync.waiting c.sync.workers.entries

def dests (c : GenericController K HB H U) (m : GenericNotification H U × WorkerId) :
    List WorkerId :=
  c.router.destinationsOf m.2

/-- The command a notification becomes, if its source is known. -/
def commandOf (c : GenericController K HB H U) (m : GenericNotification H U × WorkerId) :
    Option (GenericCommand H U) :=
  (c.descriptors.lookup m.2).map fun desc => m.1.commandFrom desc.groupId

/-- What a batch has for one worker, in order. -/
def routed (c : GenericController K HB H U)
    (batch : List (GenericNotification H U × WorkerId)) (worker : WorkerId) :
    List (GenericCommand H U) :=
  batch.filterMap fun m => if worker ∈ c.dests m then c.commandOf m else none

def withSync (c : GenericController K HB H U)
    (sync : SocketControllerSync (GenericCommand H U) (GenericNotification H U)) :
    GenericController K HB H U :=
  { c with controllerSync := some sync }

section

variable {c t : GenericController K HB H U}
  {s : SocketControllerSync (GenericCommand H U) (GenericNotification H U)}
  {m : GenericNotification H U × WorkerId} {batch : List (GenericNotification H U × WorkerId)}
  {worker : WorkerId}

@[simp] theorem withSync_sync : (c.withSync s).sync = s := rfl

@[simp] theorem withSync_dests : (c.withSync s).dests = c.dests := rfl

@[simp] theorem withSync_descriptors : (c.withSync s).descriptors = c.descriptors := rfl

@[simp] theorem withSync_routed : (c.withSync s).routed = c.routed := rfl

theorem Running.withSync (hc : c.Running) (h : ∀ w ∈ s.workers, w ∈ c.sync.workers) :
    (c.withSync s).Running where
  finalized := hc.finalized
  controllerSync := rfl
  known w hw := hc.known w (h w hw)
  pendingNotifications := hc.pendingNotifications

theorem Running.run_onSync {α : Type} (hc : c.Running)
    (x : Call Error (SocketControllerSync (GenericCommand H U) (GenericNotification H U)) α) :
    (onSync x : Controlling K HB H U α).run c =
      (x.run c.sync).map fun (r, s) => (r, c.withSync s) := by
  rw [onSync, run_ofFn, hc.controllerSync]
  show (x.run c.sync).bind _ = _
  cases x.run c.sync <;> rfl

theorem Running.commandOf_isSome (hc : c.Running) (hm : m.2 ∈ c.sync.workers) :
    (c.commandOf m).isSome := by
  rw [commandOf, Option.isSome_map]
  exact AList.lookup_isSome.mpr (hc.known _ hm)

theorem forward_eq {sending : Sending} {cmd : GenericCommand H U} (hc : c.Running)
    (hcmd : c.commandOf m = some cmd) :
    (forward m.1 m.2 sending).run c =
      (onSync (SocketControllerSync.send (c.dests m) cmd sending) :
        Controlling K HB H U Unit).run c := by
  obtain ⟨desc, hdesc, rfl⟩ := Option.map_eq_some_iff.mp hcmd
  rw [forward, run_bind_of_ok (run_read _ _), hdesc, run_bind_of_ok (a := desc) (t := c) rfl,
    GenericNotification.intoCommand_eq, run_bind_of_ok (run_ofResult _ _)]
  show (_ >>= _ : Controlling K HB H U Unit).run c = _
  rw [run_bind_of_ok (run_read _ _), GraphRouter.route_eq hc.finalized,
    run_bind_of_ok (a := .ok (c.dests m)) (t := c) rfl, run_bind_of_ok (run_ofResult _ _)]

theorem forward_ok_iff {sending : Sending} {cmd : GenericCommand H U} (hc : c.Running)
    (hcmd : c.commandOf m = some cmd) :
    (∃ t, (forward m.1 m.2 sending).run c = some (.ok (), t)) ↔
      sending.serialized = .ok () ∧ ∀ dst ∈ c.dests m,
        dst ∈ c.sync.workers ∧ SocketControllerSync.Delivers (sending.answer dst) := by
  have hnd : (c.dests m).Nodup := c.router.destinationsOf_nodup m.2
  rw [← SocketControllerSync.forM_sendOne_iff cmd hnd]
  simp only [forward_eq hc hcmd, hc.run_onSync, SocketControllerSync.send]
  cases hser : sending.serialized with
  | error e => simp [run_bind]
  | ok u =>
      rw [run_bind_of_ok (run_ofResult _ _)]
      cases h : (List.forM (c.dests m)
        (SocketControllerSync.sendOne cmd sending.answer)).run c.sync with
      | none => simp
      | some p => simp [Prod.ext_iff]

theorem forward_spec {sending : Sending} {cmd : GenericCommand H U} (hc : c.Running)
    (hcmd : c.commandOf m = some cmd)
    (h : (forward m.1 m.2 sending).run c = some (.ok (), t)) :
    ∃ s, t = c.withSync s ∧
      SocketControllerSync.Delivered (c.dests m) cmd sending.answer c.sync s := by
  have hnd : (c.dests m).Nodup := c.router.destinationsOf_nodup m.2
  rw [forward_eq hc hcmd, hc.run_onSync, SocketControllerSync.send] at h
  obtain ⟨⟨r, s⟩, hs, heq⟩ := Option.map_eq_some_iff.mp h
  obtain ⟨rfl, rfl⟩ := Prod.mk.inj heq
  obtain ⟨⟨⟩, u, hu, hs⟩ := run_bind_eq_ok.mp hs
  obtain ⟨-, rfl⟩ := Prod.mk.inj (Option.some.inj hu)
  exact ⟨s, rfl, SocketControllerSync.forM_sendOne_delivered hnd hs⟩

/-- What a send leaves in the table was there before. -/
theorem mem_of_delivered {dsts : List WorkerId} {cmd : GenericCommand H U}
    {answer : WorkerId → Result SendResult}
    (h : SocketControllerSync.Delivered dsts cmd answer c.sync s) :
    worker ∈ s.workers ↔
      worker ∈ c.sync.workers ∧ (worker ∈ dsts → answer worker ≠ .ok .closed) := by
  rw [← AList.lookup_isSome, ← AList.lookup_isSome, h.2 worker]
  by_cases hw : worker ∈ dsts
  · cases c.sync.workers.lookup worker <;> simp [hw, SocketControllerSync.deliver]
  · simp [hw]

/-- **A batch is forwarded exactly when it reaches all its destinations.** -/
theorem forwardAll_ok_iff {sending : Nat → Sending} {i : Nat} (hc : c.Running)
    (hbatch : ∀ m ∈ batch, (c.commandOf m).isSome) :
    (∃ t, (forwardAll sending i batch).run c = some (.ok (), t)) ↔
      Reaches c.dests (· ∈ c.sync.workers) (fun j => sending (i + j)) batch := by
  induction batch generalizing c i with
  | nil => exact iff_of_true ⟨c, rfl⟩ reaches_nil
  | cons m batch ih =>
      obtain ⟨hm, hbatch⟩ := List.forall_mem_cons.mp hbatch
      obtain ⟨cmd, hcmd⟩ := Option.isSome_iff_exists.mp hm
      have hshift : ∀ j, i + 1 + j = i + (j + 1) := fun j => by omega
      have hrest : ∀ u, (forward m.1 m.2 (sending i)).run c = some (.ok (), u) →
          ((∃ t, (forwardAll sending (i + 1) batch).run u = some (.ok (), t)) ↔
            Reaches c.dests
              (fun w => w ∈ c.sync.workers ∧
                (w ∈ c.dests m → (sending i).answer w ≠ .ok .closed))
              (fun j => sending (i + (j + 1))) batch) := by
        intro u hu
        obtain ⟨s, rfl, hd⟩ := forward_spec hc hcmd hu
        have hrun := hc.withSync fun w hw => ((mem_of_delivered hd).mp hw).1
        rw [ih hrun hbatch, withSync_dests, withSync_sync]
        simp only [hshift]
        exact Reaches.congr fun w => mem_of_delivered hd
      rw [reaches_cons, Nat.add_zero, ← forward_ok_iff hc hcmd]
      constructor
      · rintro ⟨t, ht⟩
        obtain ⟨⟨⟩, u, hu, ht⟩ := run_bind_eq_ok.mp ht
        exact ⟨⟨u, hu⟩, (hrest u hu).mp ⟨t, ht⟩⟩
      · rintro ⟨⟨u, hu⟩, htail⟩
        obtain ⟨t, ht⟩ := (hrest u hu).mpr htail
        exact ⟨t, run_bind_eq_ok.mpr ⟨(), u, hu, ht⟩⟩

/-- What was sent over the connections that are left is what was sent before
and what the batch has for them. -/
def Forwarded (c t : GenericController K HB H U)
    (batch : List (GenericNotification H U × WorkerId)) : Prop :=
  ∀ worker conn, t.sync.workers.lookup worker = some conn →
    ∃ before, c.sync.workers.lookup worker = some before ∧
      conn.tx = before.tx ++ c.routed batch worker

theorem forward_forwarded {sending : Sending} {cmd : GenericCommand H U}
    (hcmd : c.commandOf m = some cmd)
    (h : SocketControllerSync.Delivered (c.dests m) cmd sending.answer c.sync s) :
    Forwarded c (c.withSync s) [m] := by
  intro worker conn hconn
  rw [withSync_sync, h.2 worker] at hconn
  by_cases hw : worker ∈ c.dests m
  · rw [if_pos hw, Option.bind_eq_some_iff] at hconn
    obtain ⟨before, hbefore, hdel⟩ := hconn
    refine ⟨before, hbefore, ?_⟩
    rw [SocketControllerSync.deliver] at hdel
    split at hdel
    · cases hdel
    · obtain rfl := Option.some.inj hdel
      simp [routed, hw, hcmd]
  · rw [if_neg hw] at hconn
    exact ⟨conn, hconn, by simp [routed, hw]⟩

theorem forwardAll_spec {sending : Nat → Sending} {i : Nat} (hc : c.Running)
    (hbatch : ∀ m ∈ batch, (c.commandOf m).isSome)
    (h : (forwardAll sending i batch).run c = some (.ok (), t)) :
    t.Running ∧ Forwarded c t batch := by
  induction batch generalizing c i with
  | nil =>
      obtain ⟨-, rfl⟩ := Prod.mk.inj (Option.some.inj h)
      exact ⟨hc, fun worker conn hconn => ⟨conn, hconn, by simp [routed]⟩⟩
  | cons m batch ih =>
      obtain ⟨hm, hbatch⟩ := List.forall_mem_cons.mp hbatch
      obtain ⟨cmd, hcmd⟩ := Option.isSome_iff_exists.mp hm
      obtain ⟨⟨⟩, u, hu, ht⟩ := run_bind_eq_ok.mp h
      obtain ⟨s, rfl, hd⟩ := forward_spec hc hcmd hu
      have hrun := hc.withSync fun w hw => ((mem_of_delivered hd).mp hw).1
      obtain ⟨htrun, htail⟩ := ih hrun hbatch ht
      refine ⟨htrun, fun worker conn hconn => ?_⟩
      obtain ⟨mid, hmid, htx⟩ := htail worker conn hconn
      obtain ⟨before, hbefore, hmidtx⟩ := forward_forwarded hcmd hd worker mid hmid
      refine ⟨before, hbefore, ?_⟩
      rw [htx, hmidtx, withSync_routed, List.append_assoc]
      simp only [routed, ← List.filterMap_append, List.singleton_append]

/-! ### What every call keeps -/

/-- A running controller is left running. -/
def KeepsRunning (c t : GenericController K HB H U) : Prop := c.Running → t.Running

instance : IsPreorder (GenericController K HB H U) KeepsRunning where
  refl _ h := h
  trans _ _ _ hst htu h := htu (hst h)

theorem onSync_keepsRunning {α : Type}
    {x : Call Error (SocketControllerSync (GenericCommand H U) (GenericNotification H U)) α}
    (hx : x.Keeps SocketControllerSync.Shrinks) :
    (onSync x : Controlling K HB H U α).Keeps KeepsRunning := by
  intro c r t h hc
  rw [hc.run_onSync] at h
  obtain ⟨⟨r', s⟩, hs, heq⟩ := Option.map_eq_some_iff.mp h
  obtain ⟨-, rfl⟩ := Prod.mk.inj heq
  exact hc.withSync (hx c.sync r' s hs)

theorem unwrap_keepsRunning {α : Type} {o : Option α} :
    (unwrap o : Controlling K HB H U α).Keeps KeepsRunning := by
  refine keeps_ofFn fun c r t h => ?_
  obtain ⟨a, -, heq⟩ := Option.map_eq_some_iff.mp h
  obtain ⟨-, rfl⟩ := Prod.mk.inj heq
  exact refl_of KeepsRunning _

theorem forward_keepsRunning {notification : GenericNotification H U} {sending : Sending} :
    (forward notification worker sending : Controlling K HB H U Unit).Keeps KeepsRunning := by
  refine keeps_bind keeps_read fun descriptors => ?_
  refine keeps_bind unwrap_keepsRunning fun srcDesc => ?_
  refine keeps_bind keeps_ofResult fun command => ?_
  cases command with
  | none => exact keeps_pure
  | some command =>
      refine keeps_bind keeps_read fun router => ?_
      refine keeps_bind unwrap_keepsRunning fun destinations => ?_
      refine keeps_bind keeps_ofResult fun destinations => ?_
      exact onSync_keepsRunning SocketControllerSync.send_shrinks

theorem forwardAll_keepsRunning {sending : Nat → Sending} {i : Nat} :
    (forwardAll sending i batch : Controlling K HB H U Unit).Keeps KeepsRunning := by
  induction batch generalizing i with
  | nil => exact keeps_pure
  | cons m batch ih => exact keeps_bind forward_keepsRunning fun _ => ih

theorem waitNotifications_keepsRunning {waiting : Waiting} :
    (waitNotifications waiting : Controlling K HB H U Unit).Keeps KeepsRunning := by
  refine keeps_bind (onSync_keepsRunning keeps_ofResult) fun result => ?_
  cases result with
  | timeout => exact keeps_pure
  | event =>
      refine keeps_bind (onSync_keepsRunning SocketControllerSync.poll_shrinks) fun notifs => ?_
      refine keeps_bind keeps_read fun pending => ?_
      refine keeps_bind (keeps_update fun c hc => ?_) fun _ => forwardAll_keepsRunning
      exact ⟨hc.finalized, hc.controllerSync, hc.known, rfl⟩

/-! ### One wait -/

/-- What a wait takes from the connections. -/
def batchOf (c : GenericController K HB H U) (waiting : Waiting) :
    List (GenericNotification H U × WorkerId) :=
  match waiting.waited with
  | .ok .event => c.pending
  | _ => []

theorem Running.commandOf_pending (hc : c.Running) :
    ∀ m ∈ c.pending, (c.commandOf m).isSome := by
  intro m hm
  obtain ⟨e, he, hm⟩ := List.mem_flatMap.mp hm
  obtain ⟨notif, -, rfl⟩ := List.mem_map.mp hm
  exact hc.commandOf_isSome (List.mem_keys_of_mem he)

theorem Running.withSync_self (hc : c.Running) : c.withSync c.sync = c := by
  rw [GenericController.withSync, ← hc.controllerSync]

theorem Running.run_waited {r : Result WaitResult} (hc : c.Running) :
    (onSync (ofResult r) : Controlling K HB H U _).run c = some (r, c) := by
  rw [hc.run_onSync, run_ofResult, Option.map_some]
  show some (r, c.withSync c.sync) = some (r, c)
  rw [hc.withSync_self]

theorem Running.run_polled {notifs : List (GenericNotification H U × WorkerId)}
    {waiting : Waiting} (hc : c.Running) (hw : waiting.waited = .ok .event)
    (hpoll : SocketControllerSync.poll.run c.sync = some (.ok notifs, s)) :
    (waitNotifications waiting).run c =
      (forwardAll waiting.sending 0 notifs).run (c.withSync s) := by
  have hpolled : (onSync SocketControllerSync.poll : Controlling K HB H U _).run c =
      some (.ok notifs, c.withSync s) := by
    rw [hc.run_onSync, hpoll, Option.map_some]
  rw [waitNotifications, hw, run_bind_of_ok hc.run_waited]
  show (_ >>= _ : Controlling K HB H U Unit).run c = _
  rw [run_bind_of_ok hpolled, run_bind_of_ok (run_read _ _), run_bind_of_ok (run_update _ _)]
  simp only [GenericController.withSync, hc.pendingNotifications, List.nil_append]

theorem sameWires_mem (h : SocketControllerSync.SameWires c.sync s) :
    worker ∈ s.workers ↔ worker ∈ c.sync.workers := by
  have hw := congrArg Option.isSome (h worker)
  rw [Option.isSome_map, Option.isSome_map] at hw
  rw [← AList.lookup_isSome, ← AList.lookup_isSome, hw]

/-- **When a wait returns after a poll**: exactly when everything can be
received and the whole batch reaches its destinations. -/
theorem Running.wait_ok_iff {waiting : Waiting} (hc : c.Running)
    (hw : waiting.waited = .ok .event) :
    (∃ t, (waitNotifications waiting).run c = some (.ok (), t)) ↔
      c.sync.Pollable ∧ Reaches c.dests (· ∈ c.sync.workers) waiting.sending c.pending := by
  by_cases hp : c.sync.Pollable
  · obtain ⟨notifs, s, hs⟩ := SocketControllerSync.poll_iff.mpr hp
    obtain ⟨hn, -, hwires⟩ := SocketControllerSync.poll_spec hs
    obtain rfl : notifs = c.pending := hn
    have hrun := hc.withSync fun w hmem => (sameWires_mem hwires).mp hmem
    rw [hc.run_polled hw hs, forwardAll_ok_iff hrun hc.commandOf_pending]
    simp only [Nat.zero_add, hp, true_and]
    exact Reaches.congr fun w => sameWires_mem hwires
  · refine iff_of_false (fun ⟨t, ht⟩ => ?_) fun h => hp h.1
    rw [waitNotifications, hw, run_bind_of_ok hc.run_waited] at ht
    obtain ⟨notifs, v, hv, -⟩ := run_bind_eq_ok.mp ht
    rw [hc.run_onSync] at hv
    obtain ⟨⟨r, s⟩, hs, heq⟩ := Option.map_eq_some_iff.mp hv
    obtain ⟨rfl, -⟩ := Prod.mk.inj heq
    exact hp (SocketControllerSync.poll_iff.mp ⟨notifs, s, hs⟩)

theorem Running.wait_forwarded {waiting : Waiting} (hc : c.Running)
    (h : (waitNotifications waiting).run c = some (.ok (), t)) :
    Forwarded c t (c.batchOf waiting) := by
  cases hw : waiting.waited with
  | error err =>
      rw [waitNotifications, hw, run_bind_of_error hc.run_waited] at h
      cases h
  | ok result =>
      cases result with
      | timeout =>
          rw [waitNotifications, hw, run_bind_of_ok hc.run_waited] at h
          obtain ⟨-, rfl⟩ := Prod.mk.inj (Option.some.inj h)
          exact fun worker conn hconn => ⟨conn, hconn, by simp [batchOf, hw, routed]⟩
      | event =>
          have hp := ((hc.wait_ok_iff hw).mp ⟨t, h⟩).1
          obtain ⟨notifs, s, hs⟩ := SocketControllerSync.poll_iff.mpr hp
          obtain ⟨hn, -, hwires⟩ := SocketControllerSync.poll_spec hs
          obtain rfl : notifs = c.pending := hn
          have hrun := hc.withSync fun w hmem => (sameWires_mem hwires).mp hmem
          rw [hc.run_polled hw hs] at h
          obtain ⟨-, hfwd⟩ := forwardAll_spec hrun hc.commandOf_pending h
          intro worker conn hconn
          obtain ⟨polled, hpolled, htx⟩ := hfwd worker conn hconn
          have hsame := hwires worker
          rw [show s.workers.lookup worker = some polled from hpolled] at hsame
          obtain ⟨before, hbefore, hbtx⟩ := Option.map_eq_some_iff.mp hsame.symm
          refine ⟨before, hbefore, ?_⟩
          rw [htx, hbtx]
          simp only [batchOf, hw, withSync_routed, pending]

end

end GenericController

end Libaflmm
