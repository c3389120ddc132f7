import Libaflmm.Connection

/-!
# The two sides of a socket transfer

`SocketControllerSync` is the table of connections on the controller's side.
A send goes through the destinations one by one: a closed end is dropped
from the table, a full one or one that is not in the table stops the send.

`Reached` says of a destination that the send gets over it; `send_iff` is
the exact condition under which a send returns.
-/

namespace Libaflmm

open Call

/-- What the environment answers while one message is sent. -/
structure Sending where
  serialized : Result Unit
  answer : WorkerId → Result SendResult

inductive WaitResult where
  | event
  | timeout
deriving DecidableEq, Repr

/-! ## The worker's side -/

abbrev SocketWorkerSync (CMD NOTIF : Type) := Connection CMD NOTIF

namespace SocketWorkerSync

variable {CMD NOTIF : Type}

/-- A full socket is only logged. -/
def send (notif : NOTIF) (serialized : Result Unit) (answer : Result SendResult) :
    Call Error (SocketWorkerSync CMD NOTIF) Unit := do
  ofResult serialized
  let res ← ofFn fun conn => some (conn.sendSerialized notif answer)
  match res with
  | .sent | .full => return
  | .closed => ofResult (.error (.runtime "The send socket is closed"))

end SocketWorkerSync

/-! ## The controller's side -/

/-- `dropped` is no state of the code: the connections that have been closed,
over which messages may still be under way. -/
structure SocketControllerSync (CMD NOTIF : Type) where
  workers : HashMap WorkerId (Connection NOTIF CMD)
  pendingNotifs : List (NOTIF × WorkerId)
  dropped : List (WorkerId × Connection NOTIF CMD)
deriving DecidableEq

namespace SocketControllerSync

variable {CMD NOTIF : Type}

abbrev Syncing (CMD NOTIF α : Type) := Call Error (SocketControllerSync CMD NOTIF) α

def removeWorker (worker : WorkerId) : Syncing CMD NOTIF Unit :=
  .update fun sync => { sync with
    workers := sync.workers.erase worker
    dropped := (sync.workers.lookup worker).elim sync.dropped fun conn =>
      sync.dropped ++ [(worker, conn)] }

/-- One turn of the loop of `send`. -/
def sendOne (cmd : CMD) (answer : WorkerId → Result SendResult) (worker : WorkerId) :
    Syncing CMD NOTIF Unit := do
  match (← .read workers).lookup worker with
  | none => ofResult (.error (.illegalArgument s!"unknown worker {Debug.fmt worker}"))
  | some conn =>
    let (res, conn) := conn.sendSerialized cmd (answer worker)
    .update fun sync => { sync with workers := sync.workers.replace worker conn }
    match ← ofResult res with
    | .sent => return
    | .closed => removeWorker worker
    | .full => ofResult (.error (.runtime s!"worker {Debug.fmt worker} socket is full"))

def send (workers : List WorkerId) (cmd : CMD) (sending : Sending) : Syncing CMD NOTIF Unit := do
  ofResult sending.serialized
  workers.forM (sendOne cmd sending.answer)

def sendTo (worker : WorkerId) (cmd : CMD) (sending : Sending) : Syncing CMD NOTIF Unit :=
  send [worker] cmd sending

/-- One turn of the loop of `poll`. -/
def pollOne (worker : WorkerId) (conn : Connection NOTIF CMD) : Syncing CMD NOTIF Unit := do
  let notifs ← ofFn fun sync => conn.poll.map fun (r, conn) =>
    (r, { sync with workers := sync.workers.replace worker conn })
  .update fun sync =>
    { sync with pendingNotifs := sync.pendingNotifs ++ notifs.map fun notif => (notif, worker) }

def poll : Syncing CMD NOTIF (List (NOTIF × WorkerId)) := do
  if (← .read pendingNotifs).isEmpty then
    (← .read workers).entries.forM fun e => pollOne e.1 e.2
    let notifs ← .read pendingNotifs
    .update fun sync => { sync with pendingNotifs := [] }
    return notifs
  else ofFn fun _ => none

/-! ## Sending -/

/-- The kernel takes the message, or finds the other end closed. -/
def Delivers (answer : Result SendResult) : Prop := answer = .ok .sent ∨ answer = .ok .closed

instance (answer : Result SendResult) : Decidable (Delivers answer) :=
  inferInstanceAs (Decidable (_ ∨ _))

/-- What a connection is after a message was sent over it. -/
def deliver (cmd : CMD) (answer : Result SendResult) (conn : Connection NOTIF CMD) :
    Option (Connection NOTIF CMD) :=
  if answer = .ok .closed then none else some { conn with tx := conn.tx ++ [cmd] }

/-- What the table is after a message was sent to `workers`. -/
def Delivered (workers : List WorkerId) (cmd : CMD) (answer : WorkerId → Result SendResult)
    (s t : SocketControllerSync CMD NOTIF) : Prop :=
  t.pendingNotifs = s.pendingNotifs ∧ ∀ worker, t.workers.lookup worker =
    if worker ∈ workers then (s.workers.lookup worker).bind (deliver cmd (answer worker))
    else s.workers.lookup worker

variable {cmd : CMD} {answer : WorkerId → Result SendResult} {worker : WorkerId}
  {workers : List WorkerId} {s t : SocketControllerSync CMD NOTIF}

theorem sendOne_unknown (h : worker ∉ s.workers) :
    (sendOne cmd answer worker).run s =
      some (.error (.illegalArgument s!"unknown worker {Debug.fmt worker}"), s) := by
  rw [sendOne, run_bind_of_ok (run_read _ _), AList.lookup_eq_none.mpr h, run_ofResult]

theorem sendOne_known {conn : Connection NOTIF CMD} (h : s.workers.lookup worker = some conn) :
    (sendOne cmd answer worker).run s =
      (do
        .update fun sync => { sync with
          workers := sync.workers.replace worker (conn.sendSerialized cmd (answer worker)).2 }
        match ← ofResult (conn.sendSerialized cmd (answer worker)).1 with
        | .sent => return
        | .closed => removeWorker worker
        | .full => ofResult (.error (.runtime s!"worker {Debug.fmt worker} socket is full")) :
          Syncing CMD NOTIF Unit).run s := by
  rw [sendOne, run_bind_of_ok (run_read _ _), h]

variable (cmd) in
theorem sendOne_delivers (h : worker ∈ s.workers) (ha : Delivers (answer worker)) :
    ∃ t, (sendOne cmd answer worker).run s = some (.ok (), t) ∧
      Delivered [worker] cmd answer s t := by
  obtain ⟨conn, hconn⟩ := Option.isSome_iff_exists.mp (AList.lookup_isSome.mpr h)
  rw [sendOne_known hconn, run_bind_of_ok (run_update _ _)]
  rcases ha with ha | ha
  · simp only [ha, Connection.sendSerialized]
    refine ⟨_, rfl, rfl, fun other => ?_⟩
    rw [HashMap.lookup_replace h]
    by_cases ho : other = worker
    · subst ho
      simp [deliver, ha, hconn]
    · simp [ho]
  · simp only [ha, Connection.sendSerialized]
    refine ⟨_, rfl, rfl, fun other => ?_⟩
    rw [HashMap.lookup_erase, HashMap.lookup_replace h]
    by_cases ho : other = worker
    · subst ho
      simp [deliver, ha, hconn]
    · simp [ho]

theorem sendOne_ok_iff :
    (∃ t, (sendOne cmd answer worker).run s = some (.ok (), t)) ↔
      worker ∈ s.workers ∧ Delivers (answer worker) := by
  constructor
  · rintro ⟨t, ht⟩
    by_cases h : worker ∈ s.workers
    · refine ⟨h, ?_⟩
      obtain ⟨conn, hconn⟩ := Option.isSome_iff_exists.mp (AList.lookup_isSome.mpr h)
      rw [sendOne_known hconn, run_bind_of_ok (run_update _ _), run_bind_eq_ok] at ht
      obtain ⟨res, u, hres, ht⟩ := ht
      rcases ha : answer worker with err | (_ | _ | _)
      · rw [ha] at hres
        cases hres
      · exact .inl rfl
      · rw [ha] at hres
        cases hres
        cases ht
      · exact .inr rfl
    · rw [sendOne_unknown h] at ht
      cases ht
  · rintro ⟨h, ha⟩
    obtain ⟨t, ht, -⟩ := sendOne_delivers cmd h ha
    exact ⟨t, ht⟩

theorem Delivered.cons {u : SocketControllerSync CMD NOTIF} (hw : worker ∉ workers)
    (h : Delivered [worker] cmd answer s t) (h' : Delivered workers cmd answer t u) :
    Delivered (worker :: workers) cmd answer s u := by
  refine ⟨h'.1.trans h.1, fun other => ?_⟩
  rw [h'.2, h.2]
  by_cases ho : other = worker
  · subst ho
    simp [hw]
  · simp [ho]

variable (cmd) in
/-- **A send returns exactly when it gets over every destination**: each is
in the table, and takes the message or is found closed. -/
theorem forM_sendOne_iff (hnd : workers.Nodup) :
    (∃ t, (workers.forM (sendOne cmd answer)).run s = some (.ok (), t)) ↔
      ∀ worker ∈ workers, worker ∈ s.workers ∧ Delivers (answer worker) := by
  induction workers generalizing s with
  | nil => simp
  | cons worker workers ih =>
      obtain ⟨hw, hnd⟩ := List.nodup_cons.mp hnd
      simp only [run_forM_cons, run_bind_eq_ok, List.forall_mem_cons]
      constructor
      · rintro ⟨u, ⟨⟩, t, ht, hu⟩
        have hhead := sendOne_ok_iff.mp ⟨t, ht⟩
        obtain ⟨t', ht', hd⟩ := sendOne_delivers cmd hhead.1 hhead.2
        obtain rfl : t' = t := by simpa using ht'.symm.trans ht
        refine ⟨hhead, fun other ho => ?_⟩
        have htail := (ih hnd).mp ⟨u, hu⟩ other ho
        have hne : other ≠ worker := fun heq => hw (heq ▸ ho)
        rw [← AList.lookup_isSome, hd.2 other] at htail
        simpa [hne, AList.lookup_isSome] using htail
      · rintro ⟨hhead, htail⟩
        obtain ⟨t, ht, hd⟩ := sendOne_delivers cmd hhead.1 hhead.2
        obtain ⟨u, hu⟩ := (ih (s := t) hnd).mpr fun other ho => by
          have hne : other ≠ worker := fun heq => hw (heq ▸ ho)
          rw [← AList.lookup_isSome, hd.2 other]
          simpa [hne, AList.lookup_isSome] using htail other ho
        exact ⟨u, (), t, ht, hu⟩

theorem forM_sendOne_delivered (hnd : workers.Nodup)
    (h : (workers.forM (sendOne cmd answer)).run s = some (.ok (), t)) :
    Delivered workers cmd answer s t := by
  induction workers generalizing s with
  | nil =>
      obtain rfl : s = t := by simpa using h
      exact ⟨rfl, fun other => by simp⟩
  | cons worker workers ih =>
      obtain ⟨hw, hnd⟩ := List.nodup_cons.mp hnd
      rw [run_forM_cons, run_bind_eq_ok] at h
      obtain ⟨⟨⟩, u, hu, ht⟩ := h
      have hhead := sendOne_ok_iff.mp ⟨u, hu⟩
      obtain ⟨u', hu', hd⟩ := sendOne_delivers cmd hhead.1 hhead.2
      obtain rfl : u' = u := by simpa using hu'.symm.trans hu
      exact hd.cons hw (ih hnd ht)

/-! ## Polling -/

/-- The notifications that can be received, in the order of the table. -/
def waiting (entries : List (Σ _ : WorkerId, Connection NOTIF CMD)) : List (NOTIF × WorkerId) :=
  entries.flatMap fun e => (Connection.readable e.2.rx).map fun notif => (notif, e.1)

/-- No connection holds an error, nothing is left over from a failed poll. -/
structure Pollable (s : SocketControllerSync CMD NOTIF) : Prop where
  pendingNotifs : s.pendingNotifs = []
  inMsgs : ∀ e ∈ s.workers.entries, e.2.inMsgs = []
  rx : ∀ e ∈ s.workers.entries, Connection.Readable e.2.rx

/-- The same connections with the same messages sent over them. -/
def SameWires (s t : SocketControllerSync CMD NOTIF) : Prop :=
  ∀ worker, (t.workers.lookup worker).map Connection.tx =
    (s.workers.lookup worker).map Connection.tx

variable {entries : List (Σ _ : WorkerId, Connection NOTIF CMD)} {conn : Connection NOTIF CMD}

theorem lookup_entry (s : SocketControllerSync CMD NOTIF)
    {e : Σ _ : WorkerId, Connection NOTIF CMD} (he : e ∈ s.workers.entries) :
    s.workers.lookup e.1 = some e.2 :=
  List.mem_dlookup s.workers.nodupKeys he

theorem pollOne_eq_ok :
    (pollOne worker conn).run s = some (.ok (), t) ↔
      ∃ msgs conn', conn.poll = some (.ok msgs, conn') ∧ t =
        { s with
          workers := s.workers.replace worker conn'
          pendingNotifs := s.pendingNotifs ++ msgs.map fun notif => (notif, worker) } := by
  simp only [pollOne, run_bind_eq_ok, run_ofFn, run_update, Option.map_eq_some_iff,
    Prod.mk.injEq, Prod.exists]
  constructor
  · rintro ⟨msgs, u, ⟨r, conn', hpoll, rfl, rfl⟩, hu⟩
    cases hu
    exact ⟨msgs, conn', hpoll, rfl⟩
  · rintro ⟨msgs, conn', hpoll, rfl⟩
    exact ⟨msgs, _, ⟨_, conn', hpoll, rfl, rfl⟩, rfl⟩

theorem pollOne_sameWires (hconn : s.workers.lookup worker = some conn)
    (h : (pollOne worker conn).run s = some (.ok (), t)) : SameWires s t := by
  obtain ⟨msgs, conn', hpoll, rfl⟩ := pollOne_eq_ok.mp h
  intro other
  rw [HashMap.lookup_replace (AList.lookup_isSome.mp (by simp [hconn]))]
  by_cases ho : other = worker
  · subst ho
    simp [hconn, Connection.poll_tx hpoll]
  · simp [ho]

/-- The connections still to be polled are as they were. -/
theorem pollOne_rest (hkey : worker ∉ entries.keys)
    (hl : ∀ e ∈ entries, s.workers.lookup e.1 = some e.2)
    (h : (pollOne worker conn).run s = some (.ok (), t)) :
    ∀ e ∈ entries, t.workers.lookup e.1 = some e.2 := by
  obtain ⟨msgs, conn', -, rfl⟩ := pollOne_eq_ok.mp h
  intro e he
  have hne : e.1 ≠ worker := fun heq => hkey (heq ▸ List.mem_keys_of_mem he)
  by_cases hw : worker ∈ s.workers
  · rw [HashMap.lookup_replace hw, if_neg hne, hl e he]
  · rw [HashMap.replace_of_notMem hw, hl e he]

theorem forM_pollOne_iff (hnd : entries.NodupKeys)
    (hl : ∀ e ∈ entries, s.workers.lookup e.1 = some e.2) :
    (∃ t, (entries.forM fun e => pollOne e.1 e.2).run s = some (.ok (), t)) ↔
      ∀ e ∈ entries, e.2.inMsgs = [] ∧ Connection.Readable e.2.rx := by
  induction entries generalizing s with
  | nil => simp
  | cons e entries ih =>
      obtain ⟨hhead, htail⟩ := List.forall_mem_cons.mp hl
      obtain ⟨hkey, hnd⟩ := List.nodupKeys_cons.mp hnd
      simp only [run_forM_cons, run_bind_eq_ok, List.forall_mem_cons]
      constructor
      · rintro ⟨t, ⟨⟩, u, hu, ht⟩
        obtain ⟨msgs, conn', hpoll, -⟩ := pollOne_eq_ok.mp hu
        exact ⟨Connection.poll_ok_iff.mp ⟨msgs, conn', hpoll⟩,
          (ih hnd (pollOne_rest hkey htail hu)).mp ⟨t, ht⟩⟩
      · rintro ⟨he, hes⟩
        obtain ⟨msgs, conn', hpoll⟩ := Connection.poll_ok_iff.mpr he
        obtain ⟨u, hu⟩ : ∃ u, (pollOne e.1 e.2).run s = some (.ok (), u) :=
          ⟨_, pollOne_eq_ok.mpr ⟨msgs, conn', hpoll, rfl⟩⟩
        obtain ⟨t, ht⟩ := (ih hnd (pollOne_rest hkey htail hu)).mpr hes
        exact ⟨t, (), u, hu, ht⟩

theorem forM_pollOne_spec (hnd : entries.NodupKeys)
    (hl : ∀ e ∈ entries, s.workers.lookup e.1 = some e.2)
    (h : (entries.forM fun e => pollOne e.1 e.2).run s = some (.ok (), t)) :
    t.pendingNotifs = s.pendingNotifs ++ waiting entries ∧ SameWires s t := by
  induction entries generalizing s with
  | nil =>
      obtain rfl : s = t := by simpa using h
      exact ⟨by simp [waiting], fun _ => rfl⟩
  | cons e entries ih =>
      obtain ⟨hhead, htail⟩ := List.forall_mem_cons.mp hl
      obtain ⟨hkey, hnd⟩ := List.nodupKeys_cons.mp hnd
      rw [run_forM_cons, run_bind_eq_ok] at h
      obtain ⟨⟨⟩, u, hu, ht⟩ := h
      obtain ⟨hpend, hwires⟩ := ih hnd (pollOne_rest hkey htail hu) ht
      have hsame := pollOne_sameWires hhead hu
      obtain ⟨msgs, conn', hpoll, rfl⟩ := pollOne_eq_ok.mp hu
      obtain ⟨hin, hr⟩ := Connection.poll_ok_iff.mp ⟨msgs, conn', hpoll⟩
      obtain ⟨rx, hpoll'⟩ := Connection.poll_of_readable hin hr
      obtain ⟨hmsgs, -⟩ := Prod.mk.inj (Option.some.inj (hpoll.symm.trans hpoll'))
      obtain rfl := Except.ok.inj hmsgs
      exact ⟨by simp [hpend, waiting], fun worker => (hwires worker).trans (hsame worker)⟩

theorem poll_iff :
    (∃ notifs t, (poll : Syncing CMD NOTIF _).run s = some (.ok notifs, t)) ↔ s.Pollable := by
  have hloop := forM_pollOne_iff s.workers.nodupKeys (s := s) fun e he => s.lookup_entry he
  constructor
  · rintro ⟨notifs, t, h⟩
    rw [poll, run_bind_of_ok (run_read _ _)] at h
    split at h
    · next hpend =>
      rw [run_bind_of_ok (run_read _ _), run_bind_eq_ok] at h
      obtain ⟨⟨⟩, v, hv, -⟩ := h
      have hall := hloop.mp ⟨v, hv⟩
      exact ⟨List.isEmpty_iff.mp hpend, fun e he => (hall e he).1, fun e he => (hall e he).2⟩
    · cases h
  · intro h
    obtain ⟨v, hv⟩ := hloop.mpr fun e he => ⟨h.inMsgs e he, h.rx e he⟩
    refine ⟨v.pendingNotifs, { v with pendingNotifs := [] }, ?_⟩
    rw [poll, run_bind_of_ok (run_read _ _), if_pos (List.isEmpty_iff.mpr h.pendingNotifs),
      run_bind_of_ok (run_read _ _), run_bind_of_ok hv]
    rfl

theorem poll_spec {notifs : List (NOTIF × WorkerId)}
    (h : (poll : Syncing CMD NOTIF _).run s = some (.ok notifs, t)) :
    notifs = waiting s.workers.entries ∧ t.pendingNotifs = [] ∧ SameWires s t := by
  have hpoll := poll_iff.mp ⟨notifs, t, h⟩
  rw [poll, run_bind_of_ok (run_read _ _), if_pos (List.isEmpty_iff.mpr hpoll.pendingNotifs),
    run_bind_of_ok (run_read _ _), run_bind_eq_ok] at h
  obtain ⟨⟨⟩, u, hu, ht⟩ := h
  obtain ⟨hpend, hwires⟩ :=
    forM_pollOne_spec s.workers.nodupKeys (fun e he => s.lookup_entry he) hu
  rw [run_bind_of_ok (run_read _ _), run_bind_of_ok (run_update _ _), run_pure] at ht
  obtain ⟨hn, rfl⟩ := Prod.mk.inj (Option.some.inj ht)
  obtain rfl := Except.ok.inj hn
  exact ⟨by simp [hpend, hpoll.pendingNotifs], rfl, hwires⟩

/-! ## The table only shrinks -/

def Shrinks (s t : SocketControllerSync CMD NOTIF) : Prop :=
  ∀ worker ∈ t.workers, worker ∈ s.workers

instance : IsPreorder (SocketControllerSync CMD NOTIF) Shrinks where
  refl _ _ h := h
  trans _ _ _ hst htu worker h := hst worker (htu worker h)

theorem removeWorker_shrinks : (removeWorker worker : Syncing CMD NOTIF Unit).Keeps Shrinks :=
  keeps_update fun _ _ => HashMap.mem_of_mem_erase

theorem replace_shrinks (worker : WorkerId) (conn : Connection NOTIF CMD)
    (s : SocketControllerSync CMD NOTIF) :
    Shrinks s { s with workers := s.workers.replace worker conn } :=
  fun _ => AList.mem_replace.mp

theorem sendOne_shrinks :
    (sendOne cmd answer worker : Syncing CMD NOTIF Unit).Keeps Shrinks := by
  refine keeps_bind keeps_read fun workers => ?_
  cases workers.lookup worker with
  | none => exact keeps_ofResult
  | some conn =>
      refine keeps_bind (keeps_update (replace_shrinks worker _)) fun _ => ?_
      refine keeps_bind keeps_ofResult fun res => ?_
      cases res with
      | sent => exact keeps_pure
      | closed => exact removeWorker_shrinks
      | full => exact keeps_ofResult

theorem send_shrinks {sending : Sending} :
    (send workers cmd sending : Syncing CMD NOTIF Unit).Keeps Shrinks :=
  keeps_bind keeps_ofResult fun _ => keeps_forM fun _ _ => sendOne_shrinks

theorem pollOne_shrinks : (pollOne worker conn : Syncing CMD NOTIF Unit).Keeps Shrinks := by
  refine keeps_bind (keeps_ofFn fun s r t h => ?_) fun notifs =>
    keeps_update fun s => refl_of Shrinks s
  obtain ⟨⟨r', conn'⟩, -, heq⟩ := Option.map_eq_some_iff.mp h
  obtain ⟨-, rfl⟩ := Prod.mk.inj heq
  exact replace_shrinks worker conn' s

theorem poll_shrinks : (poll : Syncing CMD NOTIF _).Keeps Shrinks := by
  refine keeps_bind keeps_read fun pending => ?_
  split
  · refine keeps_bind keeps_read fun workers => ?_
    refine keeps_bind (keeps_forM fun _ _ => pollOne_shrinks) fun _ => ?_
    refine keeps_bind keeps_read fun notifs => ?_
    exact keeps_bind (keeps_update fun s => refl_of Shrinks s) fun _ => keeps_pure
  · exact keeps_ofFn fun _ _ _ h => by cases h

end SocketControllerSync

end Libaflmm
