import Libaflmm.Runs
import Libaflmm.SocketSync

/-!
# Polling again after an error

A poll takes what was received into a buffer first, and asserts at its start
that the buffer is empty. An error keeps in there what was received before
it, so the poll after that panics; the messages are not lost, but nobody gets
them. A message of no bytes looks like the end of file, and stays in front of
everything behind it. `polls_restartable_iff` says that nothing else goes
wrong, over every run of arrivals and polls.
-/

namespace Libaflmm

/-! ## What arrives -/

def Recv.message? {In : Type} : Recv In → Option In
  | .packet msg => some msg
  | .error _ | .eof => none

/-- What happens to an end of a connection between two polls: a message of so
many bytes, something that makes a `recv` or the decoding fail, or the other
end is closed. -/
inductive Arrival (In : Type) where
  | message (msg : In) (length : Nat)
  | failure (err : Error)
  | close
deriving DecidableEq

/-- The other end of a connection. -/
structure Sender (In : Type) where
  sent : List In
  closed : Bool
deriving DecidableEq

namespace Arrival

variable {In : Type}

/-- What the next `recv` answers. -/
def answer : Arrival In → Recv In
  | .message msg length => if length = 0 then .eof else .packet msg
  | .failure err => .error err
  | .close => .eof

def message? : Arrival In → Option In
  | .message msg _ => some msg
  | .failure _ | .close => none

def Empty : Arrival In → Prop
  | .message _ length => length = 0
  | .failure _ | .close => False

instance : (arrival : Arrival In) → Decidable arrival.Empty
  | .message _ length => inferInstanceAs (Decidable (length = 0))
  | .failure _ | .close => inferInstanceAs (Decidable False)

def closes : Arrival In → Bool
  | .message .. | .failure _ => false
  | .close => true

end Arrival

def Sender.after {In : Type} (arrival : Arrival In) (sender : Sender In) : Sender In :=
  ⟨sender.sent ++ arrival.message?.toList, arrival.closes⟩

namespace Connection

variable {In Out : Type}

/-- The messages among what is to be received. -/
def packets (rx : List (Recv In)) : List In := rx.filterMap Recv.message?

/-- An end of file is the last thing to be received, of a connection that is
closed. -/
def FileEnds (closed : Bool) (rx : List (Recv In)) : Prop :=
  ∃ body, (∀ item ∈ body, item ≠ .eof) ∧ rx = body ++ if closed then [.eof] else []

/-- What was sent has been taken out or is to be received. -/
structure Intact (sender : Sender In) (taken : List In) (rx : List (Recv In)) : Prop where
  sent : sender.sent = taken ++ packets rx
  ends : FileEnds sender.closed rx

theorem packets_eq_append_receive (rx : List (Recv In)) (inMsgs : List In) :
    packets rx = readable rx ++ packets (receive rx inMsgs).2.2 := by
  fun_induction receive rx inMsgs with
  | case1 => rfl
  | case2 => rfl
  | case3 => rfl
  | case4 inMsgs msg rx ih =>
      rw [readable, List.cons_append, ← ih]
      rfl

theorem receive_fileEnds {closed : Bool} {rx : List (Recv In)} (inMsgs : List In)
    (h : FileEnds closed rx) : FileEnds closed (receive rx inMsgs).2.2 ∧
      (Readable rx → packets (receive rx inMsgs).2.2 = []) := by
  obtain ⟨body, hbody, rfl⟩ := h
  induction body generalizing inMsgs with
  | nil => cases closed <;> exact ⟨⟨[], hbody, rfl⟩, fun _ => rfl⟩
  | cons item body ih =>
      obtain ⟨hitem, hrest⟩ := List.forall_mem_cons.mp hbody
      cases item with
      | eof => exact absurd rfl hitem
      | error err => exact ⟨⟨body, hrest, rfl⟩, False.elim⟩
      | packet msg => exact ih (inMsgs ++ [msg]) hrest

theorem Intact.poll {sender : Sender In} {taken : List In} {rx : List (Recv In)}
    (h : Intact sender taken rx) :
    Intact sender (taken ++ readable rx) (receive rx []).2.2 where
  sent := by rw [h.sent, packets_eq_append_receive rx [], List.append_assoc]
  ends := (receive_fileEnds [] h.ends).1

theorem Intact.arrive {sender : Sender In} {taken : List In} {rx : List (Recv In)}
    {arrival : Arrival In} (h : Intact sender taken rx) (hopen : ¬sender.closed)
    (hne : ¬arrival.Empty) : Intact (sender.after arrival) taken (rx ++ [arrival.answer]) := by
  obtain ⟨body, hbody, hrx⟩ := h.ends
  rw [if_neg hopen, List.append_nil] at hrx
  subst hrx
  have hsent : ∀ item : Recv In, item.message? = arrival.message? →
      sender.sent ++ arrival.message?.toList = taken ++ packets (rx ++ [item]) := by
    intro item hitem
    rw [h.sent, packets, packets, List.filterMap_append, List.append_assoc, ← hitem]
    cases hmsg : item.message? <;> simp [hmsg]
  have hends : ∀ item : Recv In, item ≠ .eof → FileEnds false (rx ++ [item]) := by
    intro item hitem
    refine ⟨rx ++ [item], fun item' hmem => ?_, (List.append_nil _).symm⟩
    rcases List.mem_append.mp hmem with hmem | hmem
    · exact hbody item' hmem
    · exact List.mem_singleton.mp hmem ▸ hitem
  cases arrival with
  | message msg length =>
      have hanswer : Arrival.answer (.message msg length) = .packet msg := if_neg hne
      rw [hanswer]
      exact ⟨hsent _ rfl, hends _ nofun⟩
  | failure err => exact ⟨hsent (.error err) rfl, hends _ nofun⟩
  | close => exact ⟨hsent .eof rfl, rx, hbody, rfl⟩

/-- An empty message is not among what is to be received. -/
theorem not_kept_of_empty {sender : Sender In} {taken : List In} {rx : List (Recv In)}
    {arrival : Arrival In} (h : Intact sender taken rx) (hempty : arrival.Empty) :
    (sender.after arrival).sent ≠ taken ++ packets (rx ++ [arrival.answer]) := by
  cases arrival with
  | message msg length =>
      have hanswer : Arrival.answer (.message msg length) = .eof := if_pos hempty
      have hcount : (sender.after (.message msg length)).sent.length =
          (taken ++ packets rx).length + 1 := by
        rw [Sender.after, h.sent, List.length_append]
        rfl
      have hpackets : packets (rx ++ [.eof]) = packets rx := by
        rw [packets, List.filterMap_append]
        exact List.append_nil _
      intro hsent
      rw [hsent, hanswer, hpackets] at hcount
      exact Nat.succ_ne_self _ hcount.symm
  | failure err => exact hempty.elim
  | close => exact hempty.elim

theorem readable_receive {rx : List (Recv In)} (inMsgs : List In) (h : Readable rx) :
    Readable (receive rx inMsgs).2.2 := by
  fun_induction receive rx inMsgs with
  | case1 => exact h
  | case2 => exact h
  | case3 => exact h.elim
  | case4 inMsgs msg rx ih => exact ih h

/-! ## Polling a connection -/

/-- What a poll leaves of a connection whose buffer is empty. -/
def polled (conn : Connection In Out) : Connection In Out := { conn with
  inMsgs := if Readable conn.rx then [] else readable conn.rx
  rx := (receive conn.rx []).2.2 }

theorem poll_of_empty {conn : Connection In Out} (hin : conn.inMsgs = []) :
    Readable conn.rx ∧ conn.poll = some (.ok (readable conn.rx), conn.polled) ∨
      ¬Readable conn.rx ∧ ∃ err, conn.poll = some (.error err, conn.polled) := by
  obtain ⟨hmsgs, hok⟩ := receive_eq conn.rx []
  rw [List.nil_append] at hmsgs
  rcases hres : receive conn.rx [] with ⟨_ | ⟨⟩, inMsgs, rx⟩
  · rename_i err
    rw [hres] at hmsgs hok
    have hnot : ¬Readable conn.rx := fun h => by cases hok.mpr h
    refine .inr ⟨hnot, err, ?_⟩
    simp only at hmsgs
    simp [poll, polled, hin, hres, hnot, hmsgs]
  · rw [hres] at hmsgs hok
    have hreadable : Readable conn.rx := hok.mp rfl
    refine .inl ⟨hreadable, ?_⟩
    simp only at hmsgs
    simp [poll, polled, hin, hres, hreadable, hmsgs]

theorem poll_ne_none_iff {conn : Connection In Out} : conn.poll ≠ none ↔ conn.inMsgs = [] := by
  constructor
  · intro h
    by_contra hin
    exact h (if_neg fun hempty => hin (List.isEmpty_iff.mp hempty))
  · intro hin
    rcases poll_of_empty hin with ⟨-, hpoll⟩ | ⟨-, err, hpoll⟩ <;>
      exact hpoll ▸ Option.some_ne_none _

/-- The messages a poll gives its caller. -/
def given {α : Type} : Result (List α) → List α
  | .ok msgs => msgs
  | .error _ => []

/-- A connection, its other end, and what its polls have given their callers. -/
structure Polling (In Out : Type) where
  conn : Connection In Out
  sender : Sender In
  taken : List In

inductive PollEvent (In : Type) where
  | arrives (arrival : Arrival In)
  | polls
deriving DecidableEq

namespace Polling

def start : Polling In Out := ⟨.fromFd, ⟨[], false⟩, []⟩

/-- Nothing arrives from an end that is closed. -/
def step (s : Polling In Out) : PollEvent In → Option (Polling In Out)
  | .arrives arrival =>
    if s.sender.closed then some s
    else some { s with
      conn := { s.conn with rx := s.conn.rx ++ [arrival.answer] }
      sender := s.sender.after arrival }
  | .polls => s.conn.poll.map fun (r, conn) => { s with conn, taken := s.taken ++ given r }

/-- The connection can be polled, every message sent over it was given to a
caller once or still will be, and a poll that returns leaves none behind. -/
structure Restartable (s : Polling In Out) : Prop where
  polls : s.conn.poll ≠ none
  kept : s.sender.sent = s.taken ++ s.conn.inMsgs ++ packets s.conn.rx
  complete : ∀ msgs conn, s.conn.poll = some (.ok msgs, conn) → packets conn.rx = []

/-- No empty message arrives, and a poll that meets an error has received
nothing before it. -/
def Harmless (s : Polling In Out) : PollEvent In → Prop
  | .arrives arrival => s.sender.closed ∨ ¬arrival.Empty
  | .polls => Readable s.conn.rx ∨ readable s.conn.rx = []

structure Inv (s : Polling In Out) : Prop where
  inMsgs : s.conn.inMsgs = []
  intact : Intact s.sender s.taken s.conn.rx

theorem start_inv : (start : Polling In Out).Inv :=
  ⟨rfl, rfl, [], nofun, rfl⟩

variable {s t : Polling In Out} {event : PollEvent In}

theorem Inv.restartable (h : s.Inv) : s.Restartable where
  polls := poll_ne_none_iff.mpr h.inMsgs
  kept := by rw [h.inMsgs, List.append_nil, h.intact.sent]
  complete msgs conn hpoll := by
    rcases poll_of_empty h.inMsgs with ⟨hreadable, heq⟩ | ⟨-, err, heq⟩
    · obtain ⟨-, rfl⟩ := Prod.mk.inj (Option.some.inj (hpoll.symm.trans heq))
      exact (receive_fileEnds [] h.intact.ends).2 hreadable
    · cases hpoll.symm.trans heq

theorem Inv.step (h : s.Inv) (hharmless : s.Harmless event) (hstep : s.step event = some t) :
    t.Inv := by
  cases event with
  | arrives arrival =>
      rw [Polling.step] at hstep
      split at hstep
      · exact Option.some.inj hstep ▸ h
      · next hopen =>
        obtain rfl := Option.some.inj hstep
        exact ⟨h.inMsgs, h.intact.arrive hopen (hharmless.resolve_left hopen)⟩
  | polls =>
      obtain ⟨⟨r, conn⟩, hpoll, rfl⟩ := Option.map_eq_some_iff.mp hstep
      rcases poll_of_empty h.inMsgs with ⟨hreadable, heq⟩ | ⟨hnot, err, heq⟩
      · obtain ⟨rfl, rfl⟩ := Prod.mk.inj (Option.some.inj (hpoll.symm.trans heq))
        exact ⟨if_pos hreadable, h.intact.poll⟩
      · obtain ⟨rfl, rfl⟩ := Prod.mk.inj (Option.some.inj (hpoll.symm.trans heq))
        have hnone := hharmless.resolve_left hnot
        have hintact := h.intact.poll
        rw [hnone] at hintact
        exact ⟨(if_neg hnot).trans hnone, hintact⟩

/-- A step that is not harmless returns, but not to a connection that can be
polled again, or loses the message. -/
theorem Inv.break (h : s.Inv) (hharmful : ¬s.Harmless event) :
    ∃ t, s.step event = some t ∧ ¬t.Restartable := by
  cases event with
  | arrives arrival =>
      obtain ⟨hopen, hempty⟩ := not_or.mp hharmful
      refine ⟨_, if_neg hopen, fun ht => ?_⟩
      have hkept := ht.kept
      rw [h.inMsgs, List.append_nil] at hkept
      exact not_kept_of_empty h.intact (not_not.mp hempty) hkept
  | polls =>
      obtain ⟨hnot, hsome⟩ := not_or.mp hharmful
      rcases poll_of_empty h.inMsgs with ⟨hreadable, -⟩ | ⟨-, err, heq⟩
      · exact absurd hreadable hnot
      · refine ⟨_, congrArg (Option.map _) heq, fun ht => hsome ?_⟩
        have hin := poll_ne_none_iff.mp ht.polls
        exact (if_neg hnot).symm.trans hin

theorem forall_restartable_iff (events : List (PollEvent In)) :
    (∀ pre, pre <+: events → ∀ t : Polling In Out, run step start pre = some t → t.Restartable) ↔
      StepsMeet step (start : Polling In Out) events Harmless :=
  forall_reached_iff_stepsMeet Inv start_inv (fun _ => Inv.restartable)
    (fun _ _ _ h hharmless hstep => h.step hharmless hstep) fun _ _ h hharmful => h.break hharmful

end Polling

end Connection

/-! ## Polling all connections -/

namespace SocketControllerSync

open Call Connection

variable {CMD NOTIF : Type} {entries done : List (Σ _ : WorkerId, Connection NOTIF CMD)}
  {s t : SocketControllerSync CMD NOTIF} {worker : WorkerId}

/-- What was taken of one worker. -/
def takenFrom (worker : WorkerId) (taken : List (NOTIF × WorkerId)) : List NOTIF :=
  taken.filterMap fun e => if e.2 = worker then some e.1 else none

@[simp] theorem takenFrom_append (worker : WorkerId) (taken taken' : List (NOTIF × WorkerId)) :
    takenFrom worker (taken ++ taken') = takenFrom worker taken ++ takenFrom worker taken' :=
  List.filterMap_append

theorem takenFrom_map (worker worker' : WorkerId) (notifs : List NOTIF) :
    takenFrom worker (notifs.map fun notif => (notif, worker')) =
      if worker' = worker then notifs else [] := by
  rw [takenFrom, List.filterMap_map]
  split
  · next heq => simp [heq]
  · next hne => simp [hne]

theorem readable_of_waiting_eq_nil (h : waiting entries = []) :
    ∀ e ∈ entries, readable e.2.rx = [] := by
  intro e he
  have hnone := List.flatMap_eq_nil_iff.mp h e he
  exact List.map_eq_nil_iff.mp hnone

theorem takenFrom_waiting_of_notMem (h : worker ∉ entries.keys) :
    takenFrom worker (waiting entries) = [] := by
  induction entries with
  | nil => rfl
  | cons e entries ih =>
      rw [List.keys_cons, List.mem_cons, not_or] at h
      rw [waiting, List.flatMap_cons, takenFrom_append, takenFrom_map, if_neg (Ne.symm h.1),
        List.nil_append]
      exact ih h.2

theorem takenFrom_waiting {e : Σ _ : WorkerId, Connection NOTIF CMD} (hnd : entries.NodupKeys)
    (he : e ∈ entries) : takenFrom e.1 (waiting entries) = readable e.2.rx := by
  induction entries with
  | nil => cases he
  | cons e' entries ih =>
      obtain ⟨hkey, hnd⟩ := List.nodupKeys_cons.mp hnd
      rw [waiting, List.flatMap_cons, takenFrom_append, takenFrom_map]
      rcases List.mem_cons.mp he with rfl | he
      · rw [if_pos rfl]
        exact (congrArg _ (takenFrom_waiting_of_notMem hkey)).trans (List.append_nil _)
      · have hne : e'.1 ≠ e.1 := fun heq => hkey (heq ▸ List.mem_keys_of_mem he)
        rw [if_neg hne, List.nil_append]
        exact ih hnd he

def polledEntry (e : Σ _ : WorkerId, Connection NOTIF CMD) : Σ _ : WorkerId, Connection NOTIF CMD :=
  ⟨e.1, e.2.polled⟩

theorem run_pollOne {conn : Connection NOTIF CMD} (s : SocketControllerSync CMD NOTIF)
    (worker : WorkerId) (hin : conn.inMsgs = []) :
    Readable conn.rx ∧ (pollOne worker conn).run s = some (.ok (), { s with
        workers := s.workers.replace worker conn.polled
        pendingNotifs := s.pendingNotifs ++ (readable conn.rx).map fun notif => (notif, worker) }) ∨
      ¬Readable conn.rx ∧ ∃ err, (pollOne worker conn).run s =
        some (.error err, { s with workers := s.workers.replace worker conn.polled }) := by
  rcases poll_of_empty hin with ⟨hreadable, hpoll⟩ | ⟨hnot, err, hpoll⟩
  · refine .inl ⟨hreadable, ?_⟩
    rw [pollOne, run_bind, run_ofFn, hpoll]
    rfl
  · refine .inr ⟨hnot, err, ?_⟩
    rw [pollOne, run_bind, run_ofFn, hpoll]
    rfl

/-- How the loop of `poll` ends: it has been over all connections, or over
those up to the first one with an error. -/
def LoopEnds (s : SocketControllerSync CMD NOTIF)
    (done entries : List (Σ _ : WorkerId, Connection NOTIF CMD)) (r : Result PUnit)
    (t : SocketControllerSync CMD NOTIF) : Prop :=
  ((∀ e ∈ entries, Readable e.2.rx) ∧ r = .ok ⟨⟩ ∧
      t.workers.entries = done ++ entries.map polledEntry ∧
      t.pendingNotifs = s.pendingNotifs ++ waiting entries) ∨
    ∃ pre e post err, entries = pre ++ e :: post ∧ (∀ e' ∈ pre, Readable e'.2.rx) ∧
      ¬Readable e.2.rx ∧ r = .error err ∧
      t.workers.entries = done ++ (pre ++ [e]).map polledEntry ++ post ∧
      t.pendingNotifs = s.pendingNotifs ++ waiting pre

theorem forM_pollOne_ends (hs : s.workers.entries = done ++ entries)
    (hin : ∀ e ∈ entries, e.2.inMsgs = []) :
    (entries.forM fun e => pollOne e.1 e.2).Yields s (LoopEnds s done entries) := by
  induction entries generalizing s done with
  | nil =>
      refine yields_pure.mpr (.inl ⟨nofun, rfl, hs, ?_⟩)
      exact (List.append_nil _).symm
  | cons e entries ih =>
      obtain ⟨hhead, htail⟩ := List.forall_mem_cons.mp hin
      have hentries := HashMap.entries_replace (v := e.2.polled) hs
      rcases run_pollOne s e.1 hhead with ⟨hreadable, hrun⟩ | ⟨hnot, err, hrun⟩
      · refine (yields_bind_of_ok hrun).mpr ?_
        have hdone : (s.workers.replace e.1 e.2.polled).entries =
            (done ++ [polledEntry e]) ++ entries := by
          rw [hentries, List.append_assoc]
          rfl
        have hrest := ih (s := { s with
          workers := s.workers.replace e.1 e.2.polled
          pendingNotifs := s.pendingNotifs ++ (readable e.2.rx).map fun notif => (notif, e.1) })
          hdone htail
        refine hrest.mono fun r t ht => ?_
        rcases ht with ⟨hall, hr, hworkers, hpending⟩ |
          ⟨pre, e', post, err, heq, hpre, hnot, hr, hworkers, hpending⟩
        · refine .inl ⟨List.forall_mem_cons.mpr ⟨hreadable, hall⟩, hr, ?_, ?_⟩
          · rw [hworkers, List.map_cons, List.append_assoc, List.singleton_append]
          · rw [hpending, waiting, waiting, List.flatMap_cons, List.append_assoc]
        · refine .inr ⟨e :: pre, e', post, err, by rw [heq, List.cons_append],
            List.forall_mem_cons.mpr ⟨hreadable, hpre⟩, hnot, hr, ?_, ?_⟩
          · rw [hworkers, List.cons_append, List.map_cons, List.append_assoc done,
              List.singleton_append]
          · rw [hpending, waiting, waiting, List.flatMap_cons, List.append_assoc]
      · refine (yields_bind_of_error hrun).mpr
          (.inr ⟨[], e, entries, err, rfl, nofun, hnot, rfl, ?_, (List.append_nil _).symm⟩)
        show (s.workers.replace e.1 e.2.polled).entries = _
        rw [hentries, List.append_assoc]
        rfl

/-- **What a poll does** of connections whose buffers are empty. -/
theorem poll_cases (hpending : s.pendingNotifs = [])
    (hin : ∀ e ∈ s.workers.entries, e.2.inMsgs = []) :
    (∃ t, poll.run s = some (.ok (waiting s.workers.entries), t) ∧
        (∀ e ∈ s.workers.entries, Readable e.2.rx) ∧
        t.workers.entries = s.workers.entries.map polledEntry ∧ t.pendingNotifs = []) ∨
      ∃ t err pre e post, poll.run s = some (.error err, t) ∧
        s.workers.entries = pre ++ e :: post ∧ (∀ e' ∈ pre, Readable e'.2.rx) ∧
        ¬Readable e.2.rx ∧ t.workers.entries = (pre ++ [e]).map polledEntry ++ post ∧
        t.pendingNotifs = waiting pre := by
  have hentries : s.workers.entries = [] ++ s.workers.entries := rfl
  obtain ⟨r, t, hloop, hends⟩ := forM_pollOne_ends hentries hin
  rw [LoopEnds, hpending] at hends
  rw [poll, run_bind_of_ok (run_read _ _), if_pos (List.isEmpty_iff.mpr hpending),
    run_bind_of_ok (run_read _ _)]
  rcases hends with ⟨hall, rfl, hworkers, ht⟩ |
    ⟨pre, e, post, err, heq, hpre, hnot, rfl, hworkers, ht⟩
  · refine .inl ⟨{ t with pendingNotifs := [] }, ?_, hall, hworkers, rfl⟩
    rw [run_bind_of_ok hloop, run_bind_of_ok (run_read _ _), ht]
    rfl
  · exact .inr ⟨t, err, pre, e, post, run_bind_of_error hloop, heq, hpre, hnot, hworkers, ht⟩

theorem poll_eq_none_of_pendingNotifs (h : s.pendingNotifs ≠ []) :
    (poll : Syncing CMD NOTIF _).run s = none := by
  rw [poll, run_bind_of_ok (run_read _ _), if_neg fun hempty => h (List.isEmpty_iff.mp hempty)]
  rfl

theorem forM_pollOne_eq_none {pre post : List (Σ _ : WorkerId, Connection NOTIF CMD)}
    {e : Σ _ : WorkerId, Connection NOTIF CMD}
    (hpre : ∀ e' ∈ pre, e'.2.inMsgs = [] ∧ Readable e'.2.rx) (he : e.2.inMsgs ≠ []) :
    ((pre ++ e :: post).forM fun e => pollOne e.1 e.2).run s = none := by
  induction pre generalizing s with
  | nil =>
      have hpoll : e.2.poll = none := not_not.mp fun h => he (poll_ne_none_iff.mp h)
      rw [List.nil_append, run_forM_cons, run_bind, pollOne, run_bind, run_ofFn, hpoll]
      rfl
  | cons e' pre ih =>
      obtain ⟨⟨hin, hreadable⟩, hpre⟩ := List.forall_mem_cons.mp hpre
      rcases run_pollOne s e'.1 hin with ⟨-, hrun⟩ | ⟨hnot, -⟩
      · rw [List.cons_append, run_forM_cons, run_bind_of_ok hrun]
        exact ih hpre
      · exact absurd hreadable hnot

/-- A poll that met an error panics when it is repeated, if it received
anything before. -/
theorem poll_eq_none_of_leftover {pre post : List (Σ _ : WorkerId, Connection NOTIF CMD)}
    {e : Σ _ : WorkerId, Connection NOTIF CMD} (hpre : ∀ e' ∈ pre, Readable e'.2.rx)
    (hnot : ¬Readable e.2.rx)
    (hworkers : t.workers.entries = (pre ++ [e]).map polledEntry ++ post)
    (hpending : t.pendingNotifs = waiting pre) (hsome : waiting (pre ++ [e]) ≠ []) :
    (poll : Syncing CMD NOTIF _).run t = none := by
  by_cases hpre' : waiting pre = []
  · rw [poll, run_bind_of_ok (run_read _ _), if_pos (List.isEmpty_iff.mpr (hpending.trans hpre')),
      run_bind_of_ok (run_read _ _), hworkers, List.map_append, List.append_assoc]
    have he : (polledEntry e).2.inMsgs ≠ [] := by
      show (if Readable e.2.rx then [] else readable e.2.rx) ≠ []
      rw [if_neg hnot]
      intro hnone
      rw [waiting, List.flatMap_append, ← waiting, hpre', List.flatMap_singleton, hnone] at hsome
      exact hsome rfl
    rw [run_bind, List.map_singleton, List.singleton_append,
      forM_pollOne_eq_none (fun e' hmem => ?_) he]
    · rfl
    · obtain ⟨e'', hmem'', rfl⟩ := List.mem_map.mp hmem
      exact ⟨if_pos (hpre e'' hmem''), readable_receive [] (hpre e'' hmem'')⟩
  · exact poll_eq_none_of_pendingNotifs (hpending ▸ hpre')

/-- The connections, their other ends, and what the polls have given their
callers. -/
structure Polling (CMD NOTIF : Type) where
  sync : SocketControllerSync CMD NOTIF
  sender : WorkerId → Sender NOTIF
  taken : List (NOTIF × WorkerId)

inductive PollEvent (NOTIF : Type) where
  | arrives (worker : WorkerId) (arrival : Arrival NOTIF)
  | polls
deriving DecidableEq

namespace Polling

/-- The connections to these workers have just been created. -/
def start (workers : HashSet WorkerId) : Polling CMD NOTIF where
  sync := { workers := workers.mapValues fun _ => .fromFd, pendingNotifs := [], dropped := [] }
  sender := fun _ => ⟨[], false⟩
  taken := []

def arrive (worker : WorkerId) (conn : Connection NOTIF CMD) (arrival : Arrival NOTIF)
    (s : Polling CMD NOTIF) : Polling CMD NOTIF where
  sync := { s.sync with
    workers := s.sync.workers.replace worker { conn with rx := conn.rx ++ [arrival.answer] } }
  sender := Function.update s.sender worker ((s.sender worker).after arrival)
  taken := s.taken

/-- Nothing arrives from a worker without a connection, or from an end that is
closed. -/
def step (s : Polling CMD NOTIF) : PollEvent NOTIF → Option (Polling CMD NOTIF)
  | .arrives worker arrival =>
    match s.sync.workers.lookup worker with
    | none => some s
    | some conn => if (s.sender worker).closed then some s else some (s.arrive worker conn arrival)
  | .polls => (poll.run s.sync).map fun (r, sync) => { s with sync, taken := s.taken ++ given r }

/-- The connections can be polled, every message sent over one of them was
given to a caller once or still will be, and a poll that returns leaves none
behind. -/
structure Restartable (s : Polling CMD NOTIF) : Prop where
  polls : poll.run s.sync ≠ none
  kept : ∀ worker conn, s.sync.workers.lookup worker = some conn → (s.sender worker).sent =
    takenFrom worker s.taken ++ takenFrom worker s.sync.pendingNotifs ++ conn.inMsgs ++
      packets conn.rx
  complete : ∀ notifs sync, poll.run s.sync = some (.ok notifs, sync) →
    ∀ worker conn, sync.workers.lookup worker = some conn → packets conn.rx = []

/-- No empty message arrives, and a poll that meets an error on a connection
has received nothing before it, on this one or on those polled before. -/
def Harmless (s : Polling CMD NOTIF) : PollEvent NOTIF → Prop
  | .arrives worker arrival =>
    worker ∉ s.sync.workers ∨ (s.sender worker).closed ∨ ¬arrival.Empty
  | .polls => ∀ pre e post, s.sync.workers.entries = pre ++ e :: post →
    (∀ e' ∈ pre, Readable e'.2.rx) → ¬Readable e.2.rx → waiting (pre ++ [e]) = []

structure Inv (s : Polling CMD NOTIF) : Prop where
  pendingNotifs : s.sync.pendingNotifs = []
  inMsgs : ∀ e ∈ s.sync.workers.entries, e.2.inMsgs = []
  intact : ∀ e ∈ s.sync.workers.entries, Intact (s.sender e.1) (takenFrom e.1 s.taken) e.2.rx

theorem start_inv (workers : HashSet WorkerId) : (start workers : Polling CMD NOTIF).Inv where
  pendingNotifs := rfl
  inMsgs e he := by
    obtain ⟨_, -, rfl⟩ := List.mem_map.mp he
    rfl
  intact e he := by
    obtain ⟨_, -, rfl⟩ := List.mem_map.mp he
    exact ⟨rfl, [], nofun, rfl⟩

variable {s t : Polling CMD NOTIF} {event : PollEvent NOTIF}

theorem Inv.complete (h : s.Inv) {notifs : List (NOTIF × WorkerId)}
    {sync : SocketControllerSync CMD NOTIF} (hpoll : poll.run s.sync = some (.ok notifs, sync))
    {conn : Connection NOTIF CMD} (hconn : sync.workers.lookup worker = some conn) :
    packets conn.rx = [] := by
  rcases poll_cases h.pendingNotifs h.inMsgs with ⟨t, heq, hall, hworkers, -⟩ |
    ⟨t, err, pre, e, post, heq, -⟩
  · obtain ⟨-, rfl⟩ := Prod.mk.inj (Option.some.inj (hpoll.symm.trans heq))
    have hmem := AList.mem_lookup_iff.mp hconn
    rw [hworkers] at hmem
    obtain ⟨e, he, hpolled⟩ := List.mem_map.mp hmem
    cases hpolled
    exact (receive_fileEnds [] (h.intact e he).ends).2 (hall e he)
  · cases hpoll.symm.trans heq

theorem Inv.restartable (h : s.Inv) : s.Restartable where
  polls := by
    rcases poll_cases h.pendingNotifs h.inMsgs with ⟨t, heq, -⟩ | ⟨t, err, pre, e, post, heq, -⟩ <;>
      exact heq ▸ Option.some_ne_none _
  kept worker conn hconn := by
    have hmem := AList.mem_lookup_iff.mp hconn
    rw [h.pendingNotifs, h.inMsgs _ hmem, (h.intact _ hmem).sent]
    simp [takenFrom]
  complete notifs sync hpoll worker conn hconn := h.complete hpoll hconn

theorem Inv.arrive (h : s.Inv) {conn : Connection NOTIF CMD} {arrival : Arrival NOTIF}
    (hconn : s.sync.workers.lookup worker = some conn) (hopen : ¬(s.sender worker).closed)
    (hne : ¬arrival.Empty) : (s.arrive worker conn arrival).Inv := by
  have hmem : ⟨worker, conn⟩ ∈ s.sync.workers.entries := AList.mem_lookup_iff.mp hconn
  refine ⟨h.pendingNotifs, fun e he => ?_, fun e he => ?_⟩
  · rcases HashMap.mem_entries_replace he with rfl | ⟨-, he⟩
    · exact h.inMsgs ⟨worker, conn⟩ hmem
    · exact h.inMsgs e he
  · show Intact (Function.update s.sender worker _ e.1) (takenFrom e.1 s.taken) e.2.rx
    rcases HashMap.mem_entries_replace he with rfl | ⟨hother, he⟩
    · rw [Function.update_self]
      exact (h.intact ⟨worker, conn⟩ hmem).arrive hopen hne
    · rw [Function.update_of_ne hother]
      exact h.intact e he

theorem Inv.step (h : s.Inv) (hharmless : s.Harmless event) (hstep : s.step event = some t) :
    t.Inv := by
  cases event with
  | arrives worker arrival =>
      rw [Polling.step] at hstep
      split at hstep
      · exact Option.some.inj hstep ▸ h
      · next conn hconn =>
        split at hstep
        · exact Option.some.inj hstep ▸ h
        · next hopen =>
          obtain rfl := Option.some.inj hstep
          have hmem := AList.lookup_isSome.mp (Option.isSome_of_eq_some hconn)
          have hne := (hharmless.resolve_left (not_not.mpr hmem)).resolve_left hopen
          exact h.arrive hconn hopen hne
  | polls =>
      obtain ⟨⟨r, sync⟩, hpoll, rfl⟩ := Option.map_eq_some_iff.mp hstep
      rcases poll_cases h.pendingNotifs h.inMsgs with ⟨t, heq, hall, hworkers, hpending⟩ |
        ⟨t, err, pre, e, post, heq, hsplit, hpre, hnot, hworkers, hpending⟩
      · obtain ⟨rfl, rfl⟩ := Prod.mk.inj (Option.some.inj (hpoll.symm.trans heq))
        refine ⟨hpending, fun e he => ?_, fun e he => ?_⟩
        · rw [hworkers] at he
          obtain ⟨e', he', rfl⟩ := List.mem_map.mp he
          exact if_pos (hall e' he')
        · rw [hworkers] at he
          obtain ⟨e', he', rfl⟩ := List.mem_map.mp he
          show Intact _ (takenFrom e'.1 (s.taken ++ waiting s.sync.workers.entries)) _
          rw [takenFrom_append, takenFrom_waiting s.sync.workers.nodupKeys he']
          exact (h.intact e' he').poll
      · obtain ⟨rfl, rfl⟩ := Prod.mk.inj (Option.some.inj (hpoll.symm.trans heq))
        have hnone := hharmless pre e post hsplit hpre hnot
        have hreadable := readable_of_waiting_eq_nil hnone
        have hkeep : ∀ e' ∈ pre ++ [e], e'.2.polled.inMsgs = [] ∧
            Intact (s.sender e'.1) (takenFrom e'.1 s.taken) e'.2.polled.rx := by
          intro e' he'
          have hmem : e' ∈ s.sync.workers.entries := by
            rw [hsplit, List.append_cons]
            exact List.mem_append_left _ he'
          have hintact := (h.intact e' hmem).poll
          rw [hreadable e' he', List.append_nil] at hintact
          refine ⟨?_, hintact⟩
          show (if Readable e'.2.rx then [] else readable e'.2.rx) = []
          rw [hreadable e' he', ite_self]
        have hpost : ∀ e' ∈ post, e' ∈ s.sync.workers.entries := by
          intro e' he'
          rw [hsplit]
          exact List.mem_append_right _ (List.mem_cons_of_mem _ he')
        refine ⟨?_, fun e' he' => ?_, fun e' he' => ?_⟩
        · rw [waiting, List.flatMap_append, List.append_eq_nil_iff] at hnone
          exact hpending.trans hnone.1
        · rw [hworkers] at he'
          rcases List.mem_append.mp he' with he' | he'
          · obtain ⟨e'', he'', rfl⟩ := List.mem_map.mp he'
            exact (hkeep e'' he'').1
          · exact h.inMsgs e' (hpost e' he')
        · rw [hworkers] at he'
          show Intact _ (takenFrom e'.1 (s.taken ++ [])) _
          rw [List.append_nil]
          rcases List.mem_append.mp he' with he' | he'
          · obtain ⟨e'', he'', rfl⟩ := List.mem_map.mp he'
            exact (hkeep e'' he'').2
          · exact h.intact e' (hpost e' he')

/-- The first entry that has a property is one. -/
theorem first_unique {α : Type} {p : α → Prop} {pre pre' post post' : List α} {a a' : α}
    (hpre : ∀ x ∈ pre, p x) (ha : ¬p a) (hpre' : ∀ x ∈ pre', p x) (ha' : ¬p a')
    (h : pre ++ a :: post = pre' ++ a' :: post') : pre = pre' ∧ a = a' := by
  induction pre generalizing pre' with
  | nil =>
      cases pre' with
      | nil => exact ⟨rfl, (List.cons.inj h).1⟩
      | cons x pre' => exact absurd ((List.cons.inj h).1 ▸ hpre' x List.mem_cons_self) ha
  | cons x pre ih =>
      cases pre' with
      | nil => exact absurd ((List.cons.inj h).1 ▸ hpre x List.mem_cons_self) ha'
      | cons x' pre' =>
          obtain ⟨rfl, hrest⟩ := List.cons.inj h
          obtain ⟨rfl, rfl⟩ := ih (List.forall_mem_cons.mp hpre).2
            (List.forall_mem_cons.mp hpre').2 hrest
          exact ⟨rfl, rfl⟩

/-- A step that is not harmless returns, but not to connections that can be
polled again, or loses the message. -/
theorem Inv.break (h : s.Inv) (hharmful : ¬s.Harmless event) :
    ∃ t, s.step event = some t ∧ ¬t.Restartable := by
  cases event with
  | arrives worker arrival =>
      obtain ⟨hmem, hharmful⟩ := not_or.mp hharmful
      obtain ⟨hopen, hempty⟩ := not_or.mp hharmful
      obtain ⟨conn, hconn⟩ :=
        Option.isSome_iff_exists.mp (AList.lookup_isSome.mpr (not_not.mp hmem))
      have hentry : ⟨worker, conn⟩ ∈ s.sync.workers.entries := AList.mem_lookup_iff.mp hconn
      have hin : conn.inMsgs = [] := h.inMsgs _ hentry
      refine ⟨s.arrive worker conn arrival, ?_, fun ht => ?_⟩
      · rw [Polling.step, hconn]
        exact if_neg hopen
      · have hkept := ht.kept worker { conn with rx := conn.rx ++ [arrival.answer] }
          ((HashMap.lookup_replace (not_not.mp hmem)).trans (if_pos rfl))
        rw [show (s.arrive worker conn arrival).sender worker = (s.sender worker).after arrival
            from Function.update_self ..,
          show (s.arrive worker conn arrival).sync.pendingNotifs = [] from h.pendingNotifs, hin,
          List.append_nil] at hkept
        refine not_kept_of_empty (h.intact _ hentry) (not_not.mp hempty) (hkept.trans ?_)
        exact congrArg (· ++ _) (List.append_nil _)
  | polls =>
      simp only [Harmless, not_forall, exists_prop] at hharmful
      obtain ⟨pre, e, post, hsplit, hpre, hnot, hsome⟩ := hharmful
      rcases poll_cases h.pendingNotifs h.inMsgs with ⟨t, heq, hall, -⟩ |
        ⟨t, err, pre', e', post', heq, hsplit', hpre', hnot', hworkers, hpending⟩
      · refine absurd (hall e ?_) hnot
        rw [hsplit]
        exact List.mem_append_right _ List.mem_cons_self
      · obtain ⟨rfl, rfl⟩ := first_unique hpre' hnot' hpre hnot (hsplit'.symm.trans hsplit)
        refine ⟨_, congrArg (Option.map _) heq, fun ht => ht.polls ?_⟩
        exact poll_eq_none_of_leftover hpre hnot hworkers hpending hsome

theorem forall_restartable_iff (workers : HashSet WorkerId) (events : List (PollEvent NOTIF)) :
    (∀ pre, pre <+: events → ∀ t : Polling CMD NOTIF,
        run step (start workers) pre = some t → t.Restartable) ↔
      StepsMeet step (start workers : Polling CMD NOTIF) events Harmless :=
  forall_reached_iff_stepsMeet Inv (start_inv workers) (fun _ => Inv.restartable)
    (fun _ _ _ h hharmless hstep => h.step hharmless hstep) fun _ _ h hharmful => h.break hharmful

end Polling

/-- **Polling is restartable exactly where no message is empty, and no poll
meets an error behind what it has received**: in every run of arrivals and
polls, of one connection and of all. -/
theorem polls_restartable_iff {In Out : Type} (events : List (Connection.PollEvent In))
    (workers : HashSet WorkerId) (events' : List (PollEvent NOTIF)) :
    ((∀ pre, pre <+: events → ∀ t : Connection.Polling In Out,
        run Connection.Polling.step .start pre = some t → t.Restartable) ↔
      StepsMeet Connection.Polling.step (.start : Connection.Polling In Out) events
        Connection.Polling.Harmless) ∧
    ((∀ pre, pre <+: events' → ∀ t : Polling CMD NOTIF,
        run Polling.step (.start workers) pre = some t → t.Restartable) ↔
      StepsMeet Polling.step (.start workers : Polling CMD NOTIF) events' Polling.Harmless) :=
  ⟨Connection.Polling.forall_restartable_iff events,
    Polling.forall_restartable_iff workers events'⟩

/-- A message is received before the error: on the same connection, or on one
that is polled before. -/
theorem polls_not_restartable :
    (∃ t : Connection.Polling Nat Unit, run Connection.Polling.step .start
      [.arrives (.message 7 1), .arrives (.failure (.serialize "DeserializeUnexpectedEnd")),
        .polls] = some t ∧ ¬t.Restartable) ∧
    ∃ t : Polling Unit Nat, run Polling.step (.start (AList.insert ⟨1⟩ () (AList.insert ⟨2⟩ () ∅)))
      [.arrives ⟨1⟩ (.message 7 1),
        .arrives ⟨2⟩ (.failure (.serialize "DeserializeUnexpectedEnd")), .polls] = some t ∧
      ¬t.Restartable :=
  ⟨⟨_, rfl, fun h => h.polls rfl⟩, _, rfl, fun h => h.polls rfl⟩

end SocketControllerSync

end Libaflmm
