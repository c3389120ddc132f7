import Libaflmm.ControllerExit

/-!
# How many messages pass through the controller

Notifications are given a weight and commands another one, and what the
controller has `spent` in commands is set against what it `holds` in
notifications that are still to be forwarded. A notification costs its weight
once per registered destination, so with at most `n` registered workers
`spent + n * held` never grows, but by what arrives: nothing is forwarded
twice, whatever errors end a wait early.
-/

namespace Libaflmm

open Call

/-! ## Connections -/

namespace Recv

/-- The weight of what can be received. -/
def weight {In : Type} (f : In → Nat) : Recv In → Nat
  | .packet msg => f msg
  | .error _ | .eof => 0

end Recv

namespace Connection

variable {In Out : Type} (f : In → Nat)

def held (conn : Connection In Out) : Nat :=
  (conn.inMsgs.map f).sum + (conn.rx.map (Recv.weight f)).sum

theorem receive_held (rx : List (Recv In)) (inMsgs : List In) :
    ((receive rx inMsgs).2.1.map f).sum + ((receive rx inMsgs).2.2.map (Recv.weight f)).sum =
      (inMsgs.map f).sum + (rx.map (Recv.weight f)).sum := by
  fun_induction receive rx inMsgs with
  | case1 => rfl
  | case2 => rfl
  | case3 => simp [Recv.weight]
  | case4 inMsgs msg rx ih => simp [ih, Recv.weight, Nat.add_assoc]

/-- What a poll returns is no longer held. -/
theorem poll_held {conn conn' : Connection In Out} {r : Result (List In)}
    (h : conn.poll = some (r, conn')) :
    conn'.held f + ((r.toOption.getD []).map f).sum = conn.held f := by
  have hrec := receive_held f conn.rx conn.inMsgs
  unfold poll at h
  split at h
  · split at h
    · next hres =>
      obtain ⟨rfl, rfl⟩ := Prod.mk.inj (Option.some.inj h)
      simp only [hres] at hrec
      simp only [held, List.map_nil, List.sum_nil, Except.toOption, Option.getD_some]
      omega
    · next hres =>
      obtain ⟨rfl, rfl⟩ := Prod.mk.inj (Option.some.inj h)
      simp only [hres] at hrec
      simp only [held, Except.toOption, Option.getD_none, List.map_nil, List.sum_nil]
      omega
  · cases h

theorem arrive_held (item : Recv In) (conn : Connection In Out) :
    (conn.arrive item).held f ≤ conn.held f + item.weight f := by
  unfold arrive
  split
  · exact Nat.le_add_right _ _
  · simp [held, Nat.add_assoc]

end Connection

/-! ## The table of connections -/

namespace SocketControllerSync

variable {CMD NOTIF : Type} (f : NOTIF → Nat) (g : CMD → Nat)

/-- The weight of the notifications that are still to be taken. -/
def held (s : SocketControllerSync CMD NOTIF) : Nat :=
  HashMap.total (fun _ conn => conn.held f) s.workers +
    (s.pendingNotifs.map fun m => f m.1).sum

/-- The weight of all commands sent so far. -/
def spent (s : SocketControllerSync CMD NOTIF) : Nat :=
  HashMap.total (fun _ conn => (conn.tx.map g).sum) s.workers +
    (s.dropped.map fun e => (e.2.tx.map g).sum).sum

/-- From `s` to `t`, commands of weight at most `k` were sent, and no
notification came. -/
structure Costs (k : Nat) (s t : SocketControllerSync CMD NOTIF) : Prop where
  shrinks : Shrinks s t
  held : t.held f ≤ s.held f
  spent : t.spent g ≤ s.spent g + k

variable {f g} {s t u : SocketControllerSync CMD NOTIF} {cmd : CMD} {worker : WorkerId}
  {answer : WorkerId → Result SendResult} {k l : Nat}

theorem Costs.refl (s : SocketControllerSync CMD NOTIF) : Costs f g k s s :=
  ⟨fun _ h => h, Nat.le_refl _, Nat.le_add_right _ _⟩

theorem Costs.trans (h : Costs f g k s t) (h' : Costs f g l t u) : Costs f g (k + l) s u :=
  ⟨trans_of Shrinks h.shrinks h'.shrinks, h'.held.trans h.held, by
    have := h.spent
    have := h'.spent
    omega⟩

theorem removeWorker_costs (s : SocketControllerSync CMD NOTIF) :
    (removeWorker worker : Syncing CMD NOTIF Unit).Leaves s fun _ t => Costs f g 0 s t := by
  refine leaves_update.mpr ⟨fun _ => HashMap.mem_of_mem_erase, ?_, ?_⟩
  · exact Nat.add_le_add_right HashMap.total_erase_le _
  · cases hconn : s.workers.lookup worker with
    | none => exact Nat.add_le_add_right HashMap.total_erase_le _
    | some conn =>
        have herase := HashMap.total_erase (f := fun _ conn => (conn.tx.map g).sum) hconn
        simp only [SocketControllerSync.spent, Option.elim_some, List.map_append, List.sum_append,
          List.map_cons, List.map_nil, List.sum_cons, List.sum_nil]
        omega

/-- A replaced connection counts for what it is now. -/
theorem replace_costs {conn conn' : Connection NOTIF CMD}
    (hconn : s.workers.lookup worker = some conn) (hheld : conn'.held f ≤ conn.held f)
    (htx : (conn'.tx.map g).sum ≤ (conn.tx.map g).sum + k) :
    Costs f g k s { s with workers := s.workers.replace worker conn' } := by
  have hh := HashMap.total_replace (f := fun _ conn => conn.held f) (v := conn') hconn
  have hs := HashMap.total_replace (f := fun _ conn => (conn.tx.map g).sum) (v := conn') hconn
  refine ⟨replace_shrinks worker conn' s, ?_, ?_⟩
  · simp only [SocketControllerSync.held]
    omega
  · simp only [SocketControllerSync.spent]
    omega

theorem sendOne_costs (s : SocketControllerSync CMD NOTIF) :
    (sendOne cmd answer worker).Leaves s fun _ t =>
      Costs f g (if worker ∈ s.workers then g cmd else 0) s t := by
  cases hconn : s.workers.lookup worker with
  | none =>
      have hmem : worker ∉ s.workers := AList.lookup_eq_none.mp hconn
      exact (forall_returned (sendOne_unknown hmem)).mpr (Costs.refl s)
  | some conn =>
      have hmem : worker ∈ s.workers := AList.lookup_isSome.mp (by simp [hconn])
      rw [if_pos hmem, Leaves, sendOne_known hconn]
      refine leaves_bind.mpr (leaves_update.mpr ?_)
      have hcost : Costs f g (g cmd) s { s with
          workers := s.workers.replace worker (conn.sendSerialized cmd (answer worker)).2 } := by
        rcases answer worker with err | (_ | _ | _)
        · exact replace_costs hconn (Nat.le_refl _) (Nat.le_add_right _ _)
        · exact replace_costs hconn (Nat.le_refl _) (by simp [Connection.sendSerialized])
        · exact replace_costs hconn (Nat.le_refl _) (Nat.le_add_right _ _)
        · exact replace_costs hconn (Nat.le_refl _) (Nat.le_add_right _ _)
      refine leaves_bind.mpr (leaves_ofResult.mpr ?_)
      rcases (conn.sendSerialized cmd (answer worker)).1 with err | (_ | _ | _)
      · exact hcost
      · exact leaves_pure.mpr hcost
      · exact leaves_ofResult.mpr hcost
      · exact (removeWorker_costs _).mono fun _ t ht => hcost.trans ht

/-- A send costs the weight of the command once per destination in `D`, where
`D` has all registered workers. -/
theorem forM_sendOne_costs {D workers : List WorkerId} (hD : ∀ w ∈ s.workers, w ∈ D) :
    (workers.forM (sendOne cmd answer)).Leaves s fun _ t =>
      Costs f g ((workers.filter (· ∈ D)).length * g cmd) s t := by
  induction workers generalizing s with
  | nil => exact leaves_pure.mpr (Costs.refl s)
  | cons worker workers ih =>
      refine leaves_bind.mpr ((sendOne_costs (f := f) (g := g) s).mono fun r t ht => ?_)
      have hle : (if worker ∈ s.workers then g cmd else 0) +
          (workers.filter (· ∈ D)).length * g cmd ≤
            ((worker :: workers).filter (· ∈ D)).length * g cmd := by
        split
        · next hw =>
          rw [List.filter_cons_of_pos (by simpa using hD worker hw), List.length_cons,
            Nat.succ_mul, Nat.add_comm]
        · rw [Nat.zero_add]
          exact Nat.mul_le_mul_right _ ((List.sublist_cons_self _ _).filter _).length_le
      cases r with
      | error err => exact ⟨ht.shrinks, ht.held, by have := ht.spent; omega⟩
      | ok u =>
          refine (ih fun w hw => hD w (ht.shrinks w hw)).mono fun _ v hv => ?_
          have hall := ht.trans hv
          exact ⟨hall.shrinks, hall.held, by have := hall.spent; omega⟩

variable {conn : Connection NOTIF CMD}

/-- What one connection gives goes from it to the buffer. -/
theorem pollOne_costs (hconn : s.workers.lookup worker = some conn) :
    (pollOne worker conn).Leaves s fun _ t => Costs f g 0 s t := by
  refine leaves_bind.mpr fun r t h => ?_
  obtain ⟨⟨r', conn'⟩, hpoll, heq⟩ := Option.map_eq_some_iff.mp h
  obtain ⟨rfl, rfl⟩ := Prod.mk.inj heq
  have hheld := Connection.poll_held f hpoll
  have htx : (conn'.tx.map g).sum ≤ (conn.tx.map g).sum + 0 := by
    rw [Connection.poll_tx hpoll, Nat.add_zero]
  have hcost : Costs f g 0 s { s with workers := s.workers.replace worker conn' } :=
    replace_costs hconn (by omega) htx
  cases r' with
  | error err => exact hcost
  | ok notifs =>
      refine leaves_update.mpr ⟨hcost.shrinks, ?_, hcost.spent⟩
      have htotal := HashMap.total_replace (f := fun _ conn => conn.held f) (v := conn') hconn
      have hsame :
          notifs.map ((fun m => f m.1) ∘ fun notif => (notif, worker)) = notifs.map f := rfl
      simp only [SocketControllerSync.held, List.map_append, List.sum_append, List.map_map, hsame]
      simp only [Except.toOption, Option.getD_some] at hheld
      omega

theorem forM_pollOne_costs {entries : List (Σ _ : WorkerId, Connection NOTIF CMD)}
    (hnd : entries.NodupKeys) (hl : ∀ e ∈ entries, s.workers.lookup e.1 = some e.2) :
    (entries.forM fun e => pollOne e.1 e.2).Leaves s fun _ t => Costs f g 0 s t := by
  induction entries generalizing s with
  | nil => exact leaves_pure.mpr (Costs.refl s)
  | cons e entries ih =>
      obtain ⟨hhead, htail⟩ := List.forall_mem_cons.mp hl
      obtain ⟨hkey, hnd⟩ := List.nodupKeys_cons.mp hnd
      refine leaves_bind.mpr fun r t ht => ?_
      have hcost := pollOne_costs (f := f) (g := g) hhead r t ht
      cases r with
      | error err => exact hcost
      | ok u => exact (ih hnd (pollOne_rest hkey htail ht)).mono fun _ v hv => hcost.trans hv

theorem poll_costs (s : SocketControllerSync CMD NOTIF) :
    (poll : Syncing CMD NOTIF _).Leaves s fun r t => Costs f g 0 s t ∧
      t.held f + ((r.toOption.getD []).map fun m => f m.1).sum ≤ s.held f := by
  refine leaves_bind.mpr (leaves_read.mpr ?_)
  dsimp only
  split
  · refine leaves_bind.mpr (leaves_read.mpr ?_)
    refine leaves_bind.mpr ((forM_pollOne_costs (f := f) (g := g) s.workers.nodupKeys
      fun e he => s.lookup_entry he).mono fun r t ht => ?_)
    cases r with
    | error err => exact ⟨ht, by simpa [Except.toOption] using ht.held⟩
    | ok u =>
        refine leaves_bind.mpr (leaves_read.mpr (leaves_bind.mpr (leaves_update.mpr
          (leaves_pure.mpr ?_))))
        have hh := ht.held
        simp only [SocketControllerSync.held] at hh
        refine ⟨⟨ht.shrinks, ?_, ht.spent⟩, ?_⟩
        · simp only [SocketControllerSync.held, List.map_nil, List.sum_nil]
          omega
        · simp only [SocketControllerSync.held, List.map_nil, List.sum_nil, Except.toOption,
            Option.getD_some]
          omega
  · exact fun _ _ h => by cases h

end SocketControllerSync

/-! ## The controller -/

namespace GenericController

variable {K HB H U : Type} {f : GenericNotification H U → Nat} {g : GenericCommand H U → Nat}

/-- What has been spent, and what the rest can still cost at `n` each. -/
def account (f : GenericNotification H U → Nat) (g : GenericCommand H U → Nat) (n : Nat)
    (c : GenericController K HB H U) : Nat :=
  c.sync.spent g + n * c.sync.held f

variable {c t : GenericController K HB H U} {D : List WorkerId}

/-- The router's destinations that are in `D` are no more than `D`. -/
theorem dests_length_le (c : GenericController K HB H U)
    (m : GenericNotification H U × WorkerId) :
    ((c.dests m).filter (· ∈ D)).length ≤ D.length := by
  have hnd : ((c.dests m).filter (· ∈ D)).Nodup :=
    (c.router.destinationsOf_nodup m.2).filter _
  have hsub : (c.dests m).filter (· ∈ D) ⊆ D := fun w hw => by
    simpa using (List.mem_filter.mp hw).2
  exact (List.subperm_of_subset hnd hsub).length_le

/-- A call of the running controller that costs the table at most `k`. -/
def Pays (f : GenericNotification H U → Nat) (g : GenericCommand H U → Nat) (k : Nat)
    (c t : GenericController K HB H U) : Prop :=
  ∃ s, t = c.withSync s ∧ SocketControllerSync.Costs f g k c.sync s

theorem Running.onSync_pays {α : Type} {k : Nat} (hc : c.Running)
    {x : Call Error (SocketControllerSync (GenericCommand H U) (GenericNotification H U)) α}
    (hx : x.Leaves c.sync fun _ s => SocketControllerSync.Costs f g k c.sync s) :
    (onSync x : Controlling K HB H U α).Leaves c fun _ t => Pays f g k c t := by
  intro r t h
  rw [hc.run_onSync] at h
  obtain ⟨⟨r', s⟩, hs, heq⟩ := Option.map_eq_some_iff.mp h
  obtain ⟨-, rfl⟩ := Prod.mk.inj heq
  exact ⟨s, rfl, hx r' s hs⟩

theorem Pays.running {k : Nat} (hc : c.Running) (h : Pays f g k c t) : t.Running := by
  obtain ⟨s, rfl, hs⟩ := h
  exact hc.withSync hs.shrinks

theorem forward_pays {sending : Sending} {m : GenericNotification H U × WorkerId}
    (hc : c.Running) (hD : ∀ w ∈ c.sync.workers, w ∈ D) (hm : (c.commandOf m).isSome)
    (hfg : ∀ group, g (m.1.commandFrom group) ≤ f m.1) :
    (forward m.1 m.2 sending).Leaves c fun _ t => Pays f g (D.length * f m.1) c t := by
  obtain ⟨cmd, hcmd⟩ := Option.isSome_iff_exists.mp hm
  have hcost : (SocketControllerSync.send (c.dests m) cmd sending).Leaves c.sync fun _ s =>
      SocketControllerSync.Costs f g (D.length * f m.1) c.sync s := by
    refine leaves_bind.mpr (leaves_ofResult.mpr ?_)
    cases sending.serialized with
    | error err => exact SocketControllerSync.Costs.refl _
    | ok u =>
        refine (SocketControllerSync.forM_sendOne_costs (f := f) (g := g) hD).mono fun _ s hs => ?_
        refine ⟨hs.shrinks, hs.held, hs.spent.trans (Nat.add_le_add_left ?_ _)⟩
        obtain ⟨desc, -, rfl⟩ := Option.map_eq_some_iff.mp hcmd
        exact Nat.mul_le_mul (c.dests_length_le m) (hfg _)
  intro r t h
  rw [forward_eq hc hcmd] at h
  exact hc.onSync_pays hcost r t h

theorem forwardAll_pays {sending : Nat → Sending} {i : Nat}
    {batch : List (GenericNotification H U × WorkerId)} (hc : c.Running)
    (hD : ∀ w ∈ c.sync.workers, w ∈ D) (hbatch : ∀ m ∈ batch, (c.commandOf m).isSome)
    (hfg : ∀ notif group, g (notif.commandFrom group) ≤ f notif) :
    (forwardAll sending i batch).Leaves c fun _ t =>
      Pays f g (D.length * (batch.map fun m => f m.1).sum) c t := by
  induction batch generalizing c i with
  | nil =>
      exact leaves_pure.mpr ⟨c.sync, hc.withSync_self.symm, SocketControllerSync.Costs.refl _⟩
  | cons m batch ih =>
      obtain ⟨hm, hbatch⟩ := List.forall_mem_cons.mp hbatch
      refine leaves_bind.mpr ((forward_pays hc hD hm (hfg m.1)).mono fun r u hu => ?_)
      have hrun := hu.running hc
      obtain ⟨s, rfl, hs⟩ := hu
      rw [List.map_cons, List.sum_cons, Nat.mul_add]
      cases r with
      | error err => exact ⟨s, rfl, hs.shrinks, hs.held, by have := hs.spent; omega⟩
      | ok _ =>
          refine (ih hrun (fun w hw => hD w (hs.shrinks w hw)) hbatch).mono fun _ t ht => ?_
          obtain ⟨s', rfl, hs'⟩ := ht
          exact ⟨s', rfl, hs.trans hs'⟩

/-- What a call of the controller may do to the account: it goes up by `k` at
most, and the table only shrinks. -/
structure Settles (f : GenericNotification H U → Nat) (g : GenericCommand H U → Nat)
    (n k : Nat) (c t : GenericController K HB H U) : Prop where
  shrinks : SocketControllerSync.Shrinks c.sync t.sync
  account : t.account f g n ≤ c.account f g n + k

theorem Pays.settles {n k : Nat} (h : Pays f g k c t) : Settles f g n k c t := by
  obtain ⟨s, rfl, hs⟩ := h
  refine ⟨hs.shrinks, ?_⟩
  have hheld : n * s.held f ≤ n * c.sync.held f := Nat.mul_le_mul_left n hs.held
  have hspent := hs.spent
  simp only [account, withSync_sync]
  omega

/-- **A wait never costs more than what was waiting.** -/
theorem Running.wait_settles {waiting : Waiting} (hc : c.Running)
    (hD : ∀ w ∈ c.sync.workers, w ∈ D)
    (hfg : ∀ notif group, g (notif.commandFrom group) ≤ f notif) :
    (waitNotifications waiting).Leaves c fun _ t => Settles f g D.length 0 c t := by
  have hsame : Settles f g D.length 0 c c := ⟨fun _ h => h, Nat.le_refl _⟩
  intro r t h
  rcases hw : waiting.waited with err | (_ | _)
  · rw [waitNotifications, hw, run_bind_of_error hc.run_waited] at h
    obtain ⟨-, rfl⟩ := Prod.mk.inj (Option.some.inj h)
    exact hsame
  · cases hpoll : (SocketControllerSync.poll : Call Error
        (SocketControllerSync (GenericCommand H U) (GenericNotification H U)) _).run c.sync with
    | none =>
        rw [waitNotifications, hw, run_bind_of_ok hc.run_waited, run_bind, hc.run_onSync,
          hpoll] at h
        cases h
    | some p =>
        obtain ⟨r', s⟩ := p
        obtain ⟨hcost, hheld⟩ := SocketControllerSync.poll_costs (f := f) (g := g) _ _ _ hpoll
        cases r' with
        | error err =>
            rw [waitNotifications, hw, run_bind_of_ok hc.run_waited,
              run_bind_of_error (e := err) (t := c.withSync s)] at h
            · obtain ⟨-, rfl⟩ := Prod.mk.inj (Option.some.inj h)
              exact Pays.settles ⟨s, rfl, hcost⟩
            · rw [hc.run_onSync, hpoll, Option.map_some]
        | ok notifs =>
            obtain ⟨hn, -, -⟩ := SocketControllerSync.poll_spec hpoll
            obtain rfl : notifs = c.pending := hn
            rw [hc.run_polled hw hpoll] at h
            obtain ⟨s', rfl, hs'⟩ := forwardAll_pays (c := c.withSync s) (D := D)
              (hc.withSync hcost.shrinks) (fun w hmem => hD w (hcost.shrinks w hmem))
              hc.commandOf_pending hfg _ _ h
            refine ⟨trans_of SocketControllerSync.Shrinks hcost.shrinks hs'.shrinks, ?_⟩
            have hspent := hcost.spent
            have hspent' := hs'.spent
            have hheld' := hs'.held
            simp only [withSync_sync] at hspent' hheld'
            simp only [Except.toOption, Option.getD_some] at hheld
            have hmul : D.length * (s'.held f + (c.pending.map fun m => f m.1).sum) ≤
                D.length * c.sync.held f := Nat.mul_le_mul_left _ (by omega)
            simp only [account, withSync_sync]
            rw [Nat.mul_add] at hmul
            omega
  · rw [waitNotifications, hw, run_bind_of_ok hc.run_waited] at h
    obtain ⟨-, rfl⟩ := Prod.mk.inj (Option.some.inj h)
    exact hsame

/-- The weight of what an event brings. -/
def arrivalWeight (f : GenericNotification H U → Nat) : ControllerEvent H U → Nat
  | .arrives _ item => item.weight f
  | _ => 0

theorem settles_of_held {n k : Nat} (hshrinks : SocketControllerSync.Shrinks c.sync t.sync)
    (hspent : t.sync.spent g ≤ c.sync.spent g) (hheld : t.sync.held f ≤ c.sync.held f + k) :
    Settles f g n (n * k) c t := by
  refine ⟨hshrinks, ?_⟩
  have hmul := Nat.mul_le_mul_left n hheld
  rw [Nat.mul_add] at hmul
  simp only [account]
  omega

theorem arrive_settles (n : Nat) (worker : WorkerId) (item : Recv (GenericNotification H U)) :
    Settles f g n (n * item.weight f) c (c.arrive worker item) := by
  unfold GenericController.arrive
  split
  · exact settles_of_held (fun _ h => h) (Nat.le_refl _) (Nat.le_add_right _ _)
  · next conn hconn =>
    have hh := HashMap.total_replace (f := fun _ conn => conn.held f)
      (v := conn.arrive item) hconn
    have hs := HashMap.total_replace (f := fun _ conn => (conn.tx.map g).sum)
      (v := conn.arrive item) hconn
    have htx : (conn.arrive item).tx = conn.tx := by
      unfold Connection.arrive
      split <;> rfl
    have harr := Connection.arrive_held f item conn
    refine settles_of_held (SocketControllerSync.replace_shrinks worker _ _) ?_ ?_
    · rw [htx] at hs
      simp only [withSync_sync, SocketControllerSync.spent]
      omega
    · simp only [withSync_sync, SocketControllerSync.held]
      omega

/-- **Nothing is forwarded twice.** Whatever happens to a running controller,
its account goes up only by what arrives. -/
theorem Running.exec_settles {event : ControllerEvent H U} (hc : c.Running)
    (hD : ∀ w ∈ c.sync.workers, w ∈ D)
    (hfg : ∀ notif group, g (notif.commandFrom group) ≤ f notif) (hg : g .shutdown = 0)
    (h : c.exec event = some t) :
    Settles f g D.length (D.length * arrivalWeight f event) c t := by
  have hcall : ∀ {x : Controlling K HB H U Unit},
      (x.Leaves c fun _ t => Settles f g D.length 0 c t) →
      (x.run c).map (·.2) = some t → Settles f g D.length 0 c t := by
    intro x hx h
    obtain ⟨⟨r, u⟩, hu, rfl⟩ := Option.map_eq_some_iff.mp h
    exact hx r u hu
  have hpays : ∀ {x : Call Error
      (SocketControllerSync (GenericCommand H U) (GenericNotification H U)) Unit},
      (x.Leaves c.sync fun _ s => SocketControllerSync.Costs f g 0 c.sync s) →
      (onSync x : Controlling K HB H U Unit).Leaves c fun _ t => Settles f g D.length 0 c t :=
    fun hx => (hc.onSync_pays hx).mono fun _ _ => Pays.settles
  cases event with
  | arrives worker item =>
      obtain rfl := Option.some.inj h
      exact arrive_settles _ _ _
  | exits descriptor => exact hcall (hpays (SocketControllerSync.removeWorker_costs _)) h
  | terminates descriptor => exact hcall (hpays (SocketControllerSync.removeWorker_costs _)) h
  | shutdown worker sending =>
      refine hcall (hpays (leaves_bind.mpr (leaves_ofResult.mpr ?_))) h
      cases sending.serialized with
      | error err => exact SocketControllerSync.Costs.refl _
      | ok u =>
          refine (SocketControllerSync.forM_sendOne_costs (f := f) (g := g) hD).mono
            fun _ s hs => ?_
          simpa [hg] using hs
  | waits waiting => exact hcall (hc.wait_settles hD hfg) h

end GenericController

end Libaflmm
