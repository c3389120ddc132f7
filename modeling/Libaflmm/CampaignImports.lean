import Libaflmm.Campaign
import Libaflmm.MessageFlow
import Libaflmm.WorkerSeen

/-!
# Imports do not loop

However the routes go, however the workers and the controller take turns and
whatever the feedbacks say: a worker imports no testcase that it has sent or
imported before, so it evaluates each import once, and what it sends of it
it sends once. Since the controller spends no more on a notification than one
command per worker, a testcase that is found once causes at most
`(1 + n) * (1 + n)` messages among `n` workers.
-/

namespace Libaflmm

open Call

/-! ## One instance -/

namespace FuzzInstance

variable {HB I H U : Type} [Input I]

/-- What holds of an instance between two of its calls. -/
structure Sound (s : FuzzInstance HB I H U) : Prop where
  sent_seen : ∀ id ∈ s.worker.sent, id ∈ s.worker.seenTestcases
  received_seen : ∀ id ∈ s.received, id ∈ s.worker.seenTestcases
  nodup : s.received.Nodup
  received : s.received = s.evaluated ++ s.pendingTestcases.map Testcase.id
  count : ∀ id, s.worker.sent.count id ≤ s.found.count id + s.evaluated.count id

/-- From `s` to `t` the testcases `new` were imported: they are
distinct, and were neither sent nor imported before. -/
structure Receives (s t : FuzzInstance HB I H U) (new : List TestcaseId) : Prop where
  received : t.received = s.received ++ new
  nodup : new.Nodup
  notSent : ∀ id ∈ new, id ∉ s.worker.sent
  notReceived : ∀ id ∈ new, id ∉ s.received

/-- What a call of an instance does. -/
structure Advances (s t : FuzzInstance HB I H U) : Prop where
  sound : t.Sound
  tx : s.worker.workerSync.tx <+: t.worker.workerSync.tx
  receives : ∃ new, Receives s t new

variable {s t : FuzzInstance HB I H U}

theorem leaves_onWorker {α : Type} {x : Call Error (GenericWorker HB H U) α}
    {Q : Result α → FuzzInstance HB I H U → Prop} :
    (onWorker x).Leaves s Q ↔ x.Leaves s.worker fun r worker => Q r { s with worker } :=
  leaves_on

theorem Receives.none (h : t.received = s.received) : Receives s t [] :=
  ⟨by rw [h, List.append_nil], List.nodup_nil, by simp, by simp⟩

/-- A call of the worker that neither sends nor imports a testcase. -/
theorem Sound.withWorker {worker : GenericWorker HB H U} (h : s.Sound)
    (hseen : ∀ id ∈ s.worker.seenTestcases, id ∈ worker.seenTestcases)
    (hsent : worker.sent = s.worker.sent) : Sound { s with worker } where
  sent_seen id hid := hseen id (h.sent_seen id (hsent ▸ hid))
  received_seen id hid := hseen id (h.received_seen id hid)
  nodup := h.nodup
  received := h.received
  count id := by
    show worker.sent.count id ≤ _
    rw [hsent]
    exact h.count id

theorem sent_append {worker : GenericWorker HB H U} {notif : GenericNotification H U}
    (h : worker.workerSync.tx = s.worker.workerSync.tx ++ [notif]) :
    worker.sent = s.worker.sent ++ notif.testcaseId.toList := by
  simp only [GenericWorker.sent, h, List.filterMap_append, List.append_cancel_left_eq]
  cases hid : notif.testcaseId <;> simp [hid]

theorem sendCustom_advances {payload : U} {serialized : Result Unit}
    {answer : Result SendResult} (h : s.Sound) :
    (onWorker (GenericWorker.sendCustom payload serialized answer) :
      Fuzzing HB I H U Unit).Leaves s fun _ t => Advances s t := by
  refine leaves_onWorker.mpr ((GenericWorker.sendCustom_tx _).mono fun _ worker hw => ?_)
  obtain ⟨hseen, htx⟩ := hw
  have hsent : worker.sent = s.worker.sent := by
    rcases htx with htx | htx
    · exact congrArg (List.filterMap _) htx
    · simpa [GenericNotification.testcaseId] using sent_append htx
  refine ⟨h.withWorker (fun id hid => hseen ▸ hid) hsent, ?_, [], Receives.none rfl⟩
  rcases htx with htx | htx
  · exact htx ▸ List.prefix_refl _
  · exact htx ▸ List.prefix_append _ _

variable [InputHandleBackend HB I H]

theorem importTestcases_advances (h : s.Sound) :
    (importTestcases : Fuzzing HB I H U Unit).Leaves s fun _ t => Advances s t := by
  refine leaves_bind.mpr (leaves_onWorker.mpr
    ((GenericWorker.poll_tx _).mono fun r worker hw => ?_))
  obtain ⟨hseen, htx⟩ := hw
  have hsent : worker.sent = s.worker.sent := congrArg (List.filterMap _) htx
  have hpolled : Sound { s with worker } := h.withWorker (fun id hid => hseen ▸ hid) hsent
  have hquiet : Advances s { s with worker } :=
    ⟨hpolled, htx ▸ List.prefix_refl _, [], Receives.none rfl⟩
  cases r with
  | error err => exact hquiet
  | ok received =>
      dsimp only
      split
      · refine leaves_bind.mpr (leaves_onWorker.mpr
          ((GenericWorker.recvTestcases_imports (I := I) worker).mono fun r worker' hi => ?_))
        have hsent' : worker'.sent = worker.sent := congrArg (List.filterMap _) hi.tx
        have htx' : s.worker.workerSync.tx <+: worker'.workerSync.tx := by
          rw [hi.tx, htx]
        cases r with
        | error err =>
            exact ⟨hpolled.withWorker hi.grows hsent', htx', [], Receives.none rfl⟩
        | ok testcases =>
            refine leaves_update.mpr ⟨?_, htx', testcases.map Testcase.id, rfl, hi.nodup, ?_, ?_⟩
            · constructor
              · exact fun id hid => hi.grows id (hpolled.sent_seen id (hsent' ▸ hid))
              · intro id hid
                rcases List.mem_append.mp hid with hid | hid
                · exact hi.grows id (hpolled.received_seen id hid)
                · exact hi.seen id hid
              · refine List.nodup_append.mpr ⟨h.nodup, hi.nodup, fun a ha b hb heq => ?_⟩
                exact hi.fresh b hb (hpolled.received_seen b (heq ▸ ha))
              · simp only [h.received, List.map_append, List.append_assoc]
              · intro id
                show worker'.sent.count id ≤ _
                rw [hsent']
                exact hpolled.count id
            · exact fun id hid hs => hi.fresh id hid (hpolled.sent_seen id (hsent ▸ hs))
            · exact fun id hid hr => hi.fresh id hid (hpolled.received_seen id hr)
      · exact leaves_pure.mpr hquiet

/-- One send more is accounted for: as a find, or as the evaluation of what
was imported and has not been sent yet. -/
theorem share_advances {input : I} {imported : Option TestcaseId} {cb : Sharing I} (h : s.Sound)
    (hslack : ∀ id, imported = some id →
      s.worker.sent.count id < s.found.count id + s.evaluated.count id) :
    (share input imported cb : Fuzzing HB I H U Unit).Leaves s fun _ t =>
      Advances s t ∧ t.evaluated = s.evaluated := by
  have hquiet : Advances s s ∧ s.evaluated = s.evaluated :=
    ⟨⟨h, List.prefix_refl _, [], Receives.none rfl⟩, rfl⟩
  refine leaves_bind.mpr (leaves_ofResult.mpr ?_)
  rcases cb.interest with err | (_ | _ | _)
  · exact hquiet
  · exact leaves_pure.mpr hquiet
  · refine leaves_bind.mpr (leaves_ofResult.mpr ?_)
    rcases cb.preAddAll (Testcase.new input) with err | testcase
    · exact hquiet
    refine leaves_bind.mpr (leaves_update.mpr ?_)
    set u : FuzzInstance HB I H U := if imported = some testcase.id then s
      else { s with found := s.found ++ [testcase.id] } with hu
    have hworker : u.worker = s.worker := by rw [hu]; split <;> rfl
    have hreceived : u.received = s.received := by rw [hu]; split <;> rfl
    have hevaluated : u.evaluated = s.evaluated := by rw [hu]; split <;> rfl
    have hpending : u.pendingTestcases = s.pendingTestcases := by rw [hu]; split <;> rfl
    have hcount : ∀ id, s.worker.sent.count id + [testcase.id].count id ≤
        u.found.count id + s.evaluated.count id := by
      intro id
      have hid := h.count id
      by_cases heq : testcase.id = id
      · subst heq
        rw [hu]
        split
        · next himported =>
          have := hslack _ himported
          simp only [List.count_singleton_self]
          omega
        · simp only [List.count_append, List.count_singleton_self]
          omega
      · have hzero : [testcase.id].count id = 0 := 
          List.count_eq_zero.mpr (by simpa using Ne.symm heq)
        rw [hu]
        split
        · omega
        · simp only [List.count_append]
          omega
    refine leaves_onWorker.mpr ((GenericWorker.sendTestcase_sends _).mono fun _ worker hw => ?_)
    rw [hworker] at hw
    have hsent : worker.sent = s.worker.sent ∨
        worker.sent = s.worker.sent ++ [testcase.id] ∧ testcase.id ∈ worker.seenTestcases := by
      rcases hw.tx with htx | ⟨notif, hid, hseen, htx⟩
      · exact .inl (congrArg (List.filterMap _) htx)
      · refine .inr ⟨?_, hseen⟩
        simpa [hid] using sent_append htx
    refine ⟨⟨⟨?_, ?_, ?_, ?_, ?_⟩, ?_, [], Receives.none hreceived⟩, hevaluated⟩
    · intro id hid
      rcases hsent with hsent | ⟨hsent, hseen⟩
      · exact hw.grows id (h.sent_seen id (hsent ▸ hid))
      · rcases List.mem_append.mp (hsent ▸ hid) with hid | hid
        · exact hw.grows id (h.sent_seen id hid)
        · exact List.mem_singleton.mp hid ▸ hseen
    · exact fun id hid => hw.grows id (h.received_seen id (hreceived ▸ hid))
    · show u.received.Nodup
      rw [hreceived]
      exact h.nodup
    · show u.received = u.evaluated ++ u.pendingTestcases.map Testcase.id
      rw [hreceived, hevaluated, hpending]
      exact h.received
    · intro id
      show worker.sent.count id ≤ u.found.count id + u.evaluated.count id
      rw [hevaluated]
      have hid := hcount id
      rcases hsent with hsent | ⟨hsent, -⟩
      · rw [hsent]
        omega
      · rw [hsent, List.count_append]
        exact hid
    · rcases hw.tx with htx | ⟨notif, -, -, htx⟩
      · exact htx ▸ List.prefix_refl _
      · exact htx ▸ List.prefix_append _ _
  · exact leaves_pure.mpr hquiet

theorem evaluateImport_advances {cb : Sharing I} (h : s.Sound) :
    (evaluateImport cb : Fuzzing HB I H U Unit).Leaves s fun _ t => Advances s t := by
  cases hp : s.pendingTestcases with
  | nil =>
      refine leaves_bind.mpr ((forall_returned (a := .ok none) (t := s) ?_).mpr ?_)
      · show nextPendingTestcase.run s = _
        simp only [nextPendingTestcase, run_ofFn, hp]
      · exact leaves_pure.mpr ⟨h, List.prefix_refl _, [], Receives.none rfl⟩
  | cons testcase rest =>
      refine leaves_bind.mpr ((forall_returned (a := .ok (some testcase))
        (t := { s with
          pendingTestcases := rest
          evaluated := s.evaluated ++ [testcase.id] }) ?_).mpr ?_)
      · show nextPendingTestcase.run s = _
        simp only [nextPendingTestcase, run_ofFn, hp]
      · have hpopped : Sound { s with
            pendingTestcases := rest
            evaluated := s.evaluated ++ [testcase.id] } := by
          refine ⟨h.sent_seen, h.received_seen, h.nodup, ?_, fun id => ?_⟩
          · simp only [h.received, hp, List.map_cons, List.append_assoc, List.singleton_append]
          · have hid := h.count id
            simp only [List.count_append]
            omega
        refine (share_advances hpopped fun id hid => ?_).mono fun _ t ht => ?_
        · obtain rfl := Option.some.inj hid
          have hid := h.count testcase.id
          simp only [List.count_append, List.count_singleton_self]
          omega
        · obtain ⟨new, hnew⟩ := ht.1.receives
          exact ⟨ht.1.sound, ht.1.tx, new, hnew.received, hnew.nodup, hnew.notSent,
            hnew.notReceived⟩

end FuzzInstance

/-! ## Sums over the workers -/

theorem sum_le_sum_of_le {D : List WorkerId} {f g : WorkerId → Nat} (h : ∀ w, f w ≤ g w) :
    (D.map f).sum ≤ (D.map g).sum :=
  List.sum_le_sum fun w _ => h w

/-- One term that grows by `k` makes the sum grow by as much. -/
theorem sum_add_le_sum {D : List WorkerId} {f g : WorkerId → Nat} {w : WorkerId} {k : Nat}
    (hw : w ∈ D) (h : ∀ w', f w' ≤ g w') (hk : f w + k ≤ g w) :
    (D.map f).sum + k ≤ (D.map g).sum := by
  induction D with
  | nil => simp at hw
  | cons a D ih =>
      simp only [List.map_cons, List.sum_cons]
      rcases List.mem_cons.mp hw with rfl | hw
      · have := sum_le_sum_of_le (D := D) h
        omega
      · have := ih hw
        have := h a
        omega

/-! ## The campaign -/

/-- Whether a notification or a command is about a testcase. -/
def notificationWeight {H U : Type} (id : TestcaseId) (notif : GenericNotification H U) : Nat :=
  if notif.testcaseId = some id then 1 else 0

def commandWeight {H U : Type} (id : TestcaseId) (cmd : GenericCommand H U) : Nat :=
  if cmd.testcaseId = some id then 1 else 0

theorem commandWeight_commandFrom {H U : Type} (id : TestcaseId)
    (notif : GenericNotification H U) (group : GroupId) :
    commandWeight id (notif.commandFrom group) ≤ notificationWeight id notif := by
  cases notif <;> exact Nat.le_refl _

theorem sum_notificationWeight {H U : Type} (id : TestcaseId)
    (tx : List (GenericNotification H U)) :
    (tx.map (notificationWeight id)).sum =
      (tx.filterMap GenericNotification.testcaseId).count id := by
  induction tx with
  | nil => rfl
  | cons notif tx ih =>
      rw [List.map_cons, List.sum_cons, ih]
      cases hid : notif.testcaseId with
      | none => simp [notificationWeight, hid]
      | some id' =>
          by_cases heq : id' = id
          · subst heq
            simp [notificationWeight, hid, Nat.add_comm]
          · simp [notificationWeight, hid, heq]

namespace Campaign

variable {K HB I H U : Type} [Input I]

/-- What was carried of the notifications of a worker about a testcase. -/
def carried (id : TestcaseId) (s : Campaign K HB I H U) (w : WorkerId) : Nat :=
  (((s.instances w).worker.workerSync.tx.take (s.up w)).map (notificationWeight id)).sum

/-- The messages about a testcase sent so far: the notifications of the
workers in `D`, and the commands of the controller. -/
def messages (D : List WorkerId) (id : TestcaseId) (s : Campaign K HB I H U) : Nat :=
  (D.map fun w => (s.instances w).worker.sent.count id).sum +
    s.controller.sync.spent (commandWeight id)

/-- How often a testcase was sent by a worker in `D` that did not import it. -/
def finds (D : List WorkerId) (id : TestcaseId) (s : Campaign K HB I H U) : Nat :=
  (D.map fun w => (s.instances w).found.count id).sum

/-- What every campaign keeps to, with `D` the workers it started with. -/
structure Inv (D : List WorkerId) (s : Campaign K HB I H U) : Prop where
  running : s.controller.Running
  known : ∀ w ∈ s.controller.sync.workers, w ∈ D
  sound : ∀ w, (s.instances w).Sound
  account : ∀ id, s.controller.account (notificationWeight id) (commandWeight id) D.length ≤
    D.length * (D.map (s.carried id)).sum

variable {D : List WorkerId} {s t : Campaign K HB I H U} {w : WorkerId}

/-- What was carried of a longer list is no less. -/
theorem sum_take_le {tx tx' : List (GenericNotification H U)} {n : Nat}
    (f : GenericNotification H U → Nat) (h : tx <+: tx') :
    ((tx.take n).map f).sum ≤ ((tx'.take n).map f).sum := by
  obtain ⟨rest, rfl⟩ := h
  rw [List.take_append, List.map_append, List.sum_append]
  exact Nat.le_add_right _ _

/-- A step of the instances. -/
theorem Inv.of_instances (h : s.Inv D) (hc : t.controller = s.controller) (hup : t.up = s.up)
    (hadv : ∀ w, FuzzInstance.Advances (s.instances w) (t.instances w)) : t.Inv D where
  running := hc ▸ h.running
  known := hc ▸ h.known
  sound w := (hadv w).sound
  account id := by
    rw [hc]
    refine (h.account id).trans (Nat.mul_le_mul_left _ (sum_le_sum_of_le fun w => ?_))
    simp only [carried, hup]
    exact sum_take_le _ (hadv w).tx

/-- A step of the controller that settles for nothing. -/
theorem Inv.of_controller (h : s.Inv D) (hi : t.instances = s.instances) (hup : t.up = s.up)
    (hrun : t.controller.Running)
    (hset : ∀ id, GenericController.Settles (notificationWeight id) (commandWeight id)
      D.length 0 s.controller t.controller) : t.Inv D where
  running := hrun
  known w hw := h.known w ((hset ⟨0⟩).shrinks w hw)
  sound w := hi ▸ h.sound w
  account id := by
    have hcarried : t.carried id = s.carried id := by
      funext w
      simp only [carried, hi, hup]
    rw [hcarried]
    exact ((hset id).account).trans (h.account id)

theorem advances_refl (h : s.Inv D) (w : WorkerId) :
    FuzzInstance.Advances (s.instances w) (s.instances w) :=
  ⟨h.sound w, List.prefix_refl _, [], FuzzInstance.Receives.none rfl⟩

theorem advances_setInstance {self : FuzzInstance HB I H U} (h : s.Inv D)
    (hadv : FuzzInstance.Advances (s.instances w) self) (w' : WorkerId) :
    FuzzInstance.Advances (s.instances w') ((s.setInstance w self).instances w') := by
  show FuzzInstance.Advances _ (Function.update s.instances w self w')
  by_cases hw : w' = w
  · subst hw
    rw [Function.update_self]
    exact hadv
  · rw [Function.update_of_ne hw]
    exact advances_refl h w'

theorem hear_advances {item : Recv (GenericCommand H U)} (h : s.Inv D) (w' : WorkerId) :
    FuzzInstance.Advances (s.instances w') ((s.hear w item).instances w') := by
  have htx : ∀ conn : Connection (GenericCommand H U) (GenericNotification H U),
      (conn.arrive item).tx = conn.tx := by
    intro conn
    unfold Connection.arrive
    split <;> rfl
  have hadv : FuzzInstance.Advances (s.instances w) { s.instances w with
      worker.workerSync := (s.instances w).worker.workerSync.arrive item } := by
    refine ⟨?_, ?_, [], FuzzInstance.Receives.none rfl⟩
    · exact (h.sound w).withWorker (fun _ hid => hid) (congrArg (List.filterMap _) (htx _))
    · exact (htx _).symm ▸ List.prefix_refl _
  exact advances_setInstance h hadv w'

theorem act_inv {x : Call Error (FuzzInstance HB I H U) Unit} (h : s.Inv D)
    (hx : (s.instances w).Sound →
      x.Leaves (s.instances w) fun _ self => FuzzInstance.Advances (s.instances w) self)
    (ht : s.act w x = some t) :
    t.Inv D ∧ ∀ w', FuzzInstance.Advances (s.instances w') (t.instances w') := by
  obtain ⟨⟨r, self⟩, hrun, rfl⟩ := Option.map_eq_some_iff.mp ht
  have hadv := advances_setInstance h (hx (h.sound w) r self hrun)
  exact ⟨h.of_instances rfl rfl hadv, hadv⟩

theorem control_inv {event : GenericController.ControllerEvent H U} (h : s.Inv D)
    (hweight : ∀ id, GenericController.arrivalWeight (notificationWeight id) event = 0)
    (ht : s.control event = some t) :
    t.Inv D ∧ ∀ w', FuzzInstance.Advances (s.instances w') (t.instances w') := by
  obtain ⟨c, hc, rfl⟩ := Option.map_eq_some_iff.mp ht
  refine ⟨h.of_controller rfl rfl (h.running.exec hc) fun id => ?_, advances_refl h⟩
  have hset := h.running.exec_settles h.known (commandWeight_commandFrom id) rfl hc
  rw [hweight id, Nat.mul_zero] at hset
  exact hset

/-- A notification that arrives was carried. -/
theorem carriesUp_inv {notif : GenericNotification H U} (h : s.Inv D)
    (hn : (s.instances w).worker.workerSync.tx[s.up w]? = some notif)
    (ht : ({ s with up := Function.update s.up w (s.up w + 1) } : Campaign K HB I H U).control
      (.arrives w (.packet notif)) = some t) : t.Inv D := by
  obtain rfl := Option.some.inj ht
  have hcarried : ∀ id w', s.carried id w' ≤
      carried id { s with up := Function.update s.up w (s.up w + 1) } w' := by
    intro id w'
    by_cases hw : w' = w
    · subst hw
      simp only [carried, Function.update_self, List.take_add_one, List.map_append,
        List.sum_append]
      exact Nat.le_add_right _ _
    · simp only [carried, Function.update_of_ne hw]
      exact Nat.le_refl _
  have hstep : ∀ id, s.carried id w + notificationWeight id notif ≤
      carried id { s with up := Function.update s.up w (s.up w + 1) } w := by
    intro id
    simp only [carried, Function.update_self, List.take_add_one, hn, Option.toList_some,
      List.map_append, List.sum_append, List.map_cons, List.map_nil, List.sum_cons,
      List.sum_nil, Nat.add_zero]
    exact Nat.le_refl _
  refine ⟨h.running.arrive w _, ?_, h.sound, fun id => ?_⟩
  · have hset := GenericController.arrive_settles (f := fun _ => 0) (g := fun _ => 0)
      (c := s.controller) 0 w (.packet notif)
    exact fun w' hw' => h.known w' (hset.shrinks w' hw')
  · by_cases hmem : w ∈ s.controller.sync.workers
    · have hset := GenericController.arrive_settles (f := notificationWeight id)
        (g := commandWeight id) (c := s.controller) D.length w (.packet notif)
      have hsum := sum_add_le_sum (h.known w hmem) (hcarried id) (hstep id)
      calc (s.controller.arrive w (.packet notif)).account (notificationWeight id)
            (commandWeight id) D.length
          ≤ D.length * (D.map (s.carried id)).sum + D.length * notificationWeight id notif :=
            hset.account.trans (Nat.add_le_add_right (h.account id) _)
        _ = D.length * ((D.map (s.carried id)).sum + notificationWeight id notif) :=
            (Nat.mul_add _ _ _).symm
        _ ≤ _ := Nat.mul_le_mul_left _ hsum
    · have hnone : s.controller.arrive w (.packet notif) = s.controller := by
        unfold GenericController.arrive
        rw [AList.lookup_eq_none.mpr hmem]
      show (s.controller.arrive w (.packet notif)).account _ _ _ ≤ _
      rw [hnone]
      exact (h.account id).trans (Nat.mul_le_mul_left _ (sum_le_sum_of_le (hcarried id)))

variable [InputHandleBackend HB I H]

/-- **One step.** A campaign keeps to its invariant, and every instance
advances: what it receives in the step is new to it. -/
theorem Inv.exec {event : CampaignEvent I H U} (h : s.Inv D) (ht : s.exec event = some t) :
    t.Inv D ∧ ∀ w, ∃ new, FuzzInstance.Receives (s.instances w) (t.instances w) new := by
  have hadvances : ∀ {t : Campaign K HB I H U},
      (t.Inv D ∧ ∀ w, FuzzInstance.Advances (s.instances w) (t.instances w)) →
      t.Inv D ∧ ∀ w, ∃ new, FuzzInstance.Receives (s.instances w) (t.instances w) new :=
    fun h => ⟨h.1, fun w => (h.2 w).receives⟩
  cases event with
  | imports w => exact hadvances (act_inv h FuzzInstance.importTestcases_advances ht)
  | evaluates w cb => exact hadvances (act_inv h FuzzInstance.evaluateImport_advances ht)
  | executes w input cb =>
      refine hadvances (act_inv h (fun hs => ?_) ht)
      exact (FuzzInstance.share_advances hs (by simp)).mono fun _ _ h => h.1
  | sendsCustom w payload serialized answer =>
      exact hadvances (act_inv h FuzzInstance.sendCustom_advances ht)
  | carriesUp w =>
      simp only [Campaign.exec] at ht
      split at ht
      · obtain rfl := Option.some.inj ht
        exact hadvances ⟨h, advances_refl h⟩
      · next notif hn =>
        obtain rfl := Option.some.inj ht
        exact ⟨carriesUp_inv h hn rfl, fun w => (advances_refl h w).receives⟩
  | carriesDown w =>
      simp only [Campaign.exec] at ht
      split at ht
      · obtain rfl := Option.some.inj ht
        exact hadvances ⟨h, advances_refl h⟩
      · obtain rfl := Option.some.inj ht
        exact hadvances ⟨h.of_instances rfl rfl (hear_advances h), hear_advances h⟩
  | breaksUp w err =>
      refine hadvances (control_inv h (fun id => ?_) ht)
      cases err <;> rfl
  | breaksDown w err =>
      obtain rfl := Option.some.inj ht
      exact hadvances ⟨h.of_instances rfl rfl (hear_advances h), hear_advances h⟩
  | exits descriptor => exact hadvances (control_inv h (fun _ => rfl) ht)
  | terminates descriptor => exact hadvances (control_inv h (fun _ => rfl) ht)
  | shutdown w sending => exact hadvances (control_inv h (fun _ => rfl) ht)
  | waits waiting => exact hadvances (control_inv h (fun _ => rfl) ht)

/-- What an instance imports in a step is new to it. -/
def ImportsNew (s : Campaign K HB I H U) (event : CampaignEvent I H U) : Prop :=
  ∀ t, s.exec event = some t →
    ∀ w, ∃ new, FuzzInstance.Receives (s.instances w) (t.instances w) new

omit [InputHandleBackend HB I H] in
theorem Inv.evaluated_nodup (h : s.Inv D) (w : WorkerId) : (s.instances w).evaluated.Nodup := by
  have hnd := (h.sound w).nodup
  rw [(h.sound w).received] at hnd
  exact (List.nodup_append.mp hnd).1

omit [InputHandleBackend HB I H] in
/-- Every worker sends a testcase once per find of its own and once when it is
imported, and every notification costs one command per worker at most. -/
theorem Inv.messages_le (h : s.Inv D) (id : TestcaseId) :
    s.messages D id ≤ (s.finds D id + D.length) * (D.length + 1) := by
  have hcarried : ∀ w, s.carried id w ≤ (s.instances w).worker.sent.count id := by
    intro w
    rw [GenericWorker.sent, ← sum_notificationWeight]
    exact ((List.take_sublist _ _).map _).sum_le_sum fun _ _ => Nat.zero_le _
  have hsent : ∀ w, (s.instances w).worker.sent.count id ≤ (s.instances w).found.count id + 1 := by
    intro w
    have hone := List.nodup_iff_count_le_one.mp (h.evaluated_nodup w) id
    have hcount := (h.sound w).count id
    omega
  have hsum : (D.map fun w => (s.instances w).worker.sent.count id).sum ≤
      s.finds D id + D.length := by
    refine (sum_le_sum_of_le (D := D) hsent).trans ?_
    rw [finds, List.sum_map_add]
    simp
  have hspent := h.account id
  have hmul := Nat.mul_le_mul_left D.length (sum_le_sum_of_le (D := D) hcarried)
  calc s.messages D id
      ≤ (D.map fun w => (s.instances w).worker.sent.count id).sum +
          D.length * (D.map fun w => (s.instances w).worker.sent.count id).sum := by
        rw [messages]
        simp only [GenericController.account] at hspent
        omega
    _ = (D.map fun w => (s.instances w).worker.sent.count id).sum * (D.length + 1) := by
        rw [Nat.mul_add, Nat.mul_one, Nat.mul_comm, Nat.add_comm]
    _ ≤ _ := Nat.mul_le_mul_right _ hsum

omit [InputHandleBackend HB I H] in
theorem total_eq_zero {V : Type} {m : HashMap WorkerId V} {f : WorkerId → V → Nat}
    (h : ∀ e ∈ m.entries, f e.1 e.2 = 0) : HashMap.total f m = 0 := by
  refine List.sum_eq_zero fun n hn => ?_
  obtain ⟨e, he, rfl⟩ := List.mem_map.mp hn
  exact h e he

omit [InputHandleBackend HB I H] in
theorem start_inv {controller : GenericController K HB H U} (hc : controller.Fresh)
    (descriptors : WorkerId → StdDescriptor) (backends : WorkerId → HB)
    (shouldReport : WorkerId → Bool) :
    (start controller fun w => .new (descriptors w) (backends w) .fromFd (shouldReport w) :
      Campaign K HB I H U).Inv controller.descriptors.keys where
  running := hc.toRunning
  known := hc.known
  sound w := ⟨by simp [start, FuzzInstance.new, GenericWorker.new, GenericWorker.sent,
      Connection.fromFd], by simp [start, FuzzInstance.new], by simp [start, FuzzInstance.new],
    by simp [start, FuzzInstance.new], by simp [start, FuzzInstance.new, GenericWorker.new,
      GenericWorker.sent, Connection.fromFd]⟩
  account id := by
    have hheld : controller.sync.held (notificationWeight id) = 0 := by
      rw [SocketControllerSync.held, hc.pendingNotifs, total_eq_zero]
      · rfl
      · intro e he
        rw [hc.connections e he]
        rfl
    have hspent : controller.sync.spent (commandWeight id) = 0 := by
      rw [SocketControllerSync.spent, hc.dropped, total_eq_zero]
      · rfl
      · intro e he
        rw [hc.connections e he]
        rfl
    show controller.account _ _ _ ≤ _
    rw [GenericController.account, hheld, hspent]
    exact Nat.zero_le _

/-- **Imports do not loop.** From a controller that has just been finalized,
over any routes and in any order of steps: what a worker imports it has
neither sent nor imported before, it evaluates each testcase as an import at
most once, and the messages about a testcase are at most `n + 1` for each
find of it and for each worker. -/
theorem imports_do_not_loop {controller : GenericController K HB H U} (hc : controller.Fresh)
    (descriptors : WorkerId → StdDescriptor) (backends : WorkerId → HB)
    (shouldReport : WorkerId → Bool) (events : List (CampaignEvent I H U)) :
    let s := start controller fun w => .new (descriptors w) (backends w) .fromFd (shouldReport w)
    let D := controller.descriptors.keys
    StepsMeet exec s events ImportsNew ∧
      ∀ t, run exec s events = some t →
        (∀ w, (t.instances w).evaluated.Nodup) ∧
        ∀ id, t.messages D id ≤ (t.finds D id + D.length) * (D.length + 1) := by
  intro s D
  have hstart : s.Inv D := start_inv hc descriptors backends shouldReport
  have hinv : ∀ pre t, run exec s pre = some t → t.Inv D := fun pre t h =>
    run_invariant (Inv D) (fun _ _ _ hs ht => (hs.exec ht).1) hstart h
  refine ⟨fun pre event hpre t ht u hu => ((hinv pre t ht).exec hu).2, fun t ht => ?_⟩
  exact ⟨(hinv events t ht).evaluated_nodup, (hinv events t ht).messages_le⟩

/-- The two workers of the pair, the first of which finds a testcase. -/
theorem imports_do_not_loop_twoWorkers :
    let s : Campaign Nat (SerializedInputHandleBackend ValueInput) ValueInput (List UInt8) Unit :=
      start GenericController.twoWorkers fun w => .new ⟨w, ⟨w.val⟩⟩ default .fromFd true
    let D := GenericController.twoWorkers.descriptors.keys
    let events := [.executes ⟨0⟩ ⟨7⟩ ⟨.ok .corpus, .ok, .ok (), .ok .sent⟩, .carriesUp ⟨0⟩,
      .waits ⟨.ok .event, GenericController.everySend⟩, .carriesDown ⟨1⟩, .imports ⟨1⟩]
    StepsMeet exec s events ImportsNew ∧
      ∀ t, run exec s events = some t →
        (∀ w, (t.instances w).evaluated.Nodup) ∧
        ∀ id, t.messages D id ≤ (t.finds D id + D.length) * (D.length + 1) :=
  imports_do_not_loop GenericController.twoWorkers_fresh _ _ _ _

end Campaign

end Libaflmm
