import Libaflmm.GenericWorker

/-!
# What a worker has seen

Everything a worker sends or imports is in its set of seen testcases, and
what is in there is not imported: `recvTestcases_imports` says of the ids a
call returns that they are distinct, new, and seen from then on, and
`sendTestcase_sends` that a worker sends at most the one testcase it is
given, and has seen it then.
-/

namespace Libaflmm

open Call

variable {HB I H U : Type}

def GenericNotification.testcaseId : GenericNotification H U → Option TestcaseId
  | .newTestcase id _ => some id
  | .custom _ => none

def GenericCommand.testcaseId : GenericCommand H U → Option TestcaseId
  | .importFrom _ id _ => some id
  | .shutdown | .custom _ => none

namespace GenericWorker

/-- The testcases the worker has sent so far. -/
def sent (worker : GenericWorker HB H U) : List TestcaseId :=
  worker.workerSync.tx.filterMap GenericNotification.testcaseId

/-- From `w` to `w'`, exactly the testcases `ids` were imported. -/
structure Imports (w w' : GenericWorker HB H U) (ids : List TestcaseId) : Prop where
  grows : ∀ id ∈ w.seenTestcases, id ∈ w'.seenTestcases
  tx : w'.workerSync.tx = w.workerSync.tx
  nodup : ids.Nodup
  fresh : ∀ id ∈ ids, id ∉ w.seenTestcases
  seen : ∀ id ∈ ids, id ∈ w'.seenTestcases

variable {w u w' : GenericWorker HB H U} {ids : List TestcaseId} {id : TestcaseId}

theorem Imports.none (hgrows : ∀ id ∈ w.seenTestcases, id ∈ w'.seenTestcases)
    (htx : w'.workerSync.tx = w.workerSync.tx) : Imports w w' [] :=
  ⟨hgrows, htx, List.nodup_nil, by simp, by simp⟩

/-- What is marked after the rest of a batch was imported comes in front. -/
theorem Imports.cons (hfresh : id ∉ w.seenTestcases)
    (hmark : Imports { w with seenTestcases := w.seenTestcases.insert id () } w' ids) :
    Imports w w' (id :: ids) where
  grows id' h := hmark.grows id' ((AList.mem_insert _).mpr (.inr h))
  tx := hmark.tx
  nodup := List.nodup_cons.mpr
    ⟨fun h => hmark.fresh id h ((AList.mem_insert _).mpr (.inl rfl)), hmark.nodup⟩
  fresh := List.forall_mem_cons.mpr
    ⟨hfresh, fun id' h hseen => hmark.fresh id' h ((AList.mem_insert _).mpr (.inr hseen))⟩
  seen := List.forall_mem_cons.mpr
    ⟨hmark.grows id ((AList.mem_insert _).mpr (.inl rfl)), hmark.seen⟩

/-- Marking a testcase without returning it. -/
theorem Imports.mark (h : Imports { w with seenTestcases := w.seenTestcases.insert id () } w' ids) :
    Imports w w' ids where
  grows id' hid := h.grows id' ((AList.mem_insert _).mpr (.inr hid))
  tx := h.tx
  nodup := h.nodup
  fresh id' hid hseen := h.fresh id' hid ((AList.mem_insert _).mpr (.inr hseen))
  seen := h.seen

/-- The ids of the testcases that a call returns. -/
def returned [Input I] : Result (List (Testcase I)) → List TestcaseId
  | .ok testcases => testcases.map Testcase.id
  | .error _ => []

section

variable [Input I] [InputHandleBackend HB I H]

omit [Input I] [InputHandleBackend HB I H] in
theorem leaves_markSeen {w : GenericWorker HB H U}
    {Q : Result Bool → GenericWorker HB H U → Prop} :
    (markSeen id).Leaves w Q ↔
      Q (.ok (decide (id ∉ w.seenTestcases)))
        { w with seenTestcases := w.seenTestcases.insert id () } :=
  forall_returned rfl

omit [Input I] in
theorem leaves_resolveHandle {handle : H} {w : GenericWorker HB H U}
    {Q : Result I → GenericWorker HB H U → Prop}
    (h : ∀ r handleBackend, Q r { w with handleBackend }) :
    (resolveHandle handle).Leaves w Q :=
  (forall_returned rfl).mpr (h _ _)

omit [Input I] in
theorem leaves_createHandle {input : I} {w : GenericWorker HB H U}
    {Q : Result H → GenericWorker HB H U → Prop}
    (h : ∀ r handleBackend, Q r { w with handleBackend }) : (createHandle input).Leaves w Q :=
  (forall_returned rfl).mpr (h _ _)

theorem importAll_imports (imports : List (TestcaseId × H)) (w : GenericWorker HB H U) :
    (importAll imports).Leaves w fun r w' => Imports w w' (returned r) := by
  induction imports generalizing w with
  | nil => exact leaves_pure.mpr (Imports.none (fun _ h => h) rfl)
  | cons entry imports ih =>
      obtain ⟨id, handle⟩ := entry
      refine leaves_bind.mpr (leaves_markSeen.mpr ?_)
      by_cases hid : id ∈ w.seenTestcases
      · simp only [hid, not_true_eq_false, decide_false, Bool.false_eq_true, if_false]
        exact (ih _).mono fun r w' h => h.mark
      · simp only [hid, not_false_eq_true, decide_true, if_true]
        refine leaves_bind.mpr (leaves_resolveHandle fun r handleBackend => ?_)
        have hfailed : Imports w { w with
            seenTestcases := w.seenTestcases.insert id (), handleBackend } [] :=
          Imports.none (fun _ h => (AList.mem_insert _).mpr (.inr h)) rfl
        cases r with
        | error err => exact hfailed
        | ok input =>
            dsimp only
            split
            · exact leaves_ofResult.mpr hfailed
            · next hne =>
              have heq : (Testcase.new input).id = id := not_not.mp hne
              refine leaves_bind.mpr ((ih _).mono fun r w' h => ?_)
              cases r with
              | error err =>
                  exact Imports.none
                    (fun _ h' => h.grows _ ((AList.mem_insert _).mpr (.inr h'))) h.tx
              | ok testcases =>
                  refine leaves_pure.mpr ?_
                  simp only [returned, List.map_cons, heq]
                  exact Imports.cons hid ⟨h.grows, h.tx, h.nodup, h.fresh, h.seen⟩

theorem recvTestcases_imports (w : GenericWorker HB H U) :
    (recvTestcases : Working HB H U (List (Testcase I))).Leaves w fun r w' =>
      Imports w w' (returned r) := by
  refine leaves_bind.mpr (leaves_read.mpr (leaves_bind.mpr (leaves_update.mpr ?_)))
  refine (importAll_imports w.pendingImports _).mono fun r w' h => ?_
  exact ⟨h.grows, h.tx, h.nodup, h.fresh, h.seen⟩

end

/-! ## Sending -/

/-- From `w` to `w'`, at most a notification of the testcase `id` was sent,
and nothing imported. -/
structure Sends (w w' : GenericWorker HB H U) (id : TestcaseId) : Prop where
  grows : ∀ id ∈ w.seenTestcases, id ∈ w'.seenTestcases
  tx : w'.workerSync.tx = w.workerSync.tx ∨ ∃ notif : GenericNotification H U,
    notif.testcaseId = some id ∧ id ∈ w'.seenTestcases ∧
      w'.workerSync.tx = w.workerSync.tx ++ [notif]

/-- What happens to the list of sent messages in one send. -/
theorem SocketWorkerSync.send_tx {CMD NOTIF : Type} {notif : NOTIF} {serialized : Result Unit}
    {answer : Result SendResult} (conn : SocketWorkerSync CMD NOTIF) :
    (SocketWorkerSync.send notif serialized answer).Leaves conn fun _ conn' =>
      conn'.tx = conn.tx ∨ conn'.tx = conn.tx ++ [notif] := by
  refine leaves_bind.mpr (leaves_ofResult.mpr ?_)
  cases serialized with
  | error err => exact .inl rfl
  | ok u =>
      refine leaves_bind.mpr ((forall_returned rfl).mpr ?_)
      rcases answer with err | (_ | _ | _)
      · exact .inl rfl
      · exact leaves_pure.mpr (.inr rfl)
      · exact leaves_pure.mpr (.inl rfl)
      · exact leaves_ofResult.mpr (.inl rfl)

theorem leaves_onSync {α : Type} {w : GenericWorker HB H U}
    {x : Call Error (SocketWorkerSync (GenericCommand H U) (GenericNotification H U)) α}
    {Q : Result α → GenericWorker HB H U → Prop} :
    (onSync x).Leaves w Q ↔
      x.Leaves w.workerSync fun r workerSync => Q r { w with workerSync } :=
  leaves_on

theorem sendTestcase_sends [Input I] [InputHandleBackend HB I H] {testcase : Testcase I}
    {serialized : Result Unit} {answer : Result SendResult} (w : GenericWorker HB H U) :
    (sendTestcase testcase serialized answer).Leaves w fun _ w' => Sends w w' testcase.id := by
  refine leaves_bind.mpr (leaves_read.mpr ?_)
  dsimp only
  split
  · refine leaves_bind.mpr (leaves_markSeen.mpr ?_)
    have hgrows : ∀ id ∈ w.seenTestcases, id ∈ w.seenTestcases.insert testcase.id () :=
      fun _ h => (AList.mem_insert _).mpr (.inr h)
    refine leaves_bind.mpr (leaves_createHandle fun r handleBackend => ?_)
    cases r with
    | error err => exact ⟨hgrows, .inl rfl⟩
    | ok handle =>
        refine leaves_onSync.mpr ((SocketWorkerSync.send_tx _).mono fun _ workerSync h => ?_)
        exact ⟨hgrows, h.imp_right fun htx =>
          ⟨_, rfl, (AList.mem_insert _).mpr (.inl rfl), htx⟩⟩
  · exact leaves_pure.mpr ⟨fun _ h => h, .inl rfl⟩

theorem sendCustom_tx {payload : U} {serialized : Result Unit} {answer : Result SendResult}
    (w : GenericWorker HB H U) :
    (sendCustom payload serialized answer).Leaves w fun _ w' =>
      w'.seenTestcases = w.seenTestcases ∧ (w'.workerSync.tx = w.workerSync.tx ∨
        w'.workerSync.tx = w.workerSync.tx ++ [.custom payload]) :=
  leaves_onSync.mpr ((SocketWorkerSync.send_tx _).mono fun _ _ h => ⟨rfl, h⟩)

/-! ## Polling -/

theorem foldl_accept (commands : List (GenericCommand H U)) (w : GenericWorker HB H U) :
    (commands.foldl (fun worker command => worker.accept command) w).workerSync = w.workerSync ∧
      (commands.foldl (fun worker command => worker.accept command) w).seenTestcases =
        w.seenTestcases := by
  induction commands generalizing w with
  | nil => exact ⟨rfl, rfl⟩
  | cons command commands ih =>
      obtain ⟨hsync, hseen⟩ := ih (w.accept command)
      rw [List.foldl_cons, hsync, hseen]
      cases command <;> exact ⟨rfl, rfl⟩

theorem poll_tx (w : GenericWorker HB H U) :
    (poll : Working HB H U Bool).Leaves w fun _ w' =>
      w'.seenTestcases = w.seenTestcases ∧ w'.workerSync.tx = w.workerSync.tx := by
  refine leaves_bind.mpr (leaves_onSync.mpr fun r workerSync h => ?_)
  have htx := Connection.poll_tx h
  cases r with
  | error err => exact ⟨rfl, htx⟩
  | ok commands =>
      refine leaves_bind.mpr (leaves_update.mpr (leaves_pure.mpr ?_))
      obtain ⟨hsync, hseen⟩ := foldl_accept commands { w with workerSync }
      exact ⟨hseen, (congrArg Connection.tx hsync).trans htx⟩

end GenericWorker

end Libaflmm
