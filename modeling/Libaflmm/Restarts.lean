import Libaflmm.Terminations

/-!
# Restarts happen for faults of the target

A call of the child settles if it returns, and what it exits with is the restart
code exactly for a fault of the target whose state is sent. Whatever is raised
out of an execution exits with another code, at every depth, and so a handler
that returns has not been disturbed.
-/

namespace Libaflmm

open Call

/-! ## What a restart is for -/

def Classification.IsTargetFault : Classification → Prop
  | .crash status => status.isTargetCrash = true
  | .timeout status => status = .exit

namespace TerminationRecord

variable {S : Type}

/-- The termination is in an execution, and it is a crash of the target or a
timeout that exits. -/
def IsTargetFault (record : TerminationRecord S) : Prop :=
  record.inExecution = true ∧
    ∃ classified, record.classified = some classified ∧ classified.IsTargetFault

def IsFuzzerCrash (record : TerminationRecord S) : Prop :=
  record.inExecution = false ∨ record.classified = some (.crash .fuzzerCrash)

end TerminationRecord

/-- The last termination is a fault of the target, and the state that the handler
has left is sent. -/
def Child.Restartable {S : Type} (c : Child S) : Prop :=
  ∃ record, c.termination = some record ∧ record.IsTargetFault ∧ record.sent = some c.state

def Child.FuzzerCrashed {S : Type} (c : Child S) : Prop :=
  ∃ record, c.termination = some record ∧ record.IsFuzzerCrash

/-- A child that exits does so with the restart code if and only if it is
restartable, and the next child starts from its state. -/
def Restarter.RestartsExactly {S : Type} (p : Postcard S) (szMax : Nat) (r : Restarter S)
    (lifetime : List (ChildEvent S)) : Prop :=
  (Child.live p szMax lifetime).Yields r.fork fun result c => ∀ exit, result = .error exit →
    (exit = .exited libaflmmExitRestart ↔ c.Restartable) ∧
    (c.FuzzerCrashed → exit ≠ .exited libaflmmExitRestart) ∧
    (exit = .exited libaflmmExitRestart →
      ∃ shm, waitpid p szMax exit c.shm = .restarts ⟨c.state, shm⟩)

/-- An execution that returns does not return an error, and a panic in it is not
answered as a crash of the fuzzer. -/
def ChildEvent.Honest {S : Type} : ChildEvent S → Prop
  | .execute target handlers => target.result = .ok () ∧ (.raise .panic ∈ target.steps →
      ((handlers Child.terminationHandlerMaxDepth).handleCrash .panic).result ≠ .ok .fuzzerCrash)
  | _ => True

namespace Child

variable {S α β : Type}

/-! ## Exits -/

/-- What is asked of a child that exits. -/
def Exits (p : Postcard S) (szMax : Nat) (exit : ChildExit) (c : Child S) : Prop :=
  (exit = .exited libaflmmExitRestart ↔ c.Restartable) ∧
    (exit = .exited libaflmmExitRestart → (shmReceive p szMax c.shm).1 = .ok c.state ∧
      c.shm.data.length < szMax)

/-- A call that settles returns with `Q` or exits. -/
def Settles (p : Postcard S) (szMax : Nat) (x : ChildCall S α) (c : Child S)
    (Q : α → Child S → Prop) : Prop :=
  x.Yields c fun
    | .ok a, c => Q a c
    | .error exit, c => Exits p szMax exit c

abbrev Quits (p : Postcard S) (szMax : Nat) (x : ChildCall S α) (c : Child S) : Prop :=
  Settles p szMax x c fun _ _ => False

variable {p : Postcard S} {szMax : Nat} {c : Child S} {x : ChildCall S α}
  {Q : α → Child S → Prop}

theorem settles_bind {f : α → ChildCall S β} {Q : β → Child S → Prop} :
    Settles p szMax (x >>= f) c Q ↔
      Settles p szMax x c fun a c => Settles p szMax (f a) c Q := by
  unfold Settles
  rw [yields_bind]
  constructor
  · intro h
    refine h.mono fun r t hr => ?_
    rcases r with e | a
    · exact hr
    · exact hr
  · intro h
    refine h.mono fun r t hr => ?_
    rcases r with e | a
    · exact hr
    · exact hr

theorem Settles.mono {Q' : α → Child S → Prop} (h : Settles p szMax x c Q)
    (hQ : ∀ a t, Q a t → Q' a t) : Settles p szMax x c Q' := by
  refine Yields.mono h fun r t hr => ?_
  rcases r with e | a
  · exact hr
  · exact hQ a t hr

theorem Quits.settles (h : Quits p szMax x c) : Settles p szMax x c Q :=
  Settles.mono h fun _ _ hf => hf.elim

theorem Quits.bind {f : α → ChildCall S β} {Q : β → Child S → Prop} (h : Quits p szMax x c) :
    Settles p szMax (x >>= f) c Q :=
  settles_bind.mpr h.settles

@[simp] theorem settles_pure {a : α} :
    Settles p szMax (pure a : ChildCall S α) c Q ↔ Q a c := yields_pure

@[simp] theorem settles_update {f : Child S → Child S} {Q : Unit → Child S → Prop} :
    Settles p szMax (update f : ChildCall S Unit) c Q ↔ Q () (f c) := yields_update

@[simp] theorem settles_read {f : Child S → α} :
    Settles p szMax (read f : ChildCall S α) c Q ↔ Q (f c) c := yields_read

@[simp] theorem settles_exit {status : Nat} :
    Settles p szMax (exit status : ChildCall S α) c Q ↔
      Exits p szMax (.exited status) c := yields_ofResult

/-- A child whose last termination has not been a fault of the target. -/
def Unclassified (c : Child S) : Prop :=
  ∀ record, c.termination = some record → ¬record.IsTargetFault

theorem Unclassified.exits {e : ChildExit} (h : c.Unclassified)
    (hexit : e ≠ .exited libaflmmExitRestart) : Exits p szMax e c := by
  refine ⟨iff_of_false hexit ?_, fun heq => absurd heq hexit⟩
  rintro ⟨record, hrecord, hfault, -⟩
  exact h record hrecord hfault

theorem Unclassified.settles_exit {status : Nat} (h : c.Unclassified)
    (hstatus : status ≠ libaflmmExitRestart) :
    Settles p szMax (exit status : ChildCall S α) c Q :=
  Child.settles_exit.mpr (h.exits fun heq => hstatus (ChildExit.exited.inj heq))

theorem unclassified_fresh {inExecution : Bool}
    (h : c.termination = some ⟨inExecution, none, none⟩) : c.Unclassified := by
  intro record hrecord hfault
  obtain rfl := Option.some.inj (h.symm.trans hrecord)
  obtain ⟨-, classified, hclassified, -⟩ := hfault
  cases hclassified

/-- The child whose termination has just been raised. -/
def recorded (c : Child S) : Child S :=
  { c with termination := some ⟨c.inExecution && c.depth == 0, none, none⟩ }

theorem unclassified_recorded (c : Child S) : c.recorded.Unclassified := unclassified_fresh rfl

/-! ## Out of an execution -/

/-- A child has entered a handler if it is not nested too deep. -/
theorem settles_enter {Q : Unit → Child S → Prop} (hc : c.Unclassified)
    (h : c.depth + 1 < terminationHandlerMaxDepth → Q () { c with depth := c.depth + 1 }) :
    Settles p szMax enter c Q := by
  unfold enter
  rw [settles_bind, settles_update, settles_bind, settles_read]
  split
  · exact Unclassified.settles_exit hc (by decide)
  · next hdepth => exact settles_pure.mpr (h (Nat.lt_of_not_le hdepth))

theorem restart_ne_signal (signal : Nat) : 128 + signal ≠ libaflmmExitRestart := by
  unfold libaflmmExitRestart
  omega

section

variable {handlers : Handlers S} {raise : Termination → ChildCall S Unit}

theorem quits_crashHandler {signal : Nat} (hc : c.Unclassified) (h : c.inputSet = false) :
    Quits p szMax (crashHandler p szMax handlers raise signal) c := by
  unfold Quits crashHandler
  rw [settles_bind, settles_read, h, if_neg Bool.false_ne_true]
  exact Unclassified.settles_exit hc (restart_ne_signal signal)

theorem quits_timeoutHandler {signal : Nat} (hc : c.Unclassified) (h : c.inputSet = false) :
    Quits p szMax (timeoutHandler p szMax handlers raise signal) c := by
  unfold Quits timeoutHandler
  rw [settles_bind]
  refine settles_enter hc fun _ => ?_
  rw [settles_bind, settles_read, h, if_neg Bool.false_ne_true]
  exact Unclassified.settles_exit hc (restart_ne_signal signal)

theorem quits_handle {signal : Nat} (hc : c.Unclassified) (h : c.inputSet = false) :
    Quits p szMax (handle p szMax handlers raise signal) c := by
  unfold Quits handle
  rw [settles_bind]
  refine settles_enter hc fun _ => ?_
  split
  · exact Quits.bind (quits_timeoutHandler hc h)
  · exact Quits.bind (quits_crashHandler hc h)

theorem quits_panicHook (hc : c.Unclassified) (h : c.inputSet = false) :
    Quits p szMax (panicHook p szMax handlers raise) c := by
  unfold Quits panicHook
  rw [settles_bind, settles_update, settles_bind]
  refine settles_enter hc fun _ => ?_
  rw [settles_bind, settles_read, h, if_neg Bool.false_ne_true]
  exact Unclassified.settles_exit hc (restart_ne_signal sigAbort)

/-- Out of an execution, whatever is raised is a crash of the fuzzer. -/
theorem quits_terminate (termination : Termination) (h : c.inputSet = false) :
    Quits p szMax (terminate p szMax handlers raise termination) c := by
  unfold Quits terminate recordTermination
  rw [settles_bind, settles_update]
  have hc := unclassified_recorded c
  cases termination with
  | signal signal =>
      dsimp only
      split
      · exact quits_handle hc h
      · exact yields_ofResult.mpr (hc.exits (fun heq => by cases heq))
  | panic =>
      dsimp only
      rw [settles_bind, settles_read]
      split
      · exact quits_handle hc h
      · exact quits_panicHook hc h

end

theorem quits_raise {handlers : Nat → Handlers S} {level : Nat} (termination : Termination)
    (h : c.inputSet = false) :
    Quits p szMax (raise p szMax handlers (level + 1) termination) c :=
  quits_terminate termination h

/-- What the code of the target or of the fuzzer makes of the state. -/
def changed : List (UserStep S) → S → S
  | [], s => s
  | .change f :: steps, s => changed steps (f s)
  | .raise _ :: steps, s => changed steps s

section

variable {raise : Termination → ChildCall S Unit}
  (hraise : ∀ t (c : Child S), c.inputSet = false → Quits p szMax (raise t) c)

include hraise

theorem quits_panics (h : c.inputSet = false) :
    Quits p szMax (panics raise : ChildCall S α) c :=
  Quits.bind (hraise _ c h)

theorem settles_runSteps (steps : List (UserStep S)) (h : c.inputSet = false) :
    Settles p szMax (runSteps raise steps) c fun _ c' =>
      c' = { c with state := changed steps c.state } := by
  induction steps generalizing c with
  | nil => exact settles_pure.mpr rfl
  | cons step steps ih =>
      unfold runSteps
      cases step with
      | change f =>
          dsimp only
          rw [settles_bind, settles_update]
          exact ih h
      | raise t => exact Quits.bind (hraise t c h)

theorem settles_runCode (code : UserCode S α) (h : c.inputSet = false) :
    Settles p szMax (runCode raise code) c fun result c' =>
      result = code.result ∧ c' = { c with state := changed code.steps c.state } := by
  unfold runCode
  rw [settles_bind]
  refine (settles_runSteps hraise code.steps h).mono fun _ c' hc' => ?_
  exact settles_pure.mpr ⟨rfl, hc'⟩

theorem settles_writeReport (shouldReport : Bool) (report : List Termination)
    (h : c.inputSet = false) :
    Settles p szMax (writeReport raise shouldReport report) c fun _ c' => c' = c := by
  unfold writeReport
  split
  · cases report with
    | nil => exact settles_pure.mpr rfl
    | cons t report => exact Quits.bind (hraise t c h)
  · exact settles_pure.mpr rfl

theorem settles_expect (result : Except Unit α) (h : c.inputSet = false) :
    Settles p szMax (expect raise result) c fun a c' => result = .ok a ∧ c' = c := by
  unfold expect
  cases result with
  | ok a => exact settles_pure.mpr ⟨rfl, rfl⟩
  | error e => exact (quits_panics hraise h).settles

end

/-! ## Before the fuzzer has set its handlers -/

section

variable {handlers : Handlers S} {raise : Termination → ChildCall S Unit}

theorem quits_stdInprocessCrash (h : c.handlersSet = false)
    (hpanic : Quits p szMax (raise .panic) c) (termination : Termination) :
    Quits p szMax (stdInprocessCrash p szMax handlers raise termination) c := by
  unfold Quits stdInprocessCrash
  rw [settles_bind, settles_read, h, if_neg Bool.false_ne_true]
  exact Quits.bind hpanic

theorem quits_stdInprocessTimeout (h : c.handlersSet = false)
    (hpanic : Quits p szMax (raise .panic) c) :
    Quits p szMax (stdInprocessTimeout p szMax handlers raise) c := by
  unfold Quits stdInprocessTimeout
  rw [settles_bind, settles_read, h, if_neg Bool.false_ne_true]
  exact Quits.bind hpanic

/-- Every panic in a handler ends the child. -/
theorem quits_terminate_of_panic (termination : Termination) (h : c.handlersSet = false)
    (hpanic : ∀ c' : Child S, c'.handlersSet = false → c.depth < c'.depth →
      c'.depth < terminationHandlerMaxDepth → Quits p szMax (raise .panic) c') :
    Quits p szMax (terminate p szMax handlers raise termination) c := by
  have hc := unclassified_recorded c
  have hhandle : ∀ signal, Quits p szMax (handle p szMax handlers raise signal) c.recorded := by
    intro signal
    unfold Quits handle
    rw [settles_bind]
    refine settles_enter hc fun hdepth => ?_
    split
    · refine Quits.bind ?_
      unfold Quits timeoutHandler
      rw [settles_bind]
      refine settles_enter hc fun hdepth' => ?_
      rw [settles_bind, settles_read]
      split
      · refine Quits.bind (quits_stdInprocessTimeout h (hpanic _ h ?_ hdepth'))
        exact Nat.lt_succ_of_lt (Nat.lt_succ_self _)
      · exact Unclassified.settles_exit hc (restart_ne_signal signal)
    · refine Quits.bind ?_
      unfold Quits crashHandler
      rw [settles_bind, settles_read]
      split
      · refine Quits.bind (quits_stdInprocessCrash ?_ ?_ _)
        · exact h
        exact hpanic _ h (Nat.lt_succ_self _) hdepth
      · exact Unclassified.settles_exit hc (restart_ne_signal signal)
  unfold Quits terminate recordTermination
  rw [settles_bind, settles_update]
  cases termination with
  | signal signal =>
      dsimp only
      split
      · exact hhandle signal
      · exact yields_ofResult.mpr (hc.exits (fun heq => by cases heq))
  | panic =>
      dsimp only
      rw [settles_bind, settles_read]
      split
      · exact hhandle sigAbort
      · unfold panicHook
        rw [settles_bind, settles_update, settles_bind]
        refine settles_enter hc fun hdepth => ?_
        rw [settles_bind, settles_read]
        split
        · refine Quits.bind (quits_stdInprocessCrash ?_ ?_ _)
          · exact h
          exact hpanic _ h (Nat.lt_succ_self _) hdepth
        · exact Unclassified.settles_exit hc (restart_ne_signal sigAbort)

end

/-- By induction on the levels that are left, of which there are enough. -/
theorem quits_raise_no_handlers {handlers : Nat → Handlers S} {level : Nat}
    (termination : Termination) (h : c.handlersSet = false)
    (hlevel : terminationHandlerMaxDepth ≤ c.depth + level) (hpos : 0 < level) :
    Quits p szMax (raise p szMax handlers level termination) c := by
  induction level generalizing c termination with
  | zero => exact absurd hpos (Nat.lt_irrefl 0)
  | succ level ih =>
      refine quits_terminate_of_panic termination h fun c' hc' hdepth hmax => ?_
      exact ih .panic hc' (by omega) (by omega)

/-! ## In an execution -/

/-- The state that the handlers have left has been sent. -/
def Handled (p : Postcard S) (szMax : Nat) (c : Child S) (classified : Classification)
    (c' : Child S) : Prop :=
  ∃ s shm, c' = { c with
      inputSet := false, state := s, shm, termination := some ⟨true, some classified, some s⟩ } ∧
    shm.data.length = c.shm.data.length ∧
    (c.shm.data.length < szMax → (shmReceive p szMax shm).1 = .ok s)

theorem Handled.exits_restart {classified : Classification} {c' : Child S}
    (h : Handled p szMax c classified c') (hlength : c.shm.data.length < szMax)
    (hfault : classified.IsTargetFault) : Exits p szMax (.exited libaflmmExitRestart) c' := by
  obtain ⟨s, shm, rfl, heq, hreceive⟩ := h
  refine ⟨iff_of_true rfl ⟨_, rfl, ⟨rfl, _, rfl, hfault⟩, rfl⟩, fun _ => ⟨hreceive hlength, ?_⟩⟩
  exact heq.trans_lt hlength

theorem Handled.unclassified {classified : Classification} {c' : Child S}
    (h : Handled p szMax c classified c') (hfault : ¬classified.IsTargetFault) :
    c'.Unclassified := by
  obtain ⟨s, shm, rfl, -, -⟩ := h
  rintro record hrecord ⟨-, classified', hclassified, hfault'⟩
  obtain rfl := Option.some.inj hrecord
  obtain rfl := Option.some.inj hclassified
  exact hfault hfault'

section

variable {handlers : Handlers S} {raise : Termination → ChildCall S Unit}
  (hraise : ∀ t (c : Child S), c.inputSet = false → Quits p szMax (raise t) c)

include hraise

theorem settles_onCrash (termination : Termination) (h : c.inputSet = true) :
    Settles p szMax (onCrash handlers raise termination) c fun result c' =>
      (∃ s, c' = { c with inputSet := false, state := s }) ∧
      (result = .ok .fuzzerCrash →
        (handlers.handleCrash termination).result = .ok .fuzzerCrash) := by
  unfold onCrash assertInFuzzing takeInput
  rw [settles_bind, settles_bind, settles_read, h, if_pos rfl, settles_pure, settles_bind,
    settles_update, settles_bind]
  refine (settles_runCode hraise (handlers.handleCrash termination) rfl).mono ?_
  rintro status c' ⟨rfl, rfl⟩
  rcases (handlers.handleCrash termination).result with e | _ | _ | _
  · exact settles_pure.mpr ⟨⟨_, rfl⟩, by simp⟩
  · exact settles_pure.mpr ⟨⟨_, rfl⟩, by simp⟩
  · dsimp only
    rw [settles_bind]
    refine (settles_runCode hraise handlers.handleObjective rfl).mono ?_
    rintro worthy c' ⟨rfl, rfl⟩
    rcases handlers.handleObjective.result with e | worthy
    · exact settles_pure.mpr ⟨⟨_, rfl⟩, by simp⟩
    · refine settles_pure.mpr ⟨⟨_, rfl⟩, ?_⟩
      cases worthy <;> simp
  · exact settles_pure.mpr ⟨⟨_, rfl⟩, by simp⟩

theorem settles_onTimeout (h : c.inputSet = true) :
    Settles p szMax (onTimeout handlers raise) c fun _ c' =>
      ∃ s, c' = { c with inputSet := false, state := s } := by
  unfold onTimeout assertInFuzzing takeInput
  rw [settles_bind, settles_bind, settles_read, h, if_pos rfl, settles_pure, settles_bind,
    settles_update, settles_bind]
  refine (settles_runCode hraise handlers.handleTimeout rfl).mono ?_
  rintro status c' ⟨rfl, rfl⟩
  rcases handlers.handleTimeout.result with e | status
  · exact settles_pure.mpr ⟨_, rfl⟩
  · dsimp only
    rw [settles_bind]
    refine (settles_runCode hraise handlers.handleObjective rfl).mono ?_
    rintro worthy c' ⟨rfl, rfl⟩
    rcases handlers.handleObjective.result with e | worthy
    · exact settles_pure.mpr ⟨_, rfl⟩
    · exact settles_pure.mpr ⟨_, rfl⟩

/-- What does not fit has been written in part, and the length stays the same. -/
theorem settles_send (hp : p.Lawful) (h : c.inputSet = false) :
    Settles p szMax (send p szMax raise) c fun result c' =>
      match result with
      | .error _ => c'.inputSet = false
      | .ok _ => ∃ shm,
          c' = { c with shm, termination := c.termination.map ({ · with sent := some c.state }) } ∧
          shm.data.length = c.shm.data.length ∧
          (c.shm.data.length < szMax → (shmReceive p szMax shm).1 = .ok c.state) := by
  unfold send shmSend
  rw [settles_bind, settles_read]
  cases hfails : p.failsAfter c.state c.shm.data.length with
  | some written =>
      dsimp only
      rw [settles_bind, settles_update, settles_pure]
      exact h
  | none =>
      have hfits := hp.fits _ _ hfails
      by_cases hsize : (p.bytes c.state).length ≤ szMax
      · simp only [SharedMemory.setSize, if_pos hsize, Option.map_some]
        unfold recordSent
        rw [settles_bind, settles_update, settles_bind, settles_update, settles_pure]
        refine ⟨_, rfl, ?_, fun hlength => ?_⟩
        · simp only [overwrite, List.length_append, List.length_drop]
          omega
        · rw [shmReceive_valid (Nat.ne_of_lt (Nat.lt_of_le_of_lt hfits hlength))]
          dsimp only
          rw [overwrite_take, hp.roundTrip]
      · simp only [SharedMemory.setSize, if_neg hsize, Option.map_none]
        exact (quits_panics hraise h).settles

theorem settles_stdInprocessCrash (hp : p.Lawful) (termination : Termination)
    (h : c.inputSet = true) (hhandlers : c.handlersSet = true)
    (hc : c.termination = some ⟨true, none, none⟩) :
    Settles p szMax (stdInprocessCrash p szMax handlers raise termination) c fun result c' =>
      c'.inputSet = false ∧ ∀ status, result = .ok status →
        Handled p szMax c (.crash status) c' ∧ (status = .fuzzerCrash →
          (handlers.handleCrash termination).result = .ok .fuzzerCrash) := by
  unfold stdInprocessCrash
  rw [settles_bind, settles_read, hhandlers, if_pos rfl, settles_bind]
  refine (settles_onCrash hraise termination h).mono ?_
  rintro result c' ⟨⟨s, rfl⟩, hfuzzer⟩
  rcases result with e | status
  · exact settles_pure.mpr ⟨rfl, by simp⟩
  · dsimp only
    unfold recordClassified
    rw [settles_bind, settles_update, settles_bind]
    refine (settles_send hraise hp rfl).mono fun sent c' hsent => ?_
    rw [settles_pure]
    rcases sent with e | sent
    · exact ⟨hsent, fun _ heq => by cases heq⟩
    · obtain ⟨shm, rfl, hlength, hreceive⟩ := hsent
      refine ⟨rfl, fun status' heq => ?_⟩
      obtain rfl : status = status' := Except.ok.inj heq
      refine ⟨⟨s, shm, by simp [hc], hlength, hreceive⟩, fun hstatus => ?_⟩
      exact hfuzzer (congrArg Except.ok hstatus)

theorem settles_stdInprocessTimeout (hp : p.Lawful) (h : c.inputSet = true)
    (hhandlers : c.handlersSet = true) (hc : c.termination = some ⟨true, none, none⟩) :
    Settles p szMax (stdInprocessTimeout p szMax handlers raise) c fun result c' =>
      c'.inputSet = false ∧ ∀ status, result = .ok status →
        Handled p szMax c (.timeout status) c' := by
  unfold stdInprocessTimeout
  rw [settles_bind, settles_read, hhandlers, if_pos rfl, settles_bind]
  refine (settles_onTimeout hraise h).mono ?_
  rintro result c' ⟨s, rfl⟩
  rcases result with e | status
  · exact settles_pure.mpr ⟨rfl, by simp⟩
  · dsimp only
    unfold recordClassified
    rw [settles_bind, settles_update, settles_bind]
    refine (settles_send hraise hp rfl).mono fun sent c' hsent => ?_
    rw [settles_pure]
    rcases sent with e | sent
    · exact ⟨hsent, fun _ heq => by cases heq⟩
    · obtain ⟨shm, rfl, hlength, hreceive⟩ := hsent
      refine ⟨rfl, fun status' heq => ?_⟩
      obtain rfl : status = status' := Except.ok.inj heq
      exact ⟨s, shm, by simp [hc], hlength, hreceive⟩

/-- A crash in an execution exits as its handler has classified it. -/
theorem quits_crashHandler_inExecution (hp : p.Lawful) (signal : Nat) (h : c.inputSet = true)
    (hhandlers : c.handlersSet = true) (hc : c.termination = some ⟨true, none, none⟩)
    (hlength : c.shm.data.length < szMax) :
    Quits p szMax (crashHandler p szMax handlers raise signal) c := by
  unfold Quits crashHandler
  rw [settles_bind, settles_read, h, if_pos rfl, settles_bind]
  refine (settles_stdInprocessCrash hraise hp _ h hhandlers hc).mono ?_
  rintro result c' ⟨hinput, hresult⟩
  rw [settles_bind]
  refine (settles_expect hraise result hinput).mono ?_
  rintro status _ ⟨rfl, rfl⟩
  rw [settles_bind]
  refine (settles_writeReport hraise _ _ hinput).mono ?_
  rintro _ _ rfl
  have hhandled := (hresult status rfl).1
  split
  · next htarget => exact settles_exit.mpr (hhandled.exits_restart hlength htarget)
  · next htarget =>
      exact Unclassified.settles_exit (hhandled.unclassified htarget) (restart_ne_signal signal)

/-- The hook exits as it should unless the handler has found a crash of the fuzzer. -/
theorem quits_panicHook_inExecution (hp : p.Lawful) (h : c.inputSet = true)
    (hhandlers : c.handlersSet = true) (hc : c.termination = some ⟨true, none, none⟩)
    (hlength : c.shm.data.length < szMax)
    (hhonest : (handlers.handleCrash .panic).result ≠ .ok .fuzzerCrash) :
    Quits p szMax (panicHook p szMax handlers raise) c := by
  unfold Quits panicHook
  rw [settles_bind, settles_update, settles_bind]
  refine settles_enter (unclassified_fresh hc) fun _ => ?_
  rw [settles_bind, settles_read]
  dsimp only
  rw [h, if_pos rfl, settles_bind]
  refine (settles_stdInprocessCrash hraise hp .panic ?_ ?_ ?_).mono ?_
  · rfl
  · exact hhandlers
  · exact hc
  · rintro result c' ⟨hinput, hresult⟩
    rw [settles_bind]
    refine (settles_expect hraise result hinput).mono ?_
    rintro status _ ⟨rfl, rfl⟩
    rw [settles_bind]
    refine (settles_writeReport hraise _ _ hinput).mono ?_
    rintro _ _ rfl
    obtain ⟨hhandled, hfuzzer⟩ := hresult status rfl
    refine settles_exit.mpr (hhandled.exits_restart hlength ?_)
    rcases status with _ | _ | _
    · exact absurd (hfuzzer rfl) hhonest
    · rfl
    · rfl

end

/-- The child when no handler is running. -/
structure InTask (szMax : Nat) (c : Child S) : Prop where
  depth : c.depth = 0
  inHook : c.inHook = false
  length : c.shm.data.length < szMax
  unclassified : c.Unclassified

section

variable {handlers : Handlers S} {raise : Termination → ChildCall S Unit}
  (hraise : ∀ t (c : Child S), c.inputSet = false → Quits p szMax (raise t) c)

include hraise

/-- A timeout that does not exit leaves the child out of the handlers, and
without an input. -/
theorem settles_timeoutHandler (hp : p.Lawful) (signal : Nat) (h : c.inputSet = true)
    (hhandlers : c.handlersSet = true) (hc : c.termination = some ⟨true, none, none⟩)
    (hlength : c.shm.data.length < szMax) (hdepth : c.depth = 1) (hhook : c.inHook = false) :
    Settles p szMax (timeoutHandler p szMax handlers raise signal) c fun _ c' =>
      InTask szMax { c' with depth := c'.depth - 1 } ∧ c'.inputSet = false ∧
        c'.inExecution = c.inExecution := by
  unfold timeoutHandler
  rw [settles_bind]
  refine settles_enter (unclassified_fresh hc) fun _ => ?_
  rw [settles_bind, settles_read]
  dsimp only
  rw [h, if_pos rfl, settles_bind]
  refine (settles_stdInprocessTimeout hraise hp ?_ ?_ ?_).mono ?_
  · rfl
  · exact hhandlers
  · exact hc
  · rintro result c' ⟨hinput, hresult⟩
    rw [settles_bind]
    refine (settles_expect hraise result hinput).mono ?_
    rintro status _ ⟨rfl, rfl⟩
    have hhandled := hresult status rfl
    rcases status with _ | _
    · unfold leave
      rw [settles_update]
      have hunclassified := hhandled.unclassified (by simp [Classification.IsTargetFault])
      obtain ⟨s, shm, rfl, heq, -⟩ := hhandled
      refine ⟨⟨?_, hhook, heq.trans_lt hlength, hunclassified⟩, rfl, rfl⟩
      show c.depth + 1 - 1 - 1 = 0
      omega
    · exact settles_exit.mpr (hhandled.exits_restart hlength rfl)

/-- **A termination in an execution.** -/
theorem settles_terminate (hp : p.Lawful) (termination : Termination) (hc : c.InTask szMax)
    (h : c.inputSet = true) (hhandlers : c.handlersSet = true) (hexec : c.inExecution = true)
    (hhonest : termination = .panic → (handlers.handleCrash .panic).result ≠ .ok .fuzzerCrash) :
    Settles p szMax (terminate p szMax handlers raise termination) c fun _ c' =>
      c'.InTask szMax ∧ c'.inputSet = false ∧ c'.inExecution = true := by
  have hrecorded : c.recorded.termination = some ⟨true, none, none⟩ := by
    simp [recorded, hexec, hc.depth]
  unfold terminate recordTermination
  rw [settles_bind, settles_update]
  cases termination with
  | signal signal =>
      dsimp only
      split
      · unfold handle
        rw [settles_bind]
        refine settles_enter (unclassified_recorded c) fun _ => ?_
        split
        · rw [settles_bind]
          refine (settles_timeoutHandler hraise hp signal ?_ ?_ ?_ ?_ ?_ ?_).mono ?_
          · exact h
          · exact hhandlers
          · exact hrecorded
          · exact hc.length
          · exact congrArg Nat.succ hc.depth
          · exact hc.inHook
          · rintro _ c' ⟨htask, hinput, hexec'⟩
            unfold leave
            rw [settles_update]
            exact ⟨htask, hinput, hexec'.trans hexec⟩
        · refine Quits.bind (quits_crashHandler_inExecution hraise hp signal ?_ ?_ ?_ ?_)
          · exact h
          · exact hhandlers
          · exact hrecorded
          · exact hc.length
      · exact yields_ofResult.mpr ((unclassified_recorded c).exits (fun heq => by cases heq))
  | panic =>
      dsimp only
      rw [settles_bind, settles_read]
      dsimp only
      rw [hc.inHook, if_neg Bool.false_ne_true]
      refine (quits_panicHook_inExecution hraise hp ?_ ?_ ?_ ?_ (hhonest rfl)).settles
      · exact h
      · exact hhandlers
      · exact hrecorded
      · exact hc.length

end

/-! ## The life of a child -/

/-- The child between two events of its life. -/
structure Idle (szMax : Nat) (c : Child S) : Prop extends InTask szMax c where
  inputSet : c.inputSet = false
  inExecution : c.inExecution = false

section

variable {handlers : Nat → Handlers S}

theorem quits_raiseTop (t : Termination) (c : Child S) (h : c.inputSet = false) :
    Quits p szMax (raiseTop p szMax handlers t) c :=
  quits_raise t h

theorem settles_raiseTop (hp : p.Lawful) (t : Termination) (hc : c.InTask szMax)
    (hexec : c.inExecution = true) (hhonest : t = .panic →
      ((handlers terminationHandlerMaxDepth).handleCrash .panic).result ≠ .ok .fuzzerCrash) :
    Settles p szMax (raiseTop p szMax handlers t) c fun _ c' =>
      c'.InTask szMax ∧ c'.inExecution = true := by
  cases h : c.inputSet with
  | false => exact (quits_raiseTop t c h).settles
  | true =>
      cases hhandlers : c.handlersSet with
      | false =>
          refine (quits_raise_no_handlers t hhandlers ?_ (by decide)).settles
          exact Nat.le_add_left _ _
      | true =>
          refine (settles_terminate (fun t c h => quits_raise t h) hp t hc h hhandlers hexec
            hhonest).mono ?_
          exact fun _ c' hc' => ⟨hc'.1, hc'.2.2⟩

theorem settles_runSteps_inExecution (hp : p.Lawful) (steps : List (UserStep S))
    (hc : c.InTask szMax) (hexec : c.inExecution = true) (hhonest : .raise .panic ∈ steps →
      ((handlers terminationHandlerMaxDepth).handleCrash .panic).result ≠ .ok .fuzzerCrash) :
    Settles p szMax (runSteps (raiseTop p szMax handlers) steps) c fun _ c' =>
      c'.InTask szMax := by
  induction steps generalizing c with
  | nil => exact settles_pure.mpr hc
  | cons step steps ih =>
      unfold runSteps
      cases step with
      | change f =>
          dsimp only
          rw [settles_bind, settles_update]
          refine ih ?_ hexec fun hpanic => hhonest (List.mem_cons_of_mem _ hpanic)
          exact ⟨hc.depth, hc.inHook, hc.length, hc.unclassified⟩
      | raise t =>
          dsimp only
          rw [settles_bind]
          refine (settles_raiseTop hp t hc hexec fun ht => ?_).mono fun _ c' hc' => ?_
          · exact hhonest (by simp [ht])
          · exact ih hc'.1 hc'.2 fun hpanic => hhonest (List.mem_cons_of_mem _ hpanic)

end

/-- An honest event keeps the child idle, or it ends the child as it should. -/
theorem settles_event (hp : p.Lawful) {e : ChildEvent S} (hc : c.Idle szMax) (he : e.Honest) :
    Settles p szMax (event p szMax e) c fun _ c' => c'.Idle szMax := by
  obtain ⟨hdepth, hhook, hlength, hunclassified⟩ := hc.toInTask
  have hinput := hc.inputSet
  have hexec := hc.inExecution
  cases e with
  | initTerminationHandlers handlers =>
      unfold event initTerminationHandlers
      rw [settles_bind, settles_read]
      split
      · exact (quits_panics quits_raiseTop hinput).settles
      · exact settles_update.mpr ⟨⟨hdepth, hhook, hlength, hunclassified⟩, hinput, hexec⟩
  | work code handlers =>
      unfold event work
      rw [settles_bind]
      refine (settles_runCode quits_raiseTop code hinput).mono ?_
      rintro _ _ ⟨-, rfl⟩
      exact settles_pure.mpr ⟨⟨hdepth, hhook, hlength, hunclassified⟩, hinput, hexec⟩
  | execute target handlers =>
      unfold event execute runCode
      rw [settles_bind, settles_update, settles_bind, settles_bind]
      refine (settles_runSteps_inExecution hp target.steps ?_ rfl he.2).mono ?_
      · exact ⟨hdepth, hhook, hlength, hunclassified⟩
      · intro _ c' hc'
        obtain ⟨hdepth', hhook', hlength', hunclassified'⟩ := hc'
        rw [settles_pure, settles_bind, settles_update, he.1]
        exact settles_update.mpr ⟨⟨hdepth', hhook', hlength', hunclassified'⟩, rfl, rfl⟩
  | taskReturns result handlers =>
      unfold event taskReturns
      rw [settles_bind]
      refine (settles_expect quits_raiseTop result hinput).mono ?_
      rintro _ _ ⟨-, rfl⟩
      exact Unclassified.settles_exit hunclassified (by decide)

theorem settles_live (hp : p.Lawful) {lifetime : List (ChildEvent S)} (hc : c.Idle szMax)
    (h : ∀ e ∈ lifetime, e.Honest) :
    Settles p szMax (live p szMax lifetime) c fun _ _ => True := by
  induction lifetime generalizing c with
  | nil => exact settles_pure.mpr trivial
  | cons e lifetime ih =>
      unfold live
      rw [settles_bind]
      refine (settles_event hp hc (h e (List.mem_cons_self ..))).mono fun _ c' hc' => ?_
      exact ih hc' fun e he => h e (List.mem_cons_of_mem _ he)

end Child

/-! ## The restarts -/

namespace Restarter

variable {S : Type} {p : Postcard S} {szMax : Nat} {r r' : Restarter S}
  {lifetime : List (ChildEvent S)}

theorem idle_fork (h : r.shm.data.length < szMax) : r.fork.Idle szMax :=
  ⟨⟨rfl, rfl, h, fun _ hrecord => by cases hrecord⟩, rfl, rfl⟩

theorem waitpid_restart {c : Child S} (h : (shmReceive p szMax c.shm).1 = .ok c.state) :
    ∃ shm, waitpid p szMax (.exited libaflmmExitRestart) c.shm = .restarts ⟨c.state, shm⟩ := by
  refine ⟨(shmReceive p szMax c.shm).2, ?_⟩
  unfold waitpid childExited
  dsimp only
  rw [if_neg (by decide), if_pos rfl]
  rcases hreceive : shmReceive p szMax c.shm with ⟨result, shm⟩
  rw [hreceive] at h
  obtain rfl : result = .ok c.state := h
  rfl

/-- A restart is not a crash of the fuzzer. -/
theorem not_restartable_of_fuzzerCrashed {c : Child S} (h : c.FuzzerCrashed) :
    ¬c.Restartable := by
  obtain ⟨record, hrecord, hcrash⟩ := h
  rintro ⟨record', hrecord', ⟨hexec, classified, hclassified, hfault⟩, -⟩
  obtain rfl := Option.some.inj (hrecord.symm.trans hrecord')
  rcases hcrash with hout | hfuzzer
  · exact absurd (hexec.symm.trans hout) (by decide)
  · obtain rfl := Option.some.inj (hclassified.symm.trans hfuzzer)
    cases hfault

theorem restartsExactly_of_honest (hp : p.Lawful) (h : r.shm.data.length < szMax)
    (hlifetime : ∀ e ∈ lifetime, e.Honest) : r.RestartsExactly p szMax lifetime := by
  refine Yields.mono (Child.settles_live hp (idle_fork h) hlifetime) fun result c hc => ?_
  rintro exit rfl
  obtain ⟨hiff, hreceive⟩ := hc
  refine ⟨hiff, fun hcrash hexit => ?_, fun hexit => ?_⟩
  · exact not_restartable_of_fuzzerCrashed hcrash (hiff.mp hexit)
  · rw [hexit]
    exact waitpid_restart (hreceive hexit).1

/-- Nothing but a restart makes the parent go on. -/
theorem restarts_inv {exit : ChildExit} {shm : SharedMemory}
    (h : waitpid p szMax exit shm = .restarts r) :
    exit = .exited libaflmmExitRestart ∧ r.shm.data = shm.data := by
  rcases exit with status | signal
  · unfold waitpid childExited at h
    dsimp only at h
    split_ifs at h with hend hrestart
    refine ⟨congrArg _ hrestart, ?_⟩
    unfold shmReceive at h
    cases hsize : shm.getSize szMax with
    | none =>
        rw [hsize] at h
        cases h
    | some size =>
        rw [hsize] at h
        dsimp only at h
        cases hread : p.fromBytes (shm.data.take size) with
        | none =>
            rw [hread] at h
            cases h
        | some value =>
            rw [hread] at h
            cases h
            rfl
  · cases h

theorem length_step (hp : p.Lawful) (h : r.shm.data.length < szMax)
    (hlifetime : ∀ e ∈ lifetime, e.Honest) (hstep : step p szMax r lifetime = some r') :
    r'.shm.data.length < szMax := by
  obtain ⟨result, c, hrun, hresult⟩ := Child.settles_live hp (idle_fork h) hlifetime
  unfold step at hstep
  rw [hrun] at hstep
  rcases result with exit | _
  · dsimp only at hstep
    cases hwait : waitpid p szMax exit c.shm with
    | restarts r'' =>
        rw [hwait] at hstep
        obtain rfl := Option.some.inj hstep
        obtain ⟨hexit, hdata⟩ := restarts_inv hwait
        rw [hdata]
        exact (hresult.2 hexit).2
    | returns result =>
        rw [hwait] at hstep
        cases hstep
    | exits status =>
        rw [hwait] at hstep
        cases hstep
    | panics =>
        rw [hwait] at hstep
        cases hstep
  · cases hstep

/-- In every sequence of lifetimes in which no execution returns an error and no
panic in an execution is answered as a crash of the fuzzer, the child restarts
exactly for a fault of the target whose state is sent, and from that state. -/
theorem restartsExactly (hp : p.Lawful) (state : S) (data : List UInt8)
    (hdata : data.length < szMax) (lifetimes : List (List (ChildEvent S)))
    (h : StepsMeet (step p szMax) (new szMax state data) lifetimes
      fun _ lifetime => ∀ e ∈ lifetime, e.Honest) :
    StepsMeet (step p szMax) (new szMax state data) lifetimes (RestartsExactly p szMax) := by
  intro pre lifetime hprefix r hrun
  refine restartsExactly_of_honest hp ?_ (h pre lifetime hprefix r hrun)
  refine (h.of_prefix ((List.prefix_append pre [lifetime]).trans hprefix)).invariant
    (fun r => r.shm.data.length < szMax) hdata (fun r lifetime r' _ hr hl hstep => ?_) hrun
  exact length_step hp hr hl hstep

/-- The handlers of an executor that gives one answer to crashes. -/
def answering (status : CrashStatus) : Nat → Handlers S := fun _ =>
  ⟨fun _ => ⟨[], .ok status⟩, ⟨[], .ok .exit⟩, ⟨[], .ok true⟩, []⟩

/-- A crash in an execution, and the next child reaches the end of the task. -/
theorem restartsExactly_crash :
    StepsMeet (step pairs 255) (new 255 (1, 5) [0, 0, 0])
      [[.initTerminationHandlers (answering .targetCrash),
        .execute ⟨[.change fun s => (s.1 + 1, s.2), .raise (.signal 11)], .ok ()⟩
          (answering .targetCrash)],
       [.taskReturns (.ok ()) (answering .targetCrash)]]
      (RestartsExactly pairs 255) := by
  refine restartsExactly pairs_lawful (1, 5) [0, 0, 0] (by decide) _ ?_
  intro pre lifetime hprefix r hrun
  have hmem := hprefix.subset (by simp : lifetime ∈ pre ++ [lifetime])
  rcases List.mem_pair.mp hmem with rfl | rfl
  · intro e he
    rcases List.mem_pair.mp he with rfl | rfl
    · trivial
    · exact ⟨rfl, by simp⟩
  · intro e he
    obtain rfl := List.mem_singleton.mp he
    trivial

/-- The hook takes a crash of the fuzzer for one of the target, and a panic after an
execution that has returned an error for one in an execution. -/
theorem not_restartsExactly_panic :
    ¬StepsMeet (step pairs 255) (new 255 (1, 5) [0, 0, 0])
      [[.initTerminationHandlers (answering .fuzzerCrash),
        .execute ⟨[.raise .panic], .ok ()⟩ (answering .fuzzerCrash)]]
      (RestartsExactly pairs 255) ∧
    ¬StepsMeet (step pairs 255) (new 255 (1, 5) [0, 0, 0])
      [[.initTerminationHandlers (answering .targetCrash),
        .execute ⟨[], .error ()⟩ (answering .targetCrash),
        .taskReturns (.error ()) (answering .targetCrash)]]
      (RestartsExactly pairs 255) := by
  constructor
  · intro h
    have hexit := (yields_of_run (r := .error (.exited libaflmmExitRestart)) rfl).mp
      (stepsMeet_cons.mp h).1
    exact (hexit _ rfl).2.1 ⟨_, rfl, Or.inr rfl⟩ rfl
  · intro h
    have hexit := (yields_of_run (r := .error (.exited libaflmmExitRestart)) rfl).mp
      (stepsMeet_cons.mp h).1
    exact (hexit _ rfl).2.1 ⟨_, rfl, Or.inl rfl⟩ rfl

end Restarter

end Libaflmm
