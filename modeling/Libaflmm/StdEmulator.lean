import Libaflmm.Calls
import Libaflmm.Runs
import Libaflmm.StdFuzzer
import Mathlib.Data.List.Infix

/-!
# The snapshot of an emulated fuzzing run

The guest asks for things by commands, and QEMU reports other reasons to stop.
A start command takes a snapshot, and the commands which end a run restore it.
The driver loop goes on until there is an outcome.

A crash, a timeout and a panic of the guest that QEMU reports are outcomes
without a command, and nothing restores the snapshot then. The same holds of the
command by which the guest aborts.
-/

namespace Libaflmm

open Call

abbrev SnapshotId := Nat

inductive CommandError where
  | unknownCommand (cmd : Nat)
  | versionDifference (major minor : Nat)
  | testDifference (received expected : Nat)
  | endBeforeStart
  | wrongUsage

inductive EmulatorError where
  | snapshotManager
  | snapshotCheck
  | command (e : CommandError)
  | exit (breakpointAddr : Nat)
  | unhandledSignal (signal : Nat)
  | multipleSnapshotDefinition
  | multipleInputLocationDefinition
  | snapshotNotFound
  | notStartedYet
  | endBeforeStart
  | libafl (e : Error)

inductive EmulatorRunResult where
  | endOfRun (exitKind : ExitKind)
  | breakpoint (bpId : Nat)
  | shutdownRequest
  | fuzzingStarts

/-- The commands of both protocols. What a guest writes is in their fields, and
of `SubmitCR3` whether the processor has a paging id. -/
inductive Command (L : Type) where
  | startCommand (inputLocation : L)
  | saveCommand
  | loadCommand
  | endCommand (exitKind : Option ExitKind)
  | versionCommand (major minor : Nat)
  | addressAllowCommand
  | lqprintfCommand
  | testCommand (expectedValue receivedValue : Nat)
  | setMapCommand
  | acquireCommand
  | releaseCommand
  | getHostConfigCommand
  | setAgentConfigCommand (agentMagic agentVersion : Nat)
  | printfCommand
  | getPayloadCommand (inputStructLocation inputLocation : L)
  | nextPayloadCommand
  | submitCR3Command (pagingId : Bool)
  | panicCommand
  | submitPanicCommand
  | userAbortCommand
  | rangeSubmitCommand

inductive QemuShutdownCause where
  | hostSignal (signal : Nat)
  | guestPanic
  | guestShutdown
  | hostQmpQuit
  | other

inductive EmulatorExitReason (L : Type) where
  | qemuExit (cause : QemuShutdownCause)
  | crash
  | timeout
  | breakpoint (bpId : Nat) (trigger : Except EmulatorError (Option (Command L)))
  | customInsn (command : Command L)

/-- The versions of the headers of the guest. -/
structure Vharness where
  versionMajor : Nat
  versionMinor : Nat
  agentMagic : Nat
  agentVersion : Nat

/-- `hasStarted` is kept by the command manager, and the locations by the input
writer. `restoredTo` is the snapshot which the VM has been saved to or restored
from, if it has not been changed since. -/
structure StdEmulator (V L : Type) where
  started : Bool
  hasStarted : Bool
  snapshotId : Option SnapshotId
  inputLocation : Option L
  inputStructLocation : Option L
  snapshots : List V
  vm : V
  restoredTo : Option SnapshotId

/-- What the guest does until it stops. -/
structure QemuRun (V L : Type) where
  vm : V
  exit : Except EmulatorError (EmulatorExitReason L)

namespace StdEmulator

variable {V L : Type}

def new (vm : V) : StdEmulator V L := ⟨false, false, none, none, none, [], vm, none⟩

abbrev EmulatorCall (V L α : Type) := Call EmulatorError (StdEmulator V L) α

/-! ## The snapshot manager -/

def save : EmulatorCall V L SnapshotId :=
  ofFn fun emu => some (.ok emu.snapshots.length,
    { emu with snapshots := emu.snapshots ++ [emu.vm], restoredTo := some emu.snapshots.length })

def restore (snapshotId : SnapshotId) : EmulatorCall V L Unit :=
  ofFn fun emu =>
    match emu.snapshots[snapshotId]? with
    | some vm => some (.ok (), { emu with vm, restoredTo := some snapshotId })
    | none => some (.error .snapshotManager, emu)

/-! ## What the commands use -/

/-- The cell is set once. -/
def setSnapshotId (snapshotId : SnapshotId) : EmulatorCall V L Unit :=
  ofFn fun emu =>
    match emu.snapshotId with
    | none => some (.ok (), { emu with snapshotId := some snapshotId })
    | some _ => some (.error .multipleSnapshotDefinition, emu)

def setInputLocation (inputLocation : L) : EmulatorCall V L Unit :=
  ofFn fun emu =>
    match emu.inputLocation with
    | none => some (.ok (), { emu with inputLocation := some inputLocation })
    | some _ => some (.error .multipleInputLocationDefinition, emu)

def setInputStructLocation (inputStructLocation : L) : EmulatorCall V L Unit :=
  ofFn fun emu =>
    match emu.inputStructLocation with
    | none => some (.ok (), { emu with inputStructLocation := some inputStructLocation })
    | some _ => some (.error .multipleInputLocationDefinition, emu)

/-- An error is a panic. -/
def unwrap {α : Type} (x : EmulatorCall V L α) : EmulatorCall V L α :=
  ofFn fun emu =>
    match x.run emu with
    | some (.ok a, emu) => some (.ok a, emu)
    | _ => none

def panics {α : Type} : EmulatorCall V L α := ofFn fun _ => none

/-- Whether the command manager had been started before. -/
def startCommandManager : EmulatorCall V L Bool :=
  ofFn fun emu => some (.ok emu.hasStarted, { emu with hasStarted := true })

def getSnapshotId : EmulatorCall V L SnapshotId :=
  ofFn fun emu =>
    match emu.snapshotId with
    | some snapshotId => some (.ok snapshotId, emu)
    | none => some (.error .snapshotNotFound, emu)

def saveStart : EmulatorCall V L Unit := do
  let snapshotId ← save
  setSnapshotId snapshotId

def restoreStart : EmulatorCall V L SnapshotId := do
  let snapshotId ← getSnapshotId
  restore snapshotId
  pure snapshotId

/-- The snapshot of the emulator is set once, and saved snapshots are kept. -/
def Later (emu emu' : StdEmulator V L) : Prop :=
  (∀ snapshotId, emu.snapshotId = some snapshotId → emu'.snapshotId = some snapshotId) ∧
    emu.snapshots <+: emu'.snapshots ∧ emu'.started = emu.started

instance : IsPreorder (StdEmulator V L) Later where
  refl _ := ⟨fun _ h => h, List.prefix_refl _, rfl⟩
  trans _ _ _ h h' := ⟨fun id hid => h'.1 id (h.1 id hid), h.2.1.trans h'.2.1, h'.2.2.trans h.2.2⟩

theorem later_save : (save : EmulatorCall V L SnapshotId).Keeps Later := by
  refine keeps_ofFn fun emu r t h => ?_
  cases h
  exact ⟨fun _ h => h, List.prefix_append _ _, rfl⟩

theorem later_restore (snapshotId : SnapshotId) :
    (restore snapshotId : EmulatorCall V L Unit).Keeps Later := by
  refine keeps_ofFn fun emu r t h => ?_
  split at h <;> cases h <;> exact ⟨fun _ h => h, List.prefix_refl _, rfl⟩

theorem later_setSnapshotId (snapshotId : SnapshotId) :
    (setSnapshotId snapshotId : EmulatorCall V L Unit).Keeps Later := by
  refine keeps_ofFn fun emu r t h => ?_
  split at h
  · next hnone =>
      cases h
      exact ⟨fun id hid => absurd (hnone.symm.trans hid) (by simp), List.prefix_refl _, rfl⟩
  · cases h
    exact refl_of Later emu

theorem later_setInputLocation (inputLocation : L) :
    (setInputLocation inputLocation : EmulatorCall V L Unit).Keeps Later := by
  refine keeps_ofFn fun emu r t h => ?_
  split at h <;> cases h <;> exact ⟨fun _ h => h, List.prefix_refl _, rfl⟩

theorem later_setInputStructLocation (inputStructLocation : L) :
    (setInputStructLocation inputStructLocation : EmulatorCall V L Unit).Keeps Later := by
  refine keeps_ofFn fun emu r t h => ?_
  split at h <;> cases h <;> exact ⟨fun _ h => h, List.prefix_refl _, rfl⟩

theorem later_unwrap {α : Type} {x : EmulatorCall V L α} (hx : x.Keeps Later) :
    (unwrap x).Keeps Later := by
  refine keeps_ofFn fun emu r t h => ?_
  split at h
  · next a emu' hrun =>
      cases h
      exact hx emu _ _ hrun
  · cases h

theorem later_panics {α : Type} : (panics : EmulatorCall V L α).Keeps Later :=
  keeps_ofFn fun _ _ _ h => absurd h (by simp)

theorem later_startCommandManager :
    (startCommandManager : EmulatorCall V L Bool).Keeps Later := by
  refine keeps_ofFn fun emu r t h => ?_
  cases h
  exact ⟨fun _ h => h, List.prefix_refl _, rfl⟩

theorem later_getSnapshotId : (getSnapshotId : EmulatorCall V L SnapshotId).Keeps Later := by
  refine keeps_ofFn fun emu r t h => ?_
  split at h <;> cases h <;> exact refl_of Later emu

theorem later_saveStart : (saveStart : EmulatorCall V L Unit).Keeps Later :=
  keeps_bind later_save later_setSnapshotId

theorem later_restoreStart : (restoreStart : EmulatorCall V L SnapshotId).Keeps Later :=
  keeps_bind later_getSnapshotId fun snapshotId =>
    keeps_bind (later_restore snapshotId) fun _ => keeps_pure

/-- The snapshot is the one that `emu` has, and the VM is as it was saved. -/
def AtSnapshot (emu emu' : StdEmulator V L) : Prop :=
  ∃ snapshotId vm, emu.snapshotId = some snapshotId ∧ emu.snapshots[snapshotId]? = some vm ∧
    emu'.snapshotId = some snapshotId ∧ emu'.snapshots[snapshotId]? = some vm ∧
    emu'.restoredTo = some snapshotId ∧ emu'.vm = vm

theorem saveStart_leaves {emu : StdEmulator V L} :
    saveStart.Leaves emu fun r emu' => r = .ok () → AtSnapshot emu' emu' := by
  intro r emu' hrun hok
  subst hok
  obtain ⟨snapshotId, emu₁, hsave, hset⟩ := run_bind_eq_ok.mp hrun
  cases hsave
  rw [setSnapshotId, run_ofFn] at hset
  split at hset <;> cases hset
  have hget : (emu.snapshots ++ [emu.vm])[emu.snapshots.length]? = some emu.vm := by simp
  exact ⟨_, _, rfl, hget, rfl, hget, rfl, rfl⟩

theorem restoreStart_leaves {emu : StdEmulator V L} :
    restoreStart.Leaves emu fun r emu' => ∀ id, r = .ok id → AtSnapshot emu' emu' := by
  rintro r emu' hrun id rfl
  obtain ⟨snapshotId, emu₁, hid, hrest⟩ := run_bind_eq_ok.mp hrun
  rw [getSnapshotId, run_ofFn] at hid
  split at hid
  · next snapshotId' hsome =>
      cases hid
      obtain ⟨_, emu₂, hrestore, hpure⟩ := run_bind_eq_ok.mp hrest
      cases hpure
      rw [restore, run_ofFn] at hrestore
      split at hrestore
      · next vm hget =>
          cases hrestore
          exact ⟨_, _, hsome, hget, hsome, hget, rfl, rfl⟩
      · cases hrestore
  · cases hid

theorem setInputLocation_leaves {emu : StdEmulator V L} {inputLocation : L}
    (h : AtSnapshot emu emu) :
    (setInputLocation inputLocation).Leaves emu fun _ emu' => AtSnapshot emu' emu' := by
  intro r emu' hrun
  rw [setInputLocation, run_ofFn] at hrun
  split at hrun <;> cases hrun <;> exact h

theorem not_atSnapshot {emu : StdEmulator V L} (h : emu.restoredTo = none)
    (hat : AtSnapshot emu emu) : False := by
  obtain ⟨snapshotId, vm, -, -, -, -, hrestored, -⟩ := hat
  cases h.symm.trans hrestored

theorem AtSnapshot.self {emu emu' : StdEmulator V L} (h : AtSnapshot emu emu') :
    AtSnapshot emu' emu' := by
  obtain ⟨snapshotId, vm, -, -, hid, hvm, hrest⟩ := h
  exact ⟨snapshotId, vm, hid, hvm, hid, hvm, hrest⟩

theorem AtSnapshot.of_later {emu emu' : StdEmulator V L} (hlater : Later emu emu')
    {snapshotId : SnapshotId} {vm : V} (hid : emu.snapshotId = some snapshotId)
    (hvm : emu.snapshots[snapshotId]? = some vm) (h : AtSnapshot emu' emu') :
    AtSnapshot emu emu' := by
  obtain ⟨snapshotId', vm', hid', hvm', -, -, hrestored, heq⟩ := h
  obtain rfl : snapshotId = snapshotId' := Option.some.inj ((hlater.1 _ hid).symm.trans hid')
  have hkept : emu'.snapshots[snapshotId]? = some vm := by
    obtain ⟨rest, hrest⟩ := hlater.2.1
    rw [← hrest, List.getElem?_append_left (List.getElem?_eq_some_iff.mp hvm).1]
    exact hvm
  obtain rfl : vm = vm' := Option.some.inj (hkept.symm.trans hvm')
  exact ⟨snapshotId, vm, hid, hvm, hid', hvm', hrestored, heq⟩

/-- A started emulator has a snapshot. -/
def HasSnapshot (emu : StdEmulator V L) : Prop :=
  emu.started = true →
    ∃ snapshotId vm, emu.snapshotId = some snapshotId ∧ emu.snapshots[snapshotId]? = some vm

theorem HasSnapshot.later {emu emu' : StdEmulator V L} (h : HasSnapshot emu)
    (hlater : Later emu emu') : HasSnapshot emu' := by
  intro hstarted
  obtain ⟨snapshotId, vm, hid, hvm⟩ := h (hlater.2.2.symm.trans hstarted)
  obtain ⟨rest, hrest⟩ := hlater.2.1
  refine ⟨snapshotId, vm, hlater.1 _ hid, ?_⟩
  rw [← hrest, List.getElem?_append_left (List.getElem?_eq_some_iff.mp hvm).1]
  exact hvm

/-! ## Running a command -/

variable [DecidableEq V]

def check (snapshotId : SnapshotId) : EmulatorCall V L Unit :=
  ofFn fun emu =>
    if emu.snapshots[snapshotId]? = some emu.vm then some (.ok (), emu)
    else some (.error .snapshotCheck, emu)

def runCommand (cfg : Vharness) : Command L → EmulatorCall V L (Option EmulatorRunResult)
  | .startCommand inputLocation => do
    let started ← startCommandManager
    if started then pure none
    else do
      saveStart
      setInputLocation inputLocation
      pure (some .fuzzingStarts)
  | .nextPayloadCommand => do
    let started ← startCommandManager
    if started then pure none
    else do
      saveStart
      pure (some .fuzzingStarts)
  | .saveCommand => do
    saveStart
    pure none
  | .loadCommand => do
    let _ ← restoreStart
    pure none
  | .endCommand exitKind => do
    let hasStarted ← read (·.hasStarted)
    if !hasStarted then ofResult (.error (.command .endBeforeStart))
    else do
      let _ ← restoreStart
      match exitKind with
      | some exitKind => pure (some (.endOfRun exitKind))
      | none => panics
  | .panicCommand => do
    let hasStarted ← read (·.hasStarted)
    if !hasStarted then ofResult (.error (.command .endBeforeStart))
    else do
      let snapshotId ← restoreStart
      check snapshotId
      pure (some (.endOfRun .crash))
  | .releaseCommand => do
    let hasStarted ← read (·.hasStarted)
    if hasStarted then do
      let _ ← restoreStart
      pure (some (.endOfRun .ok))
    else pure none
  | .userAbortCommand => pure (some .shutdownRequest)
  | .versionCommand major minor =>
    if cfg.versionMajor = major ∧ cfg.versionMinor = minor then pure none
    else ofResult (.error (.command (.versionDifference major minor)))
  | .testCommand expectedValue receivedValue =>
    if expectedValue = receivedValue then pure none
    else ofResult (.error (.command (.testDifference receivedValue expectedValue)))
  | .submitCR3Command pagingId =>
    if pagingId then pure none else ofResult (.error (.command .wrongUsage))
  | .setAgentConfigCommand agentMagic agentVersion =>
    if agentMagic = cfg.agentMagic ∧ agentVersion = cfg.agentVersion then pure none else panics
  | .getPayloadCommand inputStructLocation inputLocation => do
    unwrap (setInputStructLocation inputStructLocation)
    unwrap (setInputLocation inputLocation)
    pure none
  | .setMapCommand | .submitPanicCommand => panics
  | .addressAllowCommand | .lqprintfCommand | .acquireCommand | .getHostConfigCommand
  | .printfCommand | .rangeSubmitCommand => pure none

/-! ## The driver loop -/

def runQemu (guest : QemuRun V L) : EmulatorCall V L (EmulatorExitReason L) := do
  update fun emu => { emu with vm := guest.vm, restoredTo := none }
  ofResult guest.exit

def postQemuExec (cfg : Vharness) :
    EmulatorExitReason L → EmulatorCall V L (Option EmulatorRunResult)
  | .qemuExit (.hostSignal signal) => ofResult (.error (.unhandledSignal signal))
  | .qemuExit .guestPanic => pure (some (.endOfRun .crash))
  | .qemuExit _ => panics
  | .crash => pure (some (.endOfRun .crash))
  | .timeout => pure (some (.endOfRun .timeout))
  | .breakpoint bpId trigger => do
    match ← ofResult trigger with
    | some command => runCommand cfg command
    | none => pure (some (.breakpoint bpId))
  | .customInsn command => runCommand cfg command

def handleExit (cfg : Vharness) (guest : QemuRun V L) :
    EmulatorCall V L (Option EmulatorRunResult) := do
  let exitReason ← runQemu guest
  postQemuExec cfg exitReason

/-- The guest runs on if it does not stop any more. -/
def runUntilOutcome (cfg : Vharness) : List (QemuRun V L) → EmulatorCall V L EmulatorRunResult
  | [] => panics
  | guest :: guests => do
    match ← handleExit cfg guest with
    | some outcome => pure outcome
    | none => runUntilOutcome cfg guests

def start (cfg : Vharness) (guests : List (QemuRun V L)) : EmulatorCall V L Unit := do
  match ← runUntilOutcome cfg guests with
  | .fuzzingStarts => update fun emu => { emu with started := true }
  | .endOfRun _ => ofResult (.error .endBeforeStart)
  | .breakpoint bpId =>
    ofResult (.error (.libafl (.runtime s!"unexpected breakpoint BreakpointId({bpId})")))
  | .shutdownRequest => ofResult (.error .endBeforeStart)

/-- `written` is the VM with the input, or why it could not be written. -/
def runInput (cfg : Vharness) (written : Except EmulatorError V) (guests : List (QemuRun V L)) :
    EmulatorCall V L EmulatorRunResult := do
  let started ← read (·.started)
  if !started then ofResult (.error .notStartedYet)
  else do
    let vm ← ofResult written
    update fun emu => { emu with vm, restoredTo := none }
    runUntilOutcome cfg guests

def execInput (cfg : Vharness) (written : Except EmulatorError V) (guests : List (QemuRun V L)) :
    EmulatorCall V L ExitKind := do
  match ← runInput cfg written guests with
  | .endOfRun exitKind => pure exitKind
  | .shutdownRequest => pure .crash
  | .breakpoint bpId =>
    ofResult (.error (.libafl (.runtime s!"unexpected breakpoint BreakpointId({bpId})")))
  | .fuzzingStarts =>
    ofResult (.error (.libafl (.runtime "unexpected fuzzing-start signal during a fuzzing run")))

/-! ## Sessions -/

/-- A call of the fuzzer, and what the guest does in it. -/
inductive EmulatorUse (V L : Type) where
  | start (guests : List (QemuRun V L))
  | execInput (written : Except EmulatorError V) (guests : List (QemuRun V L))

def step (cfg : Vharness) (emu : StdEmulator V L) : EmulatorUse V L → Option (StdEmulator V L)
  | .start guests => ((start cfg guests).run emu).map (·.2)
  | .execInput written guests => ((execInput cfg written guests).run emu).map (·.2)

/-- A start that succeeds leaves the VM at the snapshot, and so does every run
with a result. There is none before the start. -/
def RunRestores (cfg : Vharness) (emu : StdEmulator V L) : EmulatorUse V L → Prop
  | .start guests => (start cfg guests).Leaves emu fun r emu' =>
      r = .ok () → emu'.started = true ∧ AtSnapshot emu' emu'
  | .execInput written guests => (execInput cfg written guests).Leaves emu fun r emu' =>
      ∀ exitKind, r = .ok exitKind → emu.started = true ∧ AtSnapshot emu emu'

/-- The exits that end a run and do not restore the snapshot. -/
def Unrestored : EmulatorExitReason L → Prop
  | .crash | .timeout | .qemuExit .guestPanic => True
  | .customInsn command | .breakpoint _ (.ok (some command)) => command = .userAbortCommand
  | _ => False

/-- Every exit up to the one that ends the run is none of those. -/
def StopsRestored (cfg : Vharness) : List (QemuRun V L) → StdEmulator V L → Prop
  | [], _ => True
  | guest :: guests, emu =>
    (∀ exitReason, guest.exit = .ok exitReason → ¬Unrestored exitReason) ∧
    ∀ emu', (handleExit cfg guest).run emu = some (.ok none, emu') → StopsRestored cfg guests emu'

/-- A run that takes place ends by a command. -/
def EndsByCommand (cfg : Vharness) (emu : StdEmulator V L) : EmulatorUse V L → Prop
  | .start _ => True
  | .execInput written guests => emu.started = true → ∀ vm, written = .ok vm →
      StopsRestored cfg guests { emu with vm, restoredTo := none }

theorem later_check (snapshotId : SnapshotId) :
    (check snapshotId : EmulatorCall V L Unit).Keeps Later := by
  refine keeps_ofFn fun emu r t h => ?_
  split at h <;> cases h <;> exact refl_of Later emu

theorem later_runCommand (cfg : Vharness) (command : Command L) :
    (runCommand cfg command : EmulatorCall V L _).Keeps Later := by
  cases command <;> simp only [runCommand]
  case startCommand inputLocation =>
    refine keeps_bind later_startCommandManager fun started => ?_
    cases started
    · exact keeps_bind later_saveStart fun _ =>
        keeps_bind (later_setInputLocation inputLocation) fun _ => keeps_pure
    · exact keeps_pure
  case nextPayloadCommand =>
    refine keeps_bind later_startCommandManager fun started => ?_
    cases started
    · exact keeps_bind later_saveStart fun _ => keeps_pure
    · exact keeps_pure
  case saveCommand => exact keeps_bind later_saveStart fun _ => keeps_pure
  case loadCommand => exact keeps_bind later_restoreStart fun _ => keeps_pure
  case endCommand exitKind =>
    refine keeps_bind keeps_read fun hasStarted => ?_
    cases hasStarted
    · exact keeps_ofResult
    · refine keeps_bind later_restoreStart fun _ => ?_
      cases exitKind
      · exact later_panics
      · exact keeps_pure
  case panicCommand =>
    refine keeps_bind keeps_read fun hasStarted => ?_
    cases hasStarted
    · exact keeps_ofResult
    · exact keeps_bind later_restoreStart fun snapshotId =>
        keeps_bind (later_check snapshotId) fun _ => keeps_pure
  case releaseCommand =>
    refine keeps_bind keeps_read fun hasStarted => ?_
    cases hasStarted
    · exact keeps_pure
    · exact keeps_bind later_restoreStart fun _ => keeps_pure
  case getPayloadCommand inputStructLocation inputLocation =>
    exact keeps_bind (later_unwrap (later_setInputStructLocation inputStructLocation)) fun _ =>
      keeps_bind (later_unwrap (later_setInputLocation inputLocation)) fun _ => keeps_pure
  case setMapCommand | submitPanicCommand => exact later_panics
  case versionCommand | testCommand | submitCR3Command =>
    split
    · exact keeps_pure
    · exact keeps_ofResult
  case setAgentConfigCommand =>
    split
    · exact keeps_pure
    · exact later_panics
  all_goals exact keeps_pure

theorem later_postQemuExec (cfg : Vharness) (exitReason : EmulatorExitReason L) :
    (postQemuExec cfg exitReason : EmulatorCall V L _).Keeps Later := by
  rcases exitReason with cause | _ | _ | ⟨bpId, trigger⟩ | command
  · cases cause
    case hostSignal => exact keeps_ofResult
    case guestPanic => exact keeps_pure
    all_goals exact later_panics
  · exact keeps_pure
  · exact keeps_pure
  · refine keeps_bind keeps_ofResult fun command => ?_
    rcases command with _ | command
    · exact keeps_pure
    · exact later_runCommand cfg command
  · exact later_runCommand cfg command

theorem later_handleExit (cfg : Vharness) (guest : QemuRun V L) :
    (handleExit cfg guest).Keeps Later :=
  keeps_bind (keeps_bind (keeps_update fun _ => ⟨fun _ h => h, List.prefix_refl _, rfl⟩) fun _ =>
    keeps_ofResult) (later_postQemuExec cfg)

theorem later_runUntilOutcome (cfg : Vharness) (guests : List (QemuRun V L)) :
    (runUntilOutcome cfg guests).Keeps Later := by
  induction guests with
  | nil => exact later_panics
  | cons guest guests ih =>
      refine keeps_bind (later_handleExit cfg guest) fun outcome => ?_
      rcases outcome with _ | outcome
      · exact ih
      · exact keeps_pure

/-! ## What an outcome leaves -/

theorem check_leaves {emu : StdEmulator V L} {snapshotId : SnapshotId} (h : AtSnapshot emu emu) :
    (check snapshotId).Leaves emu fun _ emu' => AtSnapshot emu' emu' := by
  intro r emu' hrun
  rw [check, run_ofFn] at hrun
  split at hrun <;> cases hrun <;> exact h

/-- A command that has an outcome has taken the snapshot or restored it. -/
theorem runCommand_outcome {cfg : Vharness} {emu emu' : StdEmulator V L} {command : Command L}
    {outcome : EmulatorRunResult} (hcommand : command ≠ .userAbortCommand)
    (hrun : (runCommand cfg command).run emu = some (.ok (some outcome), emu')) :
    AtSnapshot emu' emu' := by
  cases command <;> simp only [runCommand] at hrun
  case startCommand inputLocation =>
    obtain ⟨started, emu₁, -, hrun⟩ := run_bind_eq_ok.mp hrun
    cases started
    · obtain ⟨_, emu₂, hsave, hrun⟩ := run_bind_eq_ok.mp hrun
      obtain ⟨_, emu₃, hset, hpure⟩ := run_bind_eq_ok.mp hrun
      cases hpure
      exact setInputLocation_leaves (saveStart_leaves _ _ hsave rfl) _ _ hset
    · cases hrun
  case nextPayloadCommand =>
    obtain ⟨started, emu₁, -, hrun⟩ := run_bind_eq_ok.mp hrun
    cases started
    · obtain ⟨_, emu₂, hsave, hpure⟩ := run_bind_eq_ok.mp hrun
      cases hpure
      exact saveStart_leaves _ _ hsave rfl
    · cases hrun
  case saveCommand =>
    obtain ⟨_, emu₁, -, hpure⟩ := run_bind_eq_ok.mp hrun
    cases hpure
  case loadCommand =>
    obtain ⟨_, emu₁, -, hpure⟩ := run_bind_eq_ok.mp hrun
    cases hpure
  case endCommand exitKind =>
    obtain ⟨hasStarted, emu₁, -, hrun⟩ := run_bind_eq_ok.mp hrun
    cases hasStarted
    · cases hrun
    · obtain ⟨snapshotId, emu₂, hrestore, hrun⟩ := run_bind_eq_ok.mp hrun
      cases exitKind
      · cases hrun
      · cases hrun
        exact restoreStart_leaves _ _ hrestore snapshotId rfl
  case panicCommand =>
    obtain ⟨hasStarted, emu₁, -, hrun⟩ := run_bind_eq_ok.mp hrun
    cases hasStarted
    · cases hrun
    · obtain ⟨snapshotId, emu₂, hrestore, hrun⟩ := run_bind_eq_ok.mp hrun
      obtain ⟨_, emu₃, hcheck, hpure⟩ := run_bind_eq_ok.mp hrun
      cases hpure
      exact check_leaves (restoreStart_leaves _ _ hrestore snapshotId rfl) _ _ hcheck
  case releaseCommand =>
    obtain ⟨hasStarted, emu₁, -, hrun⟩ := run_bind_eq_ok.mp hrun
    cases hasStarted
    · cases hrun
    · obtain ⟨snapshotId, emu₂, hrestore, hpure⟩ := run_bind_eq_ok.mp hrun
      cases hpure
      exact restoreStart_leaves _ _ hrestore snapshotId rfl
  case getPayloadCommand inputStructLocation inputLocation =>
    obtain ⟨_, emu₁, -, hrun⟩ := run_bind_eq_ok.mp hrun
    obtain ⟨_, emu₂, -, hpure⟩ := run_bind_eq_ok.mp hrun
    cases hpure
  case userAbortCommand => exact absurd rfl hcommand
  case versionCommand | testCommand | submitCR3Command | setAgentConfigCommand =>
    split at hrun <;> cases hrun
  all_goals cases hrun

/-- An exit that is none of those which do not restore has an outcome only with
the snapshot restored, except for a breakpoint without a command. -/
theorem handleExit_outcome {cfg : Vharness} {emu emu' : StdEmulator V L} {guest : QemuRun V L}
    {outcome : EmulatorRunResult}
    (hguest : ∀ exitReason, guest.exit = .ok exitReason → ¬Unrestored exitReason)
    (hrun : (handleExit cfg guest).run emu = some (.ok (some outcome), emu')) :
    (∃ bpId, outcome = .breakpoint bpId) ∨ AtSnapshot emu' emu' := by
  obtain ⟨exitReason, emu₁, hqemu, hrun⟩ := run_bind_eq_ok.mp hrun
  have hexit : guest.exit = .ok exitReason := by
    obtain ⟨_, emu₂, -, hresult⟩ := run_bind_eq_ok.mp hqemu
    exact (Prod.mk.inj (Option.some.inj hresult)).1
  have hunrestored := hguest exitReason hexit
  rcases exitReason with cause | _ | _ | ⟨bpId, trigger⟩ | command
  · rcases cause with signal | _ | _ | _ | _
    case guestPanic => exact absurd trivial hunrestored
    all_goals cases hrun
  · exact absurd trivial hunrestored
  · exact absurd trivial hunrestored
  · obtain ⟨command, emu₂, htrigger, hrun⟩ := run_bind_eq_ok.mp hrun
    rcases command with _ | command
    · cases hrun
      exact Or.inl ⟨bpId, rfl⟩
    · refine Or.inr (runCommand_outcome ?_ hrun)
      obtain rfl := (Prod.mk.inj (Option.some.inj htrigger)).1
      exact hunrestored
  · exact Or.inr (runCommand_outcome hunrestored hrun)

/-- The others have an outcome at once, of a run that is over. -/
theorem handleExit_unrestored {cfg : Vharness} {emu : StdEmulator V L} {guest : QemuRun V L}
    {exitReason : EmulatorExitReason L} (hexit : guest.exit = .ok exitReason)
    (h : Unrestored exitReason) :
    ∃ outcome, (handleExit cfg guest).run emu =
        some (.ok (some outcome), { emu with vm := guest.vm, restoredTo := none }) ∧
      ((∃ exitKind, outcome = .endOfRun exitKind) ∨ outcome = .shutdownRequest) := by
  have hqemu : (runQemu guest).run emu =
      some (.ok exitReason, { emu with vm := guest.vm, restoredTo := none }) := by
    unfold runQemu
    rw [run_bind_of_ok rfl, hexit]
    rfl
  unfold handleExit
  rw [run_bind_of_ok hqemu]
  rcases exitReason with cause | _ | _ | ⟨bpId, trigger⟩ | command
  · cases cause <;> simp only [Unrestored] at h
    exact ⟨_, rfl, Or.inl ⟨_, rfl⟩⟩
  · exact ⟨_, rfl, Or.inl ⟨_, rfl⟩⟩
  · exact ⟨_, rfl, Or.inl ⟨_, rfl⟩⟩
  · rcases trigger with e | _ | command
    · exact absurd h id
    · exact absurd h id
    · rcases h
      exact ⟨_, rfl, Or.inr rfl⟩
  · rcases h
    exact ⟨_, rfl, Or.inr rfl⟩

/-! ## What a run leaves -/

/-- The outcomes that are a result of the run. -/
def IsResult (outcome : EmulatorRunResult) : Prop :=
  (∃ exitKind, outcome = .endOfRun exitKind) ∨ outcome = .shutdownRequest

theorem runUntilOutcome_iff {cfg : Vharness} {guests : List (QemuRun V L)}
    {emu : StdEmulator V L} :
    ((runUntilOutcome cfg guests).Leaves emu fun r emu' =>
        ∀ outcome, r = .ok outcome → IsResult outcome → AtSnapshot emu' emu') ↔
      StopsRestored cfg guests emu := by
  induction guests generalizing emu with
  | nil => exact iff_of_true (fun _ _ hrun => by cases hrun) trivial
  | cons guest guests ih =>
      unfold runUntilOutcome StopsRestored
      constructor
      · refine fun h => ⟨fun exitReason hexit hunrestored => ?_, fun emu' hgo => ih.mp ?_⟩
        · obtain ⟨outcome, hrun, hresult⟩ := handleExit_unrestored hexit hunrestored
          exact not_atSnapshot rfl (h _ _ (run_bind_of_ok hrun) outcome rfl hresult)
        · intro r t hrun
          exact h r t ((run_bind_of_ok hgo).trans hrun)
      · rintro ⟨hguest, hgo⟩ r t hrun outcome rfl hresult
        obtain ⟨outcome', emu₁, hexit, hrest⟩ := run_bind_eq_ok.mp hrun
        rcases outcome' with _ | outcome'
        · exact ih.mpr (hgo emu₁ hexit) _ _ hrest outcome rfl hresult
        · cases hrest
          rcases handleExit_outcome hguest hexit with ⟨bpId, rfl⟩ | hat
          · rcases hresult with ⟨_, h⟩ | h <;> cases h
          · exact hat

/-- A run in which fuzzing starts ends at the snapshot, whatever has happened in it. -/
theorem runUntilOutcome_fuzzingStarts {cfg : Vharness} {guests : List (QemuRun V L)}
    {emu emu' : StdEmulator V L}
    (hrun : (runUntilOutcome cfg guests).run emu = some (.ok .fuzzingStarts, emu')) :
    AtSnapshot emu' emu' := by
  induction guests generalizing emu with
  | nil => cases hrun
  | cons guest guests ih =>
      obtain ⟨outcome, emu₁, hexit, hrest⟩ := run_bind_eq_ok.mp hrun
      rcases outcome with _ | outcome
      · exact ih hrest
      · cases hrest
        have hguest : ∀ exitReason, guest.exit = .ok exitReason → ¬Unrestored exitReason := by
          intro exitReason hok hunrestored
          obtain ⟨outcome, hrun', hresult⟩ := handleExit_unrestored hok hunrestored
          cases hexit.symm.trans hrun'
          rcases hresult with ⟨_, h⟩ | h <;> cases h
        rcases handleExit_outcome hguest hexit with ⟨bpId, h⟩ | hat
        · cases h
        · exact hat

/-! ## Runs -/

theorem start_restores (cfg : Vharness) (emu : StdEmulator V L) (guests : List (QemuRun V L)) :
    RunRestores cfg emu (.start guests) := by
  rintro r emu' hrun rfl
  obtain ⟨outcome, emu₁, houtcome, hrest⟩ := run_bind_eq_ok.mp hrun
  cases outcome
  case fuzzingStarts =>
    cases hrest
    have hat := runUntilOutcome_fuzzingStarts houtcome
    exact ⟨rfl, hat⟩
  all_goals cases hrest

theorem runInput_ok {cfg : Vharness} {emu : StdEmulator V L} {vm : V}
    {guests : List (QemuRun V L)} (h : emu.started = true) :
    (runInput cfg (.ok vm) guests).run emu =
      (runUntilOutcome cfg guests).run { emu with vm, restoredTo := none } := by
  unfold runInput
  rw [run_bind_of_ok (run_read _ _), if_neg (by simp [h])]
  rfl

theorem runInput_error {cfg : Vharness} {emu : StdEmulator V L} {e : EmulatorError}
    {guests : List (QemuRun V L)} (h : emu.started = true) :
    (runInput cfg (.error e) guests).run emu = some (.error e, emu) := by
  unfold runInput
  rw [run_bind_of_ok (run_read _ _), if_neg (by simp [h])]
  rfl

theorem runInput_not_started {cfg : Vharness} {emu : StdEmulator V L}
    {written : Except EmulatorError V} {guests : List (QemuRun V L)} (h : ¬emu.started = true) :
    (runInput cfg written guests).run emu = some (.error .notStartedYet, emu) := by
  unfold runInput
  rw [run_bind_of_ok (run_read _ _), if_pos (by simp [h])]
  rfl

theorem execInput_restores_iff {cfg : Vharness} {emu : StdEmulator V L}
    {written : Except EmulatorError V} {guests : List (QemuRun V L)} (h : HasSnapshot emu) :
    RunRestores cfg emu (.execInput written guests) ↔
      EndsByCommand cfg emu (.execInput written guests) := by
  simp only [RunRestores, EndsByCommand]
  by_cases hstarted : emu.started = true
  · rcases written with e | vm
    · refine iff_of_true (fun r emu' hrun exitKind hok => ?_) (fun _ vm hvm => by cases hvm)
      rw [execInput, run_bind, runInput_error hstarted] at hrun
      cases hrun
      cases hok
    · rw [imp_iff_right hstarted]
      have hinput (vm' : V) : (.ok vm : Except EmulatorError V) = .ok vm' ↔ vm = vm' := by simp
      simp only [hinput, forall_eq']
      rw [← runUntilOutcome_iff]
      constructor
      · rintro hrestores r t hrun outcome rfl hresult
        have hwhole : (execInput cfg (.ok vm) guests).run emu = _ :=
          run_bind_of_ok ((runInput_ok hstarted).trans hrun)
        rcases hresult with ⟨exitKind, rfl⟩ | rfl
        · exact (hrestores _ _ hwhole exitKind rfl).2.self
        · exact (hrestores _ _ hwhole .crash rfl).2.self
      · rintro hleaves r emu' hrun exitKind rfl
        obtain ⟨outcome, emu₁, hinput, hrest⟩ := run_bind_eq_ok.mp hrun
        rw [runInput_ok hstarted] at hinput
        obtain ⟨snapshotId, vm₀, hid, hvm⟩ := h hstarted
        have hlater := later_runUntilOutcome cfg guests _ _ _ hinput
        have hat (hresult : IsResult outcome) : AtSnapshot emu emu₁ :=
          .of_later (show Later emu emu₁ from hlater) hid hvm
            (hleaves _ _ hinput outcome rfl hresult)
        cases outcome
        case endOfRun exitKind' =>
          cases hrest
          exact ⟨hstarted, hat (Or.inl ⟨_, rfl⟩)⟩
        case shutdownRequest =>
          cases hrest
          exact ⟨hstarted, hat (Or.inr rfl)⟩
        all_goals cases hrest
  · refine iff_of_true (fun r emu' hrun exitKind hok => ?_) fun h => absurd h hstarted
    rw [execInput, run_bind, runInput_not_started hstarted] at hrun
    cases hrun
    cases hok

theorem restores_iff {cfg : Vharness} {emu : StdEmulator V L} {use : EmulatorUse V L}
    (h : HasSnapshot emu) : RunRestores cfg emu use ↔ EndsByCommand cfg emu use := by
  cases use with
  | start guests => exact iff_of_true (start_restores cfg emu guests) trivial
  | execInput written guests => exact execInput_restores_iff h

theorem later_execInput (cfg : Vharness) (written : Except EmulatorError V)
    (guests : List (QemuRun V L)) : (execInput cfg written guests).Keeps Later := by
  refine keeps_bind (keeps_bind keeps_read fun started => ?_) fun outcome => ?_
  · cases started
    · exact keeps_ofResult
    · exact keeps_bind keeps_ofResult fun vm =>
        keeps_bind (keeps_update fun _ => ⟨fun _ h => h, List.prefix_refl _, rfl⟩) fun _ =>
          later_runUntilOutcome cfg guests
  · cases outcome
    case endOfRun | shutdownRequest => exact keeps_pure
    all_goals exact keeps_ofResult

/-- A start that fails changes nothing that is kept. -/
theorem start_error {cfg : Vharness} {emu emu' : StdEmulator V L} {guests : List (QemuRun V L)}
    {e : EmulatorError} (hrun : (start cfg guests).run emu = some (.error e, emu')) :
    Later emu emu' := by
  unfold start at hrun
  rw [run_bind, Option.bind_eq_some_iff] at hrun
  obtain ⟨⟨r, emu₁⟩, houtcome, hrest⟩ := hrun
  have hlater : Later emu emu₁ := later_runUntilOutcome cfg guests _ _ _ houtcome
  rcases r with e' | outcome
  · cases hrest
    exact hlater
  · cases outcome <;> cases hrest <;> exact hlater

theorem hasSnapshot_step {cfg : Vharness} {emu emu' : StdEmulator V L} {use : EmulatorUse V L}
    (h : HasSnapshot emu) (hstep : step cfg emu use = some emu') : HasSnapshot emu' := by
  cases use with
  | start guests =>
      obtain ⟨⟨r, t⟩, hrun, rfl⟩ := Option.map_eq_some_iff.mp hstep
      rcases r with e | _
      · exact h.later (start_error hrun)
      · obtain ⟨-, snapshotId, vm, hid, hvm, -⟩ := start_restores cfg emu guests _ _ hrun rfl
        exact fun _ => ⟨snapshotId, vm, hid, hvm⟩
  | execInput written guests =>
      obtain ⟨⟨r, t⟩, hrun, rfl⟩ := Option.map_eq_some_iff.mp hstep
      exact h.later (later_execInput cfg written guests _ _ _ hrun)

/-- In every session, the VM is back at the snapshot after each run with a result
if and only if no run ends by an exit that QEMU reports on its own, or by an
abort. -/
theorem runsRestore_iff (cfg : Vharness) (vm : V) (uses : List (EmulatorUse V L)) :
    StepsMeet (step cfg) (new vm) uses (RunRestores cfg) ↔
      StepsMeet (step cfg) (new vm) uses (EndsByCommand cfg) :=
  stepsMeet_congr HasSnapshot (fun h => by cases h) (fun _ _ _ h => restores_iff h)
    fun _ _ _ _ h _ => hasSnapshot_step h

/-- The guest saves the snapshot in its start, and crashes in the first run. -/
theorem not_runsRestore_crash :
    ¬StepsMeet (step ⟨0, 0, 0, 0⟩) (new (V := Nat) (L := Unit) 0)
      [.start [⟨1, .ok (.customInsn (.startCommand ()))⟩], .execInput (.ok 2) [⟨3, .ok .crash⟩]]
      (RunRestores ⟨0, 0, 0, 0⟩) := by
  intro h
  rw [stepsMeet_cons] at h
  have hrun := h.2 ⟨true, true, some 0, some (), none, [1], 1, some 0⟩ rfl
  rw [stepsMeet_cons] at hrun
  exact not_atSnapshot rfl (hrun.1 (.ok .crash)
    ⟨true, true, some 0, some (), none, [1], 3, none⟩ rfl .crash rfl).2.self

end StdEmulator

end Libaflmm
