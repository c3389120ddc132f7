import Libaflmm.Calls
import Libaflmm.Runs
import Libaflmm.ShmChannel
import Libaflmm.StdFuzzer

/-!
# The client of a forkserver

The client asks for a run with a control word, which tells whether it has killed
the child of the last run. The forkserver answers with the pid of the child and,
when the child is done, with its wait status. The child of a persistent target
stops instead of exiting, and goes on in the next run.

Between runs the client keeps whether the last run timed out, the last status
that came in time, and the pid of the child. After a run that timed out it goes
by the status of an earlier run to tell whether there still is a child, and it
takes the signal that stopped a child for the exit code of one that exited.
-/

namespace Libaflmm

open Call

/-! ## Wait statuses -/

abbrev Word := BitVec 32

/-- The macros of the C library. -/
def wexitstatus (status : Word) : Word := status.sshiftRight 8 &&& 0xff

def wifsignaled (status : Word) : Bool := 2 ≤ (((status &&& 0x7f) + 1).setWidth 8).toInt

def wifstopped (status : Word) : Bool := status &&& 0xff = 0x7f

/-- How a child is found by `waitpid`. -/
inductive WaitStatus where
  | exited (code : BitVec 8)
  | signaled (sig : { n : Fin 65 // n ≠ 0 }) (core : Bool)
  | stopped (sig : { n : Fin 65 // n ≠ 0 })

namespace WaitStatus

def encode : WaitStatus → Word
  | .exited code => code.setWidth 32 <<< 8
  | .signaled sig core => BitVec.ofNat 32 sig.val ||| if core then 0x80 else 0
  | .stopped sig => BitVec.ofNat 32 sig.val <<< 8 ||| 0x7f

def isSignaled : WaitStatus → Bool
  | .signaled _ _ => true
  | _ => false

def isStopped : WaitStatus → Bool
  | .stopped _ => true
  | _ => false

def exitcode? : WaitStatus → Option (BitVec 8)
  | .exited code => some code
  | _ => none

theorem wifsignaled_encode (status : WaitStatus) :
    wifsignaled status.encode = status.isSignaled := by
  cases status with
  | exited code => revert code; decide +kernel
  | signaled sig core =>
      rcases sig with ⟨sig, hsig⟩
      revert core sig
      decide +kernel
  | stopped sig =>
      rcases sig with ⟨sig, hsig⟩
      revert sig
      decide +kernel

theorem wifstopped_encode (status : WaitStatus) :
    wifstopped status.encode = status.isStopped := by
  cases status with
  | exited code => revert code; decide +kernel
  | signaled sig core =>
      rcases sig with ⟨sig, hsig⟩
      revert core sig
      decide +kernel
  | stopped sig =>
      rcases sig with ⟨sig, hsig⟩
      revert sig
      decide +kernel

theorem wexitstatus_exited (code : BitVec 8) :
    (wexitstatus (exited code).encode).setWidth 8 = code := by
  revert code
  decide +kernel

theorem wexitstatus_stopped (sig : { n : Fin 65 // n ≠ 0 }) :
    (wexitstatus (stopped sig).encode).setWidth 8 = BitVec.ofNat 8 sig.val := by
  rcases sig with ⟨sig, hsig⟩
  revert sig
  decide +kernel

end WaitStatus

/-! ## The channel -/

/-- A silence is longer than the timeout. -/
inductive StEvent where
  | word (val : Word)
  | silence

/-- `st` is what is still to be read from the status pipe, and `ctl` what has
been written to the control pipe. -/
structure ForkserverChannel where
  childPid : Option Word
  status : Word
  lastRunTimedOut : Word
  st : List StEvent
  ctl : List Word

namespace ForkserverChannel

def new : ForkserverChannel := ⟨none, 0, 0, [], []⟩

def setLastRunTimedOut (lastRunTimedOut : Bool) : Call Error ForkserverChannel Unit :=
  update fun c => { c with lastRunTimedOut := if lastRunTimedOut then 1 else 0 }

/-- A read waits as long as it takes. -/
def nextWord : List StEvent → Option (Word × List StEvent)
  | [] => none
  | .silence :: st => nextWord st
  | .word val :: st => some (val, st)

/-- The pipe ends if the forkserver has nothing more to say. -/
def readSt : Call Error ForkserverChannel Word :=
  ofFn fun c =>
    match nextWord c.st with
    | some (val, st) => some (.ok val, { c with st })
    | none => some (.error (.illegalState
        "Could not read from st pipe. Expected 4 bytes, got 0 bytes"), c)

def readStTimeout : Call Error ForkserverChannel (Option Word) :=
  ofFn fun c =>
    match c.st with
    | .word val :: st => some (.ok (some val), { c with st })
    | .silence :: st => some (.ok none, { c with st })
    | [] => some (.error (.runtime "Unable to communicate with fork server (OOM?)"), c)

end ForkserverChannel

/-- What the forkserver answers in a run: the pid of the child, and how it was
found, in time or when it was killed. -/
structure ForkserverReply where
  pid : { pid : Word // 0 < pid.toInt }
  status : WaitStatus
  inTime : Bool

namespace ForkserverReply

/-- The answer to the control word. -/
def toCtl (reply : ForkserverReply) : List StEvent :=
  .word reply.pid :: if reply.inTime then [.word reply.status.encode] else [.silence]

/-- The answer when the child is killed. -/
def toKill (reply : ForkserverReply) : List StEvent :=
  if reply.inTime then [] else [.word reply.status.encode]

end ForkserverReply

namespace ForkserverChannel

def writeCtl (reply : ForkserverReply) (val : Word) : Call Error ForkserverChannel Unit :=
  update fun c => { c with ctl := c.ctl ++ [val], st := c.st ++ reply.toCtl }

def kill (reply : ForkserverReply) : Call Error ForkserverChannel Unit :=
  update fun c =>
    match c.childPid with
    | some _ => { c with st := c.st ++ reply.toKill }
    | none => c

end ForkserverChannel

/-! ## The executor -/

/-- Where the target reads the input from. -/
inductive TestcaseSink where
  | file (contents : List UInt8)
  | shmem (shm : SharedMemory)

structure ForkserverSettings where
  minInputSize : Nat
  maxInputSize : Nat
  crashExitcode : Option (BitVec 8)

structure ForkserverExecutor where
  forkserver : ForkserverChannel
  sink : TestcaseSink

namespace ForkserverExecutor

def onForkserver {α : Type} (x : Call Error ForkserverChannel α) :
    Call Error ForkserverExecutor α :=
  on forkserver (fun forkserver self => { self with forkserver }) x.run

/-- The errors of the channel are wrapped. -/
def orRuntime {α : Type} (message : String) (x : Call Error ForkserverExecutor α) :
    Call Error ForkserverExecutor α :=
  ofFn fun self => (x.run self).map fun (r, self) => (r.mapError fun _ => .runtime message, self)

/-- The size of the shared memory is a number of 32 bits. -/
def mapInputToShmem (input : List UInt8) : Call Error ForkserverExecutor Unit :=
  ofFn fun self =>
    match self.sink with
    | .file _ => some (.ok (), { self with sink := .file input })
    | .shmem shm =>
      if shm.data.length < input.length then
        some (.error (.runtime (s!"Shm has at most {shm.data.length} bytes, " ++
          s!"but data to write is {input.length} bytes long.")), self)
      else
        (SharedMemory.setSize (2 ^ 32 - 1) { shm with data := overwrite input shm.data }
          input.length).map fun shm => (.ok (), { self with sink := .shmem shm })

/-- What is given to the target: truncated, or padded with zeros. -/
def testcase (cfg : ForkserverSettings) (input : List UInt8) : List UInt8 :=
  if cfg.maxInputSize < input.length then input.take cfg.maxInputSize
  else if input.length < cfg.minInputSize then
    input ++ List.replicate (cfg.minInputSize - input.length) 0
  else input

def exitcodeIsCrash (cfg : ForkserverSettings) (status : Word) : Bool :=
  match cfg.crashExitcode with
  | some crashExitcode => (wexitstatus status).setWidth 8 = crashExitcode
  | none => false

def heedStatus (cfg : ForkserverSettings) (status : Word) :
    Call Error ForkserverExecutor ExitKind := do
  onForkserver (update fun c => { c with status })
  pure (if wifsignaled status || exitcodeIsCrash cfg status then .crash else .ok)

def killChild (reply : ForkserverReply) : Call Error ForkserverExecutor ExitKind := do
  onForkserver (ForkserverChannel.setLastRunTimedOut true)
  onForkserver (ForkserverChannel.kill reply)
  let _ ← orRuntime "Could not kill timed-out child" (onForkserver ForkserverChannel.readSt)
  pure .timeout

def executeInput (cfg : ForkserverSettings) (reply : ForkserverReply) (input : List UInt8) :
    Call Error ForkserverExecutor ExitKind := do
  let lastRunTimedOut ← read fun self => self.forkserver.lastRunTimedOut
  mapInputToShmem (testcase cfg input)
  onForkserver (ForkserverChannel.setLastRunTimedOut false)
  orRuntime "Unable to request new process from fork server (OOM?)"
    (onForkserver (ForkserverChannel.writeCtl reply lastRunTimedOut))
  let pid ← orRuntime "Unable to request new process from fork server (OOM?)"
    (onForkserver ForkserverChannel.readSt)
  if pid.toInt ≤ 0 then ofResult (.error (.runtime "Fork server is misbehaving (OOM?)"))
  else do
    onForkserver (update fun c => { c with childPid := some pid })
    let status ← onForkserver ForkserverChannel.readStTimeout
    let exitKind ← status.elim (killChild reply) (heedStatus cfg)
    onForkserver (update fun c =>
      { c with childPid := if wifstopped c.status then c.childPid else none })
    pure exitKind

/-- The target gets the input, which is too long for the memory otherwise. -/
def Fits (cfg : ForkserverSettings) (self : ForkserverExecutor) (input : List UInt8) : Prop :=
  match self.sink with
  | .file _ => True
  | .shmem shm => (testcase cfg input).length ≤ min shm.data.length (2 ^ 32 - 1)

variable {cfg : ForkserverSettings} {reply : ForkserverReply} {input : List UInt8}
  {self : ForkserverExecutor}

theorem mapInputToShmem_fits (h : self.Fits cfg input) :
    ∃ sink, (mapInputToShmem (testcase cfg input)).run self =
      some (.ok (), { self with sink }) := by
  unfold mapInputToShmem Fits at *
  rw [run_ofFn]
  rcases hsink : self.sink with contents | shm
  · exact ⟨_, rfl⟩
  · rw [hsink] at h
    rcases Nat.le_min.mp h with ⟨hdata, hsize⟩
    simp only [if_neg (Nat.not_lt.mpr hdata), SharedMemory.setSize, if_pos hsize, Option.map_some]
    exact ⟨_, rfl⟩

theorem mapInputToShmem_not_fits (h : ¬self.Fits cfg input) :
    (mapInputToShmem (testcase cfg input)).Leaves self
      fun r t => (∃ e, r = .error e) ∧ t = self := by
  unfold mapInputToShmem Fits Leaves at *
  intro r t hrun
  rw [run_ofFn] at hrun
  rcases hsink : self.sink with contents | shm <;> rw [hsink] at h
  · exact absurd trivial h
  · simp only [hsink, SharedMemory.setSize] at hrun
    split_ifs at hrun with hdata hsize
    · cases hrun
      exact ⟨⟨_, rfl⟩, rfl⟩
    · exact absurd (Nat.le_min.mpr ⟨Nat.not_lt.mp hdata, hsize⟩) h
    · cases hrun

@[simp] theorem run_onForkserver {α : Type} (x : Call Error ForkserverChannel α) :
    (onForkserver x).run self =
      (x.run self.forkserver).map fun (r, forkserver) => (r, { self with forkserver }) := rfl

@[simp] theorem run_orRuntime {α : Type} (message : String)
    (x : Call Error ForkserverExecutor α) :
    (orRuntime message x).run self =
      (x.run self).map fun (r, self) => (r.mapError fun _ => .runtime message, self) := rfl

/-- What the client keeps when the child is done. -/
theorem executeInput_fits (reply : ForkserverReply) (h : self.Fits cfg input)
    (hst : self.forkserver.st = []) :
    ∃ sink, (executeInput cfg reply input).run self = some
      (.ok (if reply.inTime then
          if reply.status.isSignaled || exitcodeIsCrash cfg reply.status.encode then .crash else .ok
        else .timeout),
      { forkserver :=
          { childPid :=
              if wifstopped (if reply.inTime then reply.status.encode else self.forkserver.status)
                then some reply.pid.val else none
            status := if reply.inTime then reply.status.encode else self.forkserver.status
            lastRunTimedOut := if reply.inTime then 0 else 1
            st := []
            ctl := self.forkserver.ctl ++ [self.forkserver.lastRunTimedOut] }
        sink }) := by
  obtain ⟨sink, hmap⟩ := mapInputToShmem_fits h
  refine ⟨sink, ?_⟩
  rcases self with ⟨⟨childPid, status, timedOut, st, ctl⟩, sink₀⟩
  obtain rfl : st = [] := hst
  rcases reply with ⟨pid, reply, _ | _⟩ <;> unfold executeInput <;>
    rw [run_bind_of_ok (run_read _ _), run_bind_of_ok hmap, run_bind_of_ok rfl,
      run_bind_of_ok rfl, run_bind_of_ok rfl, if_neg (Int.not_le.mpr pid.property),
      run_bind_of_ok rfl, run_bind_of_ok rfl]
  · rw [run_bind_of_ok rfl]
    rfl
  · rw [run_bind_of_ok rfl, ← WaitStatus.wifsignaled_encode]
    rfl

/-- An input that does not fit is refused before anything is asked for. -/
theorem executeInput_not_fits (h : ¬self.Fits cfg input) :
    (executeInput cfg reply input).Leaves self fun r t => (∃ e, r = .error e) ∧ t = self := by
  unfold executeInput
  simp only [leaves_bind, leaves_read]
  refine (mapInputToShmem_not_fits h).mono fun r t hr => ?_
  rcases hr with ⟨⟨e, rfl⟩, rfl⟩
  exact ⟨⟨e, rfl⟩, rfl⟩

end ForkserverExecutor

/-! ## Runs -/

/-- `timedOut` is whether the last child that was asked for was late. -/
structure ForkserverSession where
  executor : ForkserverExecutor
  timedOut : Bool

namespace ForkserverSession

variable (cfg : ForkserverSettings)

def new (sink : TestcaseSink) : ForkserverSession := ⟨⟨.new, sink⟩, false⟩

def step (t : ForkserverSession) (call : List UInt8 × ForkserverReply) :
    Option ForkserverSession :=
  ((ForkserverExecutor.executeInput cfg call.2 call.1).run t.executor).map fun
    | (.ok _, executor) => ⟨executor, !call.2.inTime⟩
    | (.error _, executor) => ⟨executor, t.timedOut⟩

/-- The control word is 1 if the last child was late, everything that the
forkserver answers is read, and the result and the pid that is kept are as the
child was found. An input that is refused is not seen by the forkserver. -/
def RunExact (t : ForkserverSession) (call : List UInt8 × ForkserverReply) : Prop :=
  (ForkserverExecutor.executeInput cfg call.2 call.1).Leaves t.executor fun r executor =>
    match r with
    | .error _ => executor.forkserver = t.executor.forkserver
    | .ok exitKind =>
      executor.forkserver.ctl = t.executor.forkserver.ctl ++ [if t.timedOut then 1 else 0] ∧
      executor.forkserver.st = [] ∧
      (exitKind = .timeout ↔ ¬call.2.inTime) ∧
      (exitKind = .crash ↔ call.2.inTime ∧ (call.2.status.isSignaled ∨
        ∃ code, call.2.status.exitcode? = some code ∧ cfg.crashExitcode = some code)) ∧
      executor.forkserver.childPid =
        if call.2.status.isStopped then some call.2.pid.val else none

/-- A child that stops does so with another signal than the crash exit code, and
one that is late is alive as the last one that was in time. -/
def StatusHeeded (t : ForkserverSession) (call : List UInt8 × ForkserverReply) : Prop :=
  t.executor.Fits cfg call.1 →
    if call.2.inTime then
      ∀ sig, call.2.status = .stopped sig → cfg.crashExitcode ≠ some (.ofNat 8 sig.val)
    else wifstopped t.executor.forkserver.status = call.2.status.isStopped

variable {cfg} {t t' : ForkserverSession} {call : List UInt8 × ForkserverReply}

/-- Between two runs there is nothing to be read, and the flag that is sent next
is about the last child. -/
structure InStep (t : ForkserverSession) : Prop where
  read : t.executor.forkserver.st = []
  flag : t.executor.forkserver.lastRunTimedOut = if t.timedOut then 1 else 0

theorem inStep_new (sink : TestcaseSink) : InStep (new sink) := ⟨rfl, rfl⟩

theorem inStep_step (h : InStep t) (hstep : step cfg t call = some t') : InStep t' := by
  unfold step at hstep
  by_cases hfits : t.executor.Fits cfg call.1
  · obtain ⟨sink, hrun⟩ := ForkserverExecutor.executeInput_fits call.2 hfits h.read
    rw [hrun] at hstep
    obtain rfl := Option.some.inj hstep
    refine ⟨rfl, ?_⟩
    rcases hreply : call.2.inTime <;> rfl
  · rcases hrun : (ForkserverExecutor.executeInput cfg call.2 call.1).run t.executor
      with _ | ⟨r, executor⟩ <;> rw [hrun] at hstep
    · cases hstep
    · rcases ForkserverExecutor.executeInput_not_fits hfits r executor hrun with ⟨⟨e, rfl⟩, rfl⟩
      obtain rfl := Option.some.inj hstep
      exact h

/-- What is taken for the exit code of a child that has stopped is the signal. -/
theorem crash_iff {status : WaitStatus} :
    ((status.isSignaled || ForkserverExecutor.exitcodeIsCrash cfg status.encode) = true ↔
      status.isSignaled ∨
        ∃ code, status.exitcode? = some code ∧ cfg.crashExitcode = some code) ↔
    ∀ sig, status = .stopped sig → cfg.crashExitcode ≠ some (.ofNat 8 sig.val) := by
  unfold ForkserverExecutor.exitcodeIsCrash
  rcases hcrash : cfg.crashExitcode with _ | crashExitcode
  · simp
  · rcases status with code | ⟨sig, core⟩ | sig
    · simp [WaitStatus.isSignaled, WaitStatus.exitcode?, WaitStatus.wexitstatus_exited, eq_comm]
    · simp [WaitStatus.isSignaled]
    · simp [WaitStatus.isSignaled, WaitStatus.exitcode?, WaitStatus.wexitstatus_stopped, eq_comm]

theorem runExact_iff (h : InStep t) : RunExact cfg t call ↔ StatusHeeded cfg t call := by
  by_cases hfits : t.executor.Fits cfg call.1
  · obtain ⟨sink, hrun⟩ := ForkserverExecutor.executeInput_fits call.2 hfits h.read
    have hctl : t.executor.forkserver.ctl ++ [t.executor.forkserver.lastRunTimedOut] =
        t.executor.forkserver.ctl ++ [if t.timedOut then 1 else 0] := by rw [h.flag]
    unfold RunExact StatusHeeded
    rw [leaves_of_run hrun, imp_iff_right hfits]
    rcases call with ⟨input, pid, status, _ | _⟩
    · simp only [hctl, Bool.false_eq_true, if_false, true_and, not_false_eq_true, false_and]
      simp only [reduceCtorEq, true_and]
      rcases wifstopped t.executor.forkserver.status <;> rcases status.isStopped <;> simp
    · simp only [hctl, if_true, true_and, not_true, iff_false]
      rw [WaitStatus.wifstopped_encode, ← crash_iff]
      rcases status.isSignaled || ForkserverExecutor.exitcodeIsCrash cfg status.encode <;> simp
  · refine iff_of_true ?_ fun hfits' => absurd hfits' hfits
    refine (ForkserverExecutor.executeInput_not_fits hfits).mono fun r executor hr => ?_
    rcases hr with ⟨⟨e, rfl⟩, rfl⟩
    rfl

/-- Whatever the children do, and whichever inputs are given, the client is in
step with the forkserver if and only if the signals that stop a child are not the
crash exit code, and a late child is alive as the last one that was in time. -/
theorem runsExact_iff (sink : TestcaseSink) (calls : List (List UInt8 × ForkserverReply)) :
    StepsMeet (step cfg) (new sink) calls (RunExact cfg) ↔
      StepsMeet (step cfg) (new sink) calls (StatusHeeded cfg) :=
  stepsMeet_congr InStep (inStep_new sink) (fun _ _ _ h => runExact_iff h)
    fun _ _ _ _ h _ => inStep_step h

/-- A persistent child stops, and is late and killed in the next run: the client
goes by the stop, and keeps the pid of a child that is no more. -/
theorem not_runsExact_killed_child :
    ¬StepsMeet (step ⟨1, 1024, none⟩) (new (.file []))
      [([0x61], ⟨⟨100, by decide⟩, .stopped ⟨19, by decide⟩, true⟩),
        ([0x62], ⟨⟨100, by decide⟩, .signaled ⟨9, by decide⟩ false, false⟩)]
      (RunExact ⟨1, 1024, none⟩) := by
  intro h
  rw [stepsMeet_cons] at h
  have hlate := h.2 ⟨⟨⟨some 100, 0x137f, 0, [], [0]⟩, .file [0x61]⟩, false⟩ rfl
  rw [stepsMeet_cons] at hlate
  have hheeded : wifstopped 0x137f = (WaitStatus.signaled ⟨9, by decide⟩ false).isStopped :=
    (runExact_iff ⟨rfl, rfl⟩).mp hlate.1 trivial
  exact absurd hheeded (by decide)

end ForkserverSession

end Libaflmm
