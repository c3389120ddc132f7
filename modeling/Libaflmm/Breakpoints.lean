import Libaflmm.HashTables
import Libaflmm.Runs

/-!
# Breakpoints of an emulator

The emulator has its breakpoints in two tables, by their addresses and by their
ids, and each table has a copy of its own. What is hit is a third copy, so a
breakpoint that is disabled when it is hit stays enabled in the tables: it is
removed from QEMU a second time when it is removed.

What panics is `none`. QEMU has the breakpoints that were set and not removed;
`calls` is what it was asked for. A hit is of an address where QEMU has one.
-/

namespace Libaflmm

namespace Breakpoints

inductive QemuCall where
  | setBreakpoint (addr : Nat)
  | removeBreakpoint (addr : Nat)
  deriving DecidableEq

structure Qemu where
  breakpoints : List Nat
  calls : List QemuCall

namespace Qemu

def setBreakpoint (qemu : Qemu) (addr : Nat) : Qemu :=
  ⟨addr :: qemu.breakpoints, qemu.calls ++ [.setBreakpoint addr]⟩

def removeBreakpoint (qemu : Qemu) (addr : Nat) : Qemu :=
  ⟨qemu.breakpoints.erase addr, qemu.calls ++ [.removeBreakpoint addr]⟩

end Qemu

/-- `F` has the callbacks. -/
structure Breakpoint (F : Type) where
  id : Nat
  addr : Nat
  cmdCb : Option F
  disableOnTrigger : Bool
  enabled : Bool

variable {F C E : Type}

namespace Breakpoint

def enable (bp : Breakpoint F) (qemu : Qemu) : Breakpoint F × Qemu :=
  if !bp.enabled then ({ bp with enabled := true }, qemu.setBreakpoint bp.addr) else (bp, qemu)

def disable (bp : Breakpoint F) (qemu : Qemu) : Breakpoint F × Qemu :=
  if bp.enabled then ({ bp with enabled := false }, qemu.removeBreakpoint bp.addr) else (bp, qemu)

def trigger (call : F → Except E C) (bp : Breakpoint F) (qemu : Qemu) :
    Except E (Option C) × Breakpoint F × Qemu :=
  let (bp, qemu) := if bp.disableOnTrigger then bp.disable qemu else (bp, qemu)
  match bp.cmdCb with
  | some cmdCb => ((call cmdCb).map some, bp, qemu)
  | none => (.ok none, bp, qemu)

end Breakpoint

structure Emulator (F : Type) where
  breakpointsByAddr : HashMap Nat (Breakpoint F)
  breakpointsById : HashMap Nat (Breakpoint F)
  qemu : Qemu

inductive HitError (E : Type) where
  | breakpointNotFound (bpAddr : Nat)
  | callback (e : E)

inductive HitOutcome (C : Type) where
  | command (command : C)
  | breakpoint (bpId : Nat)

namespace Emulator

def new : Emulator F := ⟨∅, ∅, ⟨[], []⟩⟩

def addBreakpoint (self : Emulator F) (bp : Breakpoint F) (enable : Bool) : Option (Emulator F) :=
  let (bp, qemu) := if enable then bp.enable self.qemu else (bp, self.qemu)
  if (self.breakpointsByAddr.lookup bp.addr).isSome then none
  else if (self.breakpointsById.lookup bp.id).isSome then none
  else some ⟨AList.insert bp.addr bp self.breakpointsByAddr,
    AList.insert bp.id bp self.breakpointsById, qemu⟩

def removeBreakpoint (self : Emulator F) (bpId : Nat) : Option (Emulator F) :=
  match self.breakpointsById.lookup bpId with
  | none => none
  | some bp =>
    let (bp, qemu) := bp.disable self.qemu
    if (self.breakpointsByAddr.lookup bp.addr).isSome then
      some ⟨self.breakpointsByAddr.erase bp.addr, self.breakpointsById.erase bpId, qemu⟩
    else none

/-- `run_qemu`, when QEMU stops at a breakpoint, and `post_qemu_exec`. -/
def hitBreakpoint (call : F → Except E C) (self : Emulator F) (bpAddr : Nat) :
    Except (HitError E) (HitOutcome C) × Emulator F :=
  match self.breakpointsByAddr.lookup bpAddr with
  | none => (.error (.breakpointNotFound bpAddr), self)
  | some bp =>
    match bp.trigger call self.qemu with
    | (.error e, _, qemu) => (.error (.callback e), { self with qemu })
    | (.ok (some command), _, qemu) => (.ok (.command command), { self with qemu })
    | (.ok none, _, qemu) => (.ok (.breakpoint bp.id), { self with qemu })

end Emulator

/-- A hit with what the callbacks answer then. -/
inductive BreakpointUse (F C E : Type) where
  | add (bp : Breakpoint F) (enable : Bool)
  | remove (bpId : Nat)
  | hit (bpAddr : Nat) (call : F → Except E C)

def step (s : Emulator F) : BreakpointUse F C E → Option (Emulator F)
  | .add bp enable => s.addBreakpoint bp enable
  | .remove bpId => s.removeBreakpoint bpId
  | .hit bpAddr call =>
    if bpAddr ∈ s.qemu.breakpoints then some (s.hitBreakpoint call bpAddr).2 else none

/-! ## What the tables say -/

/-- The tables have the same breakpoints, and those that are enabled are set in
QEMU, which was not asked to remove more than was set. -/
structure MatchesQemu (s : Emulator F) : Prop where
  byAddr : ∀ addr bp, s.breakpointsByAddr.lookup addr = some bp →
    bp.addr = addr ∧ s.breakpointsById.lookup bp.id = some bp
  byId : ∀ id bp, s.breakpointsById.lookup id = some bp →
    bp.id = id ∧ s.breakpointsByAddr.lookup bp.addr = some bp
  enabled : ∀ id bp, s.breakpointsById.lookup id = some bp →
    (bp.enabled = true ↔ bp.addr ∈ s.qemu.breakpoints)
  removed : ∀ addr, s.qemu.calls.count (.removeBreakpoint addr) ≤
    s.qemu.calls.count (.setBreakpoint addr)

/-- A breakpoint that is new to the tables is not enabled yet, and none is
disabled by being hit. -/
def KeepsFlags (s : Emulator F) : BreakpointUse F C E → Prop
  | .add bp _ => s.breakpointsByAddr.lookup bp.addr = none →
      s.breakpointsById.lookup bp.id = none → bp.enabled = false
  | .remove _ => True
  | .hit bpAddr _ => bpAddr ∈ s.qemu.breakpoints →
      ∀ bp, s.breakpointsByAddr.lookup bpAddr = some bp → bp.disableOnTrigger = false

/-- How many breakpoints QEMU should have at an address. -/
def expected (s : Emulator F) (addr : Nat) : Nat :=
  (s.breakpointsByAddr.lookup addr).elim 0 fun bp => bp.enabled.toNat

/-- What was set was removed, or is there still. -/
def Qemu.Balanced (qemu : Qemu) : Prop :=
  ∀ addr, qemu.calls.count (.removeBreakpoint addr) + qemu.breakpoints.count addr =
    qemu.calls.count (.setBreakpoint addr)

structure Accounted (s : Emulator F) : Prop where
  byAddr : ∀ addr bp, s.breakpointsByAddr.lookup addr = some bp →
    bp.addr = addr ∧ s.breakpointsById.lookup bp.id = some bp
  byId : ∀ id bp, s.breakpointsById.lookup id = some bp →
    bp.id = id ∧ s.breakpointsByAddr.lookup bp.addr = some bp
  set : ∀ addr, s.qemu.breakpoints.count addr = expected s addr
  balanced : s.qemu.Balanced

/-! ## Flags -/

theorem enable_eq (bp : Breakpoint F) (qemu : Qemu) : bp.enable qemu =
    ({ bp with enabled := true }, if bp.enabled then qemu else qemu.setBreakpoint bp.addr) := by
  obtain ⟨id, addr, cmdCb, disableOnTrigger, enabled⟩ := bp
  cases enabled <;> rfl

theorem disable_eq (bp : Breakpoint F) (qemu : Qemu) : bp.disable qemu =
    ({ bp with enabled := false }, if bp.enabled then qemu.removeBreakpoint bp.addr else qemu) := by
  obtain ⟨id, addr, cmdCb, disableOnTrigger, enabled⟩ := bp
  cases enabled <;> rfl

/-! ## Calls of QEMU -/

theorem count_setBreakpoint (qemu : Qemu) (a addr : Nat) :
    (qemu.setBreakpoint a).breakpoints.count addr =
      qemu.breakpoints.count addr + if addr = a then 1 else 0 := by
  simp only [Qemu.setBreakpoint, List.count_cons, beq_iff_eq, @eq_comm _ a addr]

theorem count_removeBreakpoint (qemu : Qemu) (a addr : Nat) :
    (qemu.removeBreakpoint a).breakpoints.count addr =
      qemu.breakpoints.count addr - if addr = a then 1 else 0 := by
  simp only [Qemu.removeBreakpoint, List.count_erase, beq_iff_eq, @eq_comm _ a addr]

theorem balanced_setBreakpoint {qemu : Qemu} (h : qemu.Balanced) (a : Nat) :
    (qemu.setBreakpoint a).Balanced := by
  intro addr
  have hbefore := h addr
  rw [count_setBreakpoint]
  simp only [Qemu.setBreakpoint, List.count_append, List.count_singleton, beq_iff_eq,
    QemuCall.setBreakpoint.injEq, reduceCtorEq, if_false]
  split <;> split <;> omega

theorem balanced_removeBreakpoint {qemu : Qemu} (h : qemu.Balanced) {a : Nat}
    (ha : a ∈ qemu.breakpoints) : (qemu.removeBreakpoint a).Balanced := by
  intro addr
  have hbefore := h addr
  have hpos := List.count_pos_iff.mpr ha
  rw [count_removeBreakpoint]
  simp only [Qemu.removeBreakpoint, List.count_append, List.count_singleton, beq_iff_eq,
    QemuCall.removeBreakpoint.injEq, reduceCtorEq, if_false]
  split
  · next heq =>
      subst heq
      rw [if_pos rfl]
      omega
  · next hne =>
      rw [if_neg (Ne.symm hne)]
      omega

/-! ## What holds of the tables -/

theorem accounted_new : Accounted (Emulator.new : Emulator F) := by
  refine ⟨nofun, nofun, fun addr => rfl, fun addr => rfl⟩

theorem matchesQemu_of_accounted {s : Emulator F} (h : Accounted s) : MatchesQemu s := by
  refine ⟨h.byAddr, h.byId, fun id bp hbp => ?_, fun addr => ?_⟩
  · have hcount := h.set bp.addr
    rw [expected, (h.byId id bp hbp).2, Option.elim_some] at hcount
    rw [← List.count_pos_iff, hcount]
    cases bp.enabled <;> simp
  · exact Nat.le.intro (h.balanced addr)

/-! ## Two tables -/

section

variable {V : Type} {key other : V → Nat} {t u : HashMap Nat V} {v : V}

/-- What is put into both tables is in the other one too. -/
theorem mirrored_insert
    (h : ∀ k v, t.lookup k = some v → key v = k ∧ u.lookup (other v) = some v)
    (hnew : u.lookup (other v) = none) (k : Nat) (v' : V)
    (h' : (AList.insert (key v) v t).lookup k = some v') :
    key v' = k ∧ (AList.insert (other v) v u).lookup (other v') = some v' := by
  rw [HashMap.lookup_insert] at h' ⊢
  split at h'
  · next heq =>
      cases h'
      exact ⟨heq.symm, if_pos rfl⟩
  · obtain ⟨hkey, hother⟩ := h k v' h'
    refine ⟨hkey, ?_⟩
    rw [if_neg ?_]
    · exact hother
    · intro heq
      rw [heq, hnew] at hother
      cases hother

theorem mirrored_erase
    (h : ∀ k v, t.lookup k = some v → key v = k ∧ u.lookup (other v) = some v)
    (hold : u.lookup (other v) = some v) (k : Nat) (v' : V)
    (h' : (t.erase (key v)).lookup k = some v') :
    key v' = k ∧ (u.erase (other v)).lookup (other v') = some v' := by
  rw [HashMap.lookup_erase] at h' ⊢
  split at h'
  · cases h'
  · next hne =>
      obtain ⟨hkey, hother⟩ := h k v' h'
      refine ⟨hkey, ?_⟩
      rw [if_neg ?_]
      · exact hother
      · intro heq
        rw [heq, hold] at hother
        cases hother
        exact hne hkey.symm

end

/-- A breakpoint that is new to the tables. -/
theorem accounted_insert {s : Emulator F} (h : Accounted s) {bp : Breakpoint F} {qemu : Qemu}
    (haddr : s.breakpointsByAddr.lookup bp.addr = none)
    (hid : s.breakpointsById.lookup bp.id = none)
    (hset : ∀ addr, qemu.breakpoints.count addr =
      s.qemu.breakpoints.count addr + if addr = bp.addr then bp.enabled.toNat else 0)
    (hbalanced : qemu.Balanced) :
    Accounted ⟨AList.insert bp.addr bp s.breakpointsByAddr,
      AList.insert bp.id bp s.breakpointsById, qemu⟩ := by
  refine ⟨mirrored_insert h.byAddr hid, mirrored_insert h.byId haddr, fun addr => ?_, hbalanced⟩
  have hold := h.set addr
  rw [hset]
  unfold expected at hold ⊢
  dsimp only
  rw [HashMap.lookup_insert]
  split
  · next heq =>
      rw [heq, haddr] at hold
      rw [heq, hold]
      simp
  · rw [hold, Nat.add_zero]

/-- A breakpoint of the tables. -/
theorem accounted_erase {s : Emulator F} (h : Accounted s) {id : Nat} {bp : Breakpoint F}
    {qemu : Qemu} (hbp : s.breakpointsById.lookup id = some bp)
    (hset : ∀ addr, qemu.breakpoints.count addr =
      s.qemu.breakpoints.count addr - if addr = bp.addr then bp.enabled.toNat else 0)
    (hbalanced : qemu.Balanced) :
    Accounted ⟨s.breakpointsByAddr.erase bp.addr, s.breakpointsById.erase id, qemu⟩ := by
  obtain ⟨rfl, haddr⟩ := h.byId id bp hbp
  refine ⟨mirrored_erase h.byAddr hbp, mirrored_erase h.byId haddr, fun addr => ?_, hbalanced⟩
  have hold := h.set addr
  rw [hset]
  unfold expected at hold ⊢
  dsimp only
  rw [HashMap.lookup_erase]
  split
  · next heq =>
      rw [heq, haddr, Option.elim_some] at hold
      rw [heq, hold]
      simp
  · rw [hold, Nat.sub_zero]

/-! ## One step -/

/-- What is added has the flag if it had it or is to be enabled. -/
def Breakpoint.entered (bp : Breakpoint F) (enable : Bool) : Breakpoint F :=
  { bp with enabled := bp.enabled || enable }

theorem addBreakpoint_eq {s : Emulator F} (bp : Breakpoint F) (enable : Bool) :
    s.addBreakpoint bp enable =
      if (s.breakpointsByAddr.lookup bp.addr).isSome then none
      else if (s.breakpointsById.lookup bp.id).isSome then none
      else some ⟨AList.insert bp.addr (bp.entered enable) s.breakpointsByAddr,
        AList.insert bp.id (bp.entered enable) s.breakpointsById,
        if enable && !bp.enabled then s.qemu.setBreakpoint bp.addr else s.qemu⟩ := by
  obtain ⟨id, addr, cmdCb, disableOnTrigger, enabled⟩ := bp
  cases enable <;> cases enabled <;> rfl

theorem addBreakpoint_of_new {s : Emulator F} {bp : Breakpoint F} (enable : Bool)
    (haddr : s.breakpointsByAddr.lookup bp.addr = none)
    (hid : s.breakpointsById.lookup bp.id = none) :
    s.addBreakpoint bp enable = some
      ⟨AList.insert bp.addr (bp.entered enable) s.breakpointsByAddr,
        AList.insert bp.id (bp.entered enable) s.breakpointsById,
        if enable && !bp.enabled then s.qemu.setBreakpoint bp.addr else s.qemu⟩ := by
  simp only [addBreakpoint_eq, haddr, hid, Option.isSome_none, Bool.false_eq_true, if_false]

theorem new_of_addBreakpoint {s t : Emulator F} {bp : Breakpoint F} {enable : Bool}
    (h : s.addBreakpoint bp enable = some t) :
    s.breakpointsByAddr.lookup bp.addr = none ∧ s.breakpointsById.lookup bp.id = none := by
  rw [addBreakpoint_eq] at h
  split at h
  · cases h
  · next haddr =>
      split at h
      · cases h
      · next hid =>
          rw [Option.not_isSome_iff_eq_none] at haddr hid
          exact ⟨haddr, hid⟩

theorem accounted_addBreakpoint {s t : Emulator F} {bp : Breakpoint F} {enable : Bool}
    (h : Accounted s)
    (hnew : s.breakpointsByAddr.lookup bp.addr = none → s.breakpointsById.lookup bp.id = none →
      bp.enabled = false)
    (hstep : s.addBreakpoint bp enable = some t) : Accounted t := by
  obtain ⟨haddr, hid⟩ := new_of_addBreakpoint hstep
  have hdisabled := hnew haddr hid
  rw [addBreakpoint_of_new enable haddr hid, hdisabled] at hstep
  cases hstep
  have hflag : (bp.entered enable).enabled = enable := by
    rw [Breakpoint.entered, hdisabled, Bool.false_or]
  have haddr' : s.breakpointsByAddr.lookup (bp.entered enable).addr = none := haddr
  have hid' : s.breakpointsById.lookup (bp.entered enable).id = none := hid
  refine accounted_insert h haddr' hid' (fun addr => ?_) ?_
  · rw [hflag]
    cases enable with
    | false => simp
    | true => exact count_setBreakpoint s.qemu bp.addr addr
  · cases enable with
    | false => exact h.balanced
    | true => exact balanced_setBreakpoint h.balanced bp.addr

/-- A breakpoint whose flag is set already is not set in QEMU. -/
theorem not_matchesQemu_addBreakpoint {s : Emulator F} {bp : Breakpoint F} (enable : Bool)
    (h : Accounted s) (haddr : s.breakpointsByAddr.lookup bp.addr = none)
    (hid : s.breakpointsById.lookup bp.id = none) (henabled : bp.enabled = true) :
    ∃ t, s.addBreakpoint bp enable = some t ∧ ¬ MatchesQemu t := by
  refine ⟨_, addBreakpoint_of_new enable haddr hid, fun hmatches => ?_⟩
  have hset := hmatches.enabled bp.id _ (HashMap.lookup_insert.trans (if_pos rfl))
  have hcount := h.set bp.addr
  rw [expected, haddr, Option.elim_none, List.count_eq_zero] at hcount
  simp only [Breakpoint.entered, henabled, Bool.true_or, Bool.not_true, Bool.and_false,
    true_iff] at hset
  exact hcount hset

theorem removeBreakpoint_of_lookup {s : Emulator F} {bpId : Nat} {bp bp' : Breakpoint F}
    (hbp : s.breakpointsById.lookup bpId = some bp)
    (haddr : s.breakpointsByAddr.lookup bp.addr = some bp') : s.removeBreakpoint bpId = some
      ⟨s.breakpointsByAddr.erase bp.addr, s.breakpointsById.erase bpId,
        if bp.enabled then s.qemu.removeBreakpoint bp.addr else s.qemu⟩ := by
  unfold Emulator.removeBreakpoint
  simp only [hbp]
  rw [disable_eq]
  exact if_pos (Option.isSome_of_eq_some haddr)

theorem accounted_removeBreakpoint {s t : Emulator F} {bpId : Nat} (h : Accounted s)
    (hstep : s.removeBreakpoint bpId = some t) : Accounted t := by
  cases hbp : s.breakpointsById.lookup bpId with
  | none =>
      rw [Emulator.removeBreakpoint, hbp] at hstep
      cases hstep
  | some bp =>
      have haddr := (h.byId bpId bp hbp).2
      have hcount := h.set bp.addr
      rw [expected, haddr, Option.elim_some] at hcount
      rw [removeBreakpoint_of_lookup hbp haddr] at hstep
      cases hstep
      refine accounted_erase h hbp (fun addr => ?_) ?_
      · cases bp.enabled with
        | false => simp
        | true => exact count_removeBreakpoint s.qemu bp.addr addr
      · cases henabled : bp.enabled with
        | false => exact h.balanced
        | true =>
            rw [henabled] at hcount
            have hmem : bp.addr ∈ s.qemu.breakpoints := List.count_pos_iff.mp (hcount ▸ Nat.one_pos)
            exact balanced_removeBreakpoint h.balanced hmem

/-- A hit leaves the tables, and QEMU if the breakpoint is not disabled. -/
theorem hitBreakpoint_of_lookup (call : F → Except E C) {s : Emulator F} {addr : Nat}
    {bp : Breakpoint F} (hbp : s.breakpointsByAddr.lookup addr = some bp) :
    (s.hitBreakpoint call addr).2 =
      { s with qemu := if bp.disableOnTrigger then (bp.disable s.qemu).2 else s.qemu } := by
  have htrigger : (bp.trigger call s.qemu).2.2 =
      if bp.disableOnTrigger then (bp.disable s.qemu).2 else s.qemu := by
    unfold Breakpoint.trigger
    cases bp.disableOnTrigger <;> dsimp only <;> split <;> rfl
  unfold Emulator.hitBreakpoint
  simp only [hbp]
  rw [← htrigger]
  rcases bp.trigger call s.qemu with ⟨e | command, bp', qemu⟩
  · rfl
  · cases command <;> rfl

theorem accounted_hitBreakpoint (call : F → Except E C) {s : Emulator F} {addr : Nat}
    (h : Accounted s)
    (hkeeps : ∀ bp, s.breakpointsByAddr.lookup addr = some bp → bp.disableOnTrigger = false) :
    Accounted (s.hitBreakpoint call addr).2 := by
  cases hbp : s.breakpointsByAddr.lookup addr with
  | none =>
      rw [Emulator.hitBreakpoint, hbp]
      exact h
  | some bp =>
      rw [hitBreakpoint_of_lookup call hbp, hkeeps bp hbp]
      exact h

/-- The breakpoint is not set any more, and the tables say that it is. -/
theorem not_matchesQemu_hitBreakpoint (call : F → Except E C) {s : Emulator F} {addr : Nat}
    {bp : Breakpoint F} (h : Accounted s) (hmem : addr ∈ s.qemu.breakpoints)
    (hbp : s.breakpointsByAddr.lookup addr = some bp) (hdisable : bp.disableOnTrigger = true) :
    ¬ MatchesQemu (s.hitBreakpoint call addr).2 := by
  intro hmatches
  obtain ⟨rfl, hid⟩ := h.byAddr addr bp hbp
  have hcount := h.set bp.addr
  have hpos := List.count_pos_iff.mpr hmem
  rw [expected, hbp, Option.elim_some] at hcount
  have henabled : bp.enabled = true := by
    cases hflag : bp.enabled with
    | false => rw [hcount, hflag] at hpos; cases hpos
    | true => rfl
  rw [hitBreakpoint_of_lookup call hbp, hdisable, if_pos rfl, disable_eq, henabled,
    if_pos rfl] at hmatches
  have hset := (hmatches.enabled bp.id bp hid).mp henabled
  have hafter := count_removeBreakpoint s.qemu bp.addr bp.addr
  rw [hcount, henabled, if_pos rfl] at hafter
  exact List.count_eq_zero.mp hafter hset

/-! ## Runs -/

theorem accounted_step {s t : Emulator F} {use : BreakpointUse F C E} (h : Accounted s)
    (hkeeps : KeepsFlags s use) (hstep : step s use = some t) : Accounted t := by
  cases use with
  | add bp enable => exact accounted_addBreakpoint h hkeeps hstep
  | remove bpId => exact accounted_removeBreakpoint h hstep
  | hit bpAddr call =>
      rw [step] at hstep
      split at hstep
      · next hmem =>
          cases hstep
          exact accounted_hitBreakpoint call h (hkeeps hmem)
      · cases hstep

theorem not_matchesQemu_step {s : Emulator F} {use : BreakpointUse F C E} (h : Accounted s)
    (hkeeps : ¬ KeepsFlags s use) : ∃ t, step s use = some t ∧ ¬ MatchesQemu t := by
  cases use with
  | add bp enable =>
      simp only [KeepsFlags, Classical.not_imp, Bool.not_eq_false] at hkeeps
      obtain ⟨haddr, hid, henabled⟩ := hkeeps
      exact not_matchesQemu_addBreakpoint enable h haddr hid henabled
  | remove bpId => exact absurd trivial hkeeps
  | hit bpAddr call =>
      simp only [KeepsFlags, Classical.not_imp, not_forall, Bool.not_eq_false] at hkeeps
      obtain ⟨hmem, bp, hbp, hdisable⟩ := hkeeps
      exact ⟨_, if_pos hmem, not_matchesQemu_hitBreakpoint call h hmem hbp hdisable⟩

/-- **The tables match QEMU** in every state that is reached if and only if no
breakpoint is disabled by being hit, and none is added with its flag set. -/
theorem matchesQemu_iff (uses : List (BreakpointUse F C E)) :
    (∀ pre, pre <+: uses → ∀ s, run step .new pre = some s → MatchesQemu s) ↔
      StepsMeet step .new uses KeepsFlags :=
  forall_reached_iff_stepsMeet Accounted accounted_new (fun _ => matchesQemu_of_accounted)
    (fun _ _ _ => accounted_step) fun _ _ => not_matchesQemu_step

/-- The breakpoint of an entry, hit and removed: QEMU is asked to remove it twice. -/
theorem not_matchesQemu_entryBreak :
    ¬ ∀ pre, pre <+: [BreakpointUse.add ⟨0, 0x1000, none, true, false⟩ true,
        .hit 0x1000 fun _ : Unit => (.ok () : Except Unit Unit), .remove 0] →
      ∀ s, run step .new pre = some s → MatchesQemu s := by
  intro h
  have hremoved := (h _ (List.prefix_refl _) ⟨∅, ∅, ⟨[], [.setBreakpoint 0x1000,
    .removeBreakpoint 0x1000, .removeBreakpoint 0x1000]⟩⟩ rfl).removed 0x1000
  exact absurd hremoved (by decide)

end Breakpoints

end Libaflmm
