import Libaflmm.FridaCheckShadow
import Libaflmm.FridaCmplog
import Libaflmm.X86Stack

/-!
# The inline check of the Frida sanitizer on x86_64

In front of every copied instruction with a memory operand the runtime puts code
that works out the address of the access again and looks at its shadow. If the
bytes of the access are not all unpoisoned, the code jumps to a report, which
fills an array with registers and calls `handle_trap`; should that return, the
report jumps back to the end of the check.

The flags that the code never reads are left to the processor: a parameter says
what they are after each of its operations.
-/

namespace Libaflmm

namespace X86

/-- The operations of the check beyond those that move words. -/
inductive Op where
  | plain (i : Instr 8)
  | mov (dst src : Gpr)
  | lea (dst base : Gpr) (disp : Qword)
  | pushfx
  | popfx
  | shlImm (dst : Gpr) (k : Nat)
  | shrImm (dst : Gpr) (k : Nat)
  | andImm (dst : Gpr) (imm : Qword)
  | addImm (dst : Gpr) (imm : Qword)
  | bswap32 (dst : Gpr)
  | shlCl32 (dst : Gpr)
  | shlImm32 (dst : Gpr) (k : Nat)
  | and32 (dst src : Gpr)
  | cmp32 (a b : Gpr)
  deriving DecidableEq, Repr

/-- The flags register, with the bits that a program cannot change through the
flags of the machine left at zero. -/
def Flags.toWord (f : Flags) : Qword :=
  (BitVec.ofBool f.overflow ++ 0#3 ++ f.toByte).setWidth _

def Flags.ofWord (w : Qword) : Flags :=
  { (⟨false, false, false, false, false, w.getLsbD 11⟩ : Flags).withByte (w.setWidth 8) with
    overflow := w.getLsbD 11 }

theorem Flags.ofWord_toWord (f : Flags) : Flags.ofWord f.toWord = f := by
  obtain ⟨carry, parity, adjust, zero, sign, overflow⟩ := f
  cases carry <;> cases parity <;> cases adjust <;> cases zero <;> cases sign <;>
    cases overflow <;> rfl

/-- The low half of a register; to write it clears the other one. -/
def low32 (v : Qword) : BitVec 32 := v.setWidth 32

/-- The bytes in the opposite order. -/
def bswap (v : BitVec 32) : BitVec 32 :=
  v.extractLsb' 0 8 ++ v.extractLsb' 8 8 ++ v.extractLsb' 16 8 ++ v.extractLsb' 24 8

/-- What a processor leaves in the flags after an operation that sets them. -/
abbrev FlagsAfter := Op → Machine 8 → Flags

namespace Machine

variable (s : Machine 8)

def setReg32 (r : Gpr) (v : BitVec 32) : Machine 8 := s.setReg r (v.setWidth _)

def withFlags (f : Flags) : Machine 8 := { s with flags := f }

end Machine

/-- Moves and the operations on the stack leave the flags alone. -/
def execOp (flagsAfter : FlagsAfter) (s : Machine 8) (op : Op) : Machine 8 :=
  match op with
  | .plain i => exec s i
  | .mov d r => s.setReg d (s.regs r)
  | .lea d b v => s.setReg d (s.regs b + v)
  | .pushfx => s.pushWord s.flags.toWord
  | .popfx =>
      let sp := s.regs .rsp
      (s.setReg .rsp (sp + 8)).withFlags (.ofWord (s.memory.load 8 sp))
  | .shlImm d k => (s.setReg d (s.regs d <<< k)).withFlags (flagsAfter op s)
  | .shrImm d k => (s.setReg d (s.regs d >>> k)).withFlags (flagsAfter op s)
  | .andImm d v => (s.setReg d (s.regs d &&& v)).withFlags (flagsAfter op s)
  | .addImm d v => (s.setReg d (s.regs d + v)).withFlags (flagsAfter op s)
  | .bswap32 d => s.setReg32 d (bswap (low32 (s.regs d)))
  | .shlCl32 d =>
      -- the processor takes the low five bits of the count
      let k := (s.regs .rcx).toNat % 32
      (s.setReg32 d (low32 (s.regs d) <<< k)).withFlags (flagsAfter op s)
  | .shlImm32 d k => (s.setReg32 d (low32 (s.regs d) <<< k)).withFlags (flagsAfter op s)
  | .and32 d r =>
      (s.setReg32 d (low32 (s.regs d) &&& low32 (s.regs r))).withFlags (flagsAfter op s)
  | .cmp32 a b =>
      s.withFlags { flagsAfter op s with zero := decide (low32 (s.regs a) = low32 (s.regs b)) }

def runOps (flagsAfter : FlagsAfter) (ops : List Op) (s : Machine 8) : Machine 8 :=
  ops.foldl (execOp flagsAfter) s

/-! ## Code with forward branches -/

inductive Item (L : Type) where
  | op (o : Op)
  | je (l : L)
  | jmp (l : L)
  | leaLabel (dst : Gpr) (l : L)
  | label (l : L)
  deriving DecidableEq, Repr

variable {L : Type} [DecidableEq L]

/-- Runs to the end of the code, or to a branch that leaves it for a label
outside. While `skip` has a label, everything before it is passed over. -/
def runItems (flagsAfter : FlagsAfter) (addressOf : L → Qword) :
    (skip : Option L) → List (Item L) → Machine 8 → Option L × Machine 8
  | skip, [], s => (skip, s)
  | none, .op o :: rest, s => runItems flagsAfter addressOf none rest (execOp flagsAfter s o)
  | none, .je l :: rest, s =>
      runItems flagsAfter addressOf (if s.flags.zero then some l else none) rest s
  | none, .jmp l :: rest, s => runItems flagsAfter addressOf (some l) rest s
  | none, .leaLabel d l :: rest, s =>
      runItems flagsAfter addressOf none rest (s.setReg d (addressOf l))
  | none, .label _ :: rest, s => runItems flagsAfter addressOf none rest s
  | some l, .label l' :: rest, s =>
      runItems flagsAfter addressOf (if l = l' then none else some l) rest s
  | some l, _ :: rest, s => runItems flagsAfter addressOf (some l) rest s

end X86

open X86

namespace AsanRuntime

/-! ## The code -/

def GUM_RED_ZONE_SIZE : Nat := 128

inductive CheckLabel where
  | report | done
  deriving DecidableEq, Repr

/-- A register of an address. -/
inductive AddressReg where
  | rip
  | gpr (r : Gpr)
  deriving DecidableEq, Repr

/-- What `emit_shadow_check` gets of the instruction and its memory operand. -/
structure Access where
  address : Qword
  instructionSize : Qword
  width : Nat
  basereg : Option AddressReg
  indexreg : Option AddressReg
  scale : Nat
  disp : BitVec 32
  deriving DecidableEq, Repr

namespace Access

variable (access : Access)

/-- The shift for the scale. -/
def shift : Nat :=
  match access.scale with
  | 2 => 1
  | 4 => 2
  | 8 => 3
  | _ => 0

def ripAfter : Qword := access.address + access.instructionSize

end Access

/-- `generate_shadow_check_blob` -/
def generateShadowCheckBlob (shadowBit size : Nat) : List (Item CheckLabel) :=
  let maskShift := 32 - size
  [.op (.plain (.movImm .rdx 1)),
    -- rdx = shadow_base
    .op (.shlImm .rdx shadowBit),
    .op (.mov .rcx .rdi),
    .op (.andImm .rcx 7),
    .op (.shrImm .rdi 3),
    .op (.plain (.add .rdi .rdx)),
    -- four shadow bytes, in case the access is not aligned
    .op (.plain (.movLoad32 .rdx ⟨some .rdi, none, 1, 0, false⟩)),
    .op (.bswap32 .rdx),
    .op (.shlCl32 .rdx),
    .op (.plain (.movImm32 .rdi (-1))),
    .op (.shlImm32 .rdi maskShift),
    .op (.and32 .rdx .rdi),
    .op (.cmp32 .rdx .rdi),
    .je .done,
    .leaLabel .rsi .done]

/-- The widths that have a blob. -/
def checkedWidths : List Nat := [1, 2, 4, 8, 16]

def savedRegisters : List Gpr := [.rdi, .rsi, .rdx, .rcx, .rax, .rbp, .r8]

def pushes (gs : List Gpr) : List (Item CheckLabel) := gs.map fun g => .op (.plain (.push g))

def pops (gs : List Gpr) : List (Item CheckLabel) := gs.map fun g => .op (.plain (.pop g))

/-- The stack pointer, as far as the code takes the pushed words into account. -/
def leaStackPointer (dst : Gpr) : Item CheckLabel :=
  .op (.lea dst .rsp (BitVec.ofNat _ (GUM_RED_ZONE_SIZE + 0x8 * 7)))

def initRdi (access : Access) : Item CheckLabel :=
  match access.basereg with
  | some .rip => .op (.plain (.movImm .rdi access.ripAfter))
  | some (.gpr .rsp) => leaStackPointer .rdi
  | some (.gpr r) => .op (.mov .rdi r)
  | none => .op (.plain (.xor .rdi .rdi))

def initRsi (access : Access) : Item CheckLabel :=
  match access.indexreg with
  | some .rip => .op (.plain (.movImm .rsi access.ripAfter))
  -- rdi is clobbered, so it is taken from the stack
  | some (.gpr .rdi) => .op (.plain (.movLoad .rsi ⟨some .rsp, none, 1, 0x30, false⟩))
  | some (.gpr .rsp) => leaStackPointer .rsi
  | some (.gpr r) => .op (.mov .rsi r)
  | none => .op (.plain (.xor .rsi .rsi))

def scaleRsi (access : Access) : List (Item CheckLabel) :=
  if 0 < access.shift then [.op (.shlImm .rsi access.shift)] else []

/-- Saves what the check uses. -/
def saveContext : List (Item CheckLabel) :=
  .op (.lea .rsp .rsp (-BitVec.ofNat _ GUM_RED_ZONE_SIZE)) :: .op .pushfx :: pushes savedRegisters

/-- Leaves the address of the access and that of the instruction on the stack. -/
def pushAccess (access : Access) : List (Item CheckLabel) :=
  initRdi access :: initRsi access :: (scaleRsi access ++
    [.op (.plain (.add .rdi .rsi)),
      .op (.lea .rdi .rdi (access.disp.signExtend _)),
      .op (.plain (.movImm .rsi access.address)),
      .op (.plain (.push .rsi)),
      .op (.plain (.push .rdi))])

/-- The jump to the report, and what is behind it; `done` is among the nops there. -/
def checkAccess (shadowBit : Nat) (access : Access) : List (Item CheckLabel) :=
  if access.width ∈ checkedWidths then
    generateShadowCheckBlob shadowBit access.width ++ [.jmp .report, .label .done]
  else []

def restoreContext : List (Item CheckLabel) :=
  pops ([.rdi, .rsi] ++ savedRegisters.reverse) ++
    [.op .popfx, .op (.lea .rsp .rsp (BitVec.ofNat _ GUM_RED_ZONE_SIZE))]

/-- `emit_shadow_check` -/
def emitShadowCheck (shadowBit : Nat) (access : Access) : List (Item CheckLabel) :=
  saveContext ++ (pushAccess access ++ (checkAccess shadowBit access ++ restoreContext))

/-! ## The report -/

/-- `[base + off]` -/
def atOffset (base : Gpr) (off : Nat) : Address 8 := ⟨some base, none, 1, BitVec.ofNat _ off, false⟩

/-- A register goes into its entry of the array. -/
def saveReg (slot : Nat) (r : Gpr) : Op := .plain (.movStore (atOffset .rdi (8 * slot)) r)

def loadReg (slot : Nat) (r : Gpr) : Op := .plain (.movLoad r (atOffset .rdi (8 * slot)))

/-- A saved register comes from the stack, and goes into an entry of the array. -/
def saveFromStack (off : Nat) (r : Gpr) (slot : Nat) : List Op :=
  [.plain (.movLoad r (atOffset .rsp off)), saveReg slot r]

/-- The registers that are as the target left them, by their entries. -/
def keptSlots : List (Nat × Gpr) :=
  [(1, .rbx), (4, .rbp), (5, .rsp), (8, .r8), (9, .r9), (10, .r10), (11, .r11), (12, .r12),
    (13, .r13), (14, .r14), (15, .r15)]

/-- The report up to the call of `handle_trap`. -/
def reportBefore (selfAddr selfRegsAddr trapFunc : Qword) : List Op :=
  [.plain (.movImm .rdi selfRegsAddr),
    -- rsi is the address of done
    saveReg 16 .rsi] ++
    keptSlots.map (fun e => saveReg e.1 e.2) ++
    saveFromStack 0x10 .rax 0 ++
    saveFromStack 0x18 .rcx 2 ++
    saveFromStack 0x20 .rdx 3 ++
    saveFromStack 0x28 .rsi 6 ++
    -- access_addr
    saveFromStack 0x0 .rsi 17 ++
    -- true_rip
    saveFromStack 0x8 .rsi 18 ++
    [.mov .rsi .rdi,
      .plain (.movLoad .rdi (atOffset .rsp 0x30)),
      .plain (.movStore (atOffset .rsi 0x38) .rdi),
      .plain (.movImm .rdi selfAddr),
      .plain (.movImm .rcx selfAddr),
      .plain (.movImm .rsi trapFunc),
      -- align rsp to 16 bytes
      .addImm .rsp (-8),
      .andImm .rsp (-16)]

/-- The report behind the call, up to the jump to where `rsi` points. -/
def reportAfter (selfRegsAddr : Qword) : List Op :=
  .plain (.movImm .rdi selfRegsAddr) ::
    (keptSlots.map (fun e => loadReg e.1 e.2) ++ [loadReg 16 .rsi])

/-- The addresses that are in the report. -/
structure ReportAddresses where
  selfAddr : Qword
  selfRegsAddr : Qword
  trapFunc : Qword
  ret : Qword

open CmpLogRuntime (Callee call)

variable (flagsAfter : FlagsAfter) (addressOf : CheckLabel → Qword) (at_ : ReportAddresses)
  {stack : Qword → Prop} (handleTrap : Callee .unix stack)

/-- The state in which `handle_trap` is called. -/
def trapped (s : Machine 8) : Machine 8 :=
  runOps flagsAfter (reportBefore at_.selfAddr at_.selfRegsAddr at_.trapFunc) s

/-- The state in which the report jumps to where `rsi` points. -/
def report (s : Machine 8) : Machine 8 :=
  runOps flagsAfter (reportAfter at_.selfRegsAddr)
    (call handleTrap at_.ret (trapped flagsAfter at_ s))

/-- The emitted check from its start: the states in which the report starts, and the
state behind the check. `none` is a jump to where no code of the check is. -/
def runCheck (shadowBit : Nat) (access : Access) (s : Machine 8) :
    Option (Option (Machine 8) × Machine 8) :=
  let code := emitShadowCheck shadowBit access
  match runItems flagsAfter addressOf none code s with
  | (none, t) => some (none, t)
  | (some .report, t) =>
      let t' := report flagsAfter at_ handleTrap t
      if t'.regs .rsi = addressOf .done then
        match runItems flagsAfter addressOf (some .done) code t' with
        | (none, t'') => some (some t, t'')
        | _ => none
      else none
  | (some .done, _) => none

end AsanRuntime

end Libaflmm
