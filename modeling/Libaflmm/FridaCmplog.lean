import Libaflmm.X86Machine
import Mathlib.Data.Finset.Insert

/-!
# The comparison log of Frida on x86_64

In front of every copied `cmp` or `sub` of two operands the runtime puts code that
hands the operands to `populate_lists`: it saves registers, pushes the two values,
pops them into argument registers, calls, and takes the registers back. What is
saved, and which registers are the arguments, is fixed for Windows and for Unix.

Where the source panics, when an operand cannot be encoded or the sizes differ,
nothing is emitted.
-/

namespace Libaflmm.CmpLogRuntime

open X86

inductive Os where
  | windows | unix
  deriving DecidableEq, Repr

/-! ## Decoded instructions -/

/-- The part of a general register that a name stands for. -/
inductive View where
  | low8 | high8 | low16 | low32 | full
  deriving DecidableEq, Repr

def View.size : View → Nat
  | .low8 | .high8 => 1
  | .low16 => 2
  | .low32 => 4
  | .full => 8

inductive Register where
  | none | rip | eip
  | gpr (r : Gpr) (v : View)
  deriving DecidableEq, Repr

/-- `info().size()` -/
def Register.size : Register → Nat
  | .none => 0
  | .rip => 8
  | .eip => 4
  | .gpr _ v => v.size

def Register.fullRegister : Register → Register
  | .none => .none
  | .rip | .eip => .rip
  | .gpr r _ => .gpr r .full

inductive MemorySize where
  | unknown | uint8 | int8 | uint16 | int16 | uint32 | int32 | uint64 | int64 | other
  deriving DecidableEq, Repr

inductive Segment where
  | default | fs | gs
  deriving DecidableEq, Repr

/-- A memory operand; for `rip` and `eip` the displacement is the absolute address. -/
structure MemoryOperand where
  base : Register
  index : Register
  scale : Nat
  disp : BitVec 64
  size : MemorySize
  segment : Segment
  deriving DecidableEq, Repr

inductive ImmediateKind where
  | imm8 | imm8to16 | imm8to32 | imm8to64 | imm16 | imm32 | imm64 | imm32to64
  deriving DecidableEq, Repr

inductive Operand where
  | register (r : Register)
  | immediate (k : ImmediateKind) (v : BitVec 64)
  | memory (m : MemoryOperand)
  | other
  deriving DecidableEq, Repr

inductive Mnemonic where
  | cmp | sub | other
  deriving DecidableEq, Repr

structure Instruction where
  mnemonic : Mnemonic
  ops : List Operand
  deriving DecidableEq, Repr

def Operand.memory? : Operand → Option MemoryOperand
  | .memory m => some m
  | _ => .none

namespace Instruction

variable (i : Instruction)

/-- An instruction has at most one memory operand. -/
def memoryOperand? : Option MemoryOperand := i.ops.findSome? Operand.memory?

def memoryBase : Register := i.memoryOperand?.elim .none MemoryOperand.base
def memoryIndex : Register := i.memoryOperand?.elim .none MemoryOperand.index
def memorySize : MemorySize := i.memoryOperand?.elim .unknown MemoryOperand.size

end Instruction

inductive CmplogOperandType where
  | reg (r : Register)
  | imm (v : BitVec 64)
  | mem (base index : Register) (disp : BitVec 64) (scale : Nat) (size : MemorySize)
  deriving DecidableEq, Repr

def cmplogOperand : Operand → Option CmplogOperandType
  | .register r => some (.reg r)
  | .immediate .imm16 v | .immediate .imm32 v | .immediate .imm64 v
  | .immediate .imm32to64 v => some (.imm v)
  | .memory m => some (.mem m.base m.index m.disp m.scale m.size)
  | _ => .none

def cmplogIsInterestingInstruction (i : Instruction) :
    Option (CmplogOperandType × CmplogOperandType) :=
  if i.mnemonic = .other then .none
  else match i.ops with
    | [op0, op1] =>
        -- rip related references with an index register are not supported
        if i.memoryBase = .rip ∧ i.memoryIndex ≠ .none then .none
        else if i.memorySize = .uint8 ∨ i.memorySize = .int8 then .none
        else do
          let op1' ← cmplogOperand op0
          let op2' ← cmplogOperand op1
          some (op1', op2')
    | _ => .none

/-! ## The emitted code -/

/-- The registers that are pushed, in this order. -/
def savedRegisters : Os → List Gpr
  | .windows => [.rcx, .rdx, .r8, .r9, .r10, .r11, .rax]
  | .unix => [.rax, .rdi, .rsi, .rdx, .rcx, .r8, .r9]

def saveRegisters (os : Os) : List (Instr 8) := (savedRegisters os).map .push

def restoreRegisters (os : Os) : List (Instr 8) := (savedRegisters os).reverse.map .pop

/-- `cl` and `dl`. -/
def argReg1 : Os → Gpr
  | .windows => .rcx
  | .unix => .rdx

def argReg2 : Os → Gpr
  | .windows => .rdx
  | .unix => .rsi

def argReg3 : Os → Gpr
  | .windows => .r8
  | .unix => .rdx

def argReg4 : Os → Gpr
  | .windows => .r9
  | .unix => .rcx

/-- `set_size`: the second operand has the size of the first. -/
def setSize (sizeOp s : Nat) : Option Nat :=
  if sizeOp = 0 then some s else if sizeOp = s then some sizeOp else .none

/-- A base or index register: the register, and whether addresses have 32 bits. -/
def addressRegister : Register → Option (Option Gpr × Bool)
  | .none => some (.none, false)
  | .gpr r .full => some (some r, false)
  | .gpr r .low32 => some (some r, true)
  | _ => .none

def fitsDisplacement (half : Bool) (d : BitVec 64) : Bool :=
  (d.setWidth 32).signExtend 64 = d ∨ (half ∧ (d.setWidth 32).setWidth 64 = d)

/-- How the encoder lays out a memory operand, in a block that it takes to start at
address zero and that is put at `pc`. -/
def encodeMemory (pc : BitVec 64) (base index : Register) (scale : Nat) (disp : BitVec 64) :
    Option (Address 8) :=
  match base with
  | .eip =>
      if (disp.setWidth 31).setWidth 64 = disp then
        some ⟨.none, .none, scale, disp + pc, true⟩
      else .none
  | _ => do
      let (b, half) ← addressRegister base
      let (x, half') ← addressRegister index
      let narrow := half || half'
      if fitsDisplacement narrow disp then some ⟨b, x, scale, disp, narrow⟩ else .none

/-- The code that loads a value of a size into `rax`, `eax` or `ax`. For any other
size the source takes a push with two operands, which cannot be made. -/
def loadTmp : MemorySize → Option (Nat × (Address 8 → Instr 8))
  | .uint64 | .int64 => some (8, .movLoad .rax)
  | .uint32 | .int32 => some (4, .movLoad32 .rax)
  | .uint16 | .int16 => some (2, .movLoad16 .rax)
  | _ => .none

/-- The code that pushes an operand, with the size of the operands so far. -/
def emitOperand (pc : BitVec 64) (opNum : Nat) (sizeOp : Nat) :
    CmplogOperandType → Option (Nat × List (Instr 8))
  | .reg r => do
      let size ← setSize sizeOp r.size
      match r.fullRegister with
      -- the last register that was saved is taken to be rax
      | .gpr .rax _ =>
          some (size, [.pushMem ⟨some .rsp, .none, 1, BitVec.ofNat 64 (opNum * 8), false⟩])
      | .gpr g _ => some (size, [.push g])
      | _ => .none
  | .mem base index disp scale memSize => do
      let (s, load) ← loadTmp memSize
      let size ← setSize sizeOp s
      -- 0x38 is the number of bytes that saveRegisters pushes
      let disp := if base = .gpr .rsp .full then disp + 0x38 + BitVec.ofNat 64 (8 * opNum) else disp
      if base = .rip then do
        let a ← encodeMemory pc (.gpr .rax .full) index scale 0
        some (size, [.movImm .rax disp, load a, .push .rax])
      else do
        let a ← encodeMemory pc base index scale disp
        some (size, [load a, .push .rax])
  | .imm v => some (sizeOp, [.pushImm32 (v.setWidth 32)])

/-- The code in front of the call of `populate_lists`, and the code behind it. -/
structure Emitted where
  before : List (Instr 8)
  after : List (Instr 8)

def passArguments (os : Os) (size : Nat) (address : BitVec 64) : List (Instr 8) :=
  [.movImm8 (argReg1 os) (BitVec.ofNat 8 size),
    .pop (argReg2 os),
    .pop (argReg3 os),
    .movImm (argReg4 os) address]

/-- `emit_comparison_handling` for the instruction at `address`, with the block of the
operands at `pc`. -/
def emitComparisonHandling (os : Os) (pc address : BitVec 64) (op1 op2 : CmplogOperandType) :
    Option Emitted := do
  let (size, push1) ← emitOperand pc 0 0 op1
  let (size, push2) ← emitOperand pc 1 size op2
  some
    { before := saveRegisters os ++ (push1 ++ (push2 ++ passArguments os size address))
      after := restoreRegisters os }

/-! ## What the code is for -/

def viewValue (v : BitVec 64) : View → BitVec 64
  | .low8 => v.setWidth 8 |>.setWidth 64
  | .high8 => (field 8 8 v).setWidth 64
  | .low16 => v.setWidth 16 |>.setWidth 64
  | .low32 => v.setWidth 32 |>.setWidth 64
  | .full => v

def MemorySize.bytes : MemorySize → Nat
  | .uint8 | .int8 => 1
  | .uint16 | .int16 => 2
  | .uint32 | .int32 => 4
  | .uint64 | .int64 => 8
  | _ => 0

/-- The value of a register in an address. -/
def addressPart (s : Machine 8) : Register → BitVec 64
  | .gpr r v => viewValue (s.regs r) v
  | _ => 0

def usesHalf : Register → Bool
  | .gpr _ .low32 => true
  | .eip => true
  | _ => false

/-- The address that the instruction itself reads from. -/
def effectiveAddress (segmentBase : Segment → BitVec 64) (s : Machine 8) (m : MemoryOperand) :
    BitVec 64 :=
  let sum := addressPart s m.base + addressPart s m.index * BitVec.ofNat 64 m.scale + m.disp
  segmentBase m.segment +
    if usesHalf m.base || usesHalf m.index then (sum.setWidth 32).setWidth 64 else sum

/-- The value of an operand, as the instruction sees it. -/
def operandValue (segmentBase : Segment → BitVec 64) (s : Machine 8) : Operand → BitVec 64
  | .register (.gpr r v) => viewValue (s.regs r) v
  | .immediate _ v => v
  | .memory m => (s.memory.load m.size.bytes (effectiveAddress segmentBase s m)).setWidth 64
  | _ => 0

def Operand.size : Operand → Nat
  | .register r => r.size
  | .memory m => m.size.bytes
  | _ => 0

/-- The size of the operands in bytes; an immediate has that of the other one. -/
def Instruction.size (i : Instruction) : Nat := (i.ops.map Operand.size).foldl max 0

/-! ### Calling conventions -/

/-- The general registers that a callee may change. -/
def volatileRegs : Os → List Gpr
  | .windows => [.rax, .rcx, .rdx, .r8, .r9, .r10, .r11]
  | .unix => [.rax, .rcx, .rdx, .rsi, .rdi, .r8, .r9, .r10, .r11]

def volatileXmm : Os → Nat
  | .windows => 6
  | .unix => 16

/-- The first four integer arguments. -/
def argumentRegs : Os → List Gpr
  | .windows => [.rcx, .rdx, .r8, .r9]
  | .unix => [.rdi, .rsi, .rdx, .rcx]

/-- The bytes above the return address that belong to the callee. -/
def homeSpace : Os → BitVec 64
  | .windows => 0x20
  | .unix => 0

/-- The bytes below the stack pointer that belong to the code that runs. -/
def redZone : Os → BitVec 64
  | .windows => 0
  | .unix => 128

/-- `x` is not below `a`. -/
def NotBelow (a x : BitVec 64) : Prop := (x - a).toNat < 2 ^ 63

/-- A function that keeps to the calling convention, from its entry to its return, where
`stack` has the addresses of the target's stack. -/
structure Callee (os : Os) (stack : BitVec 64 → Prop) where
  run : Machine 8 → Machine 8
  sp : ∀ s, (run s).regs .rsp = s.regs .rsp + 8
  regs : ∀ s r, r ∉ volatileRegs os → r ≠ .rsp → (run s).regs r = s.regs r
  xmm : ∀ s (i : Fin 16), volatileXmm os ≤ i → (run s).xmm i = s.xmm i
  memory : ∀ s x, stack x → NotBelow (s.regs .rsp + 8 + homeSpace os) x →
    (run s).memory x = s.memory x

/-- A call: the return address is pushed, and the callee runs. -/
def call {os : Os} {stack : BitVec 64 → Prop} (f : Callee os stack) (ret : BitVec 64)
    (s : Machine 8) : Machine 8 :=
  f.run (s.pushWord ret)

/-- What `populate_lists` is called with: the first argument has one byte. -/
structure Arguments where
  size : BitVec 8
  op1 : BitVec 64
  op2 : BitVec 64
  retaddr : BitVec 64
  deriving DecidableEq

/-- The arguments that a callee of the platform finds. -/
def argumentsAt (os : Os) (s : Machine 8) : Option Arguments :=
  match argumentRegs os with
  | [a, b, c, d] => some ⟨field 0 8 (s.regs a), s.regs b, s.regs c, s.regs d⟩
  | _ => .none

/-- The low `k` bytes of two values are the same. -/
def SameLow (k : Nat) (v v' : BitVec 64) : Prop := v.setWidth (8 * k) = v'.setWidth (8 * k)

/-- The arguments are right: the size, the two operands of the instruction in the state
`s` it would run in, and its address. -/
def Logs (segmentBase : Segment → BitVec 64) (s : Machine 8) (i : Instruction)
    (address : BitVec 64) (a : Arguments) : Prop :=
  a.size = BitVec.ofNat 8 i.size ∧ a.retaddr = address ∧
    ∃ op0 op1, i.ops = [op0, op1] ∧ SameLow i.size a.op1 (operandValue segmentBase s op0) ∧
      SameLow i.size a.op2 (operandValue segmentBase s op1)

/-- After the code, what a callee may change is as before, and so is the stack of the
target with its red zone. -/
def Transparent (os : Os) (stack : BitVec 64 → Prop) (s s' : Machine 8) : Prop :=
  (∀ r ∈ volatileRegs os, s'.regs r = s.regs r) ∧
    (∀ i : Fin 16, i < volatileXmm os → s'.xmm i = s.xmm i) ∧
    ∀ x, stack x → NotBelow (s.regs .rsp - redZone os) x → s'.memory x = s.memory x

/-- The code for the instruction at `address` logs its operands and is transparent, from
every state and with every callee that keeps to the convention. -/
def HandlesComparison (os : Os) (pc address : BitVec 64) (i : Instruction)
    (op1 op2 : CmplogOperandType) : Prop :=
  ∃ code, emitComparisonHandling os pc address op1 op2 = some code ∧
    ∀ (segmentBase : Segment → BitVec 64) (stack : BitVec 64 → Prop) (f : Callee os stack)
      (ret : BitVec 64) (s : Machine 8),
      (∃ a, argumentsAt os (X86.run code.before s) = some a ∧ Logs segmentBase s i address a) ∧
        Transparent os stack s (X86.run code.after (call f ret (X86.run code.before s)))

end Libaflmm.CmpLogRuntime
