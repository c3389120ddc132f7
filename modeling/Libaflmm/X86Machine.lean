import Libaflmm.ByteMemory
import Mathlib.Logic.Function.Basic

/-!
# The x86 machine

The registers, the flags and the memory of an x86 processor whose words have
`n` bytes, and the instructions that move words and bytes, add, and save and
load the flags. Every instruction of this fragment goes on to the next one, so
straight code is a list of them, and it runs to its end from every state.

With `n = 4` there are no registers `r8` to `r15`, and code does not name them.
-/

namespace Libaflmm.X86

inductive Gpr where
  | rax | rcx | rdx | rbx | rsp | rbp | rsi | rdi
  | r8 | r9 | r10 | r11 | r12 | r13 | r14 | r15
  deriving DecidableEq, Repr

structure Flags where
  carry : Bool
  parity : Bool
  adjust : Bool
  zero : Bool
  sign : Bool
  overflow : Bool
  deriving DecidableEq, Repr

structure Machine (n : Nat) where
  regs : Gpr → BitVec (8 * n)
  flags : Flags
  xmm : Fin 16 → BitVec 128
  memory : ByteMemory (8 * n)

/-- `base + index * scale + disp`; with the address-size override only the low
half of the sum is the address. -/
structure Address (n : Nat) where
  base : Option Gpr
  index : Option Gpr
  scale : Nat
  disp : BitVec (8 * n)
  half : Bool
  deriving DecidableEq, Repr

inductive Instr (n : Nat) where
  | movLoad (dst : Gpr) (src : Address n)
  | movLoad32 (dst : Gpr) (src : Address n)
  | movLoad16 (dst : Gpr) (src : Address n)
  | movLoad8 (dst : Gpr) (src : Address n)
  | movStore (dst : Address n) (src : Gpr)
  | movStore8 (dst : Address n) (src : Gpr)
  | movImm (dst : Gpr) (imm : BitVec (8 * n))
  | movImm32 (dst : Gpr) (imm : BitVec 32)
  | movImm8 (dst : Gpr) (imm : BitVec 8)
  | lahf
  | sahf
  | xor (dst src : Gpr)
  | add (dst src : Gpr)
  | addImm8 (dst : Gpr) (imm : BitVec 8)
  | adcImm8 (dst : Gpr) (imm : BitVec 8)
  | push (src : Gpr)
  | pushMem (src : Address n)
  | pushImm32 (imm : BitVec 32)
  | pop (dst : Gpr)
  deriving DecidableEq, Repr

/-! ## Parts of a register -/

section Parts

variable {w k : Nat}

/-- The `k` bits of a word from bit `off` on. -/
def field (off k : Nat) (v : BitVec w) : BitVec k := v.extractLsb' off k

def setField (off : Nat) (v : BitVec w) (b : BitVec k) : BitVec w :=
  (v &&& ~~~((BitVec.allOnes k).setWidth w <<< off)) ||| (b.setWidth w <<< off)

theorem field_setField {off : Nat} (v : BitVec w) (b : BitVec k) (h : off + k ≤ w) :
    field off k (setField off v b) = b := by
  apply BitVec.eq_of_getLsbD_eq
  intro i hi
  have hlt : off + i < w := by omega
  have hge : ¬off + i < off := by omega
  unfold field setField
  simp [hi, hlt, hge]

end Parts

/-! ## Flags -/

/-- What `lahf` puts into `ah`. -/
def Flags.toByte (f : Flags) : BitVec 8 :=
  BitVec.ofBool f.sign ++ BitVec.ofBool f.zero ++ 0#1 ++ BitVec.ofBool f.adjust ++ 0#1 ++
    BitVec.ofBool f.parity ++ 1#1 ++ BitVec.ofBool f.carry

/-- What `sahf` makes of the flags: it leaves the overflow flag alone. -/
def Flags.withByte (f : Flags) (b : BitVec 8) : Flags where
  carry := b.getLsbD 0
  parity := b.getLsbD 2
  adjust := b.getLsbD 4
  zero := b.getLsbD 6
  sign := b.getLsbD 7
  overflow := f.overflow

theorem Flags.withByte_toByte (f g : Flags) :
    f.withByte g.toByte = { g with overflow := f.overflow } := by
  unfold withByte toByte
  simp only [BitVec.getLsbD_append, BitVec.getLsbD_ofBool]
  simp

/-- The parity flag: the low byte has an even number of ones. -/
def parityOf {w : Nat} (r : BitVec w) : Bool :=
  ((List.range 8).countP fun i => r.getLsbD i) % 2 = 0

/-- The flags after `a + b + c`. -/
def addFlags {w : Nat} (a b : BitVec w) (c : Bool) : Flags :=
  let r := a + b + (BitVec.ofBool c).setWidth w
  { carry := decide (2 ^ w ≤ a.toNat + b.toNat + c.toNat)
    parity := parityOf r
    adjust := decide (16 ≤ a.toNat % 16 + b.toNat % 16 + c.toNat)
    zero := decide (r = 0#w)
    sign := r.msb
    overflow := a.msb == b.msb && r.msb != a.msb }

/-- The flags after a bitwise operation. The architecture leaves the adjust flag
undefined; here it is cleared. -/
def logicFlags {w : Nat} (r : BitVec w) : Flags where
  carry := false
  parity := parityOf r
  adjust := false
  zero := decide (r = 0#w)
  sign := r.msb
  overflow := false

/-! ## Running -/

namespace Machine

variable {n : Nat} (s : Machine n)

def setReg (r : Gpr) (v : BitVec (8 * n)) : Machine n :=
  { s with regs := Function.update s.regs r v }

def write {k : Nat} (a : BitVec (8 * n)) (v : BitVec (8 * k)) : Machine n :=
  { s with memory := s.memory.store a v }

def writeByte (a : BitVec (8 * n)) (v : BitVec 8) : Machine n :=
  { s with memory := Function.update s.memory a v }

/-- The address a memory operand stands for. -/
def address (m : Address n) : BitVec (8 * n) :=
  let sum := (m.base.elim 0 s.regs) + (m.index.elim 0 s.regs) * BitVec.ofNat _ m.scale + m.disp
  if m.half then (sum.setWidth (4 * n)).setWidth (8 * n) else sum

/-- The stack pointer goes down by a word, and the value is stored there. -/
def pushWord (v : BitVec (8 * n)) : Machine n :=
  let sp := s.regs .rsp - BitVec.ofNat _ n
  (s.setReg .rsp sp).write sp v

end Machine

open Machine

variable {n : Nat}

def exec (s : Machine n) : Instr n → Machine n
  | .movLoad d m => s.setReg d (s.memory.load n (s.address m))
  | .movLoad32 d m => s.setReg d ((s.memory.load 4 (s.address m)).setWidth _)
  | .movLoad16 d m => s.setReg d (setField 0 (s.regs d) (s.memory.load 2 (s.address m)))
  | .movLoad8 d m => s.setReg d (setField 0 (s.regs d) (s.memory (s.address m)))
  | .movStore m r => s.write (s.address m) (s.regs r)
  | .movStore8 m r => s.writeByte (s.address m) (field 0 8 (s.regs r))
  | .movImm d v => s.setReg d v
  | .movImm32 d v => s.setReg d (v.setWidth _)
  | .movImm8 d v => s.setReg d (setField 0 (s.regs d) v)
  | .lahf => s.setReg .rax (setField 8 (s.regs .rax) s.flags.toByte)
  | .sahf => { s with flags := s.flags.withByte (field 8 8 (s.regs .rax)) }
  | .xor d r =>
      let v := s.regs d ^^^ s.regs r
      { s.setReg d v with flags := logicFlags v }
  | .add d r =>
      { s.setReg d (s.regs d + s.regs r) with flags := addFlags (s.regs d) (s.regs r) false }
  | .addImm8 d v =>
      let b := field 0 8 (s.regs d)
      { s.setReg d (setField 0 (s.regs d) (b + v)) with flags := addFlags b v false }
  | .adcImm8 d v =>
      let b := field 0 8 (s.regs d)
      let c := (BitVec.ofBool s.flags.carry).setWidth 8
      { s.setReg d (setField 0 (s.regs d) (b + v + c)) with
        flags := addFlags b v s.flags.carry }
  | .push r => s.pushWord (s.regs r)
  | .pushMem m => s.pushWord (s.memory.load n (s.address m))
  | .pushImm32 v => s.pushWord (v.signExtend _)
  -- the pointer is moved first, so that `pop rsp` keeps what it read
  | .pop d =>
      let sp := s.regs .rsp
      (s.setReg .rsp (sp + BitVec.ofNat _ n)).setReg d (s.memory.load n sp)

def run (code : List (Instr n)) (s : Machine n) : Machine n := code.foldl exec s

theorem run_append (p q : List (Instr n)) (s : Machine n) :
    run (p ++ q) s = run q (run p s) :=
  List.foldl_append

end Libaflmm.X86
