import Libaflmm.ByteMemory
import Mathlib.Logic.Function.Basic

/-!
# The aarch64 machine

The registers, the condition flags and the memory of an aarch64 processor, and
code that has its literals in line. A program is a list of instructions, literal
words and labels; a branch or a literal names the next label of that name further
on. Running into a literal is a fault.
-/

namespace Libaflmm.Aarch64

abbrev Reg := Fin 31

structure Machine where
  x : Reg → BitVec (8 * 8)
  sp : BitVec (8 * 8)
  nzcv : BitVec 4
  v : Fin 32 → BitVec 128
  memory : ByteMemory (8 * 8)

inductive Instr (L : Type) where
  | b (target : L)
  | stpPre (r₁ r₂ : Reg) (offset : BitVec (8 * 8))
  | ldpPost (r₁ r₂ : Reg) (offset : BitVec (8 * 8))
  | ldrLit (d : Reg) (literal : L)
  | ldr (d base : Reg)
  | str (src base : Reg)
  | ldrb (d base : Reg)
  | strb (src base : Reg)
  | eor (d r₁ r₂ : Reg)
  | add (d r₁ r₂ : Reg)
  | addLsr (d r₁ r₂ : Reg) (shift : Nat)
  | addImm32 (d r : Reg) (imm : BitVec 32)
  deriving DecidableEq, Repr

inductive Item (L : Type) where
  | instr (i : Instr L)
  | label (l : L)
  | i64 (v : BitVec 64)
  deriving DecidableEq, Repr

namespace Machine

variable (s : Machine)

def setReg (r : Reg) (v : BitVec (8 * 8)) : Machine := { s with x := Function.update s.x r v }

def write {k : Nat} (a : BitVec (8 * 8)) (v : BitVec (8 * k)) : Machine :=
  { s with memory := s.memory.store a v }

def writeByte (a : BitVec (8 * 8)) (v : BitVec 8) : Machine :=
  { s with memory := Function.update s.memory a v }

end Machine

variable {L : Type} [DecidableEq L]

/-- The word behind the next label `l`. -/
def literal (l : L) : List (Item L) → Option (BitVec 64)
  | [] => none
  | .label l' :: .i64 v :: rest => if l = l' then some v else literal l rest
  | _ :: rest => literal l rest

/-- What an instruction does that is no branch; `rest` is the code behind it. -/
def exec (rest : List (Item L)) (s : Machine) : Instr L → Option Machine
  | .b _ => none
  | .stpPre r₁ r₂ off =>
      let a := s.sp + off
      some (({ s with sp := a }.write a (s.x r₁)).write (a + 8) (s.x r₂))
  | .ldpPost r₁ r₂ off =>
      let s' := (s.setReg r₁ (s.memory.load 8 s.sp)).setReg r₂ (s.memory.load 8 (s.sp + 8))
      some { s' with sp := s.sp + off }
  | .ldrLit d l => (literal l rest).map (s.setReg d)
  | .ldr d r => some (s.setReg d (s.memory.load 8 (s.x r)))
  | .str r a => some (s.write (s.x a) (s.x r))
  | .ldrb d r => some (s.setReg d ((s.memory (s.x r)).setWidth _))
  | .strb r a => some (s.writeByte (s.x a) ((s.x r).setWidth 8))
  | .eor d r₁ r₂ => some (s.setReg d (s.x r₁ ^^^ s.x r₂))
  | .add d r₁ r₂ => some (s.setReg d (s.x r₁ + s.x r₂))
  | .addLsr d r₁ r₂ k => some (s.setReg d (s.x r₁ + s.x r₂ >>> k))
  | .addImm32 d r v => some (s.setReg d (((s.x r).setWidth 32 + v).setWidth _))

/-- Runs to the end of the code. While `skip` has a label, everything before that
label is passed over. -/
def run : (skip : Option L) → List (Item L) → Machine → Option Machine
  | none, [], s => some s
  | some _, [], _ => none
  | none, .label _ :: rest, s => run none rest s
  | some l, .label l' :: rest, s => if l = l' then run none rest s else run (some l) rest s
  | none, .i64 _ :: _, _ => none
  | some l, .i64 _ :: rest, s => run (some l) rest s
  | none, .instr (.b l) :: rest, s => run (some l) rest s
  | none, .instr i :: rest, s => (exec rest s i).bind (run none rest)
  | some l, .instr _ :: rest, s => run (some l) rest s

end Libaflmm.Aarch64
