import Libaflmm.Aarch64Machine
import Libaflmm.EdgeCounts
import Libaflmm.X86Machine

/-!
# The coverage runtime of Frida

Stalker copies each block of the target it is about to run, and the runtime puts
in front of every copy some code that counts the edge to this block. The code is
written by hand for x86_64, x86 and aarch64. The map and the previous location
are in the pinned runtime, whose addresses the code has in it; what the code
needs of the target's registers it saves below the red zone of the stack.

Between two blocks the target does what it likes, as long as it leaves the
runtime's memory alone and has its stack elsewhere.
-/

namespace Libaflmm

/-- The default map size. -/
def MAP_SIZE : Nat := 64 * 1024

/-- The addresses of the fields of the pinned runtime. -/
structure CoverageRuntimeInner (n : Nat) where
  map : BitVec (8 * n)
  previousPc : BitVec (8 * n)
  apart : RangesApart map MAP_SIZE previousPc 8

namespace CoverageRuntime

variable {n : Nat} (inner : CoverageRuntimeInner n)

/-- The memory of the runtime. -/
def InRuntime (x : BitVec (8 * n)) : Prop :=
  InRange inner.map MAP_SIZE x ∨ InRange inner.previousPc 8 x

instance (x : BitVec (8 * n)) : Decidable (InRuntime inner x) :=
  inferInstanceAs (Decidable (_ ∨ _))

/-- `CoverageRuntime::new`: the map and the previous location are zero. -/
def new (m : ByteMemory (8 * n)) : ByteMemory (8 * n) := fun x =>
  if InRuntime inner x then 0 else m x

/-- What clears the map between two runs. -/
def clearMap (m : ByteMemory (8 * n)) : ByteMemory (8 * n) := fun x =>
  if InRange inner.map MAP_SIZE x then 0 else m x

/-- The bytes that the code may use for what it saves. -/
def InScratch (sp x : BitVec (8 * n)) : Prop := InRange (sp - 0x98#(8 * n)) 0x18 x

/-! ## The code for x86_64 and x86 -/

section X86

open X86

/-- `[rsp - d]` -/
def belowSp (d : Nat) : Address n := ⟨some .rsp, none, 1, -BitVec.ofNat _ d, false⟩

/-- `[r]` -/
def atReg (r : Gpr) : Address n := ⟨some r, none, 1, 0, false⟩

def storeContext : List (Instr n) :=
  [.movStore (belowSp 0x88) .rax,
    .lahf,
    .movStore (belowSp 0x90) .rax,
    .movStore (belowSp 0x98) .rbx]

def loadMapByteAddress (loc : BitVec 32) : List (Instr n) :=
  -- load the previous_pc
  [.movImm .rax inner.previousPc,
    .movLoad .rax (atReg .rax),
    -- calculate the edge id
    .movImm32 .rbx loc,
    .xor .rax .rbx,
    -- load the map byte address
    .movImm .rbx inner.map,
    .add .rax .rbx]

def updateMapByte : List (Instr n) :=
  [.movLoad8 .rbx (atReg .rax),
    .addImm8 .rbx 1,
    .adcImm8 .rbx 0,
    .movStore8 (atReg .rax) .rbx]

def updatePreviousPc (loc : BitVec 32) : List (Instr n) :=
  [.movImm .rax inner.previousPc,
    .movImm32 .rbx loc,
    .movStore (atReg .rax) .rbx]

def restoreContext : List (Instr n) :=
  [.movLoad .rbx (belowSp 0x98),
    .movLoad .rax (belowSp 0x90),
    .sahf,
    .movLoad .rax (belowSp 0x88)]

/-- The code that counts the edge to `loc` and leaves `next` as the previous location. -/
def inlineCode (loc next : BitVec 32) : List (Instr n) :=
  storeContext ++ (loadMapByteAddress inner loc ++ (updateMapByte ++
    (updatePreviousPc inner next ++ restoreContext)))

/-- `generate_inline_code` for x86_64. -/
def generateInlineCodeX86_64 (inner : CoverageRuntimeInner 8) (h64 : BitVec 64) : List (Instr 8) :=
  inlineCode inner (h64.setWidth 32) ((h64 >>> 1).setWidth 32)

/-- `generate_inline_code` for x86, where the previous location is not shifted. -/
def generateInlineCodeX86 (inner : CoverageRuntimeInner 4) (h32 : BitVec 64) : List (Instr 4) :=
  let h32 := h32.setWidth 32
  inlineCode inner h32 h32

end X86

/-! ## The code for aarch64 -/

section Aarch64

open Aarch64

inductive Label where
  | start | mapAddr | previousLoc | loc | locShr | end_
  deriving DecidableEq, Repr

/-- The bytes that go back into a stack pointer with `sp - 0x90`. -/
def spill : Instr Label := .stpPre 16 17 (-0x90)

def storeContextAarch64 : List (Item Label) :=
  [.instr (.b .start),
    .instr spill,
    .label .start]

def countEdgeAarch64 : List (Item Label) :=
  -- load the previous_pc
  [.instr (.ldrLit 17 .previousLoc),
    .instr (.ldr 17 17),
    -- calculate the edge id
    .instr (.ldrLit 16 .loc),
    .instr (.eor 16 17 16),
    -- load the map byte address
    .instr (.ldrLit 17 .mapAddr),
    .instr (.add 16 17 16),
    -- update the map byte
    .instr (.ldrb 17 16),
    .instr (.addImm32 17 17 1),
    .instr (.addLsr 17 17 17 8),
    .instr (.strb 17 16)]

def updatePreviousPcAarch64 : List (Item Label) :=
  [.instr (.ldrLit 16 .locShr),
    .instr (.ldrLit 17 .previousLoc),
    .instr (.str 16 17)]

def restoreContextAarch64 : List (Item Label) :=
  [.instr (.ldpPost 16 17 0x90),
    -- skip the data
    .instr (.b .end_)]

def dataAarch64 (inner : CoverageRuntimeInner 8) (h64 : BitVec 64) : List (Item Label) :=
  [.label .mapAddr, .i64 inner.map,
    .label .previousLoc, .i64 inner.previousPc,
    .label .loc, .i64 h64,
    .label .locShr, .i64 (h64 >>> 1),
    .label .end_]

/-- `generate_inline_code` for aarch64. -/
def generateInlineCodeAarch64 (inner : CoverageRuntimeInner 8) (h64 : BitVec 64) :
    List (Item Label) :=
  storeContextAarch64 ++ (countEdgeAarch64 ++ (updatePreviousPcAarch64 ++
    (restoreContextAarch64 ++ dataAarch64 inner h64)))

/-- How Stalker branches to a block. A near branch skips the first instruction. A
long branch needs registers, so it spills `x16` and `x17` below the red zone, and
leaves in them what it used them for. -/
inductive Branch where
  | near
  | long (x16 x17 : BitVec 64)

/-- The code of a block runs after a branch to it. The emitted code stands where
Stalker has put its own prologue, which would take the spilled registers back. -/
def enterBlock (code : List (Item Label)) (s : Machine) : Branch → Option Machine
  | .near => Aarch64.run none (code.drop 1) s
  | .long x16 x17 =>
      (exec code s spill).bind fun s => Aarch64.run none code ((s.setReg 16 x16).setReg 17 x17)

end Aarch64

/-! ## Platforms -/

/-- What is different from one processor to another: its states, what of them the
code has to leave as it was, how control comes to a block, and what the code does
that is generated for a block with this hash. -/
structure Platform (n : Nat) where
  State : Type
  Context : Type
  Entry : Type
  memory : State → ByteMemory (8 * n)
  withMemory : State → ByteMemory (8 * n) → State
  sp : State → BitVec (8 * n)
  context : State → Context
  inline : CoverageRuntimeInner n → BitVec 64 → Entry → State → Option State

/-- The general registers, the vector registers, and the flags that `lahf` saves. -/
structure X86Context (n : Nat) where
  regs : X86.Gpr → BitVec (8 * n)
  xmm : Fin 16 → BitVec 128
  carry : Bool
  parity : Bool
  adjust : Bool
  zero : Bool
  sign : Bool

def X86Context.of (s : X86.Machine n) : X86Context n where
  regs := s.regs
  xmm := s.xmm
  carry := s.flags.carry
  parity := s.flags.parity
  adjust := s.flags.adjust
  zero := s.flags.zero
  sign := s.flags.sign

def x86Platform (code : CoverageRuntimeInner n → BitVec 64 → List (X86.Instr n)) : Platform n where
  State := X86.Machine n
  Context := X86Context n
  Entry := Unit
  memory s := s.memory
  withMemory s m := { s with memory := m }
  sp s := s.regs .rsp
  context := X86Context.of
  inline inner h _ s := some (X86.run (code inner h) s)

def x86_64 : Platform 8 := x86Platform generateInlineCodeX86_64

def x86 : Platform 4 := x86Platform generateInlineCodeX86

structure Aarch64Context where
  x : Aarch64.Reg → BitVec 64
  sp : BitVec 64
  nzcv : BitVec 4
  v : Fin 32 → BitVec 128

def aarch64 : Platform 8 where
  State := Aarch64.Machine
  Context := Aarch64Context
  Entry := Branch
  memory s := s.memory
  withMemory s m := { s with memory := m }
  sp s := s.sp
  context s := ⟨s.x, s.sp, s.nzcv, s.v⟩
  inline inner h e s := enterBlock (generateInlineCodeAarch64 inner h) s e

/-! ## Runs -/

/-- `u64::to_le_bytes` -/
def toLeBytes (v : BitVec 64) : List (BitVec 8) :=
  (List.range 8).map fun i => v.extractLsb' (8 * i) 8

variable (P : Platform n) (hashStd : List (BitVec 8) → BitVec 64)

/-- The code that `emit_coverage_mapping` puts in front of the block at `address`. -/
def emitCoverageMapping (address : BitVec 64) : P.Entry → P.State → Option P.State :=
  let h64 := hashStd (toLeBytes address)
  P.inline inner (h64 &&& (BitVec.ofNat 64 MAP_SIZE - 1))

/-- What the target does before a block: it leaves the runtime's memory alone, and
then its stack is not in that memory. -/
structure TargetStep where
  run : P.State → P.State
  keeps : ∀ s x, InRuntime inner x → P.memory (run s) x = P.memory s x
  apart : ∀ s x, InScratch (P.sp (run s)) x → ¬InRuntime inner x

/-- A block that is executed, with what the target did since the last one. -/
structure BlockEntry where
  target : TargetStep inner P
  address : BitVec 64
  entry : P.Entry

variable {inner P}

def runBlock (s : P.State) (b : BlockEntry inner P) : Option P.State :=
  emitCoverageMapping inner P hashStd b.address b.entry (b.target.run s)

/-- One run of the target, from a cleared map. -/
def runTarget (s : P.State) (blocks : List (BlockEntry inner P)) : Option P.State :=
  blocks.foldlM (runBlock hashStd) (P.withMemory s (clearMap inner (P.memory s)))

/-- Runs of the target, from a new runtime. -/
def runTargets (s : P.State) (runs : List (List (BlockEntry inner P))) : Option P.State :=
  runs.foldlM (runTarget hashStd) (P.withMemory s (new inner (P.memory s)))

/-- The entry of the coverage map. -/
def mapEntry (inner : CoverageRuntimeInner n) (s : P.State) (i : BitVec 16) : BitVec 8 :=
  P.memory s (inner.map + i.setWidth _)

/-- The block hash, masked to the map size. -/
def blockHash (b : BlockEntry inner P) : BitVec 16 :=
  (hashStd (toLeBytes b.address)).setWidth 16

end CoverageRuntime

end Libaflmm
