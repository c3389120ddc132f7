import Libaflmm.HashTables
import Libaflmm.Runs
import Mathlib.Algebra.Group.Nat.Defs
import Mathlib.Data.Nat.Bitwise

/-!
# Edge ids and the size of the QEMU edge map

A translated location gets its id from a generator, which also updates the
number of entries the map observer reads. The code of the location then runs
a tracer with that id, which writes one entry of the map.

This is the instance for maps of variable length (`IS_CONST_MAP` unset). The
metadata of the state and the globals of the edge map make up `QemuEdges`.
Ids and sizes are natural numbers: every id is masked by
`LIBAFL_QEMU_EDGES_MAP_MASK_MAX`, one less than the length of a slice, so that
no sum overflows. In user mode there is no paging id.
-/

namespace Libaflmm

abbrev GuestAddr := UInt64

abbrev GuestPhysAddr := UInt64

/-- Fast hash function for 64 bits integers minimizing collisions. -/
def hash64Fast (x : UInt64) : UInt64 :=
  let x := (x ^^^ (x >>> 30)) * 0xbf58476d1ce4e5b9
  let x := (x ^^^ (x >>> 27)) * 0x94d049bb133111eb
  x ^^^ (x >>> 31)

structure QemuEdgesMapMetadata where
  map : HashMap (GuestAddr × GuestAddr) Nat
  currentId : Nat

namespace QemuEdgesMapMetadata

def new : QemuEdgesMapMetadata where
  map := ∅
  currentId := 0

end QemuEdgesMapMetadata

structure EdgeCoverageModule where
  addressFilter : GuestAddr → Bool
  pageFilter : GuestPhysAddr → Bool

namespace EdgeCoverageModule

def mustInstrumentWithPageId (self : EdgeCoverageModule) (addr : GuestAddr)
    (pageId : Option GuestPhysAddr) : Bool :=
  match pageId with
  | some pageId => self.addressFilter addr && self.pageFilter pageId
  | none => self.addressFilter addr

end EdgeCoverageModule

/-- The metadata of the state and the globals of the edge map. -/
structure QemuEdges where
  metadata : Option QemuEdgesMapMetadata
  /-- the bytes at `LIBAFL_QEMU_EDGES_MAP_PTR` -/
  edgesMap : List UInt8
  /-- `*LIBAFL_QEMU_EDGES_MAP_SIZE_PTR` -/
  edgesMapSize : Nat
  edgesMapMaskMax : Nat
  prevLoc : Nat
  /-- the entries written so far, newest first -/
  hits : List Nat

namespace QemuEdges

/-- The globals after `map_observer`, for a map of `edgesMap.length` entries
whose size was `size`. -/
def mapObserver (edgesMap : List UInt8) (size : Nat) : QemuEdges where
  metadata := none
  edgesMap := edgesMap
  edgesMapSize := size
  edgesMapMaskMax := edgesMap.length - 1
  prevLoc := 0
  hits := []

def getMask (s : QemuEdges) : Nat := s.edgesMapMaskMax

/-! ## Generators -/

structure Edge where
  src : GuestAddr
  dest : GuestAddr
  pagingId : Option GuestPhysAddr

structure Block where
  pc : GuestAddr
  pagingId : Option GuestPhysAddr

def genUniqueEdgeIds (m : EdgeCoverageModule) (e : Edge) (s : QemuEdges) :
    Option (Option Nat × QemuEdges) :=
  -- `assert!(LIBAFL_QEMU_EDGES_MAP_MASK_MAX > 0)`
  if s.edgesMapMaskMax = 0 then none
  else if !m.mustInstrumentWithPageId e.src e.pagingId &&
      !m.mustInstrumentWithPageId e.dest e.pagingId then
    some (none, s)
  else
    let mask := s.getMask
    let metadata := s.metadata.getD QemuEdgesMapMetadata.new
    match metadata.map.lookup (e.src, e.dest) with
    | some id =>
        let nxt := (id + 1) &&& mask
        some (some id,
          { s with metadata := some metadata, edgesMapSize := max s.edgesMapSize nxt })
    | none =>
        let id := metadata.currentId
        let currentId := (id + 1) &&& mask
        let map := metadata.map.insert (e.src, e.dest) id
        some (some id, { s with metadata := some { map, currentId }, edgesMapSize := currentId })

def genHashedEdgeIds (m : EdgeCoverageModule) (e : Edge) (s : QemuEdges) :
    Option Nat × QemuEdges :=
  if !m.mustInstrumentWithPageId e.src e.pagingId &&
      !m.mustInstrumentWithPageId e.dest e.pagingId then
    (none, s)
  else
    let id := (hash64Fast e.src ^^^ hash64Fast e.dest).toNat &&& s.getMask
    (some id, { s with edgesMapSize := max s.edgesMapSize id })

def genHashedBlockIds (m : EdgeCoverageModule) (b : Block) (s : QemuEdges) :
    Option Nat × QemuEdges :=
  if !m.mustInstrumentWithPageId b.pc b.pagingId then (none, s)
  else
    let id := (hash64Fast b.pc).toNat &&& s.getMask
    (some id, { s with edgesMapSize := max s.edgesMapSize id })

/-! ## Tracers -/

def write (i : Nat) (f : UInt8 → UInt8) (s : QemuEdges) : QemuEdges :=
  { s with edgesMap := s.edgesMap.modify i f, hits := i :: s.hits }

def traceEdgeHitcountPtr (id : Nat) (s : QemuEdges) : QemuEdges := s.write id (· + 1)

def traceEdgeSinglePtr (id : Nat) (s : QemuEdges) : QemuEdges := s.write id fun _ => 1

def traceBlockTransitionHitcount (id : Nat) (s : QemuEdges) : QemuEdges :=
  let x := (s.prevLoc ^^^ id) &&& s.edgesMapMaskMax
  { s.write x (· + 1) with prevLoc := id >>> 1 }

def traceBlockTransitionSingle (id : Nat) (s : QemuEdges) : QemuEdges :=
  let x := (s.prevLoc ^^^ id) &&& s.edgesMapMaskMax
  { s.write x (fun _ => 1) with prevLoc := id >>> 1 }

end QemuEdges

end Libaflmm
