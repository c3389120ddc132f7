import Libaflmm.HashTables
import Libaflmm.IntervalTrees
import Libaflmm.Strides

/-!
# Snapshots of a user-mode guest

`SnapshotModule` remembers the mappings and the pages of a guest, and follows
what the guest does to them: the pages it writes to, per thread, and the
mappings it makes, changes and removes.

The guest memory is a partial function from page addresses. Without a filter
(`SnapshotModule::new`, `with_mmap_limit`) every page is part of the snapshot.
Sums of addresses and sizes do not overflow.
-/

namespace Libaflmm

def SNAPSHOT_PAGE_SIZE : Nat := 4096

inductive MmapPerms
  | none
  | read
  | write
  | execute
  | readWrite
  | readExecute
  | writeExecute
  | readWriteExecute
deriving DecidableEq

namespace MmapPerms

def readable : MmapPerms → Bool
  | read | readWrite | readExecute | readWriteExecute => true
  | none | write | execute | writeExecute => false

def writable : MmapPerms → Bool
  | write | readWrite | writeExecute | readWriteExecute => true
  | none | read | execute | readExecute => false

end MmapPerms

abbrev PageData := Fin SNAPSHOT_PAGE_SIZE → UInt8

structure GuestPage where
  perms : MmapPerms
  data : PageData

/-- The user-mode state of QEMU. -/
structure Qemu where
  /-- the mapped pages, by their address -/
  memory : Nat → Option GuestPage
  brk : Nat
  initialBrk : Nat
  mmapStart : Nat

namespace Qemu

/-- Reads a page, when it is mapped and readable. -/
def readMem (page : Nat) (qemu : Qemu) : Option PageData :=
  match qemu.memory page with
  | some p => if p.perms.readable then some p.data else none
  | none => none

end Qemu

/-- An entry of `qemu.mappings()`. -/
structure MapInfo where
  start : Nat
  stop : Nat
  flags : MmapPerms
  isPriv : Bool

structure SnapshotPageInfo where
  addr : Nat
  perms : MmapPerms
  isPrivate : Bool
  data : Option PageData

structure SnapshotAccessInfo where
  accessCache : Fin 4 → Nat
  accessCacheIdx : Fin 4
  dirty : HashSet Nat

namespace SnapshotAccessInfo

def default : SnapshotAccessInfo where
  accessCache := fun _ => 0
  accessCacheIdx := 0
  dirty := ∅

/-- `GuestAddr::MAX` -/
def addrMax : Nat := 2 ^ 64 - 1

def clear (_ : SnapshotAccessInfo) : SnapshotAccessInfo where
  accessCache := fun _ => addrMax
  accessCacheIdx := 0
  dirty := ∅

/-- What `page_access` does to the pages of its thread. -/
def record (acc : SnapshotAccessInfo) (page : Nat) : SnapshotAccessInfo :=
  if acc.accessCache 0 = page ∨ acc.accessCache 1 = page ∨ acc.accessCache 2 = page ∨
      acc.accessCache 3 = page then acc
  else
    { accessCache := Function.update acc.accessCache acc.accessCacheIdx page
      accessCacheIdx := acc.accessCacheIdx + 1
      dirty := acc.dirty.insert page () }

end SnapshotAccessInfo

structure MemoryRegionInfo where
  perms : Option MmapPerms
  changed : Bool
deriving DecidableEq

structure MappingInfo (T : Type → Type) where
  tree : T MemoryRegionInfo
  size : Nat

structure SnapshotModule (T : Type → Type) where
  /-- by thread -/
  accesses : HashMap Nat SnapshotAccessInfo
  maps : MappingInfo T
  newMaps : MappingInfo T
  pages : HashMap Nat SnapshotPageInfo
  initialBrk : Nat
  brk : Nat
  mmapStart : Nat
  mmapLimit : Nat
  /-- whether there is a callback -/
  stopExecution : Bool
  empty : Bool

namespace SnapshotModule

variable {T : Type → Type} [IntervalTree T]

def new : SnapshotModule T where
  accesses := ∅
  maps := ⟨IntervalTree.empty, 0⟩
  newMaps := ⟨IntervalTree.empty, 0⟩
  pages := ∅
  initialBrk := 0
  brk := 0
  mmapStart := 0
  mmapLimit := 0
  stopExecution := false
  empty := true

def withMmapLimit (mmapLimit : Nat) : SnapshotModule T where
  accesses := ∅
  maps := ⟨IntervalTree.empty, 0⟩
  newMaps := ⟨IntervalTree.empty, 0⟩
  pages := ∅
  initialBrk := 0
  brk := 0
  mmapStart := 0
  mmapLimit := mmapLimit
  stopExecution := true
  empty := true

/-! ## Taking a snapshot -/

/-- The body of the loop over the pages of a mapping; `none` where the page
cannot be read. -/
def snapshotPage (qemu : Qemu) (map : MapInfo) (self : SnapshotModule T) (addr : Nat) :
    Option (SnapshotModule T) :=
  let insertPage (data : Option PageData) : SnapshotModule T :=
    let info := { addr, perms := map.flags, isPrivate := map.isPriv, data }
    { self with pages := self.pages.insert addr info }
  if map.flags.readable then (qemu.readMem addr).map fun data => insertPage (some data)
  else some (insertPage none)

def snapshotMap (qemu : Qemu) (self : SnapshotModule T) (map : MapInfo) :
    Option (SnapshotModule T) := do
  let self ← (strided SNAPSHOT_PAGE_SIZE map.start map.stop).foldlM (snapshotPage qemu map) self
  let tree := IntervalTree.insert ⟨map.start, map.stop⟩
    { perms := some map.flags, changed := false } self.maps.tree
  pure { self with maps := ⟨tree, self.maps.size + (map.stop - map.start)⟩ }

/-- `mappings` is what `qemu.mappings()` lists. -/
def snapshot (qemu : Qemu) (mappings : List MapInfo) (self : SnapshotModule T) :
    Option (SnapshotModule T) := do
  let self := { self with
    brk := qemu.brk, initialBrk := qemu.initialBrk, mmapStart := qemu.mmapStart
    pages := ∅, accesses := self.accesses.mapValues SnapshotAccessInfo.clear }
  let self ← mappings.foldlM (snapshotMap qemu) self
  pure { self with empty := false, newMaps := self.maps }

/-! ## Accesses -/

def accessInfo (thread : Nat) (self : SnapshotModule T) : SnapshotAccessInfo :=
  (self.accesses.lookup thread).getD SnapshotAccessInfo.default

def pageAccess (thread page : Nat) (self : SnapshotModule T) : SnapshotModule T :=
  let acc := self.accessInfo thread
  let acc :=
    if acc.accessCache 0 = page ∨ acc.accessCache 1 = page ∨ acc.accessCache 2 = page ∨
        acc.accessCache 3 = page then acc
    else
      { accessCache := Function.update acc.accessCache acc.accessCacheIdx page
        accessCacheIdx := acc.accessCacheIdx + 1
        dirty := acc.dirty.insert page () }
  { self with accesses := self.accesses.insert thread acc }

def pageAccessNoCache (thread page : Nat) (self : SnapshotModule T) : SnapshotModule T :=
  let acc := self.accessInfo thread
  let acc := { acc with dirty := acc.dirty.insert page () }
  { self with accesses := self.accesses.insert thread acc }

/-- The pages of an access; its size is not 0. -/
def accessPages (addr size : Nat) : List Nat :=
  let start := addr - addr % SNAPSHOT_PAGE_SIZE
  let stop := (addr + size - 1) - (addr + size - 1) % SNAPSHOT_PAGE_SIZE
  strided SNAPSHOT_PAGE_SIZE start (stop + 1)

def access (thread addr size : Nat) (self : SnapshotModule T) : SnapshotModule T :=
  (accessPages addr size).foldl (fun self page => self.pageAccess thread page) self

/-- What a snapshot and a reset do to the accesses of the threads there are. -/
def clearAccesses (self : SnapshotModule T) : SnapshotModule T :=
  { self with accesses := self.accesses.mapValues SnapshotAccessInfo.clear }

/-! ## Mappings -/

/-- A size, rounded up to whole pages. -/
def roundUp (size : Nat) : Nat :=
  if size % SNAPSHOT_PAGE_SIZE = 0 then size
  else size + (SNAPSHOT_PAGE_SIZE - size % SNAPSHOT_PAGE_SIZE)

/-- The range of whole pages from `start`. -/
def range (start size : Nat) : Interval := ⟨start, start + roundUp size⟩

def isUnmapAllowed (start size : Nat) (self : SnapshotModule T) : Bool :=
  (IntervalTree.query (range start size) self.maps.tree).isEmpty

/-- Whether the callback is called, and the new state; `none` where it is missing. -/
def addMapped (start size : Nat) (perms : Option MmapPerms) (self : SnapshotModule T) :
    Option (Bool × SnapshotModule T) :=
  if size = 0 then some (false, self)
  else
    let tree := IntervalTree.insert (range start size) { perms, changed := true } self.newMaps.tree
    let totalSize := self.newMaps.size + roundUp size
    let self := { self with newMaps := ⟨tree, totalSize⟩ }
    if self.mmapLimit ≠ 0 ∧ self.mmapLimit < totalSize then
      if self.stopExecution then some (true, self) else none
    else some (false, self)

/-- One entry `i` of those that overlap `interval`: it is deleted, and what lies
outside `interval` is inserted again. -/
def splitMapped (interval i : Interval) (perms : Option MmapPerms) (tree : T MemoryRegionInfo) :
    Option (T MemoryRegionInfo) := do
  let overlap ← i.intersect interval
  let tree := IntervalTree.delete i tree
  let tree :=
    if i.start < overlap.start then
      IntervalTree.insert ⟨i.start, overlap.start⟩ { perms, changed := true } tree
    else tree
  let tree :=
    if overlap.stop < i.stop then
      IntervalTree.insert ⟨overlap.stop, i.stop⟩ { perms, changed := true } tree
    else tree
  pure tree

def changeMappedPerms (start size : Nat) (perms : Option MmapPerms) (self : SnapshotModule T) :
    Option (SnapshotModule T) := do
  let interval := range start size
  let found := (IntervalTree.query interval self.newMaps.tree).map fun e => (e.1, e.2.perms)
  let tree ← found.foldlM (fun tree (i, perms) => splitMapped interval i perms tree)
    self.newMaps.tree
  let tree := IntervalTree.insert interval { perms, changed := true } tree
  pure { self with newMaps := { self.newMaps with tree } }

def removeMapped (thread start size : Nat) (self : SnapshotModule T) :
    Option (SnapshotModule T) := do
  let interval := range start size
  let found := (IntervalTree.query interval self.newMaps.tree).map fun e => (e.1, e.2.perms)
  found.foldlM (fun self (i, perms) => do
    let tree ← splitMapped interval i perms self.newMaps.tree
    let self := (strided SNAPSHOT_PAGE_SIZE i.start i.stop).foldl
      (fun self page => self.pageAccessNoCache thread page) self
    pure { self with newMaps := { self.newMaps with tree } }) self

end SnapshotModule

end Libaflmm
