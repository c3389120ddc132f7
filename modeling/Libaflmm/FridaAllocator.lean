import Libaflmm.OrderedMaps
import Libaflmm.Runs
import Mathlib.Data.Nat.Bitwise

/-!
# The allocator of the Frida sanitizer

Every allocation has a chunk of its own, with a page in front of it and at least
a page behind it. A byte of shadow has a bit for each of 8 bytes of memory, the
highest one for the first byte, and a bit that is set is memory that may be used.

A chunk that is released stays in the map of the allocations until a reset moves
it to the queue of its size, from which it serves the next allocation it is large
enough for.
-/

namespace Libaflmm

/-- What a page size is to the shadow. -/
structure FridaPageSize where
  bytes : Nat
  pos : 0 < bytes
  granules : 8 ∣ bytes

/-! ## The shadow -/

/-- The bytes of the shadow by their addresses. -/
abbrev FridaShadow := Nat → BitVec 8

namespace FridaShadow

def fill (shadow : FridaShadow) (start len : Nat) (value : BitVec 8) : FridaShadow := fun a =>
  if start ≤ a ∧ a < start + len then value else shadow a

def write (shadow : FridaShadow) (addr : Nat) (value : BitVec 8) : FridaShadow :=
  Function.update shadow addr value

def unpoison (shadow : FridaShadow) (start size : Nat) : FridaShadow :=
  let shadow := shadow.fill start (size / 8) 0xff
  let remainder := size % 8
  if 0 < remainder then
    let addr := start + size / 8
    shadow.write addr (shadow addr ||| (0xff : BitVec 8) <<< (8 - remainder))
  else shadow

def poison (shadow : FridaShadow) (start size : Nat) : FridaShadow :=
  let shadow := shadow.fill start (size / 8) 0x0
  let remainder := size % 8
  if 0 < remainder then
    let addr := start + size / 8
    let mask := ~~~((0xff : BitVec 8) <<< (8 - remainder))
    shadow.write addr (shadow addr &&& mask)
  else shadow

end FridaShadow

/-! ## The allocator -/

structure AllocationMetadata where
  address : Nat
  size : Nat
  actualSize : Nat
  freed : Bool
  isMallocZero : Bool
deriving DecidableEq

structure FridaAllocatorOptions where
  maxAllocation : Nat
  maxTotalAllocation : Nat
  maxAllocationPanics : Bool
  pageSize : FridaPageSize
  allocationGranularity : Nat
  shadowOffset : Nat
  shadowBit : Nat

/-- `mappings` has the address and the length of the mapping of each chunk. -/
structure FridaAllocator where
  options : FridaAllocatorOptions
  shadow : FridaShadow
  allocations : OrderedMap Nat AllocationMetadata
  allocationQueue : OrderedMap Nat (List AllocationMetadata)
  mappings : List (Nat × Nat)
  largestAllocation : Nat
  totalAllocationSize : Nat
  currentMappingAddr : Nat

/-- What the operating system maps for an address to try and a length. -/
abbrev Mmap := Nat → Nat → Option Nat

/-- A size of 0 is one of 16. -/
def allocatedSize (size : Nat) : Nat := if size = 0 then 16 else size

namespace FridaAllocatorOptions

variable (options : FridaAllocatorOptions)

def mapToShadow (address : Nat) : Nat :=
  options.shadowOffset + ((address >>> 3) &&& ((1 <<< (options.shadowBit + 1)) - 1))

/-- A multiple of the page size goes up to the next one. -/
def roundUpToPage (size : Nat) : Nat :=
  (size + options.pageSize.bytes) / options.pageSize.bytes * options.pageSize.bytes

/-- A size that overflows panics, or unpoisons more than there is. -/
def roundedUpSize (size : Nat) : Option Nat :=
  let rounded := options.roundUpToPage size + 2 * options.pageSize.bytes
  if rounded < 2 ^ 64 then some rounded else none

def nextMappingAddr (current size : Nat) : Nat :=
  current + (size + options.allocationGranularity) / options.allocationGranularity *
    options.allocationGranularity

end FridaAllocatorOptions

namespace FridaAllocator

variable (a : FridaAllocator)

/-- The chunk, and the queues without it. -/
def findSmallestFit (size : Nat) :
    Option (AllocationMetadata × OrderedMap Nat (List AllocationMetadata)) :=
  (a.allocationQueue.entries.find? fun e => size ≤ e.1 ∧ e.2 ≠ []).bind fun e =>
    e.2.getLast?.map fun metadata => (metadata, a.allocationQueue.insert e.1 e.2.dropLast)

def serve (metadata : AllocationMetadata) : Nat × FridaAllocator :=
  let address := metadata.address + a.options.pageSize.bytes
  (address, { a with
    largestAllocation := max a.largestAllocation metadata.actualSize
    shadow := a.shadow.unpoison (a.options.mapToShadow address) metadata.size
    allocations := a.allocations.insert address metadata })

/-- A null pointer is 0, and `none` is a panic. -/
def alloc (size : Nat) (mmap : Mmap) : Option (Nat × FridaAllocator) :=
  let isMallocZero := decide (size = 0)
  let size := allocatedSize size
  if a.options.maxAllocation < size then
    if a.options.maxAllocationPanics then none else some (0, a)
  else
    (a.options.roundedUpSize size).map fun roundedUpSize =>
      let total := (a.totalAllocationSize + roundedUpSize) % 2 ^ 64
      if a.options.maxTotalAllocation < total then (0, a)
      else
        let a := { a with totalAllocationSize := total }
        match a.findSmallestFit roundedUpSize with
        | some (metadata, allocationQueue) =>
          { a with allocationQueue }.serve { metadata with isMallocZero, size }
        | none =>
          match mmap a.currentMappingAddr roundedUpSize with
          | none => (0, a)
          | some address =>
            { a with
              currentMappingAddr :=
                a.options.nextMappingAddr a.currentMappingAddr roundedUpSize
              mappings := (address, roundedUpSize) :: a.mappings
            }.serve ⟨address, size, roundedUpSize, false, false⟩

/-- A report of an error may crash the target. -/
def release (ptr : Nat) (reportError : Bool) : Option FridaAllocator :=
  match a.allocations.find? ptr with
  | none => if ptr ≠ 0 ∧ reportError = true then none else some a
  | some metadata =>
    if metadata.freed = true ∧ reportError = true then none
    else
      some { a with
        allocations := a.allocations.insert ptr { metadata with freed := true }
        shadow := a.shadow.poison (a.options.mapToShadow ptr) metadata.size }

/-- What a reset keeps while it takes the allocations. -/
structure Resetting where
  shadow : FridaShadow
  allocationQueue : OrderedMap Nat (List AllocationMetadata)
  tmpAllocations : List AllocationMetadata

def Resetting.take (options : FridaAllocatorOptions) (r : Resetting)
    (e : Nat × AllocationMetadata) : Resetting :=
  let (address, allocation) := e
  if allocation.freed then
    { r with
      shadow := r.shadow.poison (options.mapToShadow address) allocation.size
      allocationQueue := r.allocationQueue.push allocation.actualSize
        { allocation with size := 0, freed := false } }
  else { r with tmpAllocations := r.tmpAllocations ++ [allocation] }

def reset : FridaAllocator :=
  let r := a.allocations.entries.foldl (Resetting.take a.options)
    ⟨a.shadow, a.allocationQueue, []⟩
  let entries := r.tmpAllocations.map fun allocation =>
    (allocation.address + a.options.pageSize.bytes, allocation)
  { a with
    shadow := r.shadow
    allocationQueue := r.allocationQueue
    allocations := entries.foldl (fun m e => m.insert e.1 e.2) .empty
    totalAllocationSize := 0 }

end FridaAllocator

/-! ## Runs -/

inductive FridaAllocatorCall where
  | alloc (size : Nat) (mmap : Mmap)
  | release (ptr : Nat) (reportError : Bool)
  | reset

/-- An allocator, and the address and the size of each allocation that has been
returned and not released. -/
structure FridaAllocatorRun where
  allocator : FridaAllocator
  live : List (Nat × Nat)

namespace FridaAllocatorRun

def new (options : FridaAllocatorOptions) (shadow : FridaShadow) (baseMappingAddr : Nat) :
    FridaAllocatorRun :=
  ⟨⟨options, shadow, .empty, .empty, [], 0, 0, baseMappingAddr⟩, []⟩

def step (r : FridaAllocatorRun) : FridaAllocatorCall → Option FridaAllocatorRun
  | .alloc size mmap => (r.allocator.alloc size mmap).map fun (ptr, a) =>
    ⟨a, if ptr = 0 then r.live else (ptr, allocatedSize size) :: r.live⟩
  | .release ptr reportError => (r.allocator.release ptr reportError).map fun a =>
    ⟨a, r.live.filter fun allocation => allocation.1 ≠ ptr⟩
  | .reset => some ⟨r.allocator.reset, r.live⟩

end FridaAllocatorRun

/-! ## What the shadow says -/

namespace FridaAllocator

variable (a : FridaAllocator)

def Unpoisoned (address : Nat) : Prop :=
  (a.shadow (a.options.mapToShadow address)).getLsbD (7 - address % 8) = true

/-- The addresses whose shadow is their own. -/
def addressLimit : Nat := 2 ^ (a.options.shadowBit + 4)

end FridaAllocator

/-- The address is in the interval of an address and a length. -/
def InInterval (address : Nat) (interval : Nat × Nat) : Prop :=
  interval.1 ≤ address ∧ address < interval.1 + interval.2

/-- A fresh mapping is page-aligned, disjoint from the others, and its shadow is
zero. -/
structure FridaAllocator.Fresh (a : FridaAllocator) (mapping : Nat × Nat) : Prop where
  aligned : a.options.pageSize.bytes ∣ mapping.1
  within : mapping.1 + mapping.2 ≤ a.addressLimit
  disjoint : ∀ m ∈ a.mappings, mapping.1 + mapping.2 ≤ m.1 ∨ m.1 + m.2 ≤ mapping.1
  zeroed : ∀ address, InInterval address mapping →
    a.shadow (a.options.mapToShadow address) = 0

/-- The mapping that a call may get is fresh. -/
def FridaAllocatorRun.MapsFresh (r : FridaAllocatorRun) : FridaAllocatorCall → Prop
  | .alloc size mmap => ∀ len address,
    r.allocator.options.roundedUpSize (allocatedSize size) = some len →
    mmap r.allocator.currentMappingAddr len = some address → r.allocator.Fresh (address, len)
  | _ => True

/-- A whole page between two allocations is poisoned. -/
def FridaAllocator.Separated (a : FridaAllocator) (u v : Nat × Nat) : Prop :=
  ∃ page, a.options.pageSize.bytes ∣ page ∧
    u.1 + u.2 ≤ page ∧ page + a.options.pageSize.bytes ≤ v.1 ∧
    ∀ address, InInterval address (page, a.options.pageSize.bytes) → ¬a.Unpoisoned address

/-- The address and the length of the chunk. -/
def AllocationMetadata.chunk (metadata : AllocationMetadata) : Nat × Nat :=
  (metadata.address, metadata.actualSize)

/-- The chunks in the allocation map and in the reuse queue. -/
def FridaAllocator.chunks (a : FridaAllocator) : List (Nat × Nat) :=
  (a.allocations.entries.map (·.2) ++ a.allocationQueue.flat).map AllocationMetadata.chunk

/-- **The shadow is exact**: in the mappings a byte is unpoisoned if and only if it
is in a live allocation, live allocations are apart, and each chunk is in one
place. -/
structure FridaAllocatorRun.Exact (r : FridaAllocatorRun) : Prop where
  shadow : ∀ address, (∃ m ∈ r.allocator.mappings, InInterval address m) →
    (r.allocator.Unpoisoned address ↔ ∃ allocation ∈ r.live, InInterval address allocation)
  separated : r.live.Pairwise fun u v => r.allocator.Separated u v ∨ r.allocator.Separated v u
  chunks : r.allocator.chunks.Perm r.allocator.mappings
  nodup : (r.allocator.chunks.map (·.1)).Nodup

end Libaflmm
