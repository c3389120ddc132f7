import Libaflmm.FridaAllocatorExact

/-!
# The heap hooks of the Frida sanitizer

The hooks for `calloc` and the reallocations on top of the allocator, with the
bytes of memory and the intervals the hooks have written. `none` is a panic or a
write through a null pointer.

`hook_realloc` is the one that looks at what the allocator returns. `hook_calloc`
clears null as well, and the product of its arguments wraps; `hook__o_realloc`
releases the old block when there is no new one; and the two hooks for Windows
copy the whole old block, clear what they have copied when zeroed memory is asked
for, and have no answer for a block that must not move.
-/

namespace Libaflmm

structure FridaHeap where
  allocator : FridaAllocator
  memory : Nat → UInt8
  written : List (Nat × Nat)

/-- What the hooks are called with besides their arguments; `original` is the
function that was hooked, and `apple` the target vendor. -/
structure HookEnv where
  mmap : Mmap
  reportError : Bool
  baseMappingAddr : Nat
  apple : Bool
  original : FridaHeap → Option (Nat × FridaHeap)

namespace FridaHeap

variable (h : FridaHeap)

def alloc (size : Nat) (mmap : Mmap) : Option (Nat × FridaHeap) :=
  (h.allocator.alloc size mmap).map fun (ptr, allocator) => (ptr, { h with allocator })

def release (ptr : Nat) (reportError : Bool) : Option FridaHeap :=
  (h.allocator.release ptr reportError).map fun allocator => { h with allocator }

def isManaged (baseMappingAddr ptr : Nat) : Bool :=
  baseMappingAddr ≤ ptr ∧ ptr < h.allocator.currentMappingAddr

/-- It panics on a pointer that was not allocated. -/
def getUsableSize (ptr : Nat) : Option Nat := (h.allocator.allocations.find? ptr).map (·.size)

/-- Without a byte to write any pointer will do. -/
def write (dest len : Nat) (byte : Nat → UInt8) : Option FridaHeap :=
  if len = 0 then some h
  else if dest = 0 then none
  else some { h with
    memory := fun x => if dest ≤ x ∧ x < dest + len then byte (x - dest) else h.memory x
    written := (dest, len) :: h.written }

def memset (s : Nat) (c : UInt8) (n : Nat) : Option FridaHeap := h.write s n fun _ => c

/-- `memcpy`, and `copy_to` with its arguments the other way round. -/
def memcpy (dest src n : Nat) : Option FridaHeap := h.write dest n fun i => h.memory (src + i)

/-! ## The hooks -/

def hookCalloc (env : HookEnv) (nmemb size : Nat) : Option (Nat × FridaHeap) := do
  let (ret, h) ← h.alloc (size * nmemb % 2 ^ 64) env.mmap
  let h ← h.memset ret 0 (size * nmemb % 2 ^ 64)
  return (ret, h)

/-- `hook__o_calloc` -/
def hookOCalloc (env : HookEnv) (nmemb size : Nat) : Option (Nat × FridaHeap) :=
  h.hookCalloc env nmemb size

def hookRealloc (env : HookEnv) (ptr size : Nat) : Option (Nat × FridaHeap) :=
  if size = 0 then do
    let h ← h.release ptr env.reportError
    if env.apple then h.alloc 0 env.mmap else return (0, h)
  else do
    let (ret, h) ← h.alloc size env.mmap
    if ptr ≠ 0 ∧ ret ≠ 0 then
      let oldSize ← h.getUsableSize ptr
      let copySize := if size < oldSize then size else oldSize
      let h ← h.memcpy ret ptr copySize
      let h ← h.release ptr env.reportError
      return (ret, h)
    else
      return (ret, h)

/-- `hook__o_realloc` -/
def hookORealloc (env : HookEnv) (ptr size : Nat) : Option (Nat × FridaHeap) := do
  let (ret, h) ← h.alloc size env.mmap
  let h ←
    if ptr ≠ 0 ∧ ret ≠ 0 then do
      let oldSize ← h.getUsableSize ptr
      let copySize := if size < oldSize then size else oldSize
      h.memcpy ret ptr copySize
    else
      some h
  let h ← h.release ptr env.reportError
  return (ret, h)

def hookHeapReAlloc (env : HookEnv) (flags : UInt32) (ptr size : Nat) :
    Option (Nat × FridaHeap) :=
  if ¬ h.isManaged env.baseMappingAddr ptr then
    env.original h
  else do
    let (ret, h) ← h.alloc size env.mmap
    let oldSize ← h.getUsableSize ptr
    let h ← h.memcpy ret ptr oldSize
    let h ← h.release ptr env.reportError
    let h ← if flags &&& 8 = 8 then h.memset ret 0 size else some h
    if flags &&& 4 = 4 ∧ ret = 0 then none
    else if flags &&& 0x10 = 0x10 ∧ ret ≠ ptr then none
    else return (ret, h)

/-- `hook_RtlReAllocateHeap` -/
def hookRtlReAllocateHeap (env : HookEnv) (flags : UInt32) (ptr size : Nat) :
    Option (Nat × FridaHeap) :=
  h.hookHeapReAlloc env flags ptr size

end FridaHeap

/-- The calls of the hooks. -/
inductive HeapHook
  | calloc (nmemb size : Nat)
  | oCalloc (nmemb size : Nat)
  | realloc (ptr size : Nat)
  | oRealloc (ptr size : Nat)
  | heapReAlloc (flags : UInt32) (ptr size : Nat)
  | rtlReAllocateHeap (flags : UInt32) (ptr size : Nat)

def HeapHook.exec (env : HookEnv) (h : FridaHeap) : HeapHook → Option (Nat × FridaHeap)
  | calloc nmemb size => h.hookCalloc env nmemb size
  | oCalloc nmemb size => h.hookOCalloc env nmemb size
  | realloc ptr size => h.hookRealloc env ptr size
  | oRealloc ptr size => h.hookORealloc env ptr size
  | heapReAlloc flags ptr size => h.hookHeapReAlloc env flags ptr size
  | rtlReAllocateHeap flags ptr size => h.hookRtlReAllocateHeap env flags ptr size

/-! ## The contract -/

namespace FridaHeap

/-- A block that is allocated, and its size. -/
def Live (h : FridaHeap) (ptr size : Nat) : Prop :=
  ∃ m, h.allocator.allocations.find? ptr = some m ∧ m.freed = false ∧ m.size = size

/-- The first bytes of the block can be used, and are zero. -/
def Zeroed (h : FridaHeap) (ptr len : Nat) : Prop :=
  ∃ size, h.Live ptr size ∧ len ≤ size ∧ ∀ i < len, h.memory (ptr + i) = 0

/-- No new block: the old one is as it was, and nothing was written. -/
structure Kept (before after : FridaHeap) (ptr old : Nat) : Prop where
  live : ptr = 0 ∨ after.Live ptr old
  unchanged : ∀ i < old, after.memory (ptr + i) = before.memory (ptr + i)
  written : after.written = before.written

/-- A new block with what the old one held. -/
structure Moved (before after : FridaHeap) (ret ptr old size : Nat) : Prop where
  live : after.Live ret (allocatedSize size)
  copied : ∀ i < min old size, after.memory (ret + i) = before.memory (ptr + i)
  released : ∀ n, ¬ after.Live ptr n
  within : ∃ new, after.written = new ++ before.written ∧
    ∀ w ∈ new, ret ≤ w.1 ∧ w.1 + w.2 ≤ ret + allocatedSize size

def Reallocated (before : FridaHeap) (ptr old size : Nat) (result : Option (Nat × FridaHeap)) :
    Prop :=
  ∃ ret after, result = some (ret, after) ∧
    (ret = 0 ∧ before.Kept after ptr old ∨ ret ≠ 0 ∧ before.Moved after ret ptr old size)

end FridaHeap

namespace HeapHook

/-- What the call is about: the old block of a reallocation, if it is given one,
and for the hooks that hand calls on, that this one is theirs. -/
def OldBlock (env : HookEnv) (h : FridaHeap) (old : Nat) : HeapHook → Prop
  | calloc _ _ | oCalloc _ _ => True
  | realloc ptr _ | oRealloc ptr _ => ptr = 0 ∧ old = 0 ∨ h.Live ptr old
  | heapReAlloc _ ptr _ | rtlReAllocateHeap _ ptr _ =>
    h.isManaged env.baseMappingAddr ptr = true ∧ h.Live ptr old

/-- The contract of the C function, of a call with an old block of `old` bytes. -/
def KeepsContract (env : HookEnv) (h : FridaHeap) (old : Nat) (hook : HeapHook) : Prop :=
  match hook with
  | calloc nmemb size | oCalloc nmemb size => ∃ ret after, hook.exec env h = some (ret, after) ∧
      (ret = 0 ∨ after.Zeroed ret (nmemb * size))
  | realloc ptr size | oRealloc ptr size | heapReAlloc _ ptr size | rtlReAllocateHeap _ ptr size =>
      h.Reallocated ptr old size (hook.exec env h)

end HeapHook

namespace FridaAllocator

/-- An allocation does not panic: its size is within the limit or above it is
no panic, and its rounded size does not overflow. -/
def Answers (a : FridaAllocator) (size : Nat) : Prop :=
  if a.options.maxAllocation < allocatedSize size then a.options.maxAllocationPanics = false
  else (a.options.roundedUpSize (allocatedSize size)).isSome

/-- The limits allow the allocation, and there is a chunk for it. -/
def Serves (a : FridaAllocator) (size : Nat) (mmap : Mmap) : Prop :=
  ∃ len, a.Passes size len ∧ a.chunkSize len mmap ≠ none

end FridaAllocator

namespace HeapHook

/-- The allocator answers, and the hook can deal with the answer. -/
def Manages (env : HookEnv) (h : FridaHeap) (old : Nat) : HeapHook → Prop
  | calloc nmemb size | oCalloc nmemb size =>
    h.allocator.Answers (size * nmemb % 2 ^ 64) ∧
      (h.allocator.Serves (size * nmemb % 2 ^ 64) env.mmap → nmemb * size < 2 ^ 64) ∧
      (¬ h.allocator.Serves (size * nmemb % 2 ^ 64) env.mmap → size * nmemb % 2 ^ 64 = 0)
  | realloc ptr size =>
    if size = 0 then
      if env.apple then h.allocator.Answers 0 ∧ (h.allocator.Serves 0 env.mmap ∨ ptr = 0)
      else ptr = 0
    else h.allocator.Answers size
  | oRealloc ptr size =>
    h.allocator.Answers size ∧ (h.allocator.Serves size env.mmap ∨ ptr = 0)
  | heapReAlloc flags ptr size | rtlReAllocateHeap flags ptr size =>
    h.allocator.Serves size env.mmap ∧ old ≤ allocatedSize size ∧ flags &&& 0x10 ≠ 0x10 ∧
      (flags &&& 8 = 8 → ∀ i < min old size, h.memory (ptr + i) = 0)

end HeapHook

end Libaflmm
