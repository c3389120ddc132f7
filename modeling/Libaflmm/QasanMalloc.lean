import Libaflmm.AsanPoisoning
import Libaflmm.Runs

/-!
# The heap of libqasan

Inside the guest libqasan takes the place of the allocator: every allocation is a
chunk of the backend, with a header and a red zone in front of the data and a red
zone behind it. By fake system calls it tells the sanitizer in the host what to
poison, and asks it to check the pointers it is given. A chunk that is freed goes
into a quarantine, which is to hold less than 50 MiB.

The headers of the chunks and the bytes of the data are kept apart; that no chunk
overlaps another is proved of the runs. What the backend answers is a parameter of
the calls, as is whether another thread holds the lock of the quarantine. Null
pointers are 0, and a crash is `none`.
-/

namespace Libaflmm

namespace Qasan

def REDZONE_SIZE : Nat := 128

/-- 50 MiB. -/
def QUARANTINE_MAX_BYTES : Nat := 52428800

def ALLOC_ALIGN_SIZE : Nat := 16

def ASAN_HEAP_LEFT_RZ : Int8 := -6

def ASAN_HEAP_RIGHT_RZ : Int8 := -5

def ASAN_HEAP_FREED : Int8 := -3

structure ChunkBegin where
  requestedSize : Nat
  /-- null if not aligned -/
  alignedOrig : Nat
  next : Nat
  prev : Nat

/-- The four words of a header, and the red zone. -/
def sizeofChunkBegin : Nat := 32 + REDZONE_SIZE

/-- A header, the second red zone and the padding. -/
def sizeofChunkStruct : Nat := sizeofChunkBegin + REDZONE_SIZE + 8

def qasanAlignUp (val align : Nat) : Nat :=
  let v := (val + align - 1) % 2 ^ 64
  v - v % align

/-- What is asked of the backend for `size` bytes of data. -/
def chunkBytes (size : Nat) : Nat :=
  (sizeofChunkStruct + qasanAlignUp size ALLOC_ALIGN_SIZE) % 2 ^ 64

/-- What the backend answers to a number of bytes, aligned to `ALLOC_ALIGN_SIZE`. -/
abbrev Backend := Nat → Option Nat

inductive Report where
  | read (addr size : Nat)
  | write (addr size : Nat)
  deriving DecidableEq, Repr

/-- The guest's allocator and its memory, with the sanitizer in the host. `freed` has
what was given back to the backend. -/
structure Libqasan where
  chunks : Nat → ChunkBegin
  bytes : Nat → UInt8
  quarantineTop : Nat
  quarantineEnd : Nat
  quarantineBytes : Nat
  enabled : Bool
  host : AsanGiovese
  reports : List Report
  freed : List Nat

namespace Libqasan

variable (guestBase fuel : Nat) (s : Libqasan)

/-! ## Fake system calls -/

def checkLoad (addr n : Nat) : Libqasan :=
  if s.enabled ∧ s.host.isInvalidAccessN guestBase addr n then
    { s with reports := s.reports ++ [.read addr n] }
  else s

def checkStore (addr n : Nat) : Libqasan :=
  if s.enabled ∧ s.host.isInvalidAccessN guestBase addr n then
    { s with reports := s.reports ++ [.write addr n] }
  else s

def poison (addr n : Nat) (poisonByte : Int8) : Libqasan :=
  { s with host := (s.host.poison guestBase addr n poisonByte).2 }

def unpoison (addr n : Nat) : Libqasan :=
  { s with host := (s.host.unpoison guestBase addr n).2 }

/-- `QASAN_SWAP`: the state that is asked for is not looked at. -/
def swapState : Libqasan := { s with enabled := !s.enabled }

/-! ## Memory -/

def setChunk (p : Nat) (c : ChunkBegin) : Libqasan :=
  { s with chunks := Function.update s.chunks p c }

def memset (addr : Nat) (v : UInt8) (n : Nat) : Libqasan :=
  { s with bytes := fun x => if addr ≤ x ∧ x < addr + n then v else s.bytes x }

def memcpy (dst src n : Nat) : Libqasan :=
  { s with
    bytes := fun x => if dst ≤ x ∧ x < dst + n then s.bytes (src + (x - dst)) else s.bytes x }

/-- The chunk goes back to the backend, from where the backend had it start. -/
def backendFree (p : Nat) : Libqasan :=
  let orig := (s.chunks p).alignedOrig
  { s with freed := s.freed ++ [if orig ≠ 0 then orig else p] }

/-! ## The quarantine -/

/-- The loop that makes room for `size` bytes. -/
def makeRoom (size : Nat) : Nat → Libqasan → Option Libqasan
  | fuel, s =>
    if (size + s.quarantineBytes) % 2 ^ 64 < QUARANTINE_MAX_BYTES then some s
    else match fuel with
      | 0 => none
      | fuel + 1 =>
        let tmp := s.quarantineEnd
        if tmp = 0 then none
        else
          let c := s.chunks tmp
          makeRoom size fuel ({ s with
            quarantineEnd := c.prev
            quarantineBytes := (s.quarantineBytes + 2 ^ 64 - c.requestedSize) % 2 ^ 64 }.backendFree
              tmp)

/-- `contended`: another thread has the lock. -/
def quarantinePush (contended : Bool) (ck : Nat) : Option (Bool × Libqasan) :=
  let size := (s.chunks ck).requestedSize
  if QUARANTINE_MAX_BYTES ≤ size then some (false, s)
  else if contended then some (false, s)
  else (makeRoom size fuel s).map fun s =>
    let s := s.setChunk ck { s.chunks ck with next := s.quarantineTop }
    let s :=
      if s.quarantineTop ≠ 0 then
        s.setChunk s.quarantineTop { s.chunks s.quarantineTop with prev := ck }
      else s
    (true, { s with quarantineTop := ck })

/-! ## The allocator -/

/-- `__libqasan_malloc`, after the initialization. -/
def malloc (size : Nat) (backend : Backend) : Nat × Libqasan :=
  let s := s.swapState
  let answer := backend (chunkBytes size)
  let s := s.swapState
  match answer with
  | none => (0, s)
  | some p =>
    let data := p + sizeofChunkBegin
    let s := s.unpoison guestBase p (chunkBytes size)
    let s := s.setChunk p ⟨size, 0, 0, 0⟩
    let s := s.poison guestBase (p + 32) REDZONE_SIZE ASAN_HEAP_LEFT_RZ
    let s := s.poison guestBase (data + size)
      (qasanAlignUp size ALLOC_ALIGN_SIZE - size + REDZONE_SIZE) ASAN_HEAP_RIGHT_RZ
    (data, s.memset data 0xff size)

/-- `__libqasan_free` -/
def free (ptr : Nat) (contended : Bool) : Option Libqasan :=
  if ptr = 0 then some s
  else
    let p := ptr - sizeofChunkBegin
    -- validate that the chunk marker is readable
    let s := s.checkLoad guestBase p (sizeofChunkBegin - REDZONE_SIZE)
    let n := (s.chunks p).requestedSize
    let s := s.checkStore guestBase ptr n
    let s := s.swapState
    (s.quarantinePush fuel contended p).map fun (pushed, s) =>
      let s := if pushed then s else s.backendFree p
      let s := s.swapState
      s.poison guestBase ptr (qasanAlignUp n ALLOC_ALIGN_SIZE) ASAN_HEAP_FREED

/-- `__libqasan_calloc` -/
def calloc (nmemb size : Nat) (backend : Backend) : Nat × Libqasan :=
  let size := size * nmemb % 2 ^ 64
  let (p, s) := s.malloc guestBase size backend
  if p = 0 then (0, s) else (p, s.memset p 0 size)

/-- `__libqasan_realloc` -/
def realloc (ptr size : Nat) (backend : Backend) (contended : Bool) : Option (Nat × Libqasan) :=
  let (p, s) := s.malloc guestBase size backend
  if p = 0 then some (0, s)
  else if ptr = 0 then some (p, s)
  else
    let n := (s.chunks (ptr - sizeofChunkBegin)).requestedSize
    let n := if size < n then size else n
    let s := s.memcpy p ptr n
    (s.free guestBase fuel ptr contended).map fun s => (p, s)

inductive PosixMemalign where
  | einval
  | enomem
  | ok (ptr : Nat)
  deriving DecidableEq, Repr

/-- Where the data of an aligned chunk is that the backend has put at `orig`. -/
def alignedData (orig align : Nat) : Nat :=
  let data := orig + sizeofChunkBegin
  data + (align - data % align)

/-- `__libqasan_posix_memalign`; a remainder by zero crashes. -/
def posixMemalign (align len : Nat) (backend : Backend) : Option (PosixMemalign × Libqasan) :=
  if align % 2 ≠ 0 ∨ align % 8 ≠ 0 then some (.einval, s)
  else if len = 0 then some (.ok 0, s)
  else
    let size := (len + align) % 2 ^ 64
    let s := s.swapState
    let answer := backend (chunkBytes size)
    let s := s.swapState
    match answer with
    | none => some (.enomem, s)
    | some orig =>
      if align = 0 then none
      else
        let s := s.unpoison guestBase orig (chunkBytes size)
        let data := alignedData orig align
        let p := data - sizeofChunkBegin
        let s := s.setChunk p { s.chunks p with requestedSize := len, alignedOrig := orig }
        let s := s.poison guestBase (p + 32) REDZONE_SIZE ASAN_HEAP_LEFT_RZ
        let s := s.poison guestBase (data + len)
          (qasanAlignUp len ALLOC_ALIGN_SIZE - len + REDZONE_SIZE) ASAN_HEAP_RIGHT_RZ
        some (.ok data, s.memset data 0xff len)

def PosixMemalign.ptr : PosixMemalign → Nat
  | .ok p => p
  | _ => 0

/-- `__libqasan_memalign` -/
def memalign (align len : Nat) (backend : Backend) : Option (Nat × Libqasan) :=
  (s.posixMemalign guestBase align len backend).map fun (ret, s) => (ret.ptr, s)

/-- `__libqasan_aligned_alloc` -/
def alignedAlloc (align len : Nat) (backend : Backend) : Option (Nat × Libqasan) :=
  if align = 0 then none
  else if len % align ≠ 0 then some (0, s)
  else s.memalign guestBase align len backend

/-- `__libqasan_malloc_usable_size` -/
def mallocUsableSize (ptr : Nat) : Nat × Libqasan :=
  let p := ptr - sizeofChunkBegin
  let s := s.checkLoad guestBase p (sizeofChunkBegin - REDZONE_SIZE)
  ((s.chunks p).requestedSize, s)

end Libqasan

/-- After `__libqasan_init_malloc`, with the sanitizer enabled. -/
def init (chunks : Nat → ChunkBegin) (bytes : Nat → UInt8) (host : AsanGiovese) : Libqasan where
  chunks
  bytes
  quarantineTop := 0
  quarantineEnd := 0
  quarantineBytes := 0
  enabled := true
  host
  reports := []
  freed := []

/-! ## Runs -/

/-- A chunk: what the backend gave, and the data in it. -/
structure Block where
  orig : Nat
  total : Nat
  data : Nat
  size : Nat
  aligned : Bool
  contents : Nat → UInt8

/-- The write of a byte, to the block it is in. -/
def Block.write (addr : Nat) (v : UInt8) (b : Block) : Block :=
  if b.data ≤ addr ∧ addr < b.data + b.size then
    { b with contents := Function.update b.contents (addr - b.data) v }
  else b

/-- `write` is the program's own. -/
inductive Call where
  | malloc (size : Nat) (backend : Backend)
  | calloc (nmemb size : Nat) (backend : Backend)
  | realloc (ptr size : Nat) (backend : Backend) (contended : Bool)
  | memalign (align len : Nat) (backend : Backend)
  | alignedAlloc (align len : Nat) (backend : Backend)
  | free (ptr : Nat) (contended : Bool)
  | usableSize (ptr : Nat)
  | write (addr : Nat) (v : UInt8)

/-- The heap, and what is to be expected of it: the allocations with their contents, the
chunks in quarantine, the last one first, and the chunks that were given back. -/
structure HeapRun where
  heap : Libqasan
  live : List Block
  quarantined : List Block
  returned : List Nat

namespace HeapRun

variable (guestBase fuel : Nat)

/-- Before the first call. -/
def start (chunks : Nat → ChunkBegin) (bytes : Nat → UInt8) (host : AsanGiovese) : HeapRun :=
  ⟨init chunks bytes host, [], [], []⟩

/-- A new allocation, unless it failed. -/
def allocated (r : HeapRun) (result : Nat × Libqasan) (b : Nat → Block) : HeapRun :=
  { r with heap := result.2, live := if result.1 = 0 then r.live else b result.1 :: r.live }

/-- An allocation is freed. Large chunks, and those freed while the quarantine is locked,
are given back at once. -/
def released (r : HeapRun) (heap : Libqasan) (ptr : Nat) (contended : Bool) : HeapRun :=
  match r.live.find? fun b => b.data = ptr with
  | none => { r with heap }
  | some b =>
    let live := r.live.filter fun b => b.data ≠ ptr
    if b.size < QUARANTINE_MAX_BYTES ∧ contended = false then
      { r with heap, live, quarantined := b :: r.quarantined }
    else { r with heap, live, returned := r.returned ++ [b.orig] }

/-- The block of an allocation that is not aligned. -/
def plain (size : Nat) (contents : Nat → UInt8) (data : Nat) : Block where
  orig := data - sizeofChunkBegin
  total := chunkBytes size
  data
  size
  aligned := false
  contents

/-- The block of an aligned allocation. -/
def aligned (align len : Nat) (backend : Backend) (data : Nat) : Block where
  orig := (backend (chunkBytes ((len + align) % 2 ^ 64))).getD 0
  total := chunkBytes ((len + align) % 2 ^ 64)
  data
  size := len
  aligned := true
  contents := fun _ => 0xff

/-- The contents that a reallocation is to have: those of the old block, as far as they go. -/
def moved (r : HeapRun) (ptr : Nat) : Nat → UInt8 :=
  match r.live.find? fun b => b.data = ptr with
  | none => fun _ => 0xff
  | some b => fun i => if i < b.size then b.contents i else 0xff

def step (r : HeapRun) : Call → Option HeapRun
  | .malloc size backend =>
    some (r.allocated (r.heap.malloc guestBase size backend) (plain size fun _ => 0xff))
  | .calloc nmemb size backend =>
    some (r.allocated (r.heap.calloc guestBase nmemb size backend)
      (plain (size * nmemb % 2 ^ 64) fun _ => 0))
  | .realloc ptr size backend contended =>
    (r.heap.realloc guestBase fuel ptr size backend contended).map fun result =>
      if result.1 = 0 then { r with heap := result.2 }
      else
        { r with live := plain size (r.moved ptr) result.1 :: r.live }.released result.2 ptr
          contended
  | .memalign align len backend =>
    (r.heap.memalign guestBase align len backend).map fun result =>
      r.allocated result (aligned align len backend)
  | .alignedAlloc align len backend =>
    (r.heap.alignedAlloc guestBase align len backend).map fun result =>
      r.allocated result (aligned align len backend)
  | .free ptr contended =>
    (r.heap.free guestBase fuel ptr contended).map fun heap => r.released heap ptr contended
  | .usableSize ptr => some { r with heap := (r.heap.mallocUsableSize guestBase ptr).2 }
  | .write addr v =>
    some { r with
      heap := r.heap.memset addr v 1
      live := r.live.map (Block.write addr v) }

end HeapRun

end Qasan

end Libaflmm
