import Libaflmm.AsanShadow
import Libaflmm.HashTables
import Libaflmm.IntervalTrees
import Libaflmm.Runs

/-!
# The default frontend of the guest allocator

Every allocation is a chunk of the backend: a red zone, the data, and another
red zone. A freed chunk stays in quarantine until the quarantine holds more
bytes than it may.

This is the frontend of a 64-bit target without the `initialize` feature.
What the backend answers to an allocation is a parameter of the call; its own
state is the list of the calls it has received.
-/

namespace Libaflmm

/-- What the allocator uses of the tracking of allocations. -/
class Tracking (T : Type) (ε : outParam Type) where
  track : Nat → Nat → Call ε T Unit
  untrack : Nat → Call ε T Unit

/-! ## Tracking inside the guest -/

inductive GuestTrackingError
  | addressRangeOverflow (addr len : Nat)
  | allocationNotFound (addr : Nat)
  | trackingConflict (addr len : Nat)
  | zeroLength (addr : Nat)
deriving DecidableEq

namespace GuestTracking

structure Range where
  start : Nat
  len : Nat

/-- `PartialEq`: the range that starts first contains the start of the other. -/
def Range.eq (self other : Range) : Bool :=
  if self.start > other.start then self.start - other.start < other.len
  else other.start - self.start < self.len

end GuestTracking

/-- The ranges are a `BTreeSet`, in which ranges that are `eq` are one. -/
structure GuestTracking where
  ranges : List GuestTracking.Range

namespace GuestTracking

def new : GuestTracking := ⟨[]⟩

def isOutOfBounds (addr len : Nat) : Bool := len ≠ 0 && 2 ^ 64 - len < addr

def track (start len : Nat) : Call GuestTrackingError GuestTracking Unit :=
  if isOutOfBounds start len then Call.ofResult (.error (.addressRangeOverflow start len))
  else if len = 0 then Call.ofResult (.error (.zeroLength start))
  else do
    let item : Range := { start, len }
    if ← Call.read fun t => t.ranges.any item.eq then
      Call.ofResult (.error (.trackingConflict start len))
    else Call.update fun t => { t with ranges := item :: t.ranges }

def untrack (start : Nat) : Call GuestTrackingError GuestTracking Unit := do
  let item : Range := { start, len := 1 }
  if ← Call.read fun t => t.ranges.any item.eq then
    Call.update fun t => { t with ranges := t.ranges.eraseP item.eq }
  else Call.ofResult (.error (.allocationNotFound start))

instance : Tracking GuestTracking GuestTrackingError := ⟨track, untrack⟩

end GuestTracking

/-! ## The backend -/

structure Layout where
  size : Nat
  align : Nat
deriving DecidableEq

namespace Layout

def fromSizeAlign (size align : Nat) : Option Layout :=
  if align ≠ 0 ∧ align &&& (align - 1) = 0 ∧ size ≤ 2 ^ 63 - align then some ⟨size, align⟩
  else none

end Layout

inductive BackendCall
  | alloc (layout : Layout) (ptr : Nat)
  | dealloc (ptr : Nat) (layout : Layout)
deriving DecidableEq

/-- The chunks of the backend that have not been given back; the calls are
listed newest first. -/
def outstanding : List BackendCall → List (Nat × Layout)
  | [] => []
  | .alloc layout ptr :: calls =>
      if ptr = 0 then outstanding calls else (ptr, layout) :: outstanding calls
  | .dealloc ptr layout :: calls => (outstanding calls).erase (ptr, layout)

/-! ## The frontend -/

structure Allocation where
  frontendLen : Nat
  backendAddr : Nat
  backendLen : Nat
  backendAlign : Nat
  freed : Bool

inductive DefaultFrontendError (εS εT : Type)
  | invalidRedZoneSize (size : Nat)
  | invalidAlignment (align : Nat)
  | allocatorError
  | allocationTooLarge (len : Nat)
  | layoutError
  | shadowError (e : εS)
  | trackingError (e : εT)
  | doubleFree (addr : Nat)
  | invalidAddress (addr : Nat)
  | quarantineCorruption
deriving DecidableEq

structure DefaultFrontend (S T : Type) where
  /-- the calls the backend has received, newest first -/
  backend : List BackendCall
  shadow : S
  tracking : T
  redZoneSize : Nat
  allocations : HashMap Nat Allocation
  quarantine : List Nat
  quarantineSize : Nat
  quarantineUsed : Nat

namespace DefaultFrontend

def ALLOC_ALIGN_SIZE : Nat := 16

/-- `size_of::<GuestAddr>()` -/
def GUEST_ADDR_SIZE : Nat := 8

def checkedAdd (a b : Nat) : Option Nat := if a + b < 2 ^ 64 then some (a + b) else none

def checkedAlignUp (size : Nat) : Option Nat := do
  let val ← checkedAdd size (ALLOC_ALIGN_SIZE - 1)
  return val - val % ALLOC_ALIGN_SIZE

section

variable {S T εS εT α : Type}

abbrev FrontendCall (S T εS εT α : Type) :=
  Call (DefaultFrontendError εS εT) (DefaultFrontend S T) α

def fail (e : DefaultFrontendError εS εT) : FrontendCall S T εS εT α := Call.ofResult (.error e)

/-- A value that must be there: the code panics without it. -/
def unwrap (o : Option α) : FrontendCall S T εS εT α :=
  Call.ofFn fun f => o.map fun a => (.ok a, f)

/-- A call to the shadow, whose error becomes one of the frontend. -/
def onShadow (x : Call εS S Unit) : FrontendCall S T εS εT Unit :=
  Call.ofFn fun f => (x.run f.shadow).map fun (r, s) =>
    (r.mapError .shadowError, { f with shadow := s })

def onTracking (x : Call εT T Unit) : FrontendCall S T εS εT Unit :=
  Call.ofFn fun f => (x.run f.tracking).map fun (r, t) =>
    (r.mapError .trackingError, { f with tracking := t })

def new (shadow : S) (tracking : T) (redZoneSize quarantineSize : Nat) :
    Except (DefaultFrontendError εS εT) (DefaultFrontend S T) :=
  if redZoneSize % ALLOC_ALIGN_SIZE ≠ 0 then .error (.invalidRedZoneSize redZoneSize)
  else if 2 ^ 64 ≤ redZoneSize * 2 then .error (.invalidRedZoneSize redZoneSize)
  else .ok {
    backend := []
    shadow := shadow
    tracking := tracking
    redZoneSize := redZoneSize
    allocations := ∅
    quarantine := []
    quarantineSize := quarantineSize
    quarantineUsed := 0 }

/-! ## Allocation -/

/-- The size asked of the backend for `len` bytes at a multiple of `align`. -/
def allocatedSize (redZoneSize len align : Nat) : Option Nat := do
  let size ← checkedAdd len align
  let size ← checkedAlignUp size
  checkedAdd size (redZoneSize * 2)

/-- Where the data goes in a chunk at `orig`. -/
def dataAddr (redZoneSize align orig : Nat) : Nat :=
  let rz := orig + redZoneSize
  if align = 0 then rz else rz + align - rz % align

/-- `dataAddr` with the sums and the assertions the code makes on the way. -/
def placeData (redZoneSize len align allocatedSize orig : Nat) : Option Nat := do
  let rz ← checkedAdd orig redZoneSize
  let _ ← checkedAdd rz align
  let data := dataAddr redZoneSize align orig
  -- the two assertions
  if (align = 0 ∨ data % align = 0) ∧ data + len ≤ orig + allocatedSize then some data else none

variable [Shadow S εS] [Tracking T εT]

/-- The call to the backend, and the entry of its chunk. -/
def allocChunk (len align ptr : Nat) : FrontendCall S T εS εT (Nat × Nat) :=
  if align % GUEST_ADDR_SIZE ≠ 0 then fail (.invalidAlignment align)
  else do
    let redZoneSize ← Call.read fun f => f.redZoneSize
    let some size := allocatedSize redZoneSize len align
      | fail (.allocationTooLarge len)
    -- `assert!(allocated_size.is_multiple_of(Self::ALLOC_ALIGN_SIZE))`
    let _ ← unwrap (if size % ALLOC_ALIGN_SIZE = 0 then some () else none)
    let some layout := Layout.fromSizeAlign size ALLOC_ALIGN_SIZE
      | fail (.allocationTooLarge len)
    Call.update fun f => { f with backend := .alloc layout ptr :: f.backend }
    if ptr = 0 then fail .allocatorError
    else do
      let data ← unwrap (placeData redZoneSize len align size ptr)
      let entry : Allocation :=
        { frontendLen := len
          backendAddr := ptr
          backendLen := size
          backendAlign := ALLOC_ALIGN_SIZE
          freed := false }
      Call.update fun f => { f with allocations := AList.insert data entry f.allocations }
      return (ptr, data)

/-- The marks of a new allocation: red zones on both sides of its data. -/
def markAllocated (orig data len : Nat) : FrontendCall S T εS εT Unit := do
  onTracking (Tracking.track data len)
  onShadow (Shadow.poison orig (data - orig) .asanHeapLeftRz)
  onShadow (Shadow.unpoison data len)
  let redZoneSize ← Call.read fun f => f.redZoneSize
  let alignedLen ← unwrap (checkedAlignUp len)
  onShadow (Shadow.poison (data + len) (alignedLen - len + redZoneSize) .asanStackRightRz)

/-- `ptr` is what the backend answers to the call. -/
def alloc (len align ptr : Nat) : FrontendCall S T εS εT Nat := do
  let (orig, data) ← allocChunk len align ptr
  markAllocated orig data len
  return data

/-! ## Deallocation -/

/-- The rounds of `purge_quarantine`, one for each address in quarantine. -/
def purgeRounds : List Nat → FrontendCall S T εS εT Unit
  | [] => do
    if ← Call.read fun f => decide (f.quarantineSize < f.quarantineUsed) then
      fail .quarantineCorruption
    else pure ()
  | addr :: rest => do
    if ← Call.read fun f => decide (f.quarantineSize < f.quarantineUsed) then
      Call.update fun f => { f with quarantine := rest }
      let some alloc ← Call.read fun f => f.allocations.lookup addr
        | fail .quarantineCorruption
      Call.update fun f => { f with allocations := f.allocations.erase addr }
      let some layout := Layout.fromSizeAlign alloc.backendLen alloc.backendAlign
        | fail .layoutError
      Call.update fun f => { f with backend := .dealloc alloc.backendAddr layout :: f.backend }
      let used ← Call.read fun f => f.quarantineUsed
      let used ← unwrap (if alloc.backendLen ≤ used then some (used - alloc.backendLen) else none)
      Call.update fun f => { f with quarantineUsed := used }
      purgeRounds rest
    else pure ()

def purgeQuarantine : FrontendCall S T εS εT Unit := do
  purgeRounds (← Call.read fun f => f.quarantine)

/-- What follows once an allocation has been marked as freed. -/
def quarantineChunk (addr : Nat) (alloc : Allocation) : FrontendCall S T εS εT Unit := do
  onShadow (Shadow.poison alloc.backendAddr alloc.backendLen .asanHeapFreed)
  onTracking (Tracking.untrack addr)
  let used ← unwrap (checkedAdd (← Call.read fun f => f.quarantineUsed) alloc.backendLen)
  Call.update fun f => { f with quarantineUsed := used, quarantine := f.quarantine ++ [addr] }
  purgeQuarantine

def dealloc (addr : Nat) : FrontendCall S T εS εT Unit :=
  if addr = 0 then pure ()
  else do
    let some alloc ← Call.read fun f => f.allocations.lookup addr
      | fail (.invalidAddress addr)
    if alloc.freed then fail (.doubleFree addr)
    else do
      Call.update fun f =>
        { f with allocations := f.allocations.replace addr { alloc with freed := true } }
      quarantineChunk addr alloc

/-! ## Runs -/

inductive Op
  | alloc (len align ptr : Nat)
  | dealloc (addr : Nat)

/-- What a call of an operation returns: an address, or an error. -/
def call : Op → FrontendCall S T εS εT Nat
  | .alloc len align ptr => alloc len align ptr
  | .dealloc addr => (fun _ => 0) <$> dealloc addr

def step (f : DefaultFrontend S T) (op : Op) : Option (DefaultFrontend S T) :=
  ((call op).run f).map Prod.snd

/-! ## The promise of the backend -/

/-- The layout asked of the backend, when the arguments get that far. -/
def layoutFor (redZoneSize len align : Nat) : Option Layout :=
  if align % GUEST_ADDR_SIZE = 0 then
    (allocatedSize redZoneSize len align).bind fun size =>
      Layout.fromSizeAlign size ALLOC_ALIGN_SIZE
  else none

def bytes (chunk : Nat × Layout) : Interval := ⟨chunk.1, chunk.1 + chunk.2.size⟩

/-- The answer `ptr` is a new chunk: aligned as asked, and apart from the
chunks that have not been given back. -/
structure Fits (calls : List BackendCall) (layout : Layout) (ptr : Nat) : Prop where
  align : ptr % layout.align = 0
  bound : ptr + layout.size < 2 ^ 64
  apart : ∀ c ∈ outstanding calls, ¬(bytes (ptr, layout)).Overlaps (bytes c)

instance (calls : List BackendCall) (layout : Layout) (ptr : Nat) :
    Decidable (Fits calls layout ptr) :=
  decidable_of_iff
    (ptr % layout.align = 0 ∧ ptr + layout.size < 2 ^ 64 ∧
      ∀ c ∈ outstanding calls, ¬(bytes (ptr, layout)).Overlaps (bytes c))
    ⟨fun h => ⟨h.1, h.2.1, h.2.2⟩, fun h => ⟨h.align, h.bound, h.apart⟩⟩

/-- The backend answers null or a new chunk. -/
def BackendFits (f : DefaultFrontend S T) : Op → Prop
  | .alloc len align ptr =>
      ∀ layout, layoutFor f.redZoneSize len align = some layout → ptr ≠ 0 →
        Fits f.backend layout ptr
  | .dealloc _ => True

instance (f : DefaultFrontend S T) : ∀ op, Decidable (BackendFits f op)
  | .alloc len align ptr =>
      match h : layoutFor f.redZoneSize len align with
      | none => isTrue fun _ hlayout => by simp [h] at hlayout
      | some layout =>
          decidable_of_iff (ptr ≠ 0 → Fits f.backend layout ptr) (by simp [BackendFits, h])
  | .dealloc _ => isTrue trivial

end

/-! ## What a call does -/

section

variable {S T εS εT α : Type}

theorem layoutFor_eq_some {redZoneSize len align : Nat} {layout : Layout}
    (h : layoutFor redZoneSize len align = some layout) :
    allocatedSize redZoneSize len align = some layout.size ∧ layout.align = 16 ∧
      layout.size ≤ 2 ^ 63 - 16 ∧ align % 8 = 0 := by
  rw [layoutFor] at h
  split at h
  · next halign =>
      obtain ⟨size, hsize, hlayout⟩ := Option.bind_eq_some_iff.mp h
      rw [Layout.fromSizeAlign] at hlayout
      split at hlayout
      · next hbound =>
          obtain rfl := Option.some.inj hlayout
          exact ⟨hsize, rfl, hbound.2.2, halign⟩
      · cases hlayout
  · cases h

theorem checkedAdd_eq_some {a b c : Nat} :
    checkedAdd a b = some c ↔ a + b < 2 ^ 64 ∧ c = a + b := by
  rw [checkedAdd]
  split
  · next h =>
      rw [Option.some_inj]
      exact ⟨fun heq => ⟨h, heq.symm⟩, fun heq => heq.2.symm⟩
  · next h => exact ⟨fun heq => (nomatch heq), fun heq => absurd heq.1 h⟩

theorem checkedAlignUp_eq_some {a c : Nat} :
    checkedAlignUp a = some c ↔ a + 15 < 2 ^ 64 ∧ c = (a + 15) / 16 * 16 := by
  simp only [checkedAlignUp, ALLOC_ALIGN_SIZE, Option.bind_eq_bind, Option.bind_eq_some_iff,
    checkedAdd_eq_some, Option.pure_def, Option.some.injEq]
  constructor
  · rintro ⟨_, ⟨hlt, rfl⟩, rfl⟩
    omega
  · rintro ⟨hlt, rfl⟩
    exact ⟨_, ⟨hlt, rfl⟩, by omega⟩

theorem allocatedSize_eq_some {redZoneSize len align size : Nat} :
    allocatedSize redZoneSize len align = some size ↔
      size = (len + align + 15) / 16 * 16 + redZoneSize * 2 ∧ len + align + 15 < 2 ^ 64 ∧
        size < 2 ^ 64 := by
  simp only [allocatedSize, Option.bind_eq_bind, Option.bind_eq_some_iff, checkedAdd_eq_some,
    checkedAlignUp_eq_some]
  constructor
  · rintro ⟨_, ⟨-, rfl⟩, _, ⟨hup, rfl⟩, hsize, rfl⟩
    exact ⟨rfl, hup, hsize⟩
  · rintro ⟨rfl, hup, hsize⟩
    exact ⟨_, ⟨by omega, rfl⟩, _, ⟨hup, rfl⟩, hsize, rfl⟩

theorem dataAddr_eq {redZoneSize align orig : Nat} (halign : align ≠ 0) :
    dataAddr redZoneSize align orig = align * ((orig + redZoneSize) / align + 1) := by
  have hdiv := Nat.div_add_mod (orig + redZoneSize) align
  simp only [dataAddr, if_neg halign, Nat.mul_add, Nat.mul_one]
  omega

theorem dataAddr_mod {redZoneSize align orig : Nat} (halign : align ≠ 0) :
    dataAddr redZoneSize align orig % align = 0 := by
  rw [dataAddr_eq halign, Nat.mul_mod_right]

/-- The data is behind the red zone, by at most `align` bytes. -/
theorem dataAddr_bounds (redZoneSize align orig : Nat) :
    orig + redZoneSize ≤ dataAddr redZoneSize align orig ∧
      dataAddr redZoneSize align orig ≤ orig + redZoneSize + align := by
  rw [dataAddr]
  split
  · omega
  · have := Nat.mod_lt (orig + redZoneSize) (y := align) (by omega)
    omega

/-- In a chunk of the size asked for, the data has room. -/
theorem placeData_of_fits {redZoneSize len align size orig : Nat}
    (hsize : allocatedSize redZoneSize len align = some size) (hbound : orig + size < 2 ^ 64) :
    placeData redZoneSize len align size orig = some (dataAddr redZoneSize align orig) := by
  obtain ⟨rfl, -⟩ := allocatedSize_eq_some.mp hsize
  obtain ⟨hlow, hhigh⟩ := dataAddr_bounds redZoneSize align orig
  have hrz : checkedAdd orig redZoneSize = some (orig + redZoneSize) :=
    checkedAdd_eq_some.mpr ⟨by omega, rfl⟩
  have halign : checkedAdd (orig + redZoneSize) align = some (orig + redZoneSize + align) :=
    checkedAdd_eq_some.mpr ⟨by omega, rfl⟩
  have hroom : (align = 0 ∨ dataAddr redZoneSize align orig % align = 0) ∧
      dataAddr redZoneSize align orig + len ≤
        orig + ((len + align + 15) / 16 * 16 + redZoneSize * 2) :=
    ⟨(em (align = 0)).imp_right dataAddr_mod, by omega⟩
  simp only [placeData, hrz, halign, Option.bind_eq_bind, Option.bind_some, if_pos hroom]

/-- The frontend after the backend has given the chunk at `ptr`. -/
def withChunk (f : DefaultFrontend S T) (len align ptr : Nat) (layout : Layout) :
    DefaultFrontend S T :=
  let entry : Allocation :=
    { frontendLen := len
      backendAddr := ptr
      backendLen := layout.size
      backendAlign := layout.align
      freed := false }
  { f with
    backend := .alloc layout ptr :: f.backend
    allocations := AList.insert (dataAddr f.redZoneSize align ptr) entry f.allocations }

/-- The frontend with another shadow and other tracked allocations. -/
def withMarks (f : DefaultFrontend S T) (s : S) (t : T) : DefaultFrontend S T :=
  { f with shadow := s, tracking := t }

variable (εT) in
theorem run_onShadow_of_ok {x : Call εS S Unit} {f : DefaultFrontend S T} {s : S}
    (h : x.run f.shadow = some (.ok (), s)) :
    (onShadow x : FrontendCall S T εS εT Unit).run f =
      some (.ok (), f.withMarks s f.tracking) := by
  rw [onShadow, Call.run_ofFn, h]
  rfl

variable (εT) in
theorem run_onShadow_of_error {x : Call εS S Unit} {f : DefaultFrontend S T} {s : S} {e : εS}
    (h : x.run f.shadow = some (.error e, s)) :
    (onShadow x : FrontendCall S T εS εT Unit).run f =
      some (.error (.shadowError e), f.withMarks s f.tracking) := by
  rw [onShadow, Call.run_ofFn, h]
  rfl

variable (εS) in
theorem run_onTracking_of_ok {x : Call εT T Unit} {f : DefaultFrontend S T} {t : T}
    (h : x.run f.tracking = some (.ok (), t)) :
    (onTracking x : FrontendCall S T εS εT Unit).run f =
      some (.ok (), f.withMarks f.shadow t) := by
  rw [onTracking, Call.run_ofFn, h]
  rfl

variable (εS) in
theorem run_onTracking_of_error {x : Call εT T Unit} {f : DefaultFrontend S T} {t : T} {e : εT}
    (h : x.run f.tracking = some (.error e, t)) :
    (onTracking x : FrontendCall S T εS εT Unit).run f =
      some (.error (.trackingError e), f.withMarks f.shadow t) := by
  rw [onTracking, Call.run_ofFn, h]
  rfl

theorem run_unwrap_some (a : α) (f : DefaultFrontend S T) :
    (unwrap (some a) : FrontendCall S T εS εT α).run f = some (.ok a, f) := rfl

variable (εS εT) in
/-- Without a layout, `alloc` fails before it changes anything. -/
theorem run_allocChunk_of_none {len align : Nat} (ptr : Nat) {f : DefaultFrontend S T}
    (hrz : f.redZoneSize % 16 = 0) (h : layoutFor f.redZoneSize len align = none) :
    ∃ e, (allocChunk len align ptr : FrontendCall S T εS εT _).run f = some (.error e, f) ∧
      e ≠ .quarantineCorruption := by
  rw [layoutFor] at h
  rw [allocChunk]
  split at h
  · next halign =>
      rw [if_neg (by simp [halign]), Call.run_bind_of_ok (Call.run_read _ _)]
      refine ⟨.allocationTooLarge len, ?_, by simp⟩
      cases hsize : allocatedSize f.redZoneSize len align with
      | none => rfl
      | some size =>
          obtain ⟨hmul, -⟩ := allocatedSize_eq_some.mp hsize
          rw [hsize, Option.bind_some] at h
          dsimp only
          rw [if_pos (show size % ALLOC_ALIGN_SIZE = 0 by rw [ALLOC_ALIGN_SIZE]; omega),
            Call.run_bind_of_ok (run_unwrap_some _ _), h]
          rfl
  · next halign => exact ⟨_, by rw [if_pos halign]; rfl, by simp⟩

variable (εS εT) in
/-- With a layout, the backend is asked for it. -/
theorem run_allocChunk_of_some {len align ptr : Nat} {f : DefaultFrontend S T} {layout : Layout}
    (hrz : f.redZoneSize % 16 = 0) (h : layoutFor f.redZoneSize len align = some layout)
    (hbound : ptr + layout.size < 2 ^ 64) :
    (allocChunk len align ptr : FrontendCall S T εS εT _).run f =
      if ptr = 0 then
        some (.error .allocatorError, { f with backend := .alloc layout ptr :: f.backend })
      else
        some (.ok (ptr, dataAddr f.redZoneSize align ptr), f.withChunk len align ptr layout) := by
  obtain ⟨hsize, halign, -, hmul⟩ := layoutFor_eq_some h
  obtain ⟨hmul', -⟩ := allocatedSize_eq_some.mp hsize
  have hptr : align % GUEST_ADDR_SIZE = 0 := hmul
  rw [layoutFor, if_pos hptr, hsize, Option.bind_some] at h
  rw [allocChunk, if_neg (not_not.mpr hptr), Call.run_bind_of_ok (Call.run_read _ _)]
  simp only [hsize]
  rw [if_pos (show layout.size % ALLOC_ALIGN_SIZE = 0 by rw [ALLOC_ALIGN_SIZE]; omega),
    Call.run_bind_of_ok (run_unwrap_some _ _)]
  simp only [h]
  rw [Call.run_bind_of_ok (Call.run_update _ _)]
  split
  · rfl
  · rw [placeData_of_fits hsize hbound, Call.run_bind_of_ok (run_unwrap_some _ _),
      Call.run_bind_of_ok (Call.run_update _ _), withChunk, halign]
    rfl

end

end DefaultFrontend

end Libaflmm
