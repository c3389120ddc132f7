import Libaflmm.AsanShadow
import Libaflmm.Runs

/-!
# The two shadow maps

The shadow of the low and of the high memory are two mappings, and a range of
memory is found in one of them by the arithmetic of `get_shadow`. An assertion
that fails, an addition or a subtraction that leaves the machine word, and a
slice outside its mapping are panics.

`ShadowMaps.view` is the shadow by the number of the 8 bytes. The layouts carry
what makes the arithmetic right.
-/

namespace Libaflmm

/-- Where the memory and its shadow are, for addresses of `bits` bits. -/
structure ShadowLayout where
  bits : Nat
  shadowOffset : Nat
  lowMemOffset : Nat
  lowMemSize : Nat
  lowShadowOffset : Nat
  lowShadowSize : Nat
  highShadowOffset : Nat
  highShadowSize : Nat
  highMemOffset : Nat
  highMemSize : Nat
  low_aligned : lowMemOffset % 8 = 0
  low_pos : 0 < lowMemSize
  low_size : lowMemSize = 8 * lowShadowSize
  low_shadow : lowMemOffset / 8 + shadowOffset = lowShadowOffset
  high_aligned : highMemOffset % 8 = 0
  high_pos : 0 < highMemSize
  high_size : highMemSize = 8 * highShadowSize
  high_shadow : highMemOffset / 8 + shadowOffset = highShadowOffset
  low_high : lowMemOffset + lowMemSize ≤ highMemOffset
  fits : highMemOffset + highMemSize ≤ 2 ^ bits
  shadow_fits : 2 ^ bits / 8 + shadowOffset ≤ 2 ^ bits

namespace ShadowLayout

def default32 : ShadowLayout where
  bits := 32
  shadowOffset := 0x20000000
  lowMemOffset := 0x0
  lowMemSize := 0x20000000
  lowShadowOffset := 0x20000000
  lowShadowSize := 0x4000000
  highShadowOffset := 0x28000000
  highShadowSize := 0x18000000
  highMemOffset := 0x40000000
  highMemSize := 0xc0000000
  low_aligned := rfl
  low_pos := by omega
  low_size := rfl
  low_shadow := rfl
  high_aligned := rfl
  high_pos := by omega
  high_size := rfl
  high_shadow := rfl
  low_high := by omega
  fits := by omega
  shadow_fits := by omega

def default64 : ShadowLayout where
  bits := 64
  shadowOffset := 0x7fff8000
  lowMemOffset := 0x0
  lowMemSize := 0x00007fff8000
  lowShadowOffset := 0x00007fff8000
  lowShadowSize := 0xffff000
  highShadowOffset := 0x02008fff7000
  highShadowSize := 0xdfff0001000
  highMemOffset := 0x10007fff8000
  highMemSize := 0x6fff80008000
  low_aligned := rfl
  low_pos := by omega
  low_size := rfl
  low_shadow := rfl
  high_aligned := rfl
  high_pos := by omega
  high_size := rfl
  high_shadow := rfl
  low_high := by omega
  fits := by omega
  shadow_fits := by omega

variable (L : ShadowLayout)

def lowMemLimit : Nat := L.lowMemOffset + (L.lowMemSize - 1)

def highMemLimit : Nat := L.highMemOffset + (L.highMemSize - 1)

def isOutOfBounds (addr len : Nat) : Bool := len ≠ 0 && 2 ^ L.bits - len < addr

def isLowMemory (addr len : Nat) : Bool :=
  L.lowMemOffset ≤ addr && addr ≤ L.lowMemLimit && len ≤ L.lowMemLimit - addr + 1

def isHighMemory (addr len : Nat) : Bool :=
  L.highMemOffset ≤ addr && addr ≤ L.highMemLimit && len ≤ L.highMemLimit - addr + 1

def isMemory (addr len : Nat) : Bool := L.isLowMemory addr len || L.isHighMemory addr len

variable {L}

theorem isLowMemory_iff {addr len : Nat} : L.isLowMemory addr len = true ↔
    L.lowMemOffset ≤ addr ∧ addr < L.lowMemOffset + L.lowMemSize ∧
      addr + len ≤ L.lowMemOffset + L.lowMemSize := by
  have hpos := L.low_pos
  simp only [isLowMemory, Bool.and_eq_true, decide_eq_true_eq]
  simp only [lowMemLimit]
  omega

theorem isHighMemory_iff {addr len : Nat} : L.isHighMemory addr len = true ↔
    L.highMemOffset ≤ addr ∧ addr < L.highMemOffset + L.highMemSize ∧
      addr + len ≤ L.highMemOffset + L.highMemSize := by
  have hpos := L.high_pos
  simp only [isHighMemory, Bool.and_eq_true, decide_eq_true_eq]
  simp only [highMemLimit]
  omega

/-- The range ends at the end of the memory it starts in, or before. -/
theorem isMemory_iff {addr len : Nat} : L.isMemory addr len = true ↔
    (L.lowMemOffset ≤ addr ∧ addr < L.lowMemOffset + L.lowMemSize ∧
      addr + len ≤ L.lowMemOffset + L.lowMemSize) ∨
    (L.highMemOffset ≤ addr ∧ addr < L.highMemOffset + L.highMemSize ∧
      addr + len ≤ L.highMemOffset + L.highMemSize) := by
  rw [isMemory, Bool.or_eq_true, isLowMemory_iff, isHighMemory_iff]

theorem isMemory_of_le {addr len len' : Nat} (h : L.isMemory addr len = true) (hle : len' ≤ len) :
    L.isMemory addr len' = true := by
  rw [isMemory_iff] at h ⊢
  omega

/-- A range of whole 8 bytes that are in the memory with a range of bytes. -/
theorem isMemory_granules {addr len addr' len' : Nat} (h : L.isMemory addr len = true)
    (haddr : addr' % 8 = 0) (hlen : len' % 8 = 0) (hstart : addr < addr' + 8)
    (hstop : addr' + len' < addr + len + 8) (hne : addr' < addr + len) :
    L.isMemory addr' len' = true := by
  have hlow := L.low_aligned
  have hlows := L.low_size
  have hhigh := L.high_aligned
  have hhighs := L.high_size
  rw [isMemory_iff] at h ⊢
  omega

end ShadowLayout

/-- A mapping, as its slices are read and written. -/
structure ShadowMap where
  size : Nat
  bytes : Nat → UInt8

/-- `lo` and `hi` have been mapped with the sizes of the layout. -/
structure ShadowMaps (L : ShadowLayout) where
  lo : ShadowMap
  hi : ShadowMap
  lo_size : lo.size = L.lowShadowSize
  hi_size : hi.size = L.highShadowSize

/-- A slice of one of the two maps. -/
structure ShadowSlice where
  high : Bool
  offset : Nat
  len : Nat

namespace ShadowMaps

open GuestShadow (ALLOC_ALIGN_SIZE remainder alignDown isStartAligned endRemainder isEndAligned)

variable {L : ShadowLayout}

abbrev ShadowCall (L : ShadowLayout) (α : Type) := Call GuestShadowError (ShadowMaps L) α

section

variable {α : Type}

def panic : ShadowCall L α := Call.ofFn fun _ => none

/-- `assert!`, and the bounds checks. -/
def assert (p : Prop) [Decidable p] : ShadowCall L Unit := if p then pure () else panic

def checkedAdd (a b : Nat) : ShadowCall L Nat := if a + b < 2 ^ L.bits then pure (a + b) else panic

def checkedSub (a b : Nat) : ShadowCall L Nat := if b ≤ a then pure (a - b) else panic

end

/-- Zeroed mappings. -/
def new (L : ShadowLayout) : ShadowMaps L where
  lo := ⟨L.lowShadowSize, fun _ => 0⟩
  hi := ⟨L.highShadowSize, fun _ => 0⟩
  lo_size := rfl
  hi_size := rfl

def alignUp (addr : Nat) : ShadowCall L Nat := do
  assert (addr ≤ 2 ^ L.bits - 1 - (ALLOC_ALIGN_SIZE - 1))
  return alignDown (addr + (ALLOC_ALIGN_SIZE - 1))

def map (high : Bool) (s : ShadowMaps L) : ShadowMap := if high then s.hi else s.lo

/-- `&map[offset..(offset + len)]` -/
def slice (high : Bool) (offset len : Nat) : ShadowCall L ShadowSlice := do
  let stop ← checkedAdd offset len
  let size ← .read fun s => (s.map high).size
  assert (stop ≤ size)
  return ⟨high, offset, len⟩

/-- The part `get_shadow` and `get_shadow_mut` share. -/
def locate (addr len shadowLen : Nat) : ShadowCall L ShadowSlice := do
  let shadowAddr ← checkedAdd (addr / ALLOC_ALIGN_SIZE) L.shadowOffset
  if L.isLowMemory addr len then
    let offset ← checkedSub shadowAddr L.lowShadowOffset
    slice false offset shadowLen
  else if L.isHighMemory addr len then
    let offset ← checkedSub shadowAddr L.highShadowOffset
    slice true offset shadowLen
  else .ofResult (.error (.invalidMemoryAddress addr))

def getShadow (addr len : Nat) : ShadowCall L ShadowSlice := do
  assert (addr % ALLOC_ALIGN_SIZE = 0)
  assert (len % ALLOC_ALIGN_SIZE = 0)
  locate addr len (len / ALLOC_ALIGN_SIZE)

def getShadowMut (addr len : Nat) : ShadowCall L ShadowSlice := do
  assert (addr % ALLOC_ALIGN_SIZE = 0)
  assert (len % ALLOC_ALIGN_SIZE = 0)
  let alignedLen ← alignUp len
  locate addr len (alignedLen / ALLOC_ALIGN_SIZE)

def readSlice (shadow : ShadowSlice) (s : ShadowMaps L) : List UInt8 :=
  (List.range' shadow.offset shadow.len).map (s.map shadow.high).bytes

/-- `shadow[0]` -/
def first (shadow : ShadowSlice) : ShadowCall L UInt8 := do
  assert (0 < shadow.len)
  .read fun s => (s.map shadow.high).bytes shadow.offset

def ShadowMap.fill (offset len : Nat) (v : UInt8) (m : ShadowMap) : ShadowMap where
  size := m.size
  bytes i := if offset ≤ i ∧ i < offset + len then v else m.bytes i

/-- Writes one value all over the slice. -/
def fill (shadow : ShadowSlice) (v : UInt8) (s : ShadowMaps L) : ShadowMaps L :=
  if shadow.high then { s with hi := ShadowMap.fill shadow.offset shadow.len v s.hi }
  else { s with lo := ShadowMap.fill shadow.offset shadow.len v s.lo }

/-- `shadow[0] = v` -/
def setFirst (shadow : ShadowSlice) (v : UInt8) : ShadowCall L Unit := do
  assert (0 < shadow.len)
  .update (fill { shadow with len := 1 } v)

/-- The odd bytes from an unaligned start. What remains of the length is returned. -/
def poisonStart (start len : Nat) : ShadowCall L Nat :=
  if isStartAligned start then pure len
  else do
    let firstUnpoisoned := remainder start
    let poisoned := ALLOC_ALIGN_SIZE - firstUnpoisoned
    let remainingLen ← checkedSub len poisoned
    let firstShadow ← getShadowMut (alignDown start) ALLOC_ALIGN_SIZE
    setFirst firstShadow firstUnpoisoned.toUInt8
    return remainingLen

/-- The rest of the range. -/
def poisonRest (start remainingLen : Nat) (poison : PoisonType) : ShadowCall L Unit :=
  if remainingLen = 0 then pure ()
  else do
    let startAlignedUp ← alignUp start
    let shadowMap ← getShadowMut startAlignedUp remainingLen
    .update (fill shadowMap poison.toUInt8)

def poison (start len : Nat) (poison : PoisonType) : ShadowCall L Unit :=
  if L.isOutOfBounds start len then .ofResult (.error (.addressRangeOverflow start len))
  else if !L.isMemory start len then .ofResult (.error (.invalidMemoryAddress start))
  else if !isEndAligned start len then .ofResult (.error (.unalignedEndAddress start len))
  else if len = 0 then pure ()
  else do
    let remainingLen ← poisonStart start len
    poisonRest start remainingLen poison

/-- The unaligned end. What remains of the length is returned. -/
def unpoisonEnd (start len : Nat) : ShadowCall L Nat :=
  if isEndAligned start len then pure len
  else do
    let endAligned ← checkedAdd start (alignDown len)
    let lastUnpoisoned := remainder len
    let remainingLen ← checkedSub len lastUnpoisoned
    let lastShadow ← getShadowMut endAligned ALLOC_ALIGN_SIZE
    setFirst lastShadow lastUnpoisoned.toUInt8
    return remainingLen

/-- The aligned part of the range. -/
def unpoisonRest (start len remainingLen : Nat) : ShadowCall L Unit :=
  if remainingLen = 0 then pure ()
  else do
    let shadowMap ← getShadowMut start (alignDown len)
    .update (fill shadowMap PoisonType.asanValid.toUInt8)

def unpoison (start len : Nat) : ShadowCall L Unit :=
  if L.isOutOfBounds start len then .ofResult (.error (.addressRangeOverflow start len))
  else if !L.isMemory start len then .ofResult (.error (.invalidMemoryAddress start))
  else if !isStartAligned start then .ofResult (.error (.unalignedStartAddress start len))
  else if len = 0 then pure ()
  else do
    let remainingLen ← unpoisonEnd start len
    unpoisonRest start len remainingLen

/-- The part of `is_poison` after both ends. -/
def isPoisonMiddle (start remainingLen : Nat) : ShadowCall L Bool :=
  if remainingLen = 0 then pure false
  else do
    let startAligned ← alignUp start
    let shadowMap ← getShadow startAligned remainingLen
    .read fun s => (s.readSlice shadowMap).any (· != PoisonType.asanValid.toUInt8)

/-- The part of `is_poison` after the start. -/
def isPoisonEnd (start len remainingLen : Nat) : ShadowCall L Bool :=
  if isEndAligned start len then isPoisonMiddle start remainingLen
  else do
    let lastLen := endRemainder start len
    let remainingLen ← checkedSub remainingLen lastLen
    let stop ← checkedAdd start len
    let kEnd ← getShadow (alignDown stop) ALLOC_ALIGN_SIZE
    let lastK ← first kEnd
    if lastK.toInt8 ≠ 0 ∧ lastK.toInt8 < lastLen.toInt8 then pure true
    else isPoisonMiddle start remainingLen

def isPoison (start len : Nat) : ShadowCall L Bool :=
  if L.isOutOfBounds start len then .ofResult (.error (.addressRangeOverflow start len))
  else if !L.isMemory start len then .ofResult (.error (.invalidMemoryAddress start))
  else if len = 0 then pure false
  else if isStartAligned start then isPoisonEnd start len len
  else do
    let skipped := remainder start
    let firstLen := ALLOC_ALIGN_SIZE - skipped
    let kStart ← getShadow (alignDown start) ALLOC_ALIGN_SIZE
    let firstK ← first kStart
    if len ≤ firstLen then
      let testLen := (len + skipped).toInt8
      pure (decide (firstK.toInt8 ≠ 0 ∧ firstK.toInt8 < testLen))
    else do
      let remainingLen ← checkedSub len firstLen
      if firstK.toInt8 ≠ 0 then pure true
      else isPoisonEnd start len remainingLen

def load (start len : Nat) : ShadowCall L Unit := do
  if (← isPoison start len) then .ofResult (.error (.poisoned start len))

def store (start len : Nat) : ShadowCall L Unit := do
  if (← isPoison start len) then .ofResult (.error (.poisoned start len))

/-! ## The shadow by the number of the 8 bytes -/

/-- The shadow of the 8 bytes with the number, zero outside the memory. -/
def cell (s : ShadowMaps L) (g : Nat) : UInt8 :=
  if L.isLowMemory (8 * g) 8 then s.lo.bytes (g - L.lowMemOffset / 8)
  else if L.isHighMemory (8 * g) 8 then s.hi.bytes (g - L.highMemOffset / 8)
  else 0

def view (s : ShadowMaps L) : GuestShadow := ⟨s.cell⟩

/-! ## What the slices are -/

/-- Where the shadow of the range is. -/
def sliceOf (L : ShadowLayout) (addr len : Nat) : ShadowSlice :=
  if L.isLowMemory addr len then ⟨false, addr / 8 - L.lowMemOffset / 8, len / 8⟩
  else ⟨true, addr / 8 - L.highMemOffset / 8, len / 8⟩

section

variable {addr len : Nat} {s : ShadowMaps L}

theorem run_assert {p : Prop} [Decidable p] (h : p) : (assert p).run s = some (.ok (), s) := by
  rw [assert, if_pos h]
  rfl

theorem run_checkedAdd {a b : Nat} (h : a + b < 2 ^ L.bits) :
    (checkedAdd a b).run s = some (.ok (a + b), s) := by
  rw [checkedAdd, if_pos h]
  rfl

theorem run_checkedSub {a b : Nat} (h : b ≤ a) :
    (checkedSub a b).run s = some (.ok (a - b), s) := by
  rw [checkedSub, if_pos h]
  rfl

theorem run_slice {high : Bool} {offset n : Nat} (hstop : offset + n ≤ (s.map high).size)
    (hfits : (s.map high).size < 2 ^ L.bits) :
    (slice high offset n).run s = some (.ok ⟨high, offset, n⟩, s) := by
  rw [slice, Call.run_bind_of_ok (run_checkedAdd (by omega)),
    Call.run_bind_of_ok (Call.run_read _ _), Call.run_bind_of_ok (run_assert hstop)]
  rfl

/-- **The arithmetic of `get_shadow`.** -/
theorem run_locate (haddr : addr % 8 = 0) (hlen : len % 8 = 0) (hmem : L.isMemory addr len = true) :
    (locate addr len (len / 8)).run s = some (.ok (sliceOf L addr len), s) := by
  have hfits := L.fits
  have hshadow := L.shadow_fits
  have hlow := L.low_shadow
  have hlows := L.low_size
  have hlowa := L.low_aligned
  have hhigh := L.high_shadow
  have hhighs := L.high_size
  have hhigha := L.high_aligned
  have horder := L.low_high
  have hhighpos := L.high_pos
  have hmem' := ShadowLayout.isMemory_iff.mp hmem
  rw [locate, ALLOC_ALIGN_SIZE, Call.run_bind_of_ok (run_checkedAdd (by omega)), sliceOf]
  by_cases hl : L.isLowMemory addr len = true
  · have hl' := ShadowLayout.isLowMemory_iff.mp hl
    have hsize : (s.map false).size = L.lowShadowSize := s.lo_size
    rw [if_pos hl, if_pos hl, Call.run_bind_of_ok (run_checkedSub (by omega)),
      run_slice (by rw [hsize]; omega) (by rw [hsize]; omega)]
    congr 4
    omega
  · have hh : L.isHighMemory addr len = true := by
      rw [ShadowLayout.isMemory, Bool.or_eq_true] at hmem
      exact hmem.resolve_left hl
    have hh' := ShadowLayout.isHighMemory_iff.mp hh
    have hsize : (s.map true).size = L.highShadowSize := s.hi_size
    rw [if_neg hl, if_neg hl, if_pos hh, Call.run_bind_of_ok (run_checkedSub (by omega)),
      run_slice (by rw [hsize]; omega) (by rw [hsize]; omega)]
    congr 4
    omega

theorem run_getShadow (haddr : addr % 8 = 0) (hlen : len % 8 = 0)
    (hmem : L.isMemory addr len = true) :
    (getShadow addr len).run s = some (.ok (sliceOf L addr len), s) := by
  rw [getShadow, ALLOC_ALIGN_SIZE, Call.run_bind_of_ok (run_assert haddr),
    Call.run_bind_of_ok (run_assert hlen)]
  exact run_locate haddr hlen hmem

theorem alignDown_add {n : Nat} : alignDown n + n % 8 = n := by
  simp only [alignDown, remainder, ALLOC_ALIGN_SIZE]
  omega

/-- The least multiple of 8 from the address on. -/
theorem run_alignUp {n : Nat} (h : n + 7 < 2 ^ L.bits) :
    ∃ m, (alignUp n).run s = some (.ok m, s) ∧ m % 8 = 0 ∧ n ≤ m ∧ m < n + 8 := by
  refine ⟨alignDown (n + 7), ?_, ?_⟩
  · rw [alignUp, Call.run_bind_of_ok (run_assert (by rw [ALLOC_ALIGN_SIZE]; omega))]
    rfl
  · have hdown := alignDown_add (n := n + 7)
    omega

theorem run_getShadowMut (haddr : addr % 8 = 0) (hlen : len % 8 = 0)
    (hmem : L.isMemory addr len = true) :
    (getShadowMut addr len).run s = some (.ok (sliceOf L addr len), s) := by
  have hfits := L.fits
  have horder := L.low_high
  have hlow := L.low_pos
  have hlows := L.low_size
  have hhigh := L.high_pos
  have hhighs := L.high_size
  have hbound : len + 7 < 2 ^ L.bits := by
    have hmem' := ShadowLayout.isMemory_iff.mp hmem
    omega
  obtain ⟨m, hrun, hm, hle, hlt⟩ := run_alignUp (s := s) hbound
  obtain rfl : m = len := by omega
  rw [getShadowMut, ALLOC_ALIGN_SIZE, Call.run_bind_of_ok (run_assert haddr),
    Call.run_bind_of_ok (run_assert hlen), Call.run_bind_of_ok hrun]
  exact run_locate haddr hlen hmem

theorem cell_of_low {g : Nat} (h : L.isLowMemory (8 * g) 8 = true) :
    s.cell g = s.lo.bytes (g - L.lowMemOffset / 8) := if_pos h

theorem cell_of_high {g : Nat} (h : L.isHighMemory (8 * g) 8 = true) :
    s.cell g = s.hi.bytes (g - L.highMemOffset / 8) := by
  have horder := L.low_high
  have hlow : ¬L.isLowMemory (8 * g) 8 = true := by
    rw [ShadowLayout.isLowMemory_iff]
    rw [ShadowLayout.isHighMemory_iff] at h
    omega
  rw [cell, if_neg hlow, if_pos h]

/-- The cells of a slice. -/
theorem readSlice_sliceOf (haddr : addr % 8 = 0) (hlen : len % 8 = 0)
    (hmem : L.isMemory addr len = true) :
    s.readSlice (sliceOf L addr len) = (List.range' (addr / 8) (len / 8)).map s.cell := by
  have hlow := L.low_aligned
  have hhigh := L.high_aligned
  refine List.ext_getElem (by simp [readSlice, sliceOf]; split <;> rfl) fun i hi hi' => ?_
  have hi : i < len / 8 := by simpa using hi'
  simp only [readSlice, sliceOf]
  by_cases hl : L.isLowMemory addr len = true
  · have hl' := ShadowLayout.isLowMemory_iff.mp hl
    have hcell := cell_of_low (s := s) (g := addr / 8 + i)
      (ShadowLayout.isLowMemory_iff.mpr (by omega))
    simp only [if_pos hl, List.getElem_map, List.getElem_range', Nat.one_mul, hcell]
    exact congrArg s.lo.bytes (by omega)
  · have hh : L.isHighMemory addr len = true := by
      rw [ShadowLayout.isMemory, Bool.or_eq_true] at hmem
      exact hmem.resolve_left hl
    have hh' := ShadowLayout.isHighMemory_iff.mp hh
    have hcell := cell_of_high (s := s) (g := addr / 8 + i)
      (ShadowLayout.isHighMemory_iff.mpr (by omega))
    simp only [if_neg hl, List.getElem_map, List.getElem_range', Nat.one_mul, hcell]
    exact congrArg s.hi.bytes (by omega)

/-- **Filling a slice** changes the cells of its range. -/
theorem cell_fill_sliceOf (haddr : addr % 8 = 0) (hlen : len % 8 = 0)
    (hmem : L.isMemory addr len = true) (v : UInt8) (g : Nat) :
    (s.fill (sliceOf L addr len) v).cell g =
      if addr ≤ 8 * g ∧ 8 * g < addr + len then v else s.cell g := by
  have hlow := L.low_aligned
  have hhigh := L.high_aligned
  have horder := L.low_high
  have hlows := L.low_size
  have hhighs := L.high_size
  rw [fill, sliceOf]
  by_cases hl : L.isLowMemory addr len = true
  · have hl' := ShadowLayout.isLowMemory_iff.mp hl
    rw [if_pos hl, if_neg Bool.false_ne_true]
    by_cases hg : L.isLowMemory (8 * g) 8 = true
    · have hg' := ShadowLayout.isLowMemory_iff.mp hg
      rw [cell_of_low hg, cell_of_low hg]
      refine if_congr ?_ rfl rfl
      dsimp only
      omega
    · have hout : ¬(addr ≤ 8 * g ∧ 8 * g < addr + len) := by
        rw [ShadowLayout.isLowMemory_iff] at hg
        omega
      rw [if_neg hout, cell, cell, if_neg hg, if_neg hg]
  · have hh : L.isHighMemory addr len = true := by
      rw [ShadowLayout.isMemory, Bool.or_eq_true] at hmem
      exact hmem.resolve_left hl
    have hh' := ShadowLayout.isHighMemory_iff.mp hh
    rw [if_neg hl, if_pos rfl]
    by_cases hg : L.isHighMemory (8 * g) 8 = true
    · have hg' := ShadowLayout.isHighMemory_iff.mp hg
      rw [cell_of_high hg, cell_of_high hg]
      refine if_congr ?_ rfl rfl
      dsimp only
      omega
    · have hout : ¬(addr ≤ 8 * g ∧ 8 * g < addr + len) := by
        rw [ShadowLayout.isHighMemory_iff] at hg
        omega
      rw [if_neg hout, cell, cell, if_neg hg, if_neg hg]

theorem sliceOf_len : (sliceOf L addr len).len = len / 8 := by
  rw [sliceOf]
  split <;> rfl

theorem run_first (haddr : addr % 8 = 0) (hmem : L.isMemory addr 8 = true) :
    (first (sliceOf L addr 8)).run s = some (.ok (s.cell (addr / 8)), s) := by
  have hlen : (sliceOf L addr 8).len = 1 := sliceOf_len
  have hread := readSlice_sliceOf (s := s) haddr rfl hmem
  rw [readSlice, hlen, List.range'_one] at hread
  rw [first, Call.run_bind_of_ok (run_assert (by omega)), Call.run_read,
    List.singleton_inj.mp (hread.trans (by rfl))]

theorem run_setFirst (v : UInt8) :
    (setFirst (sliceOf L addr 8) v).run s = some (.ok (), s.fill (sliceOf L addr 8) v) := by
  have hlen : (sliceOf L addr 8).len = 1 := sliceOf_len
  rw [setFirst, Call.run_bind_of_ok (run_assert (by omega)), Call.run_update, ← hlen]

/-! ## Poisoning and unpoisoning -/

theorem isOutOfBounds_of_isMemory (h : L.isMemory addr len = true) :
    L.isOutOfBounds addr len = false := by
  have hfits := L.fits
  have horder := L.low_high
  have hhigh := L.high_pos
  rw [ShadowLayout.isMemory_iff] at h
  simp only [ShadowLayout.isOutOfBounds, Bool.and_eq_false_iff, decide_eq_false_iff_not]
  right
  omega

/-- What is checked before anything else. -/
theorem refused_or_isMemory {α : Type} (start len : Nat) (x : ShadowCall L α) :
    (∃ e, Call.run (if L.isOutOfBounds start len then
        .ofResult (.error (.addressRangeOverflow start len))
      else if !L.isMemory start len then .ofResult (.error (.invalidMemoryAddress start))
      else x) s = some (.error e, s)) ∧ L.isMemory start len = false ∨
    (if L.isOutOfBounds start len then .ofResult (.error (.addressRangeOverflow start len))
      else if !L.isMemory start len then .ofResult (.error (.invalidMemoryAddress start))
      else x) = x ∧ L.isMemory start len = true := by
  by_cases hmem : L.isMemory start len = true
  · right
    rw [isOutOfBounds_of_isMemory hmem, hmem]
    exact ⟨rfl, rfl⟩
  · left
    refine ⟨?_, eq_false_of_ne_true hmem⟩
    split
    · exact ⟨_, rfl⟩
    · rw [if_pos (by simp [hmem])]
      exact ⟨_, rfl⟩

theorem view_ext {s' : ShadowMaps L} {t : GuestShadow} (h : ∀ g, s'.cell g = t.cells g) :
    s'.view = t :=
  congrArg GuestShadow.mk (funext h)

theorem run_poisonStart {start : Nat} (hmem : L.isMemory start len = true)
    (hend : (start + len) % 8 = 0) :
    ∃ s', (poisonStart start len).run s = some (.ok (len - (8 - start % 8) % 8), s') ∧
      ∀ g, s'.cell g = if 8 * g < start ∧ start < 8 * g + 8 then (start % 8).toUInt8
        else s.cell g := by
  by_cases hstart : isStartAligned start = true
  · have hstart' := GuestShadow.isStartAligned_iff.mp hstart
    refine ⟨s, ?_, fun g => by rw [if_neg (by omega)]⟩
    rw [poisonStart, if_pos hstart, hstart']
    rfl
  · have hstart' : start % 8 ≠ 0 := fun h => hstart (GuestShadow.isStartAligned_iff.mpr h)
    have hdown := alignDown_add (n := start)
    have hhead : L.isMemory (alignDown start) 8 = true :=
      ShadowLayout.isMemory_granules hmem (by omega) rfl (by omega) (by omega) (by omega)
    refine ⟨s.fill (sliceOf L (alignDown start) 8) (start % 8).toUInt8, ?_, fun g => ?_⟩
    · have hrest : (8 - start % 8) % 8 = 8 - start % 8 := Nat.mod_eq_of_lt (by omega)
      rw [poisonStart, if_neg hstart, hrest]
      simp only [remainder, ALLOC_ALIGN_SIZE]
      rw [Call.run_bind_of_ok (run_checkedSub (by omega)),
        Call.run_bind_of_ok (run_getShadowMut (by omega) rfl hhead),
        Call.run_bind_of_ok (run_setFirst _), Call.run_pure]
    · rw [cell_fill_sliceOf (by omega) rfl hhead]
      exact if_congr (by omega) rfl rfl

theorem run_poisonRest (start remaining : Nat) (p : PoisonType)
    (hmem : L.isMemory start (remaining + (8 - start % 8) % 8) = true)
    (hend : remaining % 8 = 0) :
    ∃ s', (poisonRest start remaining p).run s = some (.ok (), s') ∧
      ∀ g, s'.cell g = if start ≤ 8 * g ∧ 8 * g < start + (remaining + (8 - start % 8) % 8) then
        p.toUInt8 else s.cell g := by
  by_cases hne : remaining = 0
  · refine ⟨s, by rw [poisonRest, if_pos hne]; rfl, fun g => by rw [if_neg (by omega)]⟩
  have hfits := L.fits
  have horder := L.low_high
  have hlows := L.low_size
  have hlowa := L.low_aligned
  have hhighs := L.high_size
  have hhigha := L.high_aligned
  have hhigh := L.high_pos
  have hmem' := ShadowLayout.isMemory_iff.mp hmem
  obtain ⟨m, hrun, hm, hle, hlt⟩ := run_alignUp (s := s) (n := start) (by omega)
  have hmid : L.isMemory m remaining = true := by
    rw [ShadowLayout.isMemory_iff]
    omega
  rw [poisonRest, if_neg hne, Call.run_bind_of_ok hrun,
    Call.run_bind_of_ok (run_getShadowMut hm hend hmid)]
  refine ⟨_, Call.run_update _ _, fun g => ?_⟩
  rw [cell_fill_sliceOf hm hend hmid]
  exact if_congr (by omega) rfl rfl

/-- **Poisoning** is refused without an effect, or marks the range. -/
theorem run_poison (start len : Nat) (p : PoisonType) (s : ShadowMaps L) :
    (∃ e, (poison start len p).run s = some (.error e, s)) ∧
        ¬(L.isMemory start len = true ∧ isEndAligned start len = true) ∨
      (∃ s', (poison start len p).run s = some (.ok (), s') ∧
        s'.view = s.view.poisoned start len p.toUInt8) ∧
        L.isMemory start len = true ∧ isEndAligned start len = true := by
  unfold poison
  rcases refused_or_isMemory (s := s) start len _ with ⟨herr, hmem⟩ | ⟨heq, hmem⟩
  · exact .inl ⟨herr, by simp [hmem]⟩
  rw [heq]
  by_cases hend : isEndAligned start len = true
  swap
  · exact .inl ⟨⟨_, by rw [if_pos (by simp [hend])]; rfl⟩, fun h => hend h.2⟩
  refine .inr ⟨?_, hmem, hend⟩
  rw [if_neg (by simp [hend])]
  rw [GuestShadow.isEndAligned_iff] at hend
  by_cases hlen : len = 0
  · refine ⟨s, by rw [if_pos hlen]; rfl, view_ext fun g => ?_⟩
    simp only [GuestShadow.poisoned]
    rw [if_neg (by omega), if_neg (by omega)]
    rfl
  rw [if_neg hlen]
  obtain ⟨t, hstart, ht⟩ := run_poisonStart (s := s) hmem hend
  have hsum : len - (8 - start % 8) % 8 + (8 - start % 8) % 8 = len := by omega
  obtain ⟨s', hrest, hs'⟩ := run_poisonRest (s := t) start (len - (8 - start % 8) % 8) p
    (by rwa [hsum]) (by omega)
  refine ⟨s', (Call.run_bind_of_ok hstart).trans hrest, view_ext fun g => ?_⟩
  rw [hs', ht, hsum]
  simp only [GuestShadow.poisoned]
  refine if_congr Iff.rfl rfl ?_
  exact if_congr (by omega) rfl rfl

theorem run_unpoisonEnd {start : Nat} (hmem : L.isMemory start len = true)
    (hstart : start % 8 = 0) :
    ∃ s', (unpoisonEnd start len).run s = some (.ok (len - len % 8), s') ∧
      ∀ g, s'.cell g = if 8 * g < start + len ∧ start + len < 8 * g + 8 ∧ len % 8 ≠ 0 then
        (len % 8).toUInt8 else s.cell g := by
  by_cases hend : isEndAligned start len = true
  · have hend' := GuestShadow.isEndAligned_iff.mp hend
    have hlen : len % 8 = 0 := by omega
    refine ⟨s, ?_, fun g => by rw [if_neg (by omega)]⟩
    rw [unpoisonEnd, if_pos hend, hlen]
    rfl
  · have hend' : (start + len) % 8 ≠ 0 := fun h => hend (GuestShadow.isEndAligned_iff.mpr h)
    have hdown := alignDown_add (n := len)
    have hlast : L.isMemory (start + alignDown len) 8 = true :=
      ShadowLayout.isMemory_granules hmem (by omega) rfl (by omega) (by omega) (by omega)
    have hbound : start + alignDown len < 2 ^ L.bits := by
      have hfits := L.fits
      have horder := L.low_high
      have hlast' := ShadowLayout.isMemory_iff.mp hlast
      omega
    refine ⟨s.fill (sliceOf L (start + alignDown len) 8) (len % 8).toUInt8, ?_, fun g => ?_⟩
    · rw [unpoisonEnd, if_neg hend]
      simp only [remainder, ALLOC_ALIGN_SIZE]
      rw [Call.run_bind_of_ok (run_checkedAdd hbound),
        Call.run_bind_of_ok (run_checkedSub (by omega)),
        Call.run_bind_of_ok (run_getShadowMut (by omega) rfl hlast),
        Call.run_bind_of_ok (run_setFirst _), Call.run_pure]
    · rw [cell_fill_sliceOf (by omega) rfl hlast]
      exact if_congr (by omega) rfl rfl

theorem run_unpoisonRest {start : Nat} (hmem : L.isMemory start len = true)
    (hstart : start % 8 = 0) :
    ∃ s', (unpoisonRest start len (len - len % 8)).run s = some (.ok (), s') ∧
      ∀ g, s'.cell g = if start ≤ 8 * g ∧ 8 * g + 8 ≤ start + len then 0 else s.cell g := by
  have hdown := alignDown_add (n := len)
  by_cases hne : len - len % 8 = 0
  · refine ⟨s, by rw [unpoisonRest, if_pos hne]; rfl, fun g => by rw [if_neg (by omega)]⟩
  have hmid : L.isMemory start (alignDown len) = true :=
    ShadowLayout.isMemory_granules hmem hstart (by omega) (by omega) (by omega) (by omega)
  rw [unpoisonRest, if_neg hne, Call.run_bind_of_ok (run_getShadowMut hstart (by omega) hmid)]
  refine ⟨_, Call.run_update _ _, fun g => ?_⟩
  rw [cell_fill_sliceOf hstart (by omega) hmid]
  exact if_congr (by omega) rfl rfl

/-- **Unpoisoning** is refused without an effect, or clears the range. -/
theorem run_unpoison (start len : Nat) (s : ShadowMaps L) :
    (∃ e, (unpoison start len).run s = some (.error e, s)) ∧
        ¬(L.isMemory start len = true ∧ isStartAligned start = true) ∨
      (∃ s', (unpoison start len).run s = some (.ok (), s') ∧
        s'.view = s.view.unpoisoned start len) ∧
        L.isMemory start len = true ∧ isStartAligned start = true := by
  unfold unpoison
  rcases refused_or_isMemory (s := s) start len _ with ⟨herr, hmem⟩ | ⟨heq, hmem⟩
  · exact .inl ⟨herr, by simp [hmem]⟩
  rw [heq]
  by_cases hstart : isStartAligned start = true
  swap
  · exact .inl ⟨⟨_, by rw [if_pos (by simp [hstart])]; rfl⟩, fun h => hstart h.2⟩
  refine .inr ⟨?_, hmem, hstart⟩
  rw [if_neg (by simp [hstart])]
  rw [GuestShadow.isStartAligned_iff] at hstart
  by_cases hlen : len = 0
  · refine ⟨s, by rw [if_pos hlen]; rfl, view_ext fun g => ?_⟩
    simp only [GuestShadow.unpoisoned]
    rw [if_neg (by omega), if_neg (by omega)]
    rfl
  rw [if_neg hlen]
  obtain ⟨t, hend, ht⟩ := run_unpoisonEnd (s := s) hmem hstart
  obtain ⟨s', hrest, hs'⟩ := run_unpoisonRest (s := t) hmem hstart
  refine ⟨s', (Call.run_bind_of_ok hend).trans hrest, view_ext fun g => ?_⟩
  rw [hs', ht]
  simp only [GuestShadow.unpoisoned]
  by_cases hg : start ≤ 8 * g ∧ 8 * g + 8 ≤ start + len
  · rw [if_pos hg, if_pos hg]
  · rw [if_neg hg, if_neg hg]
    exact if_congr (by omega) rfl rfl

end

/-! ## The shadow of the allocator -/

theorem isOutOfBounds_default64 (addr len : Nat) :
    ShadowLayout.default64.isOutOfBounds addr len = GuestShadow.isOutOfBounds addr len := rfl

theorem isMemory_default64 (addr len : Nat) :
    ShadowLayout.default64.isMemory addr len = GuestShadow.isMemory addr len := rfl

/-- **The maps of the 64-bit layout** are poisoned as the shadow by number is. -/
theorem view_poison (start len : Nat) (p : PoisonType) (s : ShadowMaps ShadowLayout.default64) :
    ((poison start len p).run s).map (fun r => (r.1, r.2.view)) =
      (GuestShadow.poison start len p).run s.view := by
  rcases run_poison start len p s with ⟨-, hno⟩ | ⟨⟨s', hrun, hview⟩, hmem, hend⟩
  · rw [poison, GuestShadow.poison, isOutOfBounds_default64]
    by_cases hbounds : GuestShadow.isOutOfBounds start len = true
    · rw [if_pos hbounds, if_pos hbounds]
      rfl
    · rw [if_neg hbounds, if_neg hbounds, isMemory_default64]
      rw [isMemory_default64] at hno
      by_cases hmem : GuestShadow.isMemory start len = true
      · have hend : ¬isEndAligned start len = true := fun hend => hno ⟨hmem, hend⟩
        have hmem' : ¬(!GuestShadow.isMemory start len) = true := by simp [hmem]
        have hend' : (!isEndAligned start len) = true := by simp [hend]
        rw [if_neg hmem', if_neg hmem', if_pos hend', if_pos hend']
        rfl
      · have hmem' : (!GuestShadow.isMemory start len) = true := by simp [hmem]
        rw [if_pos hmem', if_pos hmem']
        rfl
  · rw [hrun, GuestShadow.run_poison_of_accepted p s.view hmem hend, ← hview]
    rfl

theorem view_unpoison (start len : Nat) (s : ShadowMaps ShadowLayout.default64) :
    ((unpoison start len).run s).map (fun r => (r.1, r.2.view)) =
      (GuestShadow.unpoison start len).run s.view := by
  rcases run_unpoison start len s with ⟨-, hno⟩ | ⟨⟨s', hrun, hview⟩, hmem, hstart⟩
  · rw [unpoison, GuestShadow.unpoison, isOutOfBounds_default64]
    by_cases hbounds : GuestShadow.isOutOfBounds start len = true
    · rw [if_pos hbounds, if_pos hbounds]
      rfl
    · rw [if_neg hbounds, if_neg hbounds, isMemory_default64]
      rw [isMemory_default64] at hno
      by_cases hmem : GuestShadow.isMemory start len = true
      · have hstart : ¬isStartAligned start = true := fun hstart => hno ⟨hmem, hstart⟩
        have hmem' : ¬(!GuestShadow.isMemory start len) = true := by simp [hmem]
        have hstart' : (!isStartAligned start) = true := by simp [hstart]
        rw [if_neg hmem', if_neg hmem', if_pos hstart', if_pos hstart']
        rfl
      · have hmem' : (!GuestShadow.isMemory start len) = true := by simp [hmem]
        rw [if_pos hmem', if_pos hmem']
        rfl
  · rw [hrun, GuestShadow.run_unpoison_of_accepted s.view hmem hstart, ← hview]
    rfl

/-! ## Runs -/

/-- The calls that change the shadow. -/
inductive Op
  | poison (start len : Nat) (poison : PoisonType)
  | unpoison (start len : Nat)

def Op.call : Op → ShadowCall L Unit
  | .poison start len p => ShadowMaps.poison start len p
  | .unpoison start len => ShadowMaps.unpoison start len

/-- The shadow after a call, however it answers. -/
def step (s : ShadowMaps L) (op : Op) : Option (ShadowMaps L) := (op.call.run s).map Prod.snd

/-- No call panics. -/
theorem run_call (op : Op) (s : ShadowMaps L) : ∃ r s', op.call.run s = some (r, s') := by
  cases op with
  | poison start len p =>
      rcases run_poison start len p s with ⟨⟨e, hrun⟩, -⟩ | ⟨⟨s', hrun, -⟩, -⟩
      · exact ⟨_, _, hrun⟩
      · exact ⟨_, _, hrun⟩
  | unpoison start len =>
      rcases run_unpoison start len s with ⟨⟨e, hrun⟩, -⟩ | ⟨⟨s', hrun, -⟩, -⟩
      · exact ⟨_, _, hrun⟩
      · exact ⟨_, _, hrun⟩

theorem run_steps (ops : List Op) (s : ShadowMaps L) : ∃ s', Libaflmm.run step s ops = some s' := by
  induction ops generalizing s with
  | nil => exact ⟨s, rfl⟩
  | cons op ops ih =>
      obtain ⟨r, t, hcall⟩ := run_call op s
      obtain ⟨s', hrest⟩ := ih t
      refine ⟨s', ?_⟩
      rw [run_cons, step, hcall]
      exact hrest

end ShadowMaps

end Libaflmm
