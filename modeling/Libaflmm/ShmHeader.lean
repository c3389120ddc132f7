import Libaflmm.MutationsSafe
import Libaflmm.ShmChannel

/-!
# Shared memory with a header

The size of the data is kept in a header in front of it, as a number of some
type whose greatest value marks the contents as invalid. Whether the data fits
is decided by the size of the memory alone.
-/

namespace Libaflmm

/-- The trait `ShmHeader`, over the memory that the header is at the start of.
A panic is `none`. -/
class ShmHeader (SZ : Type) where
  headerSize : Nat
  readRealSize : List UInt8 → Nat → Option (Option Nat)
  writeRealSize : List UInt8 → Nat → Option (List UInt8)
  invalidate : List UInt8 → List UInt8
  length_writeRealSize : ∀ memory size memory', headerSize ≤ memory.length →
    writeRealSize memory size = some memory' → memory'.length = memory.length
  length_invalidate : ∀ memory, headerSize ≤ memory.length →
    (invalidate memory).length = memory.length

structure EmptyShmHeader

instance : ShmHeader EmptyShmHeader where
  headerSize := 0
  readRealSize _ totalMinusHeader := some (some totalMinusHeader)
  writeRealSize memory _ := some memory
  invalidate memory := memory
  length_writeRealSize _ _ _ _ h := congrArg List.length (Option.some.inj h).symm
  length_invalidate _ _ := rfl

/-- What a numeric type has of `NumCast`, `Bounded` and `NoUninit`: the casts
from and to `usize`, the greatest value, and the bytes it is stored as. -/
class Numeric (SZ : Type) where
  size : Nat
  toBytes : SZ → List UInt8
  ofBytes : List UInt8 → SZ
  fromUsize : Nat → Option SZ
  toUsize : SZ → Option Nat
  maxValue : SZ
  length_toBytes : ∀ sz, (toBytes sz).length = size
  ofBytes_toBytes : ∀ sz, ofBytes (toBytes sz) = sz

def invalidShmSize {SZ : Type} [Numeric SZ] : SZ := Numeric.maxValue

section

variable {SZ : Type} [Numeric SZ]

open Numeric

theorem writeAt_toBytes (memory : List UInt8) (sz : SZ) :
    Slice.writeAt memory 0 (toBytes sz) = toBytes sz ++ memory.drop (size SZ) := by
  rw [Slice.writeAt, List.take_zero, List.nil_append, Nat.zero_add, length_toBytes]

theorem length_store {memory : List UInt8} (h : size SZ ≤ memory.length) (sz : SZ) :
    (Slice.writeAt memory 0 (toBytes sz)).length = memory.length :=
  Slice.length_writeAt (by rw [length_toBytes]; omega)

theorem length_map_store {sz : Option SZ} {memory memory' : List UInt8}
    (h : size SZ ≤ memory.length)
    (hstore : (sz.map fun sz => Slice.writeAt memory 0 (toBytes sz)) = some memory') :
    memory'.length = memory.length := by
  obtain ⟨sz, -, rfl⟩ := Option.map_eq_some_iff.mp hstore
  exact length_store h sz

instance [BEq SZ] : ShmHeader SZ where
  headerSize := size SZ
  readRealSize memory _ :=
    let sz : SZ := ofBytes (memory.take (size SZ))
    if sz == invalidShmSize then some none else (toUsize sz).map some
  writeRealSize memory n :=
    (fromUsize n : Option SZ).map fun sz => Slice.writeAt memory 0 (toBytes sz)
  invalidate memory := Slice.writeAt memory 0 (toBytes (invalidShmSize : SZ))
  length_writeRealSize _ _ _ h hstore := length_map_store h hstore
  length_invalidate _ h := length_store h invalidShmSize

end

namespace Shm

open ShmHeader

/-- The memory has room for the header. -/
structure SharedMemory (SZ : Type) [ShmHeader SZ] where
  memory : List UInt8
  headerSize_le : headerSize SZ ≤ memory.length

namespace SharedMemory

variable {SZ : Type} [ShmHeader SZ]

def maxDataLen (shm : SharedMemory SZ) : Nat := shm.memory.length - headerSize SZ

def getSize (shm : SharedMemory SZ) : Option (Option Nat) :=
  readRealSize SZ shm.memory shm.maxDataLen

def isInvalid (shm : SharedMemory SZ) : Option Bool := shm.getSize.map Option.isNone

/-- A size beyond the memory is undefined behaviour. -/
def data (shm : SharedMemory SZ) : Option (List UInt8) := do
  let dataSize ← shm.getSize
  let dataSize ← dataSize
  Slice.get shm.memory (headerSize SZ) (headerSize SZ + dataSize)

def setSize (shm : SharedMemory SZ) (n : Nat) : Option (SharedMemory SZ) :=
  (writeRealSize SZ shm.memory n).pmap SharedMemory.mk fun memory hmemory =>
    shm.headerSize_le.trans_eq
      (length_writeRealSize shm.memory n memory shm.headerSize_le hmemory).symm

def markInvalid (shm : SharedMemory SZ) : SharedMemory SZ where
  memory := invalidate SZ shm.memory
  headerSize_le :=
    shm.headerSize_le.trans_eq (length_invalidate shm.memory shm.headerSize_le).symm

def new (memory : List UInt8) : Result (SharedMemory SZ) :=
  if h : headerSize SZ ≤ memory.length then .ok (markInvalid ⟨memory, h⟩)
  else .error (.runtime s!"Shared memory region is too small: {memory.length} bytes")

theorem headerSize_le_writeAt (shm : SharedMemory SZ) {data : List UInt8}
    (h : data.length ≤ shm.maxDataLen) :
    headerSize SZ ≤ (Slice.writeAt shm.memory (headerSize SZ) data).length := by
  have hle := shm.headerSize_le
  rw [maxDataLen] at h
  rw [Slice.length_writeAt (by omega)]
  exact hle

/-- The bytes that `data_mut` gives are written before the size. -/
def write (shm : SharedMemory SZ) (data : List UInt8) : Option (Result Unit × SharedMemory SZ) :=
  if h : data.length ≤ shm.maxDataLen then
    let written : SharedMemory SZ :=
      ⟨Slice.writeAt shm.memory (headerSize SZ) data, shm.headerSize_le_writeAt h⟩
    (written.setSize data.length).map fun shm => (.ok (), shm)
  else
    some (.error (.runtime (s!"Shm has at most {shm.maxDataLen} bytes, but data to write is " ++
      s!"{data.length} bytes long.")), shm)

/-! ## What is read back -/

theorem setSize_eq_some {shm shm' : SharedMemory SZ} {n : Nat} :
    shm.setSize n = some shm' ↔ writeRealSize SZ shm.memory n = some shm'.memory := by
  rw [setSize, Option.pmap_eq_some_iff]
  constructor
  · rintro ⟨memory, -, hmemory, rfl⟩
    exact hmemory
  · intro h
    exact ⟨shm'.memory, shm'.headerSize_le, h, rfl⟩

theorem exists_setSize (shm : SharedMemory SZ) {n : Nat} {memory : List UInt8}
    (h : writeRealSize SZ shm.memory n = some memory) : ∃ shm', shm.setSize n = some shm' :=
  ⟨⟨memory, shm.headerSize_le.trans_eq
    (length_writeRealSize shm.memory n memory shm.headerSize_le h).symm⟩, setSize_eq_some.mpr h⟩

theorem length_le_of_write {shm shm' : SharedMemory SZ} {data : List UInt8}
    (h : shm.write data = some (.ok (), shm')) : data.length ≤ shm.maxDataLen := by
  rw [write] at h
  split at h
  · next hlen => exact hlen
  · cases h

/-- What is too long changes nothing. -/
theorem write_of_lt {shm : SharedMemory SZ} {data : List UInt8}
    (h : shm.maxDataLen < data.length) : ∃ e, shm.write data = some (.error e, shm) :=
  ⟨_, dif_neg (Nat.not_le.mpr h)⟩

/-- What is written is read back; what is too long is an error, and leaves
what is there; and what is accepted is not taken for invalid. -/
structure RoundTrips (shm : SharedMemory SZ) (data : List UInt8) : Prop where
  fits : data.length ≤ shm.maxDataLen →
    ∃ shm', shm.write data = some (.ok (), shm') ∧ shm'.data = some data
  rejected : shm.maxDataLen < data.length → ∃ e, shm.write data = some (.error e, shm)
  valid : ∀ shm', shm.write data = some (.ok (), shm') → shm'.isInvalid = some false

section

open Numeric

variable {SZ : Type} [Numeric SZ]

/-- The memory after both stores. -/
theorem writeAt_header {memory data : List UInt8} (h : size SZ ≤ memory.length) (sz : SZ) :
    Slice.writeAt (Slice.writeAt memory (size SZ) data) 0 (toBytes sz) =
      toBytes sz ++ data ++ memory.drop (size SZ + data.length) := by
  have hheader : (memory.take (size SZ)).length = size SZ := List.length_take_of_le h
  rw [writeAt_toBytes, Slice.writeAt, List.append_assoc, List.drop_left' hheader,
    List.append_assoc]

variable [BEq SZ]

/-- The header tells the length, and does not mark it as invalid. -/
def Fits (SZ : Type) [Numeric SZ] [BEq SZ] (len : Nat) : Prop :=
  ∃ sz : SZ, fromUsize len = some sz ∧ (sz == invalidShmSize) = false ∧ toUsize sz = some len

theorem getSize_of_memory {shm : SharedMemory SZ} {sz : SZ} {rest : List UInt8}
    (h : shm.memory = toBytes sz ++ rest) :
    shm.getSize = if sz == invalidShmSize then some none else (toUsize sz).map some := by
  have hheader : ofBytes (shm.memory.take (size SZ)) = sz := by
    rw [h, List.take_left' (length_toBytes sz), ofBytes_toBytes]
  show (if (ofBytes (shm.memory.take (size SZ)) : SZ) == invalidShmSize then some none
    else (toUsize (ofBytes (shm.memory.take (size SZ)) : SZ)).map some) = _
  rw [hheader]

/-- What is accepted has a header for its length, in front of the data. -/
theorem write_eq_some {shm shm' : SharedMemory SZ} {data : List UInt8}
    (h : shm.write data = some (.ok (), shm')) :
    ∃ sz : SZ, fromUsize data.length = some sz ∧
      shm'.memory = toBytes sz ++ data ++ shm.memory.drop (size SZ + data.length) := by
  rw [write] at h
  split at h
  · obtain ⟨shm'', hset, heq⟩ := Option.map_eq_some_iff.mp h
    obtain rfl := (Prod.mk.inj heq).2
    obtain ⟨sz, hsz, hmemory⟩ := Option.map_eq_some_iff.mp (setSize_eq_some.mp hset)
    exact ⟨sz, hsz, hmemory.symm.trans (writeAt_header shm.headerSize_le sz)⟩
  · cases h

theorem exists_write {shm : SharedMemory SZ} {data : List UInt8} {sz : SZ}
    (hlen : data.length ≤ shm.maxDataLen) (hsz : fromUsize data.length = some sz) :
    ∃ shm', shm.write data = some (.ok (), shm') := by
  obtain ⟨shm', hset⟩ := exists_setSize
    ⟨Slice.writeAt shm.memory (size SZ) data, shm.headerSize_le_writeAt hlen⟩
    (congrArg (Option.map _) hsz)
  refine ⟨shm', ?_⟩
  rw [write, dif_pos hlen]
  exact congrArg (Option.map _) hset

theorem getSize_of_fits {shm : SharedMemory SZ} {sz : SZ} {n : Nat} {rest : List UInt8}
    (hmemory : shm.memory = toBytes sz ++ rest) (hvalid : (sz == invalidShmSize) = false)
    (hback : toUsize sz = some n) : shm.getSize = some (some n) := by
  rw [getSize_of_memory hmemory, hvalid, if_neg Bool.false_ne_true, hback, Option.map_some]

theorem data_of_fits {shm : SharedMemory SZ} {sz : SZ} {data rest : List UInt8}
    (hmemory : shm.memory = toBytes sz ++ data ++ rest) (hvalid : (sz == invalidShmSize) = false)
    (hback : toUsize sz = some data.length) : shm.data = some data := by
  have hsize := getSize_of_fits (hmemory.trans (List.append_assoc ..)) hvalid hback
  have hget : Slice.get (toBytes sz ++ data ++ rest) (toBytes sz).length
      ((toBytes sz).length + data.length) = some data := Slice.get_append
  rw [length_toBytes, ← hmemory] at hget
  rw [SharedMemory.data, hsize]
  exact hget

omit [BEq SZ] in
theorem length_of_get {memory data : List UInt8} {start n : Nat}
    (h : Slice.get memory start (start + n) = some data) : data.length = n := by
  rw [Slice.get] at h
  split at h
  · next hle =>
      obtain rfl := Option.some.inj h
      rw [Slice.length_sub]
      omega
  · cases h

theorem fits_of_data {shm : SharedMemory SZ} {sz : SZ} {data rest : List UInt8}
    (hmemory : shm.memory = toBytes sz ++ rest) (h : shm.data = some data) :
    (sz == invalidShmSize) = false ∧ toUsize sz = some data.length := by
  rw [SharedMemory.data, getSize_of_memory hmemory] at h
  split at h
  · cases h
  · next hvalid =>
      refine ⟨Bool.eq_false_iff.mpr hvalid, ?_⟩
      cases hback : toUsize sz with
      | none =>
          rw [hback] at h
          cases h
      | some n =>
          rw [hback] at h
          rw [length_of_get h]

/-- **What is written is read back** exactly when the header can tell how long
it is. -/
theorem roundTrips_iff (shm : SharedMemory SZ) (data : List UInt8) :
    shm.RoundTrips data ↔ (data.length ≤ shm.maxDataLen → Fits SZ data.length) := by
  constructor
  · intro h hlen
    obtain ⟨shm', hwrite, hdata⟩ := h.fits hlen
    obtain ⟨sz, hsz, hmemory⟩ := write_eq_some hwrite
    exact ⟨sz, hsz, fits_of_data (hmemory.trans (List.append_assoc ..)) hdata⟩
  · intro h
    refine ⟨fun hlen => ?_, write_of_lt, fun shm' hwrite => ?_⟩
    · obtain ⟨sz, hsz, hvalid, hback⟩ := h hlen
      obtain ⟨shm', hwrite⟩ := exists_write hlen hsz
      obtain ⟨sz', hsz', hmemory⟩ := write_eq_some hwrite
      obtain rfl := Option.some.inj (hsz.symm.trans hsz')
      exact ⟨shm', hwrite, data_of_fits hmemory hvalid hback⟩
    · obtain ⟨sz, hsz, hvalid, hback⟩ := h (length_le_of_write hwrite)
      obtain ⟨sz', hsz', hmemory⟩ := write_eq_some hwrite
      obtain rfl := Option.some.inj (hsz.symm.trans hsz')
      rw [isInvalid, getSize_of_fits (hmemory.trans (List.append_assoc ..)) hvalid hback]
      rfl

end

/-! ## Integers -/

/-- The unsigned integers of some bytes. -/
abbrev Unsigned (size : Nat) := Fin (256 ^ size)

instance (size : Nat) : Numeric (Unsigned size) where
  size := size
  toBytes sz := leBytes size sz
  ofBytes bytes := Fin.ofNat (256 ^ size) (ofLeBytes bytes)
  fromUsize n := if h : n < 256 ^ size then some ⟨n, h⟩ else none
  toUsize sz := if sz.val < 2 ^ 64 then some sz.val else none
  maxValue := ⟨256 ^ size - 1, Nat.sub_lt (Nat.pow_pos (by decide)) Nat.one_pos⟩
  length_toBytes _ := length_leBytes ..
  ofBytes_toBytes sz := by
    rw [ofLeBytes_leBytes sz.isLt]
    exact Fin.ext (Nat.mod_eq_of_lt sz.isLt)

/-- A length that the type holds is told, unless it is the greatest value. -/
theorem fits_unsigned {size len : Nat} :
    Fits (Unsigned size) len ↔ len < 256 ^ size - 1 ∧ len < 2 ^ 64 := by
  constructor
  · rintro ⟨sz, hfrom, hvalid, hback⟩
    have hback : (if sz.val < 2 ^ 64 then some sz.val else none) = some len := hback
    split at hback
    · next hlt =>
        obtain rfl := Option.some.inj hback
        have hne : sz.val ≠ 256 ^ size - 1 := fun heq =>
          Bool.false_ne_true (hvalid.symm.trans (beq_iff_eq.mpr (Fin.ext heq)))
        have hle := sz.isLt
        exact ⟨by omega, hlt⟩
    · cases hback
  · rintro ⟨hlt, husize⟩
    have hfits : len < 256 ^ size := Nat.lt_of_lt_of_le hlt (Nat.sub_le ..)
    refine ⟨⟨len, hfits⟩, dif_pos hfits, ?_, if_pos husize⟩
    exact beq_eq_false_iff_ne.mpr fun heq => hlt.ne (congrArg Fin.val heq)

/-- A header of one byte, and room for as many bytes as its greatest value. -/
def oneByte : SharedMemory (Unsigned 1) where
  memory := List.replicate 256 255
  headerSize_le := (Nat.le_add_left 1 255).trans_eq List.length_replicate.symm

/-- Their number is taken for the marker. -/
theorem length_taken_for_invalid : ¬oneByte.RoundTrips (List.replicate 255 0) := by
  rw [roundTrips_iff, List.length_replicate]
  intro h
  have hlen : 255 ≤ oneByte.maxDataLen := by
    rw [maxDataLen, oneByte, List.length_replicate]
    exact Nat.le_refl 255
  exact absurd (fits_unsigned.mp (h hlen)).1 (by decide)

/-! ## The memory of the channel -/

section

variable {size : Nat} (shm : SharedMemory (Unsigned size))

/-- The number in the header, and the bytes behind it. -/
def toChannel : Libaflmm.SharedMemory :=
  ⟨ofLeBytes (shm.memory.take size), shm.memory.drop size⟩

theorem length_header : (shm.memory.take size).length = size :=
  List.length_take_of_le shm.headerSize_le

theorem ofLeBytes_header_lt : ofLeBytes (shm.memory.take size) < 256 ^ size := by
  have hlt := ofLeBytes_lt (shm.memory.take size)
  rwa [shm.length_header] at hlt

theorem memory_eq :
    shm.memory = leBytes size (ofLeBytes (shm.memory.take size)) ++ shm.memory.drop size := by
  have hback := leBytes_ofLeBytes (shm.memory.take size)
  rw [shm.length_header] at hback
  rw [hback, List.take_append_drop]

variable {shm} in
theorem toChannel_of_memory {n : Nat} {rest : List UInt8} (hn : n < 256 ^ size)
    (h : shm.memory = leBytes size n ++ rest) : shm.toChannel = ⟨n, rest⟩ := by
  have hlen := length_leBytes size n
  rw [toChannel, h, List.take_left' hlen, List.drop_left' hlen, ofLeBytes_leBytes hn]

/-- A header of up to eight bytes is a size. -/
theorem toChannel_getSize (hsize : size ≤ 8) :
    shm.getSize = some (shm.toChannel.getSize (256 ^ size - 1)) := by
  have hlt := shm.ofLeBytes_header_lt
  have hfits : ofLeBytes (shm.memory.take size) < 2 ^ 64 :=
    hlt.trans_le (Nat.pow_le_pow_right (by decide) hsize)
  have hheader : (⟨ofLeBytes (shm.memory.take size), hlt⟩ : Unsigned size) == invalidShmSize ↔
      ofLeBytes (shm.memory.take size) = 256 ^ size - 1 := by
    rw [beq_iff_eq, Fin.ext_iff]
    rfl
  have hsize := getSize_of_memory (show shm.memory =
    Numeric.toBytes (⟨ofLeBytes (shm.memory.take size), hlt⟩ : Unsigned size) ++
      shm.memory.drop size from shm.memory_eq)
  rw [hsize, Libaflmm.SharedMemory.getSize, toChannel]
  by_cases hinvalid : ofLeBytes (shm.memory.take size) = 256 ^ size - 1
  · rw [if_pos (hheader.mpr hinvalid), if_pos hinvalid]
  · rw [if_neg (mt hheader.mp hinvalid), if_neg hinvalid]
    exact congrArg (Option.map some) (if_pos hfits)

theorem toChannel_setSize (n : Nat) :
    (shm.setSize n).map toChannel = shm.toChannel.setSize (256 ^ size - 1) n := by
  rw [Libaflmm.SharedMemory.setSize]
  by_cases hn : n < 256 ^ size
  · have hstore : ShmHeader.writeRealSize (Unsigned size) shm.memory n =
        some (Slice.writeAt shm.memory 0 (leBytes size n)) :=
      congrArg (Option.map _) (dif_pos hn)
    obtain ⟨shm', hset⟩ := exists_setSize shm hstore
    have hmemory := Option.some.inj (hstore.symm.trans (setSize_eq_some.mp hset))
    have hlayout : shm'.memory = leBytes size n ++ shm.memory.drop size :=
      hmemory.symm.trans (writeAt_toBytes shm.memory (⟨n, hn⟩ : Unsigned size))
    rw [hset, if_pos (Nat.le_sub_one_of_lt hn), Option.map_some, toChannel_of_memory hn hlayout]
    rfl
  · have hnone : shm.setSize n = none := by
      cases hset : shm.setSize n with
      | none => rfl
      | some shm' =>
          obtain ⟨sz, hsz, -⟩ := Option.map_eq_some_iff.mp (setSize_eq_some.mp hset)
          exact absurd (hsz.symm.trans (dif_neg hn)) (Option.some_ne_none sz)
    have hpos : 0 < 256 ^ size := Nat.pow_pos (by decide)
    rw [hnone, if_neg (by omega)]
    rfl

theorem toChannel_markInvalid :
    shm.markInvalid.toChannel = shm.toChannel.markInvalid (256 ^ size - 1) :=
  toChannel_of_memory (Nat.sub_lt (Nat.pow_pos (by decide)) Nat.one_pos)
    (writeAt_toBytes shm.memory (invalidShmSize : Unsigned size))

end

end SharedMemory

end Shm

end Libaflmm
