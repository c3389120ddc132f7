import Libaflmm.QasanMalloc

/-!
# What the shadow says of the chunks of libqasan

An allocation marks its header and its data valid and the two red zones poisoned, byte
by byte up to the end of the data; a deallocation poisons the data, with what it is
rounded up by, and leaves the rest. What an access check makes of these marks is said
here for one chunk; that the chunks do not disturb each other is shown of the runs.
-/

namespace Libaflmm

namespace Qasan

open AsanGiovese (mark Poisoned SomePoisoned SomeHigh)

/-! ## Sizes -/

/-- A size that can be rounded up. -/
theorem qasanAlignUp_eq {size : Nat} (h : size + 15 < 2 ^ 64) :
    qasanAlignUp size ALLOC_ALIGN_SIZE = (size + 15) / 16 * 16 := by
  simp only [qasanAlignUp, ALLOC_ALIGN_SIZE]
  omega

theorem chunkBytes_eq {size : Nat} (h : size + 311 < 2 ^ 64) :
    chunkBytes size = 296 + (size + 15) / 16 * 16 := by
  unfold chunkBytes sizeofChunkStruct sizeofChunkBegin REDZONE_SIZE
  rw [qasanAlignUp_eq (by omega)]
  omega

/-! ## Blocks -/

namespace Block

variable (b : Block)

/-- Where the header is. -/
def chunk : Nat := b.data - sizeofChunkBegin

/-- The address behind the block. -/
def stop : Nat := b.orig + b.total

/-- The size of the data with what it is rounded up by. -/
def room : Nat := qasanAlignUp b.size ALLOC_ALIGN_SIZE

/-- The header, the red zones and the data lie in the block. -/
structure WellFormed : Prop where
  orig_pos : 0 < b.orig
  orig_aligned : b.orig % 16 = 0
  total : b.total % 8 = 0
  data : b.data % 8 = 0
  header : b.orig + sizeofChunkBegin ≤ b.data
  fits : b.data + b.room + REDZONE_SIZE ≤ b.stop
  bound : b.stop < 2 ^ 64
  size : b.size + 15 < 2 ^ 64
  plain : b.aligned = false → b.data = b.orig + sizeofChunkBegin

def Apart (b c : Block) : Prop := b.stop ≤ c.orig ∨ c.stop ≤ b.orig

/-- The marks of the shadow from the header to the end of the second red zone. -/
def liveMark (x : Nat) : Int :=
  if x < b.chunk + 32 then 0
  else if x < b.data then -6
  else if 8 * (x / 8) + 8 ≤ b.data + b.size then 0
  else if 8 * (x / 8) < b.data + b.size then (b.size % 8 : Nat)
  else -5

def freedMark (x : Nat) : Int :=
  if x < b.chunk + 32 then 0
  else if x < b.data then -6
  else if x < b.data + b.room then -3
  else -5

def Marked (guestBase : Nat) (host : AsanGiovese) (marks : Nat → Int) : Prop :=
  ∀ x, b.chunk ≤ x → x < b.data + b.room + REDZONE_SIZE → mark guestBase host x = marks x

variable {b}

theorem WellFormed.room_eq (h : b.WellFormed) : b.room = (b.size + 15) / 16 * 16 :=
  qasanAlignUp_eq h.size

theorem WellFormed.chunk_eq (h : b.WellFormed) : b.chunk + 160 = b.data :=
  Nat.sub_add_cancel ((Nat.le_add_left _ _).trans h.header)

end Block

/-! ## Marks -/

section Marks

variable {guestBase : Nat} (hbase : 8 ∣ guestBase) (host : AsanGiovese)

include hbase

/-- What an allocation does to the shadow. -/
theorem mark_place {b : Block} (hb : b.WellFormed) :
    let host' := (((host.unpoison guestBase b.orig b.total).2.poison guestBase (b.chunk + 32)
      REDZONE_SIZE ASAN_HEAP_LEFT_RZ).2.poison guestBase (b.data + b.size)
        (b.room - b.size + REDZONE_SIZE) ASAN_HEAP_RIGHT_RZ).2
    b.Marked guestBase host' b.liveMark ∧
      ∀ x, ¬(b.orig ≤ x ∧ x < b.stop) → mark guestBase host' x = mark guestBase host x := by
  have hroom := hb.room_eq
  have hchunk := hb.chunk_eq
  have hfits := hb.fits
  have horig := hb.orig_aligned
  have htotal := hb.total
  have hdata := hb.data
  have hheader := hb.header
  unfold sizeofChunkBegin at hheader
  unfold Block.stop at hfits
  have hleft : ASAN_HEAP_LEFT_RZ.toInt = -6 := rfl
  have hright : ASAN_HEAP_RIGHT_RZ.toInt = -5 := rfl
  unfold REDZONE_SIZE at *
  refine ⟨fun x hlo hhi => ?_, fun x hx => ?_⟩
  · rw [AsanGiovese.mark_poison hbase _ _ x (by omega) (by omega),
      AsanGiovese.mark_poison hbase _ _ x (by omega) (by omega),
      AsanGiovese.mark_unpoison hbase, hleft, hright]
    unfold Block.liveMark
    unfold REDZONE_SIZE at hhi
    split_ifs <;> omega
  · unfold Block.stop at hx
    rw [AsanGiovese.mark_poison hbase _ _ x (by omega) (by omega),
      AsanGiovese.mark_poison hbase _ _ x (by omega) (by omega),
      AsanGiovese.mark_unpoison hbase, if_neg (by omega), if_neg (by omega), if_neg (by omega),
      if_neg (by omega), if_neg (by omega)]

/-- What a deallocation does to the shadow. -/
theorem mark_free {b : Block} (hb : b.WellFormed) (h : b.Marked guestBase host b.liveMark) :
    let host' := (host.poison guestBase b.data b.room ASAN_HEAP_FREED).2
    b.Marked guestBase host' b.freedMark ∧
      ∀ x, ¬(b.orig ≤ x ∧ x < b.stop) → mark guestBase host' x = mark guestBase host x := by
  have hroom := hb.room_eq
  have hchunk := hb.chunk_eq
  have hfits := hb.fits
  have hdata := hb.data
  have hheader := hb.header
  unfold sizeofChunkBegin at hheader
  unfold Block.stop at hfits
  have hfreed : ASAN_HEAP_FREED.toInt = -3 := rfl
  unfold REDZONE_SIZE at *
  by_cases hzero : b.room = 0
  · have hsame : ∀ x, mark guestBase (host.poison guestBase b.data b.room ASAN_HEAP_FREED).2 x =
        mark guestBase host x := by
      intro x
      rw [mark, mark, AsanGiovese.poison_of_short (.inl hzero)]
    refine ⟨fun x hlo hhi => ?_, fun x _ => hsame x⟩
    rw [hsame, h x hlo hhi]
    unfold Block.liveMark Block.freedMark
    split_ifs <;> omega
  · refine ⟨fun x hlo hhi => ?_, fun x hx => ?_⟩
    · rw [AsanGiovese.mark_poison hbase _ _ x hzero (.inl hdata), hfreed, h x hlo hhi]
      unfold Block.liveMark Block.freedMark
      unfold REDZONE_SIZE at hhi
      split_ifs <;> omega
    · unfold Block.stop at hx
      rw [AsanGiovese.mark_poison hbase _ _ x hzero (.inl hdata), if_neg (by omega),
        if_neg (by omega)]

variable {host}

/-- In a range whose granules are valid no access is reported. -/
theorem not_invalid_of_marks {addr n : Nat}
    (h : ∀ x, addr ≤ x → x < addr + n →
      mark guestBase host x = 0 ∨ (x % 8 < mark guestBase host x ∧ addr + n < 8 * (x / 8) + 8)) :
    host.isInvalidAccessN guestBase addr n = false := by
  rw [Bool.eq_false_iff, Ne, AsanGiovese.isInvalidAccessN_iff hbase]
  rintro (⟨x, hlo, hhi, hne, hlt⟩ | ⟨g, -, hlo, hhi, hmark⟩)
  · rcases h x hlo hhi with hzero | ⟨hgt, -⟩
    · exact hne hzero
    · omega
  · rcases h g hlo (by omega) with hzero | ⟨-, hend⟩
    · omega
    · omega

/-- The header of a chunk can be read. -/
theorem not_invalid_header {b : Block} (hb : b.WellFormed) {marks : Nat → Int}
    (h : b.Marked guestBase host marks) (hmarks : ∀ x, x < b.chunk + 32 → marks x = 0) :
    host.isInvalidAccessN guestBase b.chunk (sizeofChunkBegin - REDZONE_SIZE) = false := by
  have hchunk := hb.chunk_eq
  refine not_invalid_of_marks hbase fun x hlo hhi => .inl ?_
  have hlt : x < b.chunk + 32 := hhi
  rw [h x hlo (by omega), hmarks x hlt]

/-- An access to the data of an allocation is not reported. -/
theorem not_invalid_live {b : Block} (hb : b.WellFormed) (h : b.Marked guestBase host b.liveMark)
    {addr n : Nat} (hlo : b.data ≤ addr) (hhi : addr + n ≤ b.data + b.size) :
    host.isInvalidAccessN guestBase addr n = false := by
  have hchunk := hb.chunk_eq
  have hroom := hb.room_eq
  have hdata := hb.data
  refine not_invalid_of_marks hbase fun x hx hx' => ?_
  rw [h x (by omega) (by omega)]
  unfold Block.liveMark
  split_ifs <;> omega

/-- An access to the red zones of an allocation is reported. -/
theorem invalid_redzone {b : Block} (hb : b.WellFormed) (h : b.Marked guestBase host b.liveMark)
    {addr n x : Nat} (hx : addr ≤ x ∧ x < addr + n)
    (hzone : (b.data - REDZONE_SIZE ≤ x ∧ x < b.data) ∨
      (b.data + b.size ≤ x ∧ x < b.data + b.size + REDZONE_SIZE)) :
    host.isInvalidAccessN guestBase addr n = true := by
  have hchunk := hb.chunk_eq
  have hroom := hb.room_eq
  have hdata := hb.data
  unfold REDZONE_SIZE at hzone
  rw [AsanGiovese.isInvalidAccessN_iff hbase]
  refine .inl ⟨x, hx.1, hx.2, ?_⟩
  rw [Poisoned, h x (by omega) (by unfold REDZONE_SIZE; omega)]
  unfold Block.liveMark
  split_ifs <;> omega

/-- An access to the data of a chunk in quarantine, or to its red zones, is reported. -/
theorem invalid_freed {b : Block} (hb : b.WellFormed) (h : b.Marked guestBase host b.freedMark)
    {addr n x : Nat} (hx : addr ≤ x ∧ x < addr + n)
    (hdata : b.data - REDZONE_SIZE ≤ x ∧ x < b.data + b.size + REDZONE_SIZE) :
    host.isInvalidAccessN guestBase addr n = true := by
  have hchunk := hb.chunk_eq
  have hroom := hb.room_eq
  unfold REDZONE_SIZE at hdata
  rw [AsanGiovese.isInvalidAccessN_iff hbase]
  refine .inl ⟨x, hx.1, hx.2, ?_⟩
  rw [Poisoned, h x (by omega) (by unfold REDZONE_SIZE; omega)]
  unfold Block.freedMark
  split_ifs <;> omega

end Marks

end Qasan

end Libaflmm
