import Mathlib.Algebra.Order.Ring.Nat
import Mathlib.Data.Nat.ModEq

/-!
# Traces of Intel PT

The kernel writes a trace to a ring buffer and counts the bytes in `head`; the
reader counts in `tail` what it has read. Both only grow, and where a byte is in
the buffer is its number modulo the size, a power of two. What is read goes up
to the end of the buffer and on from its beginning if `head` is at a smaller
place than `tail`, and otherwise it is taken to be in one piece, which it is not
for a full buffer that does not begin at the place zero.

A byte that is not in the buffer is `none`, and so is what panics.
-/

namespace Libaflmm

inductive IntelPtError where
  | headBehindTail
  | previousHeadBehindTail

/-- The buffer of a trace, with `2 ^ k` bytes. -/
structure AuxBuffer (k : Nat) where
  bytes : List UInt8
  size : bytes.length = 2 ^ k

structure IntelPt where
  auxTail : Nat
  previousDecodeHead : Nat

namespace IntelPt

variable {k : Nat}

def new : IntelPt := ⟨0, 0⟩

def wrapAuxPointer (ptr perfAuxBufferSize : Nat) : Nat := ptr &&& (perfAuxBufferSize - 1)

/-- `len` bytes from a place of the buffer on. -/
def slice (buffer : AuxBuffer k) (start len : Nat) : List (Option UInt8) :=
  (List.range len).map fun i => buffer.bytes[start + i]?

def joinSplitTrace (buffer : AuxBuffer k) (headWrap tailWrap : Nat) : List (Option UInt8) :=
  slice buffer tailWrap (buffer.bytes.length - tailWrap) ++ slice buffer 0 headWrap

/-- What the decoder gets, and the state after it. -/
def decodeTracesIntoMap (s : IntelPt) (buffer : AuxBuffer k) (head : Nat) :
    Option (Except IntelPtError (List (Option UInt8) × IntelPt)) :=
  let tail := s.auxTail
  if head < tail then some (.error .headBehindTail)
  else if s.previousDecodeHead < tail then some (.error .previousHeadBehindTail)
  else
    let len := head - tail
    let headWrap := wrapAuxPointer head buffer.bytes.length
    let tailWrap := wrapAuxPointer tail buffer.bytes.length
    if headWrap ≥ tailWrap then some (.ok (slice buffer tailWrap len, ⟨head, head⟩))
    else
      let ownedData := joinSplitTrace buffer headWrap tailWrap
      if ownedData.length = len then some (.ok (ownedData, ⟨head, head⟩)) else none

/-- The bytes with the numbers from `tail` up to `head`. -/
def ring (buffer : AuxBuffer k) (tail head : Nat) : List (Option UInt8) :=
  (List.range (head - tail)).map fun i => buffer.bytes[(tail + i) % 2 ^ k]?

/-! ## Places in the buffer -/

theorem wrapAuxPointer_eq (buffer : AuxBuffer k) (ptr : Nat) :
    wrapAuxPointer ptr buffer.bytes.length = ptr % 2 ^ k := by
  rw [wrapAuxPointer, buffer.size, Nat.and_two_pow_sub_one_eq_mod]

theorem ring_isSome (buffer : AuxBuffer k) (tail head : Nat) :
    ∀ byte ∈ ring buffer tail head, byte.isSome = true := by
  intro byte hbyte
  obtain ⟨i, -, rfl⟩ := List.mem_map.mp hbyte
  rw [List.getElem?_eq_getElem (by rw [buffer.size]; exact Nat.mod_lt _ (Nat.two_pow_pos k))]
  rfl

/-- A piece that ends in the buffer is a piece of the ring. -/
theorem slice_eq_ring {buffer : AuxBuffer k} {tail head : Nat}
    (h : tail % 2 ^ k + (head - tail) ≤ 2 ^ k) :
    slice buffer (tail % 2 ^ k) (head - tail) = ring buffer tail head := by
  refine List.map_congr_left fun i hi => ?_
  have hlt := List.mem_range.mp hi
  have hplace : (tail + i) % 2 ^ k = tail % 2 ^ k + i := by
    rw [← Nat.mod_add_mod]
    exact Nat.mod_eq_of_lt (by omega)
  rw [hplace]

theorem ring_append (buffer : AuxBuffer k) {tail mid head : Nat} (h : tail ≤ mid)
    (h' : mid ≤ head) : ring buffer tail head = ring buffer tail mid ++ ring buffer mid head := by
  have hlen : head - tail = (mid - tail) + (head - mid) := by omega
  rw [ring, hlen, List.range_add, List.map_append, List.map_map, ring, ring]
  refine congrArg _ (List.map_congr_left fun i _ => ?_)
  have hplace : tail + (mid - tail + i) = mid + i := by omega
  rw [Function.comp_apply, hplace]

/-- The place of the head, which is at most once around. -/
theorem place_head {tail head : Nat} (hle : tail ≤ head) (hlen : head - tail ≤ 2 ^ k) :
    head % 2 ^ k = if tail % 2 ^ k + (head - tail) < 2 ^ k then tail % 2 ^ k + (head - tail)
      else tail % 2 ^ k + (head - tail) - 2 ^ k := by
  have htail := Nat.mod_lt tail (Nat.two_pow_pos k)
  have hhead : head % 2 ^ k = (tail % 2 ^ k + (head - tail)) % 2 ^ k := by
    rw [Nat.mod_add_mod, Nat.add_sub_cancel' hle]
  rw [hhead]
  split
  · next h => exact Nat.mod_eq_of_lt h
  · next h => rw [Nat.mod_eq_sub_mod (by omega), Nat.mod_eq_of_lt (by omega)]

/-- The two pieces of a split trace are the ring, in order. -/
theorem joinSplitTrace_eq {buffer : AuxBuffer k} {tail head : Nat} (hle : tail ≤ head)
    (hlen : head - tail ≤ 2 ^ k) (hsplit : head % 2 ^ k < tail % 2 ^ k) :
    joinSplitTrace buffer (head % 2 ^ k) (tail % 2 ^ k) = ring buffer tail head := by
  have htail := Nat.mod_lt tail (Nat.two_pow_pos k)
  have hplace := place_head hle hlen
  have hpast : ¬ tail % 2 ^ k + (head - tail) < 2 ^ k := by
    intro h
    rw [if_pos h] at hplace
    omega
  rw [if_neg hpast] at hplace
  -- The trace is cut where the buffer ends.
  have hmid : (tail + (2 ^ k - tail % 2 ^ k)) % 2 ^ k = 0 := by
    rw [← Nat.mod_add_mod, Nat.add_sub_cancel' (Nat.le_of_lt htail), Nat.mod_self]
  rw [ring_append buffer (Nat.le_add_right tail (2 ^ k - tail % 2 ^ k)) (by omega),
    ← slice_eq_ring (by omega), ← slice_eq_ring (by omega), hmid, joinSplitTrace, buffer.size]
  congr 2 <;> omega

/-! ## Decoding -/

/-- The decoder gets the bytes of the ring from the tail up to the head, which are
all in the buffer, and the tail is the head afterwards. -/
def ReadsTrace (s : IntelPt) (buffer : AuxBuffer k) (head : Nat) : Prop :=
  ∃ s', decodeTracesIntoMap s buffer head = some (.ok (ring buffer s.auxTail head, s')) ∧
    s'.auxTail = head

/-- What is read in one piece ends in the buffer, or is not what is in the ring. -/
theorem slice_eq_ring_iff {buffer : AuxBuffer k} {tail head : Nat} :
    slice buffer (tail % 2 ^ k) (head - tail) = ring buffer tail head ↔
      tail % 2 ^ k + (head - tail) ≤ 2 ^ k := by
  constructor
  · intro h
    by_contra hpast
    have htail := Nat.mod_lt tail (Nat.two_pow_pos k)
    have hout : none ∈ slice buffer (tail % 2 ^ k) (head - tail) := by
      refine List.mem_map.mpr ⟨2 ^ k - tail % 2 ^ k, List.mem_range.mpr (by omega), ?_⟩
      exact List.getElem?_eq_none (by rw [buffer.size]; omega)
    rw [h] at hout
    exact absurd (ring_isSome buffer tail head none hout) (by simp)
  · exact slice_eq_ring

theorem readsTrace_iff_of_le {s : IntelPt} (buffer : AuxBuffer k) {head : Nat}
    (hprevious : s.auxTail ≤ s.previousDecodeHead) (hle : s.auxTail ≤ head)
    (hlen : head - s.auxTail ≤ 2 ^ k) :
    ReadsTrace s buffer head ↔ ¬ (head - s.auxTail = 2 ^ k ∧ s.auxTail % 2 ^ k ≠ 0) := by
  have htail := Nat.mod_lt s.auxTail (Nat.two_pow_pos k)
  have hplace := place_head hle hlen
  rw [ReadsTrace, decodeTracesIntoMap, if_neg (Nat.not_lt.mpr hle),
    if_neg (Nat.not_lt.mpr hprevious)]
  simp only [wrapAuxPointer_eq]
  by_cases hsplit : head % 2 ^ k < s.auxTail % 2 ^ k
  · rw [if_neg (by omega), joinSplitTrace_eq hle hlen hsplit,
      if_pos (by rw [ring, List.length_map, List.length_range])]
    refine iff_of_true ⟨_, rfl, rfl⟩ ?_
    split at hplace <;> omega
  · rw [if_pos (Nat.not_lt.mp hsplit)]
    have hends : ¬ (head - s.auxTail = 2 ^ k ∧ s.auxTail % 2 ^ k ≠ 0) ↔
        s.auxTail % 2 ^ k + (head - s.auxTail) ≤ 2 ^ k := by
      split at hplace <;> omega
    rw [hends, ← slice_eq_ring_iff]
    constructor
    · rintro ⟨s', h, -⟩
      injection h with h
      injection h with h
      exact (Prod.mk.inj h).1
    · exact fun h => ⟨_, by rw [h], rfl⟩

/-! ## Every state -/

/-- The states after some traces were decoded. -/
inductive Decoded (k : Nat) : IntelPt → Prop
  | new : Decoded k new
  | decode {s s' : IntelPt} {buffer : AuxBuffer k} {head : Nat} {data : List (Option UInt8)} :
      Decoded k s → decodeTracesIntoMap s buffer head = some (.ok (data, s')) → Decoded k s'

theorem decoded_previousDecodeHead {s : IntelPt} (h : Decoded k s) :
    s.previousDecodeHead = s.auxTail := by
  cases h with
  | new => rfl
  | decode _ hdecode =>
      unfold decodeTracesIntoMap at hdecode
      dsimp only at hdecode
      split at hdecode
      · cases hdecode
      · split at hdecode
        · cases hdecode
        · split at hdecode
          · cases hdecode
            rfl
          · split at hdecode
            · cases hdecode
              rfl
            · cases hdecode

/-- Every tail is that of some state. -/
theorem exists_decoded (k tail : Nat) : ∃ s, Decoded k s ∧ s.auxTail = tail := by
  induction tail with
  | zero => exact ⟨new, .new, rfl⟩
  | succ tail ih =>
      obtain ⟨s, hs, rfl⟩ := ih
      have hpos := Nat.two_pow_pos k
      have hreads : ReadsTrace s (⟨List.replicate (2 ^ k) 0, by simp⟩ : AuxBuffer k)
          (s.auxTail + 1) := by
        rw [readsTrace_iff_of_le _ (Nat.le_of_eq (decoded_previousDecodeHead hs).symm) (by omega)
          (by omega)]
        rintro ⟨hone, hne⟩
        rw [← hone, Nat.add_sub_cancel_left, Nat.mod_one] at hne
        exact hne rfl
      obtain ⟨s', hdecode, htail⟩ := hreads
      exact ⟨s', .decode hs hdecode, htail⟩

/-- A trace is read exactly unless it fills the buffer from within. -/
theorem readsTrace_iff {s : IntelPt} (hs : Decoded k s) (buffer : AuxBuffer k) {head : Nat}
    (hle : s.auxTail ≤ head) (hlen : head - s.auxTail ≤ 2 ^ k) :
    ReadsTrace s buffer head ↔ ¬ (head - s.auxTail = 2 ^ k ∧ s.auxTail % 2 ^ k ≠ 0) :=
  readsTrace_iff_of_le buffer (Nat.le_of_eq (decoded_previousDecodeHead hs).symm) hle hlen

/-- The first trace fills a buffer of two bytes. -/
theorem readsTrace_new :
    ReadsTrace new (⟨[1, 2], rfl⟩ : AuxBuffer 1) 2 ↔ ¬ (2 - 0 = 2 ^ 1 ∧ 0 % 2 ^ 1 ≠ 0) :=
  readsTrace_iff .new ⟨[1, 2], rfl⟩ (Nat.zero_le 2) (Nat.le_refl 2)

/-- After one byte the next two fill the buffer, and the second is behind it. -/
theorem not_readsTrace_full :
    ∃ s, Decoded 1 s ∧ ¬ ReadsTrace s (⟨[1, 2], rfl⟩ : AuxBuffer 1) 3 := by
  have hfirst : decodeTracesIntoMap new (⟨[1, 2], rfl⟩ : AuxBuffer 1) 1 =
      some (.ok ([some 1], ⟨1, 1⟩)) := rfl
  refine ⟨⟨1, 1⟩, .decode .new hfirst, ?_⟩
  rintro ⟨s', h, -⟩
  cases h

end IntelPt

end Libaflmm
