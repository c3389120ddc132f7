import Libaflmm.Calls
import Mathlib.Algebra.Group.Nat.Defs
import Mathlib.Tactic.Common

/-!
# The guest shadow

Every 8 bytes of guest memory have one byte of shadow: zero when all of them
are valid, `k` below 8 when the first `k` are, anything else when none is.

This is the 64-bit layout (`DefaultShadowLayout`). The low and the high shadow
map are one function from the number of the 8 bytes; addresses and lengths are
below `2 ^ 64`.
-/

namespace Libaflmm

inductive PoisonType
  | asanValid
  | asanPartial1
  | asanPartial2
  | asanPartial3
  | asanPartial4
  | asanPartial5
  | asanPartial6
  | asanPartial7
  | asanArrayCookie
  | asanStackRz
  | asanStackLeftRz
  | asanStackMidRz
  | asanStackRightRz
  | asanStackFreed
  | asanStackOoscope
  | asanGlobalRz
  | asanHeapRz
  | asanUser
  | asanHeapLeftRz
  | asanHeapRightRz
  | asanHeapFreed
deriving DecidableEq

def PoisonType.toUInt8 : PoisonType → UInt8
  | asanValid => 0x00
  | asanPartial1 => 0x01
  | asanPartial2 => 0x02
  | asanPartial3 => 0x03
  | asanPartial4 => 0x04
  | asanPartial5 => 0x05
  | asanPartial6 => 0x06
  | asanPartial7 => 0x07
  | asanArrayCookie => 0xac
  | asanStackRz => 0xf0
  | asanStackLeftRz => 0xf1
  | asanStackMidRz => 0xf2
  | asanStackRightRz => 0xf3
  | asanStackFreed => 0xf5
  | asanStackOoscope => 0xf8
  | asanGlobalRz => 0xf9
  | asanHeapRz => 0xe9
  | asanUser => 0xf7
  | asanHeapLeftRz => 0xfa
  | asanHeapRightRz => 0xfb
  | asanHeapFreed => 0xfd

/-- What the allocator uses of a shadow. -/
class Shadow (S : Type) (ε : outParam Type) where
  poison : Nat → Nat → PoisonType → Call ε S Unit
  unpoison : Nat → Nat → Call ε S Unit

inductive GuestShadowError
  | invalidMemoryAddress (addr : Nat)
  | unalignedEndAddress (start len : Nat)
  | unalignedStartAddress (start len : Nat)
  | addressRangeOverflow (start len : Nat)
  | poisoned (start len : Nat)
deriving DecidableEq

structure GuestShadow where
  cells : Nat → UInt8

namespace GuestShadow

def ALLOC_ALIGN_SIZE : Nat := 8

def LOW_MEM_OFFSET : Nat := 0x0

def LOW_MEM_SIZE : Nat := 0x00007fff8000

def HIGH_MEM_OFFSET : Nat := 0x10007fff8000

def HIGH_MEM_SIZE : Nat := 0x6fff80008000

def LOW_MEM_LIMIT : Nat := LOW_MEM_OFFSET + (LOW_MEM_SIZE - 1)

def HIGH_MEM_LIMIT : Nat := HIGH_MEM_OFFSET + (HIGH_MEM_SIZE - 1)

def remainder (addr : Nat) : Nat := addr % ALLOC_ALIGN_SIZE

def alignDown (addr : Nat) : Nat := addr - remainder addr

/-- The assertion that `addr + 7` does not overflow holds of an address of the memory. -/
def alignUp (addr : Nat) : Nat := alignDown (addr + (ALLOC_ALIGN_SIZE - 1))

def isOutOfBounds (addr len : Nat) : Bool := len ≠ 0 && 2 ^ 64 - len < addr

def isStartAligned (addr : Nat) : Bool := remainder addr = 0

def endRemainder (addr len : Nat) : Nat := remainder (remainder addr + remainder len)

def isEndAligned (addr len : Nat) : Bool := endRemainder addr len = 0

def isLowMemory (addr len : Nat) : Bool :=
  LOW_MEM_OFFSET ≤ addr && addr ≤ LOW_MEM_LIMIT && len ≤ LOW_MEM_LIMIT - addr + 1

def isHighMemory (addr len : Nat) : Bool :=
  HIGH_MEM_OFFSET ≤ addr && addr ≤ HIGH_MEM_LIMIT && len ≤ HIGH_MEM_LIMIT - addr + 1

def isMemory (addr len : Nat) : Bool := isLowMemory addr len || isHighMemory addr len

/-- The shadow of `len` bytes from `addr`, as `get_shadow` and `get_shadow_mut` find it. -/
def getShadow (addr len : Nat) : Call GuestShadowError GuestShadow (List Nat) :=
  if addr % ALLOC_ALIGN_SIZE ≠ 0 ∨ len % ALLOC_ALIGN_SIZE ≠ 0 then Call.ofFn fun _ => none
  else if isMemory addr len then
    pure (List.range' (addr / ALLOC_ALIGN_SIZE) (len / ALLOC_ALIGN_SIZE))
  else Call.ofResult (.error (.invalidMemoryAddress addr))

/-- Writes one value to the shadow of `len` bytes from `addr`. -/
def setShadow (addr len : Nat) (v : UInt8) : Call GuestShadowError GuestShadow Unit := do
  let shadow ← getShadow addr len
  Call.update fun s => ⟨fun g => if g ∈ shadow then v else s.cells g⟩

def poison (start len : Nat) (poison : PoisonType) : Call GuestShadowError GuestShadow Unit :=
  if isOutOfBounds start len then Call.ofResult (.error (.addressRangeOverflow start len))
  else if !isMemory start len then Call.ofResult (.error (.invalidMemoryAddress start))
  else if !isEndAligned start len then Call.ofResult (.error (.unalignedEndAddress start len))
  else if len = 0 then pure ()
  else if isStartAligned start then setShadow (alignUp start) len poison.toUInt8
  else do
    let firstUnpoisoned := remainder start
    let poisoned := ALLOC_ALIGN_SIZE - firstUnpoisoned
    setShadow (alignDown start) ALLOC_ALIGN_SIZE firstUnpoisoned.toUInt8
    -- the end is aligned, so that the range reaches the end of the first 8 bytes
    let remainingLen := len - poisoned
    if remainingLen = 0 then pure ()
    else setShadow (alignUp start) remainingLen poison.toUInt8

def unpoison (start len : Nat) : Call GuestShadowError GuestShadow Unit :=
  if isOutOfBounds start len then Call.ofResult (.error (.addressRangeOverflow start len))
  else if !isMemory start len then Call.ofResult (.error (.invalidMemoryAddress start))
  else if !isStartAligned start then Call.ofResult (.error (.unalignedStartAddress start len))
  else if len = 0 then pure ()
  else
    let alignedLen := alignDown len
    if isEndAligned start len then setShadow start alignedLen PoisonType.asanValid.toUInt8
    else do
      let lastUnpoisoned := remainder len
      setShadow (start + alignedLen) ALLOC_ALIGN_SIZE lastUnpoisoned.toUInt8
      let remainingLen := len - lastUnpoisoned
      if remainingLen = 0 then pure ()
      else setShadow start alignedLen PoisonType.asanValid.toUInt8

instance : Shadow GuestShadow GuestShadowError := ⟨poison, unpoison⟩

/-- The byte at `a` must not be accessed. -/
def Poisoned (s : GuestShadow) (a : Nat) : Prop :=
  let k := (s.cells (a / ALLOC_ALIGN_SIZE)).toInt8
  k ≠ 0 ∧ k < (a % ALLOC_ALIGN_SIZE + 1).toInt8

instance (s : GuestShadow) (a : Nat) : Decidable (s.Poisoned a) :=
  inferInstanceAs (Decidable (_ ∧ _))

/-! ## Effects -/

/-- The shadow after poisoning a range that ends at a multiple of 8. -/
def poisoned (start len : Nat) (v : UInt8) (s : GuestShadow) : GuestShadow where
  cells g :=
    if start ≤ 8 * g ∧ 8 * g < start + len then v
    else if 8 * g < start ∧ start < 8 * g + 8 ∧ len ≠ 0 then (start % 8).toUInt8
    else s.cells g

/-- The shadow after unpoisoning a range that starts at a multiple of 8. -/
def unpoisoned (start len : Nat) (s : GuestShadow) : GuestShadow where
  cells g :=
    if start ≤ 8 * g ∧ 8 * g + 8 ≤ start + len then 0
    else if start ≤ 8 * g ∧ 8 * g < start + len then (len % 8).toUInt8
    else s.cells g

theorem run_setShadow {addr len : Nat} {v : UInt8} {s : GuestShadow} (haddr : addr % 8 = 0)
    (hlen : len % 8 = 0) (hmem : isMemory addr len = true) :
    (setShadow addr len v).run s =
      some (.ok (), ⟨fun g => if addr ≤ 8 * g ∧ 8 * g < addr + len then v else s.cells g⟩) := by
  have hget : (getShadow addr len).run s =
      some (.ok (List.range' (addr / ALLOC_ALIGN_SIZE) (len / ALLOC_ALIGN_SIZE)), s) := by
    rw [getShadow, if_neg (by simp [ALLOC_ALIGN_SIZE, haddr, hlen]), if_pos hmem]
    rfl
  rw [setShadow, Call.run_bind_of_ok hget, Call.run_update]
  congr 3
  funext g
  refine if_congr ?_ rfl rfl
  simp only [List.mem_range'_1, ALLOC_ALIGN_SIZE]
  omega

theorem isMemory_iff {addr len : Nat} : isMemory addr len = true ↔
    (addr < 0x7fff8000 ∧ addr + len ≤ 0x7fff8000) ∨
      (0x10007fff8000 ≤ addr ∧ addr < 0x800000000000 ∧ addr + len ≤ 0x800000000000) := by
  simp only [isMemory, isLowMemory, isHighMemory, Bool.or_eq_true, Bool.and_eq_true,
    decide_eq_true_eq]
  simp only [LOW_MEM_OFFSET, LOW_MEM_LIMIT, LOW_MEM_SIZE, HIGH_MEM_OFFSET, HIGH_MEM_LIMIT,
    HIGH_MEM_SIZE]
  omega

theorem isStartAligned_iff {start : Nat} : isStartAligned start = true ↔ start % 8 = 0 := by
  rw [isStartAligned, decide_eq_true_eq, remainder, ALLOC_ALIGN_SIZE]

theorem isEndAligned_iff {start len : Nat} :
    isEndAligned start len = true ↔ (start + len) % 8 = 0 := by
  rw [isEndAligned, decide_eq_true_eq]
  simp only [endRemainder, remainder, ALLOC_ALIGN_SIZE]
  omega

theorem done_congr {f g : Nat → UInt8} (h : ∀ n, f n = g n) :
    (some (.ok (), ⟨f⟩) : Option (Except GuestShadowError Unit × GuestShadow)) =
      some (.ok (), ⟨g⟩) := by
  rw [funext h]

theorem isOutOfBounds_of_isMemory {addr len : Nat} (h : isMemory addr len = true) :
    ¬isOutOfBounds addr len = true := by
  rw [isMemory_iff] at h
  rw [isOutOfBounds, Bool.and_eq_true, decide_eq_true_eq, decide_eq_true_eq]
  omega

theorem run_poison_of_accepted {start len : Nat} (p : PoisonType) (s : GuestShadow)
    (hmem : isMemory start len = true) (hend : isEndAligned start len = true) :
    (poison start len p).run s = some (.ok (), s.poisoned start len p.toUInt8) := by
  rw [poison, if_neg (isOutOfBounds_of_isMemory hmem), if_neg (by simp [hmem]),
    if_neg (by simp [hend])]
  rw [isEndAligned_iff] at hend
  rw [isMemory_iff] at hmem
  have hup : alignUp start % 8 = 0 ∧ start ≤ alignUp start ∧ alignUp start < start + 8 := by
    simp only [alignUp, alignDown, remainder, ALLOC_ALIGN_SIZE]
    omega
  split
  · next hlen =>
      refine done_congr fun g => ?_
      rw [if_neg (by omega), if_neg (by omega)]
  · next hlen =>
      split
      · next hstart =>
          rw [isStartAligned_iff] at hstart
          rw [run_setShadow hup.1 (by omega) (isMemory_iff.mpr (by omega))]
          refine done_congr fun g => ?_
          rw [if_neg (show ¬(8 * g < start ∧ start < 8 * g + 8 ∧ len ≠ 0) by omega)]
          exact if_congr (by omega) rfl rfl
      · next hstart =>
          rw [isStartAligned_iff] at hstart
          have hdown : alignDown start + start % 8 = start := by
            simp only [alignDown, remainder, ALLOC_ALIGN_SIZE]
            omega
          have hfirst := run_setShadow (s := s) (v := (remainder start).toUInt8)
            (show alignDown start % 8 = 0 by omega) (show 8 % 8 = 0 by rfl)
            (isMemory_iff.mpr (by omega))
          refine (Call.run_bind_of_ok hfirst).trans ?_
          dsimp only
          split
          · next hrest =>
              simp only [remainder, ALLOC_ALIGN_SIZE] at hrest
              refine done_congr fun g => ?_
              rw [if_neg (show ¬(start ≤ 8 * g ∧ 8 * g < start + len) by omega)]
              exact if_congr (by omega) rfl rfl
          · next hrest =>
              simp only [remainder, ALLOC_ALIGN_SIZE] at hrest ⊢
              rw [run_setShadow hup.1 (by omega) (isMemory_iff.mpr (by omega))]
              refine done_congr fun g => ?_
              refine if_congr (by omega) rfl ?_
              exact if_congr (by omega) rfl rfl

/-- **Poisoning** fails without an effect, or marks the range. -/
theorem run_poison (start len : Nat) (p : PoisonType) (s : GuestShadow) :
    (∃ e, (poison start len p).run s = some (.error e, s)) ∨
      (start + len) % 8 = 0 ∧
        (poison start len p).run s = some (.ok (), s.poisoned start len p.toUInt8) := by
  by_cases hbounds : isOutOfBounds start len = true
  · exact Or.inl ⟨_, by rw [poison, if_pos hbounds]; rfl⟩
  by_cases hmem : isMemory start len = true
  swap
  · exact Or.inl ⟨_, by rw [poison, if_neg hbounds, if_pos (by simp [hmem])]; rfl⟩
  by_cases hend : isEndAligned start len = true
  swap
  · exact Or.inl ⟨_, by
      rw [poison, if_neg hbounds, if_neg (by simp [hmem]), if_pos (by simp [hend])]; rfl⟩
  exact Or.inr ⟨isEndAligned_iff.mp hend, run_poison_of_accepted p s hmem hend⟩

theorem run_unpoison_of_accepted {start len : Nat} (s : GuestShadow)
    (hmem : isMemory start len = true) (hstart : isStartAligned start = true) :
    (unpoison start len).run s = some (.ok (), s.unpoisoned start len) := by
  rw [unpoison, if_neg (isOutOfBounds_of_isMemory hmem), if_neg (by simp [hmem]),
    if_neg (by simp [hstart])]
  rw [isStartAligned_iff] at hstart
  rw [isMemory_iff] at hmem
  have hdown : alignDown len + len % 8 = len := by
    simp only [alignDown, remainder, ALLOC_ALIGN_SIZE]
    omega
  split
  · next hlen =>
      refine done_congr fun g => ?_
      rw [if_neg (by omega), if_neg (by omega)]
  · next hlen =>
      split
      · next hend =>
          rw [isEndAligned_iff] at hend
          rw [run_setShadow hstart (by omega) (isMemory_iff.mpr (by omega))]
          refine done_congr fun g => ?_
          by_cases hg : start ≤ 8 * g ∧ 8 * g + 8 ≤ start + len
          · rw [if_pos hg, if_pos (by omega)]
            rfl
          · rw [if_neg hg, if_neg (by omega), if_neg (by omega)]
      · next hend =>
          rw [isEndAligned_iff] at hend
          have hlast := run_setShadow (s := s) (v := (remainder len).toUInt8)
            (show (start + alignDown len) % 8 = 0 by omega) (show 8 % 8 = 0 by rfl)
            (isMemory_iff.mpr (by omega))
          refine (Call.run_bind_of_ok hlast).trans ?_
          dsimp only
          split
          · next hrest =>
              simp only [remainder, ALLOC_ALIGN_SIZE] at hrest
              refine done_congr fun g => ?_
              rw [if_neg (show ¬(start ≤ 8 * g ∧ 8 * g + 8 ≤ start + len) by omega)]
              exact if_congr (by omega) rfl rfl
          · next hrest =>
              rw [run_setShadow hstart (by omega) (isMemory_iff.mpr (by omega))]
              refine done_congr fun g => ?_
              by_cases hg : start ≤ 8 * g ∧ 8 * g < start + alignDown len
              · rw [if_pos hg, if_pos (by omega)]
                rfl
              · rw [if_neg hg, if_neg (by omega)]
                exact if_congr (by omega) rfl rfl

/-- **Unpoisoning** fails without an effect, or clears the range. -/
theorem run_unpoison (start len : Nat) (s : GuestShadow) :
    (∃ e, (unpoison start len).run s = some (.error e, s)) ∨
      start % 8 = 0 ∧ (unpoison start len).run s = some (.ok (), s.unpoisoned start len) := by
  by_cases hbounds : isOutOfBounds start len = true
  · exact Or.inl ⟨_, by rw [unpoison, if_pos hbounds]; rfl⟩
  by_cases hmem : isMemory start len = true
  swap
  · exact Or.inl ⟨_, by rw [unpoison, if_neg hbounds, if_pos (by simp [hmem])]; rfl⟩
  by_cases hstart : isStartAligned start = true
  swap
  · exact Or.inl ⟨_, by
      rw [unpoison, if_neg hbounds, if_neg (by simp [hmem]), if_pos (by simp [hstart])]; rfl⟩
  exact Or.inr ⟨isStartAligned_iff.mp hstart, run_unpoison_of_accepted s hmem hstart⟩

end GuestShadow

end Libaflmm
