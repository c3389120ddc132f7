import Libaflmm.FridaAllocatorExact

/-!
# Checking an access against the shadow

`check_shadow` splits an access into the bytes in front of the first granule
boundary, the whole granules, and the bytes behind the last boundary. The mask
for the first part is the one for the last part: it selects the bytes of the
granule that are in front of the access instead of those that are in it.
-/

namespace Libaflmm

namespace FridaAllocator

variable (a : FridaAllocator)

def isManaged (baseMappingAddr ptr : Nat) : Bool :=
  baseMappingAddr ≤ ptr ∧ ptr < a.currentMappingAddr

/-- The address behind the shadow. -/
def shadowStop : Nat := a.options.shadowOffset + 2 ^ (a.options.shadowBit + 1)

/-- `none` is a failed assertion, or a slice that is not in the shadow. The
three parts of the slice that `align_to` makes are all of it. -/
def checkShadowAligned (address size : Nat) : Option Bool :=
  if address % 8 ≠ 0 ∨ size % 8 ≠ 0 then none
  else if size = 0 then some true
  else
    let shadowAddr := a.options.mapToShadow address
    let shadowSize := size >>> 3
    if shadowAddr + shadowSize ≤ a.shadowStop then
      some (decide (∀ k < shadowSize, a.shadow (shadowAddr + k) = 0xff))
    else none

/-- The bits of the mask are set in the shadow of the address. -/
def shadowHas (address : Nat) (mask : BitVec 8) : Bool :=
  a.shadow (a.options.mapToShadow address) &&& mask = mask

/-- The part of `check_shadow` for accesses that are not aligned; a sum that
overflows panics. -/
def checkShadowSlow (startAddress size : Nat) : Option Bool :=
  let endAddress := startAddress + size
  if 2 ^ 64 ≤ endAddress ∨ 2 ^ 64 ≤ startAddress + 7 then none
  else
    let alignedStart := (startAddress + 7) / 8 * 8
    let alignedEnd := endAddress / 8 * 8
    let startOffset := startAddress % 8
    let endOffset := endAddress % 8
    if startAddress ≠ alignedStart ∧
        ¬ a.shadowHas startAddress ((0xff : BitVec 8) <<< (8 - startOffset)) then
      some false
    else if alignedStart ≤ alignedEnd then
      (a.checkShadowAligned alignedStart (alignedEnd - alignedStart)).map fun aligned =>
        aligned && (endAddress = alignedEnd ||
          a.shadowHas endAddress ((0xff : BitVec 8) <<< (8 - endOffset)))
    else
      some true

def checkShadow (baseMappingAddr address size : Nat) : Option Bool :=
  if size = 0 then some true
  else if ¬ a.isManaged baseMappingAddr address then some true
  else if address % 8 = 0 ∧ size % 8 = 0 then a.checkShadowAligned address size
  else a.checkShadowSlow address size

/-- Every byte of the interval is unpoisoned. -/
def AllUnpoisoned (lo hi : Nat) : Prop := ∀ x, lo ≤ x → x < hi → a.Unpoisoned x

theorem AllUnpoisoned.append {a : FridaAllocator} {lo mid hi : Nat} (hlo : lo ≤ mid)
    (hhi : mid ≤ hi) :
    a.AllUnpoisoned lo hi ↔ a.AllUnpoisoned lo mid ∧ a.AllUnpoisoned mid hi := by
  constructor
  · intro h
    exact ⟨fun x hx hx' => h x hx (hx'.trans_le hhi), fun x hx hx' => h x (hlo.trans hx) hx'⟩
  · rintro ⟨h, h'⟩ x hx hx'
    rcases Nat.lt_or_ge x mid with hmid | hmid
    · exact h x hx hmid
    · exact h' x hmid hx'

end FridaAllocator

/-! ## The bits of one granule -/

theorem mapToShadow_eq_mod (options : FridaAllocatorOptions) (address : Nat) :
    options.mapToShadow address =
      options.shadowOffset + address / 8 % 2 ^ (options.shadowBit + 1) := by
  rw [FridaAllocatorOptions.mapToShadow, Nat.one_shiftLeft, Nat.shiftRight_eq_div_pow,
    Nat.and_two_pow_sub_one_eq_mod]

/-- A mask of `k` high bits stands for the first `k` bytes. -/
theorem and_mask_eq_iff {s : BitVec 8} {k : Nat} (hk : k < 8) (hpos : 0 < k) :
    s &&& (0xff : BitVec 8) <<< (8 - k) = (0xff : BitVec 8) <<< (8 - k) ↔
      ∀ i < k, s.getLsbD (7 - i) = true := by
  constructor
  · intro h i hi
    have hbit := congrArg (·.getLsbD (7 - i)) h
    simp only [BitVec.getLsbD_and] at hbit
    rw [getLsbD_remainder i (by omega) k hk hpos, decide_eq_true hi, Bool.and_true] at hbit
    exact hbit
  · intro h
    refine BitVec.eq_of_getLsbD_eq fun j hj => ?_
    have hmask := getLsbD_remainder (7 - j) (by omega) k hk hpos
    rw [show 7 - (7 - j) = j by omega] at hmask
    rw [BitVec.getLsbD_and, hmask]
    by_cases hlt : 7 - j < k
    · have hbit := h (7 - j) hlt
      rw [show 7 - (7 - j) = j by omega] at hbit
      simp [hbit]
    · simp [hlt]

theorem eq_ones_iff {s : BitVec 8} : s = 0xff ↔ ∀ i < 8, s.getLsbD (7 - i) = true := by
  constructor
  · rintro rfl
    exact getLsbD_ones
  · intro h
    refine BitVec.eq_of_getLsbD_eq fun j hj => ?_
    have hbit := h (7 - j) (by omega)
    have hones := getLsbD_ones (7 - j) (by omega)
    rw [show 7 - (7 - j) = j by omega] at hbit hones
    rw [hbit, hones]

namespace FridaAllocator

variable {a : FridaAllocator}

/-- The first bytes of a granule. -/
theorem shadowHas_iff {address : Nat} (h : address % 8 ≠ 0) :
    a.shadowHas address ((0xff : BitVec 8) <<< (8 - address % 8)) = true ↔
      a.AllUnpoisoned (address / 8 * 8) address := by
  rw [shadowHas, decide_eq_true_iff, and_mask_eq_iff (Nat.mod_lt _ (by omega)) (by omega)]
  constructor
  · intro hbits x hlo hhi
    have hdiv : x / 8 = address / 8 := by omega
    rw [Unpoisoned, mapToShadow_eq_mod, hdiv, ← mapToShadow_eq_mod]
    exact hbits (x % 8) (by omega)
  · intro hall i hi
    have hx := hall (address / 8 * 8 + i) (by omega) (by omega)
    rw [Unpoisoned, mapToShadow_eq_mod, show (address / 8 * 8 + i) / 8 = address / 8 by omega,
      ← mapToShadow_eq_mod, show (address / 8 * 8 + i) % 8 = i by omega] at hx
    exact hx

/-! ## Whole granules -/

/-- The granules have one stretch of the shadow: it does not start again between them. -/
def InShadow (a : FridaAllocator) (address size : Nat) : Prop :=
  address / 8 % 2 ^ (a.options.shadowBit + 1) + size / 8 ≤ 2 ^ (a.options.shadowBit + 1)

/-- In a stretch the shadow of the granules is consecutive. -/
theorem mapToShadow_add {address size k : Nat} (hin : a.InShadow address size) (hk : k < size / 8) :
    a.options.mapToShadow (address + 8 * k) = a.options.mapToShadow address + k := by
  rw [InShadow] at hin
  have hdiv : (address + 8 * k) / 8 = address / 8 + k := by omega
  have hmod : (address / 8 + k) % 2 ^ (a.options.shadowBit + 1) =
      address / 8 % 2 ^ (a.options.shadowBit + 1) + k := by
    rw [Nat.add_mod, Nat.mod_eq_of_lt (a := k) (by omega), Nat.mod_eq_of_lt (by omega)]
  rw [mapToShadow_eq_mod, mapToShadow_eq_mod, hdiv, hmod, Nat.add_assoc]

theorem checkShadowAligned_of_inShadow {address size : Nat} (h8 : address % 8 = 0)
    (hs8 : size % 8 = 0) (hin : a.InShadow address size) :
    ∃ verdict, a.checkShadowAligned address size = some verdict ∧
      (verdict = true ↔ a.AllUnpoisoned address (address + size)) := by
  rw [checkShadowAligned, if_neg (by omega)]
  by_cases hzero : size = 0
  · exact ⟨true, if_pos hzero, iff_of_true rfl fun x hx hx' => by omega⟩
  · refine ⟨_, (if_neg hzero).trans (if_pos ?_), ?_⟩
    · rw [InShadow] at hin
      rw [mapToShadow_eq_mod, shadowStop, Nat.shiftRight_eq_div_pow]
      omega
    · rw [decide_eq_true_iff, Nat.shiftRight_eq_div_pow]
      constructor
      · intro hall x hlo hhi
        have hk : (x - address) / 8 < size / 8 := by omega
        have hbyte := eq_ones_iff.mp (hall _ hk) (x % 8) (by omega)
        have hdiv : x / 8 = (address + 8 * ((x - address) / 8)) / 8 := by omega
        rw [Unpoisoned, mapToShadow_eq_mod, hdiv, ← mapToShadow_eq_mod, mapToShadow_add hin hk]
        exact hbyte
      · intro hall k hk
        refine eq_ones_iff.mpr fun i hi => ?_
        have hx := hall (address + 8 * k + i) (by omega) (by omega)
        rw [Unpoisoned, mapToShadow_eq_mod,
          show (address + 8 * k + i) / 8 = (address + 8 * k) / 8 by omega, ← mapToShadow_eq_mod,
          mapToShadow_add hin hk, show (address + 8 * k + i) % 8 = i by omega] at hx
        exact hx

theorem checkShadowAligned_of_not_inShadow {address size : Nat}
    (hin : ¬ a.InShadow address size) : a.checkShadowAligned address size = none := by
  have hmod := Nat.mod_lt (address / 8) (Nat.two_pow_pos (a.options.shadowBit + 1))
  rw [InShadow] at hin
  rw [checkShadowAligned]
  split
  · rfl
  · rw [if_neg (by omega)]
    refine if_neg ?_
    rw [mapToShadow_eq_mod, shadowStop, Nat.shiftRight_eq_div_pow]
    omega

/-! ## The whole check -/

/-- Where the first whole granule of an access starts. -/
def alignedStart (address : Nat) : Nat := (address + 7) / 8 * 8

/-- The whole granules of an access: where they start and their size. -/
def alignedSize (address size : Nat) : Nat := (address + size) / 8 * 8 - alignedStart address

/-- The check does not panic and tells if all bytes are unpoisoned, and it is
the aligned check where that one is for. -/
structure ShadowChecked (a : FridaAllocator) (baseMappingAddr address size : Nat) : Prop where
  exact : ∃ verdict, a.checkShadow baseMappingAddr address size = some verdict ∧
    (verdict = true ↔ a.AllUnpoisoned address (address + size))
  agrees : address % 8 = 0 → size % 8 = 0 →
    a.checkShadow baseMappingAddr address size = a.checkShadowAligned address size

/-- The bytes of the granule in front of the access. -/
def UnpoisonedBefore (a : FridaAllocator) (address : Nat) : Prop :=
  a.AllUnpoisoned (address / 8 * 8) address

/-- The bytes of the access in its first granule, when it does not start there. -/
def UnpoisonedFirst (a : FridaAllocator) (address size : Nat) : Prop :=
  a.AllUnpoisoned address (min (alignedStart address) (address + size))

/-- The bytes of the access behind that granule. -/
def UnpoisonedBehind (a : FridaAllocator) (address size : Nat) : Prop :=
  a.AllUnpoisoned (min (alignedStart address) (address + size)) (address + size)

theorem unpoisonedFirst_and_behind {address size : Nat} :
    a.AllUnpoisoned address (address + size) ↔
      a.UnpoisonedFirst address size ∧ a.UnpoisonedBehind address size := by
  refine AllUnpoisoned.append ?_ ?_ <;> rw [alignedStart] <;> omega

/-- The bytes in front of the access lead to the verdict that its own bytes in
the first granule ask for. -/
def FirstJudged (a : FridaAllocator) (address size : Nat) : Prop :=
  size = 0 ∨ address + 7 < 2 ^ 64 ∧
    ((a.UnpoisonedBefore address ∧ a.InShadow (alignedStart address) (alignedSize address size) ∧
        (a.UnpoisonedBehind address size → a.UnpoisonedFirst address size)) ∨
      (¬ a.UnpoisonedBefore address ∧ ¬ a.AllUnpoisoned address (address + size)))

variable {baseMappingAddr address size : Nat}

theorem unpoisonedBefore_of_aligned (h : address % 8 = 0) : a.UnpoisonedBefore address := by
  intro x hlo hhi
  omega

/-- A poisoned byte in front of the access makes it fail. -/
theorem checkShadowSlow_of_not_before (hsum : address + size < 2 ^ 64)
    (hround : address + 7 < 2 ^ 64) (hbefore : ¬ a.UnpoisonedBefore address) :
    a.checkShadowSlow address size = some false := by
  have h8 : address % 8 ≠ 0 := fun h8 => hbefore (unpoisonedBefore_of_aligned h8)
  rw [checkShadowSlow, if_neg (by omega)]
  exact if_pos ⟨by omega, mt (shadowHas_iff h8).mp hbefore⟩

/-- With unpoisoned bytes in front of the access the rest of the check remains. -/
theorem checkShadowSlow_of_before (hsum : address + size < 2 ^ 64) (hround : address + 7 < 2 ^ 64)
    (hbefore : a.UnpoisonedBefore address) :
    a.checkShadowSlow address size =
      if alignedStart address ≤ (address + size) / 8 * 8 then
        (a.checkShadowAligned (alignedStart address) (alignedSize address size)).map fun aligned =>
          aligned && (address + size = (address + size) / 8 * 8 ||
            a.shadowHas (address + size) ((0xff : BitVec 8) <<< (8 - (address + size) % 8)))
      else some true := by
  rw [checkShadowSlow, if_neg (by omega)]
  refine if_neg ?_
  rintro ⟨hne, hmask⟩
  exact hmask ((shadowHas_iff (by omega)).mpr hbefore)

/-- What is in front of the last granule boundary and what is behind it. -/
theorem checkShadowSlow_of_inShadow (hsum : address + size < 2 ^ 64)
    (hround : address + 7 < 2 ^ 64) (hbefore : a.UnpoisonedBefore address)
    (hin : a.InShadow (alignedStart address) (alignedSize address size)) :
    ∃ verdict, a.checkShadowSlow address size = some verdict ∧
      (verdict = true ↔ a.UnpoisonedBehind address size) := by
  rw [checkShadowSlow_of_before hsum hround hbefore, UnpoisonedBehind]
  by_cases hle : alignedStart address ≤ (address + size) / 8 * 8
  · obtain ⟨aligned, hcheck, haligned⟩ := checkShadowAligned_of_inShadow
      (by rw [alignedStart]; omega) (by rw [alignedSize, alignedStart]; omega) hin
    rw [if_pos hle, hcheck]
    refine ⟨_, rfl, ?_⟩
    have hmid : alignedStart address + alignedSize address size = (address + size) / 8 * 8 := by
      rw [alignedSize]
      omega
    rw [hmid] at haligned
    rw [Nat.min_eq_left (by omega), AllUnpoisoned.append hle (by omega), Bool.and_eq_true,
      haligned, Bool.or_eq_true, decide_eq_true_iff]
    refine and_congr_right fun _ => ?_
    by_cases hend : address + size = (address + size) / 8 * 8
    · exact iff_of_true (.inl hend) fun x hlo hhi => by omega
    · rw [shadowHas_iff (by omega)]
      exact or_iff_right hend
  · rw [if_neg hle, Nat.min_eq_right (by rw [alignedStart] at hle ⊢; omega)]
    exact ⟨true, rfl, iff_of_true rfl fun x hlo hhi => by omega⟩

theorem checkShadowSlow_of_not_inShadow (hsum : address + size < 2 ^ 64)
    (hround : address + 7 < 2 ^ 64) (hbefore : a.UnpoisonedBefore address)
    (hin : ¬ a.InShadow (alignedStart address) (alignedSize address size)) :
    a.checkShadowSlow address size = none := by
  have hle : alignedStart address ≤ (address + size) / 8 * 8 := by
    by_contra hgt
    have hmod := Nat.mod_lt (alignedStart address / 8) (Nat.two_pow_pos (a.options.shadowBit + 1))
    rw [InShadow, alignedSize] at hin
    omega
  rw [checkShadowSlow_of_before hsum hround hbefore, if_pos hle,
    checkShadowAligned_of_not_inShadow hin]
  rfl

/-- A managed access of at least one byte: the fast path is the slow one of an
access without a first and a last part. -/
theorem checkShadow_eq_slow (hmanaged : a.isManaged baseMappingAddr address = true)
    (hsum : address + size < 2 ^ 64) (hpos : size ≠ 0) :
    a.checkShadow baseMappingAddr address size = a.checkShadowSlow address size := by
  rw [checkShadow, if_neg hpos, if_neg (not_not.mpr hmanaged)]
  by_cases h8 : address % 8 = 0 ∧ size % 8 = 0
  · have hstart : alignedStart address = address := by
      rw [alignedStart]
      omega
    have hsize : alignedSize address size = size := by
      rw [alignedSize, hstart]
      omega
    rw [if_pos h8, checkShadowSlow_of_before hsum (by omega) (unpoisonedBefore_of_aligned h8.1),
      hstart, hsize, if_pos (by omega)]
    cases a.checkShadowAligned address size with
    | none => rfl
    | some aligned =>
        rw [Option.map_some,
          decide_eq_true (show address + size = (address + size) / 8 * 8 by omega),
          Bool.true_or, Bool.and_true]
  · exact if_neg h8

/-- **When the check is exact.** A managed access is judged right if and only
if the bytes that the first mask selects lead to the right verdict. -/
theorem shadowChecked_iff (hmanaged : a.isManaged baseMappingAddr address = true)
    (hsum : address + size < 2 ^ 64) :
    a.ShadowChecked baseMappingAddr address size ↔ a.FirstJudged address size := by
  have hagrees : address % 8 = 0 → size % 8 = 0 →
      a.checkShadow baseMappingAddr address size = a.checkShadowAligned address size := by
    intro h8 hs8
    by_cases hzero : size = 0
    · rw [checkShadow, if_pos hzero, checkShadowAligned, if_neg (by omega), if_pos hzero]
    · rw [checkShadow, if_neg hzero, if_neg (not_not.mpr hmanaged), if_pos ⟨h8, hs8⟩]
  refine Iff.trans ⟨ShadowChecked.exact, fun h => ⟨h, hagrees⟩⟩ ?_
  rw [FirstJudged]
  by_cases hzero : size = 0
  · refine iff_of_true ⟨true, ?_, iff_of_true rfl fun x hlo hhi => by omega⟩ (.inl hzero)
    rw [checkShadow, if_pos hzero]
  rw [checkShadow_eq_slow hmanaged hsum hzero, or_iff_right hzero]
  by_cases hround : address + 7 < 2 ^ 64
  · rw [and_iff_right hround]
    by_cases hbefore : a.UnpoisonedBefore address
    · by_cases hin : a.InShadow (alignedStart address) (alignedSize address size)
      · obtain ⟨verdict, hslow, hverdict⟩ :=
          checkShadowSlow_of_inShadow hsum hround hbefore hin
        rw [hslow, unpoisonedFirst_and_behind]
        simp only [Option.some.injEq, exists_eq_left', hverdict, hbefore, hin, true_and,
          not_true, false_and, or_false]
        tauto
      · rw [checkShadowSlow_of_not_inShadow hsum hround hbefore hin]
        simp [hbefore, hin]
    · rw [checkShadowSlow_of_not_before hsum hround hbefore]
      simp [hbefore]
  · rw [checkShadowSlow, if_pos (.inr (by omega))]
    refine iff_of_false ?_ fun h => hround h.1
    rintro ⟨verdict, hnone, -⟩
    cases hnone

/-- The state after an allocation of 4 bytes, at the address `3 * 2 ^ 44 + 4096`. -/
def allocatedFour : FridaAllocator :=
  (⟨FridaAllocatorRun.pages4096, fun _ => 0, .empty, .empty, [(3 * 2 ^ 44, 3 * 4096)], 0, 3 * 4096,
    3 * 2 ^ 44 + 4 * 4096⟩ : FridaAllocator).serve ⟨3 * 2 ^ 44, 4, 3 * 4096, false, false⟩ |>.2

/-- The 4 bytes themselves are checked right. -/
theorem shadowChecked_allocated :
    allocatedFour.ShadowChecked (3 * 2 ^ 44) (3 * 2 ^ 44 + 4096) 4 := by
  refine (shadowChecked_iff (by decide) (by decide)).mpr (.inr ⟨by decide, .inl ⟨?_, ?_, ?_⟩⟩)
  · exact unpoisonedBefore_of_aligned (by decide)
  · rw [InShadow]
    decide
  · intro _ x hlo hhi
    rw [show min (alignedStart (3 * 2 ^ 44 + 4096)) (3 * 2 ^ 44 + 4096 + 4) = 3 * 2 ^ 44 + 4096 by
      decide] at hhi
    omega

end FridaAllocator

/-- The shadows that `poison` and `unpoison` make of a fresh one. -/
inductive FridaShadow.Produced : FridaShadow → Prop
  | fresh : Produced fun _ => 0
  | unpoison (shadow : FridaShadow) (start size : Nat) :
      Produced shadow → Produced (shadow.unpoison start size)
  | poison (shadow : FridaShadow) (start size : Nat) :
      Produced shadow → Produced (shadow.poison start size)

/-- The byte behind an allocation of 4 bytes passes the check. -/
theorem checkShadow_misses_overflow :
    ¬ ∀ (a : FridaAllocator) (baseMappingAddr address size : Nat), a.shadow.Produced →
      a.isManaged baseMappingAddr address = true → address + size < 2 ^ 64 →
        a.ShadowChecked baseMappingAddr address size := by
  intro h
  have hproduced : FridaAllocator.allocatedFour.shadow.Produced :=
    .unpoison (fun _ => 0)
      (FridaAllocatorRun.pages4096.mapToShadow (3 * 2 ^ 44 + 4096)) 4 .fresh
  obtain ⟨verdict, hcheck, hverdict⟩ := (h FridaAllocator.allocatedFour (3 * 2 ^ 44)
    (3 * 2 ^ 44 + 4096 + 4) 1 hproduced (by decide) (by decide)).exact
  obtain rfl : true = verdict := Option.some.inj hcheck
  have hbyte := hverdict.mp rfl (3 * 2 ^ 44 + 4096 + 4) (by decide) (by decide)
  revert hbyte
  rw [FridaAllocator.Unpoisoned]
  decide

end Libaflmm
