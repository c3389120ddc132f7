import Mathlib.Data.Nat.Size
import Mathlib.Tactic.Ring
import Libaflmm.MapFeedback

/-!
# The next power of two

`saturating_next_power_of_two` is written for any primitive integer. It takes
the leading zeros of the number, counted over all of its bits, from the
largest value of the type, which for a signed one has a bit less.
-/

namespace Libaflmm

/-! ## The primitive integers -/

/-- What a primitive integer stands for, and how its type holds it. -/
class PrimIntValue (T : Type) extends PrimInt T where
  signed : Bool
  bits : Nat
  toInt : T → Int

namespace PrimIntValue

variable (T : Type) [PrimIntValue T]

/-- The bits that hold the magnitude. -/
def valueBits : Nat := if signed T then bits T - 1 else bits T

def maxInt : Int := 2 ^ valueBits T - 1

def minInt : Int := if signed T then -2 ^ (bits T - 1) else 0

end PrimIntValue

open PrimIntValue

class LawfulPrimInt (T : Type) [PrimIntValue T] : Prop where
  two_le_bits : 2 ≤ bits T
  le_iff : ∀ a b : T, a ≤ b ↔ toInt a ≤ toInt b
  toInt_le : ∀ a : T, toInt a ≤ maxInt T
  le_toInt : ∀ a : T, minInt T ≤ toInt a
  toInt_one : toInt (PrimInt.one : T) = 1
  toInt_maxValue : toInt (PrimInt.maxValue : T) = maxInt T
  toInt_sub : ∀ a b : T, minInt T ≤ toInt a - toInt b → toInt a - toInt b ≤ maxInt T →
    toInt (PrimInt.sub a b) = toInt a - toInt b
  toInt_saturatingAdd : ∀ a b : T,
    toInt (PrimInt.saturatingAdd a b) = max (minInt T) (min (maxInt T) (toInt a + toInt b))
  leadingZeros_eq : ∀ a : T, 0 ≤ toInt a →
    PrimInt.leadingZeros a = bits T - (toInt a).toNat.size
  toInt_shiftRight : ∀ (a : T) (n : Nat), 0 ≤ toInt a → n < bits T →
    toInt (PrimInt.shiftRight a n) = toInt a / 2 ^ n

/-! ## With the checks of a debug build -/

section

variable {T : Type} [PrimIntValue T]

def checkedSub (a b : T) : Option T :=
  if minInt T ≤ toInt a - toInt b ∧ toInt a - toInt b ≤ maxInt T then some (PrimInt.sub a b)
  else none

def checkedShiftRight (a : T) (n : Nat) : Option T :=
  if n < bits T then some (PrimInt.shiftRight a n) else none

def checkedNextPowerOfTwo (n : T) : Option T :=
  if n ≤ PrimInt.one then some PrimInt.one
  else do
    let pred ← checkedSub n PrimInt.one
    let filled ← checkedShiftRight PrimInt.maxValue (PrimInt.leadingZeros pred)
    return PrimInt.saturatingAdd filled PrimInt.one

def NextPow2IsNovel.checkedIsNovel (old new : T) : Option Bool :=
  if new ≤ old then some false
  else do
    let pow2 ← checkedNextPowerOfTwo (PrimInt.saturatingAdd old PrimInt.one)
    return new ≥ pow2

/-! ## What it should be -/

/-- `k` is the exponent of the least power of two that is at least `v`. -/
def IsNextExponent (v : Int) (k : Nat) : Prop := ∀ j : Nat, v ≤ 2 ^ j ↔ k ≤ j

/-- `r` is the least power of two that is at least `v`, or the maximum of the
type where that does not fit. -/
def IsNextPowerOfTwo (v r : T) : Prop :=
  ∃ k, IsNextExponent (toInt v) k ∧
    (2 ^ k ≤ maxInt T ∧ toInt r = 2 ^ k ∨ maxInt T < 2 ^ k ∧ toInt r = maxInt T)

/-- `new` is at least the least power of two above `old`, or the maximum of
the type where that does not fit. -/
def ReachesNextPowerOfTwo (old new : T) : Prop :=
  ∃ k, IsNextExponent (toInt old + 1) k ∧
    (2 ^ k ≤ toInt new ∨ maxInt T < 2 ^ k ∧ toInt old < toInt new ∧ toInt new = maxInt T)

end

/-! ## The exponent -/

theorem isNextExponent_size (v : Int) : IsNextExponent v (v - 1).toNat.size := by
  intro j
  rw [Nat.size_le]
  have hpow : (0 : Int) < 2 ^ j := by positivity
  have hcast : ((2 ^ j : Nat) : Int) = 2 ^ j := by push_cast; rfl
  omega

theorem IsNextExponent.unique {v : Int} {k l : Nat} (hk : IsNextExponent v k)
    (hl : IsNextExponent v l) : k = l :=
  Nat.le_antisymm ((hk l).mp ((hl l).mpr le_rfl)) ((hl k).mp ((hk k).mpr le_rfl))

/-- Shifting ones to the right leaves ones. -/
theorem two_pow_sub_one_div {m l : Nat} (h : l ≤ m) :
    ((2 : Int) ^ m - 1) / 2 ^ l = 2 ^ (m - l) - 1 := by
  have hpow : (2 : Int) ^ m = 2 ^ l * 2 ^ (m - l) := by
    rw [← pow_add, Nat.add_sub_cancel' h]
  have hpos : (0 : Int) < 2 ^ l := by positivity
  have hsplit : (2 ^ l - 1) + 2 ^ l * (2 ^ (m - l) - 1) = (2 : Int) ^ m - 1 := by
    rw [hpow]
    ring
  exact ((Int.ediv_emod_unique hpos).mpr ⟨hsplit, by omega, by omega⟩).1

/-! ## What it is -/

section

variable {T : Type} [PrimIntValue T] [LawfulPrimInt T]

variable (T) in
theorem valueBits_bounds : 1 ≤ valueBits T ∧ valueBits T ≤ bits T ∧ bits T - 1 ≤ valueBits T := by
  have hbits := LawfulPrimInt.two_le_bits (T := T)
  rw [valueBits]
  split <;> omega

variable (T) in
theorem one_le_maxInt : 1 ≤ maxInt T := by
  have hpow : (2 : Int) ^ 1 ≤ 2 ^ valueBits T :=
    pow_le_pow_right₀ (by omega) (valueBits_bounds T).1
  rw [maxInt]
  omega

variable (T) in
omit [LawfulPrimInt T] in
theorem minInt_nonpos : minInt T ≤ 0 := by
  rw [minInt]
  split
  · exact neg_nonpos.mpr (by positivity)
  · exact le_rfl

theorem size_pred_le (n : T) : (toInt n - 1).toNat.size ≤ valueBits T := by
  have hle := LawfulPrimInt.toInt_le n
  have hcast : ((2 ^ valueBits T : Nat) : Int) = 2 ^ valueBits T := by push_cast; rfl
  have hpos : (0 : Int) < 2 ^ valueBits T := by positivity
  rw [Nat.size_le]
  rw [maxInt] at hle
  omega

theorem toInt_saturatingAdd_one {a : T} (h : 0 ≤ toInt a) :
    toInt (PrimInt.saturatingAdd a PrimInt.one) = min (maxInt T) (toInt a + 1) := by
  have hmin := minInt_nonpos T
  have hmax := one_le_maxInt T
  rw [LawfulPrimInt.toInt_saturatingAdd, LawfulPrimInt.toInt_one]
  omega

/-- Nothing overflows, and the exponent is counted down from all bits of the
type, but taken from those of its maximum. -/
theorem checkedNextPowerOfTwo_of_two_le {n : T} (h : 2 ≤ toInt n) :
    checkedNextPowerOfTwo n = some (saturatingNextPowerOfTwo n) ∧
      toInt (saturatingNextPowerOfTwo n) = min (maxInt T)
        (2 ^ (valueBits T - (bits T - (toInt n - 1).toNat.size))) := by
  have hone := LawfulPrimInt.toInt_one (T := T)
  have hmin := minInt_nonpos T
  have hle := LawfulPrimInt.toInt_le n
  obtain ⟨hpos, hbits, hbits'⟩ := valueBits_bounds T
  have hsize : 0 < (toInt n - 1).toNat.size := Nat.size_pos.mpr (by omega)
  have hsize' := size_pred_le n
  have hgt : ¬n ≤ PrimInt.one := by
    rw [LawfulPrimInt.le_iff, hone]
    omega
  have hsub := LawfulPrimInt.toInt_sub n PrimInt.one (by omega) (by omega)
  rw [hone] at hsub
  have hzeros := LawfulPrimInt.leadingZeros_eq (PrimInt.sub n PrimInt.one) (by omega)
  rw [hsub] at hzeros
  have hmax := LawfulPrimInt.toInt_maxValue (T := T)
  have hfilled := LawfulPrimInt.toInt_shiftRight (PrimInt.maxValue : T)
    (bits T - (toInt n - 1).toNat.size) (by have := one_le_maxInt T; omega) (by omega)
  rw [hmax, maxInt, two_pow_sub_one_div (by omega)] at hfilled
  rw [saturatingNextPowerOfTwo, if_neg hgt]
  constructor
  · rw [checkedNextPowerOfTwo, if_neg hgt, checkedSub, if_pos (by omega)]
    show Option.bind (checkedShiftRight _ _) _ = _
    rw [checkedShiftRight, if_pos (by omega)]
    rfl
  · have hpow : (0 : Int) < 2 ^ (valueBits T - (bits T - (toInt n - 1).toNat.size)) := by
      positivity
    rw [hzeros, toInt_saturatingAdd_one (by omega), hfilled, sub_add_cancel]

theorem saturatingNextPowerOfTwo_of_le_one {n : T} (h : toInt n ≤ 1) :
    saturatingNextPowerOfTwo n = PrimInt.one := by
  refine if_pos ?_
  rw [LawfulPrimInt.le_iff, LawfulPrimInt.toInt_one]
  exact h

/-- **No check fails.** -/
theorem checkedNextPowerOfTwo_eq (n : T) :
    checkedNextPowerOfTwo n = some (saturatingNextPowerOfTwo n) := by
  rcases le_or_gt (toInt n) 1 with hle | hlt
  · rw [saturatingNextPowerOfTwo_of_le_one hle]
    refine if_pos ?_
    rw [LawfulPrimInt.le_iff, LawfulPrimInt.toInt_one]
    exact hle
  · exact (checkedNextPowerOfTwo_of_two_le (by omega)).1

theorem checkedIsNovel_eq (old new : T) :
    NextPow2IsNovel.checkedIsNovel old new = some (NextPow2IsNovel.isNovel old new) := by
  rw [NextPow2IsNovel.checkedIsNovel, NextPow2IsNovel.isNovel, checkedNextPowerOfTwo_eq]
  split <;> rfl

theorem isNextPowerOfTwo_of_le_one {n : T} (h : toInt n ≤ 1) :
    IsNextPowerOfTwo n (saturatingNextPowerOfTwo n) := by
  rw [saturatingNextPowerOfTwo_of_le_one h]
  refine ⟨0, fun j => iff_of_true ?_ (Nat.zero_le j), .inl ⟨?_, ?_⟩⟩
  · exact h.trans (one_le_pow₀ (by omega))
  · rw [pow_zero]
    exact one_le_maxInt T
  · rw [LawfulPrimInt.toInt_one, pow_zero]

/-- An unsigned type has as many bits for the maximum as there are in all. -/
theorem isNextPowerOfTwo_unsigned {n r : T} (hsigned : signed T = false)
    (hr : toInt r = min (maxInt T)
      (2 ^ (valueBits T - (bits T - (toInt n - 1).toNat.size)))) :
    IsNextPowerOfTwo n r := by
  have hsize := size_pred_le n
  have hbits : valueBits T = bits T := by
    rw [valueBits, hsigned]
    rfl
  rw [hbits, Nat.sub_sub_self (by omega)] at hr
  refine ⟨_, isNextExponent_size (toInt n), ?_⟩
  omega

theorem toInt_signed {n r : T} (hsigned : signed T = true) (h : 2 ≤ toInt n)
    (hr : toInt r = min (maxInt T)
      (2 ^ (valueBits T - (bits T - (toInt n - 1).toNat.size)))) :
    2 * toInt r = 2 ^ (toInt n - 1).toNat.size := by
  have hle := size_pred_le n
  obtain ⟨k, hk⟩ : ∃ k, (toInt n - 1).toNat.size = k + 1 :=
    Nat.exists_eq_succ_of_ne_zero (Nat.size_pos.mpr (by omega)).ne'
  obtain ⟨m, hm⟩ : ∃ m, valueBits T = m + 1 :=
    Nat.exists_eq_succ_of_ne_zero (Nat.one_le_iff_ne_zero.mp (valueBits_bounds T).1)
  have hbits : bits T = valueBits T + 1 := by
    have := LawfulPrimInt.two_le_bits (T := T)
    rw [valueBits, hsigned, if_pos rfl]
    omega
  have hexponent : m + 1 - (m + 1 + 1 - (k + 1)) = k := by omega
  rw [hbits, hm, hk, hexponent, maxInt, hm] at hr
  have hpow : (2 : Int) ^ k ≤ 2 ^ m := pow_le_pow_right₀ (by omega) (by omega)
  have hpos : (0 : Int) < 2 ^ m := by positivity
  rw [hk, pow_succ]
  rw [pow_succ] at hr
  omega

/-- For a signed one the power is half of what it should be. -/
theorem not_isNextPowerOfTwo_signed {n r : T} (h : 2 ≤ toInt n)
    (hr : 2 * toInt r = 2 ^ (toInt n - 1).toNat.size) :
    ¬IsNextPowerOfTwo n r := by
  rintro ⟨k, hk, hpow⟩
  obtain rfl := hk.unique (isNextExponent_size (toInt n))
  have hle := LawfulPrimInt.toInt_le n
  have hpos : (0 : Int) < 2 ^ (toInt n - 1).toNat.size := by positivity
  have hsize : (2 : Int) ^ (toInt n - 1).toNat.size ≤ 2 ^ valueBits T :=
    pow_le_pow_right₀ (by omega) (size_pred_le n)
  rcases hpow with ⟨-, hpow⟩ | ⟨-, hmax⟩
  · omega
  · rw [maxInt] at hle hmax
    omega

theorem isNextPowerOfTwo_iff (n : T) :
    IsNextPowerOfTwo n (saturatingNextPowerOfTwo n) ↔ (signed T = false ∨ toInt n ≤ 1) := by
  rcases le_or_gt (toInt n) 1 with hle | hlt
  · exact iff_of_true (isNextPowerOfTwo_of_le_one hle) (.inr hle)
  · have hvalue := (checkedNextPowerOfTwo_of_two_le (by omega : 2 ≤ toInt n)).2
    cases hsigned : signed T with
    | false => exact iff_of_true (isNextPowerOfTwo_unsigned hsigned hvalue) (.inl rfl)
    | true =>
        have htwice := toInt_signed hsigned (by omega) hvalue
        refine iff_of_false (not_isNextPowerOfTwo_signed (by omega) htwice) ?_
        simp only [Bool.true_eq_false, false_or]
        omega

/-! ## What is novel -/

/-- Both values lie between the same two powers of two, and the maximum is
not reached. -/
def SameBucket (old new : T) : Prop :=
  ∃ k : Nat, 2 ^ k ≤ toInt old ∧ toInt old < toInt new ∧ toInt new < 2 ^ (k + 1) ∧
    toInt new < maxInt T

omit [LawfulPrimInt T] in
theorem not_reaches_of_le {old new : T} (h : toInt new ≤ toInt old) :
    ¬ReachesNextPowerOfTwo old new := by
  rintro ⟨k, hk, hreach⟩
  have := (hk k).mpr le_rfl
  omega

theorem reaches_iff_not_sameBucket {old new : T} (hold : 1 ≤ toInt old)
    (hlt : toInt old < toInt new) : ReachesNextPowerOfTwo old new ↔ ¬SameBucket old new := by
  have hmax := LawfulPrimInt.toInt_le new
  constructor
  · rintro ⟨k, hk, hreach⟩ ⟨j, hj, -, hnew, hlast⟩
    rcases hreach with hreach | ⟨-, -, heq⟩
    · -- the next power of two is above that of the bucket
      have hjk : j + 1 ≤ k := by
        by_contra hkj
        have := (hk j).mpr (by omega)
        omega
      have hpow : (2 : Int) ^ (j + 1) ≤ 2 ^ k := pow_le_pow_right₀ (by omega) hjk
      omega
    · omega
  · intro hbucket
    have hk := isNextExponent_size (toInt old + 1)
    set k := (toInt old + 1 - 1).toNat.size
    obtain ⟨j, hj⟩ : ∃ j, k = j + 1 :=
      Nat.exists_eq_succ_of_ne_zero (Nat.size_pos.mpr (by omega)).ne'
    have hlow : ¬toInt old + 1 ≤ 2 ^ j := fun h => by
      have := (hk j).mp h
      omega
    refine ⟨k, hk, ?_⟩
    by_cases hreach : 2 ^ k ≤ toInt new
    · exact .inl hreach
    · have hnew : toInt new = maxInt T := by
        by_contra hne
        exact hbucket ⟨j, by omega, hlt, by rw [← hj]; omega, by omega⟩
      exact .inr ⟨by omega, hlt, hnew⟩

/-- With the power of two as it should be, so is the verdict. -/
theorem le_iff_reaches {old new n r : T} (hlt : toInt old < toInt new)
    (hn : toInt n = toInt old + 1) (hr : IsNextPowerOfTwo n r) :
    r ≤ new ↔ ReachesNextPowerOfTwo old new := by
  have hmax := LawfulPrimInt.toInt_le new
  obtain ⟨k, hk, hr⟩ := hr
  rw [hn] at hk
  rw [LawfulPrimInt.le_iff]
  constructor
  · intro hle
    exact ⟨k, hk, by omega⟩
  · rintro ⟨k', hk', hreach⟩
    obtain rfl := hk.unique hk'
    omega

theorem isNovel_iff (old new : T) :
    (NextPow2IsNovel.isNovel old new = true ↔ ReachesNextPowerOfTwo old new) ↔
      (signed T = false ∨ ¬SameBucket old new) := by
  rw [NextPow2IsNovel.isNovel]
  rcases le_or_gt (toInt new) (toInt old) with hle | hlt
  · rw [if_pos ((LawfulPrimInt.le_iff ..).mpr hle)]
    refine iff_of_true (iff_of_false Bool.false_ne_true (not_reaches_of_le hle)) (.inr ?_)
    rintro ⟨k, -, hlt, -⟩
    omega
  · have hmax := LawfulPrimInt.toInt_le new
    have hgt : ¬new ≤ old := by
      rw [LawfulPrimInt.le_iff]
      omega
    rw [if_neg hgt, decide_eq_true_eq]
    set next := PrimInt.saturatingAdd old PrimInt.one
    have hsum : toInt next = toInt old + 1 := by
      have hmin := LawfulPrimInt.le_toInt old
      rw [LawfulPrimInt.toInt_saturatingAdd, LawfulPrimInt.toInt_one]
      omega
    by_cases hright : signed T = false ∨ toInt old + 1 ≤ 1
    · have hnext := (isNextPowerOfTwo_iff next).mpr (by rwa [hsum])
      refine iff_of_true (le_iff_reaches hlt hsum hnext) (hright.imp_right ?_)
      rintro hle ⟨k, hk, -⟩
      have : (0 : Int) < 2 ^ k := by positivity
      omega
    · -- half of the power is no more than `old` is
      rw [not_or, Bool.not_eq_false] at hright
      have hvalue := (checkedNextPowerOfTwo_of_two_le (by omega : 2 ≤ toInt next)).2
      have htwice := toInt_signed hright.1 (by omega) hvalue
      have hreaches := reaches_iff_not_sameBucket (by omega : 1 ≤ toInt old) hlt
      have hle : saturatingNextPowerOfTwo next ≤ new := by
        have hnext := isNextExponent_size (toInt next)
        obtain ⟨j, hj⟩ : ∃ j, (toInt next - 1).toNat.size = j + 1 :=
          Nat.exists_eq_succ_of_ne_zero (Nat.size_pos.mpr (by omega)).ne'
        have hlow : ¬toInt next ≤ 2 ^ j := fun h => by
          have := (hnext j).mp h
          omega
        rw [hj, pow_succ] at htwice
        rw [LawfulPrimInt.le_iff]
        omega
      simp only [hle, true_iff, hreaches, hright.1, Bool.true_eq_false, false_or]

/-- The least power of two for `v`, and the verdict about `old` and `new`, are
what they should be, without a panic. -/
def JudgesByBuckets (v old new : T) : Prop :=
  (∃ r, checkedNextPowerOfTwo v = some r ∧ IsNextPowerOfTwo v r) ∧
  ∃ b, NextPow2IsNovel.checkedIsNovel old new = some b ∧
    (b = true ↔ ReachesNextPowerOfTwo old new)

theorem judgesByBuckets_iff (v old new : T) :
    JudgesByBuckets v old new ↔ signed T = false ∨ toInt v ≤ 1 ∧ ¬SameBucket old new := by
  simp only [JudgesByBuckets, checkedNextPowerOfTwo_eq, checkedIsNovel_eq, Option.some.injEq,
    exists_eq_left', isNextPowerOfTwo_iff, isNovel_iff, ← or_and_left]

end

/-! ## The integers of `w` bits -/

/-- As many leading zeros as the number has less bits. -/
theorem toNat_clz_eq {w : Nat} (hw : 0 < w) (a : BitVec w) :
    a.clz.toNat = w - a.toNat.size := by
  by_cases ha : a = 0#w
  · subst ha
    rw [BitVec.clz_eq_iff_eq_zero.mpr rfl]
    simp [Nat.mod_eq_of_lt Nat.lt_two_pow_self]
  · have hlow := Nat.lt_size.mpr (BitVec.two_pow_sub_clz_le_toNat_of_ne_zero hw ha)
    have hhigh := Nat.size_le.mpr (BitVec.toNat_lt_two_pow_sub_clz (x := a))
    omega

instance {w : Nat} : PrimIntValue (BitVec w) where
  signed := false
  bits := w
  toInt a := a.toNat

theorem toNat_le_maxInt {w : Nat} (a : BitVec w) : (a.toNat : Int) ≤ maxInt (BitVec w) := by
  have hlt := Int.ofNat_lt.mpr a.isLt
  rw [Nat.cast_pow] at hlt
  exact Int.le_sub_one_of_lt hlt

instance {w : Nat} [hw : Fact (2 ≤ w)] : LawfulPrimInt (BitVec w) where
  two_le_bits := hw.out
  le_iff a b := BitVec.le_def.trans Int.ofNat_le.symm
  toInt_le := toNat_le_maxInt
  le_toInt a := Int.natCast_nonneg _
  toInt_one := by
    have hlt : 1 < 2 ^ w := Nat.one_lt_two_pow (by have := hw.out; omega)
    exact congrArg Int.ofNat (Nat.mod_eq_of_lt hlt)
  toInt_maxValue := by
    show ((BitVec.allOnes w).toNat : Int) = 2 ^ w - 1
    rw [BitVec.toNat_allOnes, Nat.cast_sub Nat.one_le_two_pow]
    push_cast
    rfl
  toInt_sub a b hmin _ := by
    have hle : b.toNat ≤ a.toNat := Int.ofNat_le.mp (Int.sub_nonneg.mp hmin)
    show ((a - b).toNat : Int) = a.toNat - b.toNat
    rw [BitVec.toNat_sub_of_le (BitVec.le_def.mpr hle), Nat.cast_sub hle]
  toInt_saturatingAdd a b := by
    show ((if a.toNat + b.toNat < 2 ^ w then a + b else BitVec.allOnes w).toNat : Int) =
      max 0 (min (2 ^ w - 1) ((a.toNat : Int) + b.toNat))
    have hcast : ((2 ^ w : Nat) : Int) = 2 ^ w := by push_cast; rfl
    have hpos : 0 < 2 ^ w := Nat.two_pow_pos w
    split
    · next h =>
        rw [BitVec.toNat_add, Nat.mod_eq_of_lt h]
        omega
    · next h =>
        rw [BitVec.toNat_allOnes]
        omega
  leadingZeros_eq a _ := toNat_clz_eq (by have := hw.out; omega) a
  toInt_shiftRight a n _ _ := by
    show ((a >>> n).toNat : Int) = a.toNat / 2 ^ n
    rw [BitVec.toNat_ushiftRight, Nat.shiftRight_eq_div_pow]
    push_cast
    rfl

/-- The signed integers of `w` bits. -/
structure SignedInt (w : Nat) where
  bits : BitVec w
deriving DecidableEq

namespace SignedInt

variable {w : Nat}

def toInt (a : SignedInt w) : Int := a.bits.toInt

theorem toInt_inj {a b : SignedInt w} (h : a.toInt = b.toInt) : a = b :=
  congrArg mk (BitVec.eq_of_toInt_eq h)

instance : LinearOrder (SignedInt w) := LinearOrder.lift' toInt fun _ _ => toInt_inj

instance : PrimInt (SignedInt w) where
  one := ⟨1#w⟩
  maxValue := ⟨BitVec.intMax w⟩
  sub a b := ⟨a.bits - b.bits⟩
  saturatingAdd a b :=
    if a.toInt + b.toInt < -2 ^ (w - 1) then ⟨BitVec.intMin w⟩
    else if a.toInt + b.toInt < 2 ^ (w - 1) then ⟨a.bits + b.bits⟩
    else ⟨BitVec.intMax w⟩
  leadingZeros a := a.bits.clz.toNat
  shiftRight a n := ⟨a.bits.sshiftRight n⟩

instance : PrimIntValue (SignedInt w) where
  signed := true
  bits := w
  toInt := toInt

theorem toInt_bounds (hw : 0 < w) (a : BitVec w) :
    -2 ^ (w - 1) ≤ a.toInt ∧ a.toInt < 2 ^ (w - 1) ∧ (2 : Int) ^ w = 2 * 2 ^ (w - 1) := by
  refine ⟨BitVec.le_toInt a, BitVec.toInt_lt, ?_⟩
  obtain ⟨k, rfl⟩ := Nat.exists_eq_succ_of_ne_zero hw.ne'
  rw [Nat.succ_sub_one, pow_succ']

/-- What is within the bounds is not wrapped around. -/
theorem bmod_eq (hw : 0 < w) {n : Int} (hmin : -2 ^ (w - 1) ≤ n) (hmax : n < 2 ^ (w - 1)) :
    n.bmod (2 ^ w) = n := by
  have hpow := (toInt_bounds hw 0#w).2.2
  have hcast : ((2 ^ w : Nat) : Int) = 2 ^ w := by push_cast; rfl
  exact Int.bmod_eq_of_le (by omega) (by omega)

instance [hw : Fact (2 ≤ w)] : LawfulPrimInt (SignedInt w) where
  two_le_bits := hw.out
  le_iff a b := Iff.rfl
  toInt_le a := Int.le_sub_one_of_lt BitVec.toInt_lt
  le_toInt a := BitVec.le_toInt a.bits
  toInt_one := BitVec.toInt_one (lt_of_lt_of_le Nat.one_lt_two hw.out)
  toInt_maxValue := BitVec.toInt_intMax
  toInt_sub a b hmin hmax := by
    have hpos : 0 < w := by have := hw.out; omega
    exact BitVec.toInt_sub.trans (bmod_eq hpos hmin (Int.lt_of_le_sub_one hmax))
  toInt_saturatingAdd a b := by
    have hpos : 0 < w := by have := hw.out; omega
    obtain ⟨-, -, hpow⟩ := toInt_bounds hpos a.bits
    have hhalf : (0 : Int) < 2 ^ (w - 1) := by positivity
    show (if a.toInt + b.toInt < -2 ^ (w - 1) then (⟨BitVec.intMin w⟩ : SignedInt w)
        else if a.toInt + b.toInt < 2 ^ (w - 1) then ⟨a.bits + b.bits⟩
        else ⟨BitVec.intMax w⟩).toInt =
      max (-2 ^ (w - 1)) (min (2 ^ (w - 1) - 1) (a.toInt + b.toInt))
    split
    · next hlow =>
        rw [toInt, BitVec.toInt_intMin_of_pos hpos]
        omega
    · next hlow =>
        split
        · next hhigh =>
            have hsum : (a.bits + b.bits).toInt = a.toInt + b.toInt :=
              (BitVec.toInt_add ..).trans (bmod_eq hpos (not_lt.mp hlow) hhigh)
            rw [toInt, hsum]
            omega
        · next hhigh =>
            rw [toInt, BitVec.toInt_intMax]
            omega
  leadingZeros_eq a h := by
    have hpos : 0 < w := by have := hw.out; omega
    have hvalue : (a.bits.toInt).toNat = a.bits.toNat := by
      have hnat := BitVec.toInt_eq_toNat_cond a.bits
      have hlt := a.bits.isLt
      have hcast : ((2 ^ w : Nat) : Int) = 2 ^ w := by push_cast; rfl
      replace h : 0 ≤ a.bits.toInt := h
      split at hnat <;> omega
    exact (toNat_clz_eq hpos a.bits).trans (congrArg (fun n => w - Nat.size n) hvalue.symm)
  toInt_shiftRight a n _ _ := by
    show (a.bits.sshiftRight n).toInt = a.toInt / 2 ^ n
    rw [BitVec.toInt_sshiftRight, Int.shiftRight_eq_div_pow]
    push_cast
    rfl

theorem judgesByBuckets_iff_i8 :
    JudgesByBuckets (⟨2#8⟩ : SignedInt 8) ⟨5#8⟩ ⟨6#8⟩ ↔ signed (SignedInt 8) = false ∨
      PrimIntValue.toInt (⟨2#8⟩ : SignedInt 8) ≤ 1 ∧ ¬SameBucket (⟨5#8⟩ : SignedInt 8) ⟨6#8⟩ :=
  haveI : Fact (2 ≤ 8) := ⟨by decide⟩
  judgesByBuckets_iff (⟨2#8⟩ : SignedInt 8) ⟨5#8⟩ ⟨6#8⟩

/-- The least power of two for 2 comes out as 1. -/
theorem not_judgesByBuckets_i8 : ¬JudgesByBuckets (⟨2#8⟩ : SignedInt 8) ⟨5#8⟩ ⟨6#8⟩ := by
  rintro ⟨⟨r, hr, k, hk, hpow⟩, -⟩
  have hone : checkedNextPowerOfTwo (⟨2#8⟩ : SignedInt 8) = some ⟨1#8⟩ := by decide
  obtain rfl := Option.some.inj (hone.symm.trans hr)
  have htwo : (2 : Int) ≤ 2 ^ k := (hk k).mpr le_rfl
  rcases hpow with ⟨-, hpow⟩ | ⟨-, hmax⟩
  · replace hpow : (1 : Int) = 2 ^ k := hpow
    omega
  · replace hmax : (1 : Int) = 127 := hmax
    omega

end SignedInt

end Libaflmm
