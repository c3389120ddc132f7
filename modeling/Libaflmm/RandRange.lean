import Libaflmm.Mutations
import Libaflmm.Usize
import Mathlib.Order.Interval.Finset.Nat

/-!
# Fair ranges

`rand_range` draws a length and then the end of a window of that length, which
may lie half outside and is cut off. Over all ends that can be drawn, each
index is in as many windows as they are long.

How many ends there are is computed in `usize`, where the sum may be too large
for it.
-/

namespace Libaflmm

/-! ## The draws -/

/-- The window of a length and an end that were drawn. -/
def windowOf (upper len offset : Nat) : Range :=
  let offset2 := 1 + offset
  ⟨offset2 - len, if offset2 > upper then upper else offset2⟩

section

variable (debug : Bool) (upper : Nat)

/-- `upper + len - 1` -/
def ends (len : Nat) : Option Nat := (Usize.add debug upper len).bind (Usize.sub debug · 1)

/-- `rand_range` with the sum as the build computes it. A length that is drawn
is a `usize`. -/
def checkedRandRange {R : Type} [Rand R] (maxLen : NonZeroUsize) (r : R) : Option (Range × R) :=
  let (len, r) := Rand.below maxLen r
  let len := 1 + len
  (ends debug upper len).map fun n =>
    let (offset, r) := Rand.belowOrZero n r
    (windowOf upper len offset, r)

/-- The range is within the bounds for every generator, and each index is as
likely as any other. -/
structure DrawsFairly (maxLen : NonZeroUsize) : Prop where
  within : ∀ (R : Type) [Rand R] (r : R), ∃ range r',
    checkedRandRange debug upper maxLen r = some (range, r') ∧ range.start ≤ range.stop ∧
      range.stop ≤ upper ∧ (0 < upper → range.start < range.stop) ∧ range.len ≤ maxLen.val
  fair : ∀ len, 0 < len → len ≤ maxLen.val → len ≤ upper →
    ends debug upper len = some (upper + len - 1) ∧ ∀ i < upper,
      ((Finset.range (upper + len - 1)).filter fun offset =>
        (windowOf upper len offset).start ≤ i ∧ i < (windowOf upper len offset).stop).card = len

end

/-! ## Windows -/

section

variable {debug : Bool} {upper len offset : Nat} {maxLen : NonZeroUsize}

theorem windowOf_within (hlen : 0 < len) (hoffset : offset ≤ upper + len - 1 - 1) :
    (windowOf upper len offset).start ≤ (windowOf upper len offset).stop ∧
      (windowOf upper len offset).stop ≤ upper ∧
      (0 < upper → (windowOf upper len offset).start < (windowOf upper len offset).stop) ∧
      (windowOf upper len offset).len ≤ len := by
  simp only [windowOf, Range.len]
  split <;> omega

/-- **Every index is covered equally often.** -/
theorem card_windows {i : Nat} (hlen : 0 < len) (hi : i < upper) :
    ((Finset.range (upper + len - 1)).filter fun offset =>
      (windowOf upper len offset).start ≤ i ∧ i < (windowOf upper len offset).stop).card = len := by
  have hwindow : ∀ offset, ((windowOf upper len offset).start ≤ i ∧
      i < (windowOf upper len offset).stop) ↔ i ≤ offset ∧ offset < i + len := by
    intro offset
    simp only [windowOf]
    split <;> omega
  have hset : ((Finset.range (upper + len - 1)).filter fun offset =>
      (windowOf upper len offset).start ≤ i ∧ i < (windowOf upper len offset).stop) =
        Finset.Ico i (i + len) := by
    ext offset
    rw [Finset.mem_filter, hwindow, Finset.mem_range, Finset.mem_Ico]
    omega
  rw [hset, Nat.card_Ico, Nat.add_sub_cancel_left]

/-! ## How many ends there are -/

theorem ends_of_lt (hlen : 0 < len) (h : upper + len < 2 ^ 64) :
    ends debug upper len = some (upper + len - 1) := by
  rw [ends, Usize.add_of_lt h]
  exact Usize.sub_of_le (by omega)

theorem ends_panics (h : 2 ^ 64 ≤ upper + len) : ends true upper len = none := by
  rw [ends, Usize.add_panics h, Option.bind_none]

/-- There are fewer where the sum wraps, unless it wraps to zero. -/
theorem exists_ends (upper : Nat) (hlen : 0 < len) : ∃ n, ends false upper len = some n ∧
    n ≤ upper + len - 1 ∧ (n = upper + len - 1 ↔ upper + len ≤ 2 ^ 64) := by
  rcases Nat.lt_or_ge (upper + len) (2 ^ 64) with hlt | hge
  · exact ⟨_, ends_of_lt hlen hlt, le_rfl, iff_of_true rfl hlt.le⟩
  · have hwraps : ends false upper len = Usize.sub false (upper + len - 2 ^ 64) 1 := by
      rw [ends, Usize.add_wraps hge, Option.bind_some]
    rcases Nat.eq_or_lt_of_le hge with heq | hgt
    · refine ⟨2 ^ 64 - 1, ?_, by omega, iff_of_true (by omega) heq.ge⟩
      rw [hwraps, ← heq, Nat.sub_self]
      exact Usize.sub_wraps Nat.zero_lt_one
    · refine ⟨upper + len - 2 ^ 64 - 1, ?_, by omega, iff_of_false (by omega) (by omega)⟩
      rw [hwraps]
      exact Usize.sub_of_le (by omega)

/-! ## When the draws are fair -/

/-- With a number of ends for every length, the range is within the bounds. -/
theorem checkedRandRange_within {R : Type} [Rand R] (r : R)
    (h : ∀ len, 0 < len → len ≤ maxLen.val → ∃ n, ends debug upper len = some n ∧
      n ≤ upper + len - 1) : ∃ range r',
    checkedRandRange debug upper maxLen r = some (range, r') ∧ range.start ≤ range.stop ∧
      range.stop ≤ upper ∧ (0 < upper → range.start < range.stop) ∧
      range.len ≤ maxLen.val := by
  have hlt := Rand.below_lt maxLen r
  obtain ⟨n, hn, hle⟩ := h (1 + (Rand.below maxLen r).1) (by omega) (by omega)
  have hoffset := (Rand.belowOrZero_le n (Rand.below maxLen r).2).trans (Nat.sub_le_sub_right hle 1)
  obtain ⟨hstart, hstop, hne, hlen⟩ := windowOf_within (Nat.lt_add_right _ Nat.one_pos) hoffset
  refine ⟨_, (Rand.belowOrZero n (Rand.below maxLen r).2).2, ?_, hstart, hstop, hne, by omega⟩
  rw [checkedRandRange]
  dsimp only
  rw [hn]
  rfl

/-- Every length is drawn by some generator. -/
theorem exists_below {len : Nat} (hlen : 0 < len) (hle : len ≤ maxLen.val)
    (hmax : maxLen.val < 2 ^ 64) :
    ∃ r : Stream' UInt64, 1 + (Rand.below maxLen r).1 = len := by
  have hlt : len - 1 < maxLen.val := by omega
  obtain ⟨rand, hrand⟩ := exists_fastBound hlt hmax.le
  refine ⟨Stream'.const rand, ?_⟩
  show 1 + fastBound rand maxLen.val = len
  omega

theorem drawsFairly_panics (hmax : maxLen.val < 2 ^ 64) (h : 2 ^ 64 ≤ upper + maxLen.val) :
    ¬DrawsFairly true upper maxLen := by
  intro hfair
  obtain ⟨r, hlen⟩ := exists_below maxLen.property le_rfl hmax
  obtain ⟨range, r', hrun, -⟩ := hfair.within _ r
  rw [checkedRandRange] at hrun
  dsimp only at hrun
  rw [hlen, ends_panics h] at hrun
  exact Option.some_ne_none _ hrun.symm

theorem drawsFairly_checked_iff (hmax : maxLen.val < 2 ^ 64) :
    DrawsFairly true upper maxLen ↔ upper + maxLen.val < 2 ^ 64 := by
  constructor
  · intro hfair
    by_contra hge
    exact drawsFairly_panics hmax (Nat.le_of_not_lt hge) hfair
  · intro h
    refine ⟨fun R _ r => checkedRandRange_within r fun len hlen hle => ?_,
      fun len hlen hle _ => ⟨ends_of_lt hlen (by omega), fun i hi => card_windows hlen hi⟩⟩
    exact ⟨_, ends_of_lt hlen (by omega), le_rfl⟩

theorem drawsFairly_wrapping_iff :
    DrawsFairly false upper maxLen ↔ upper + min upper maxLen.val ≤ 2 ^ 64 := by
  constructor
  · intro hfair
    rcases Nat.eq_zero_or_pos upper with rfl | hpos
    · omega
    · have hlen : 0 < min upper maxLen.val := Nat.lt_min.mpr ⟨hpos, maxLen.property⟩
      obtain ⟨n, hn, -, hiff⟩ := exists_ends upper hlen
      obtain ⟨hends, -⟩ := hfair.fair _ hlen (Nat.min_le_right ..) (Nat.min_le_left ..)
      exact hiff.mp (Option.some.inj (hn.symm.trans hends))
  · intro h
    refine ⟨fun R _ r => checkedRandRange_within r fun len hlen _ => ?_,
      fun len hlen hle hupper => ⟨?_, fun i hi => card_windows hlen hi⟩⟩
    · obtain ⟨n, hn, hle, -⟩ := exists_ends upper hlen
      exact ⟨n, hn, hle⟩
    · obtain ⟨n, hn, -, hiff⟩ := exists_ends upper hlen
      rw [hn, hiff.mpr (by omega)]

/-- **When ranges are drawn fairly**, with overflow checks and without. -/
theorem drawsFairly_iff (debug : Bool) (hmax : maxLen.val < 2 ^ 64) :
    DrawsFairly debug upper maxLen ↔
      if debug then upper + maxLen.val < 2 ^ 64 else upper + min upper maxLen.val ≤ 2 ^ 64 := by
  cases debug with
  | true => exact drawsFairly_checked_iff hmax
  | false => exact drawsFairly_wrapping_iff

theorem drawsFairly_iff_ten : DrawsFairly true 10 ⟨16, by decide⟩ ↔
    if true then 10 + 16 < 2 ^ 64 else 10 + min 10 16 ≤ 2 ^ 64 :=
  drawsFairly_iff true (by decide)

/-- Two more than the largest `usize` are too many. -/
theorem not_drawsFairly : ¬DrawsFairly true (2 ^ 64 - 1) ⟨2, Nat.two_pos⟩ ∧
    ¬DrawsFairly false (2 ^ 64 - 1) ⟨2, Nat.two_pos⟩ := by
  refine ⟨drawsFairly_panics (by decide) (by decide), ?_⟩
  rw [drawsFairly_wrapping_iff]
  decide

end

/-- On the inputs of the mutators it is `randRange`. -/
theorem checkedRandRange_eq {R : Type} [Rand R] (debug : Bool) {upper : Nat} {maxLen : NonZeroUsize}
    (h : upper + maxLen.val < 2 ^ 64) (r : R) :
    checkedRandRange debug upper maxLen r = some (randRange upper maxLen r) := by
  have hlt := Rand.below_lt maxLen r
  rw [checkedRandRange]
  dsimp only
  rw [ends_of_lt (by omega) (by omega)]
  rfl

end Libaflmm
