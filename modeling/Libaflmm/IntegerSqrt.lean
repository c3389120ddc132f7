import Mathlib.Algebra.GroupWithZero.Nat
import Mathlib.Data.Option.Basic

/-!
# The integer square root

`integer_sqrt` searches the interval `[ret, i)` by halving it. The square of
the midpoint saturates instead of overflowing, so the comparison with `val` is
the one of the exact squares as long as `val` is not the largest `u64`; the
code answers that one value without a search. The width of the interval is
halved in every round, hence no value needs more than 65 tests of the loop.
-/

namespace Libaflmm

namespace U64

/-- `a + b`, which panics on overflow. -/
def add (a b : UInt64) : Option UInt64 :=
  if a.toNat + b.toNat < 2 ^ 64 then some (a + b) else none

/-- `a - b`, which panics on overflow. -/
def sub (a b : UInt64) : Option UInt64 := if b ≤ a then some (a - b) else none

def maxValue : UInt64 := 0xffffffffffffffff

def midpoint (a b : UInt64) : UInt64 := .ofNat ((a.toNat + b.toNat) / 2)

def saturatingMul (a b : UInt64) : UInt64 := .ofNat (min (a.toNat * b.toNat) (2 ^ 64 - 1))

theorem toNat_lt_of_ne {a : UInt64} (h : a ≠ maxValue) : a.toNat < 2 ^ 64 - 1 := by
  have hne : a.toNat ≠ 2 ^ 64 - 1 := fun heq => h (UInt64.toNat_inj.mp heq)
  have hlt := a.toNat_lt
  omega

theorem toNat_midpoint (a b : UInt64) : (midpoint a b).toNat = (a.toNat + b.toNat) / 2 := by
  have ha := a.toNat_lt
  have hb := b.toNat_lt
  rw [midpoint, UInt64.toNat_ofNat']
  omega

/-- Below the largest value a saturated product compares as the exact one. -/
theorem saturatingMul_le_iff {a b val : UInt64} (hval : val.toNat < 2 ^ 64 - 1) :
    saturatingMul a b ≤ val ↔ a.toNat * b.toNat ≤ val.toNat := by
  rw [UInt64.le_iff_toNat_le, saturatingMul, UInt64.toNat_ofNat',
    Nat.mod_eq_of_lt (by omega)]
  omega

end U64

/-- The `while` loop of `integer_sqrt`, for at most `fuel` tests of its condition. -/
def integerSqrtLoop (val : UInt64) : Nat → UInt64 → UInt64 → Option UInt64
  | 0, _, _ => none
  | fuel + 1, ret, i => do
    if ret ≠ (← U64.sub i 1) then
      let m := U64.midpoint ret i
      if U64.saturatingMul m m ≤ val then
        integerSqrtLoop val fuel m i
      else
        integerSqrtLoop val fuel ret m
    else
      return ret

def integerSqrt (fuel : Nat) (val : UInt64) : Option UInt64 :=
  if val = U64.maxValue then
    some (.ofNat (2 ^ 32 - 1))
  else do
    let i ← U64.add val 1
    integerSqrtLoop val fuel 0 i

/-- `r` is the root of `val` rounded down. -/
def IsFloorSqrt (val r : UInt64) : Prop :=
  r.toNat * r.toNat ≤ val.toNat ∧ val.toNat < (r.toNat + 1) * (r.toNat + 1)

/-- The root lies in `[ret, i)`. -/
structure Brackets (val ret i : UInt64) : Prop where
  lower : ret.toNat * ret.toNat ≤ val.toNat
  upper : val.toNat < i.toNat * i.toNat
  lt : ret.toNat < i.toNat

theorem toNat_pred {ret i : UInt64} (h : ret.toNat < i.toNat) :
    U64.sub i 1 = some (i - 1) ∧ (i - 1).toNat = i.toNat - 1 := by
  have hi : (1 : UInt64) ≤ i := by
    rw [UInt64.le_iff_toNat_le, UInt64.toNat_one]
    omega
  refine ⟨if_pos hi, ?_⟩
  rw [UInt64.toNat_sub_of_le _ _ hi, UInt64.toNat_one]

/-- An interval of one number ends the search. -/
theorem integerSqrtLoop_done {val ret i : UInt64} (h : i.toNat = ret.toNat + 1) (fuel : Nat) :
    integerSqrtLoop val (fuel + 1) ret i = some ret := by
  obtain ⟨hsub, hpred⟩ := toNat_pred (show ret.toNat < i.toNat by omega)
  have hret : ret = i - 1 := UInt64.toNat_inj.mp (by omega)
  rw [integerSqrtLoop, hsub]
  simp [← hret]

/-- A longer one is halved, and what is left still brackets the root. -/
theorem Brackets.step {val ret i : UInt64} (hval : val.toNat < 2 ^ 64 - 1)
    (h : Brackets val ret i) (hgap : ret.toNat + 1 < i.toNat) :
    ∃ ret' i', Brackets val ret' i' ∧ i'.toNat - ret'.toNat ≤ (i.toNat - ret.toNat + 1) / 2 ∧
      ∀ fuel, integerSqrtLoop val (fuel + 1) ret i = integerSqrtLoop val fuel ret' i' := by
  obtain ⟨hsub, hpred⟩ := toNat_pred h.lt
  have hne : ret ≠ i - 1 := fun heq => by
    have := congrArg UInt64.toNat heq
    omega
  have hm := U64.toNat_midpoint ret i
  have hcmp := U64.saturatingMul_le_iff (a := U64.midpoint ret i) (b := U64.midpoint ret i) hval
  by_cases hsq : U64.saturatingMul (U64.midpoint ret i) (U64.midpoint ret i) ≤ val
  · refine ⟨U64.midpoint ret i, i, ⟨hcmp.mp hsq, h.upper, by omega⟩, by omega, fun fuel => ?_⟩
    rw [integerSqrtLoop, hsub]
    simp [hne, hsq]
  · have hupper := Nat.lt_of_not_le fun hle => hsq (hcmp.mpr hle)
    refine ⟨ret, U64.midpoint ret i, ⟨h.lower, hupper, by omega⟩, by omega, fun fuel => ?_⟩
    rw [integerSqrtLoop, hsub]
    simp [hne, hsq]

/-- From an interval of width at most `2 ^ k` the loop returns after `k + 1` tests. -/
theorem integerSqrtLoop_returns {val : UInt64} (hval : val.toNat < 2 ^ 64 - 1) (k : Nat) :
    ∀ {ret i : UInt64}, Brackets val ret i → i.toNat - ret.toNat ≤ 2 ^ k →
      ∃ r, IsFloorSqrt val r ∧ ∀ fuel, k + 1 ≤ fuel → integerSqrtLoop val fuel ret i = some r := by
  have hdone : ∀ {ret i : UInt64}, Brackets val ret i → i.toNat = ret.toNat + 1 → ∀ k,
      ∃ r, IsFloorSqrt val r ∧
        ∀ fuel, k + 1 ≤ fuel → integerSqrtLoop val fuel ret i = some r := by
    intro ret i h hone k
    refine ⟨ret, ⟨h.lower, hone ▸ h.upper⟩, fun fuel hfuel => ?_⟩
    obtain ⟨fuel, rfl⟩ := Nat.exists_eq_add_of_le' (Nat.le_trans (Nat.le_add_left 1 k) hfuel)
    exact integerSqrtLoop_done hone fuel
  induction k with
  | zero =>
      intro ret i h hwidth
      have hlt := h.lt
      exact hdone h (by omega) 0
  | succ k ih =>
      intro ret i h hwidth
      rcases Nat.eq_or_lt_of_le h.lt with hone | hgap
      · exact hdone h hone.symm (k + 1)
      · obtain ⟨ret', i', h', hhalf, hstep⟩ := h.step hval hgap
        obtain ⟨r, hr, hall⟩ := ih h' (by omega)
        refine ⟨r, hr, fun fuel hfuel => ?_⟩
        obtain ⟨fuel, rfl⟩ := Nat.exists_eq_add_of_le' (Nat.le_trans (Nat.le_add_left 1 _) hfuel)
        rw [hstep, hall fuel (by omega)]

/-- **The search is total and exact.** For every `val` the loop ends within 65
tests of its condition, no operation overflows, and the result is the root of
`val` rounded down. -/
theorem integerSqrt_isFloorSqrt (val : UInt64) :
    ∃ r, IsFloorSqrt val r ∧ ∀ fuel, 65 ≤ fuel → integerSqrt fuel val = some r := by
  by_cases hmax : val = U64.maxValue
  · refine ⟨.ofNat (2 ^ 32 - 1), ?_, fun fuel _ => if_pos hmax⟩
    subst hmax
    exact ⟨by decide, by decide⟩
  · have hval := U64.toNat_lt_of_ne hmax
    have hsucc : (val + 1).toNat = val.toNat + 1 := by
      rw [UInt64.toNat_add, UInt64.toNat_one]
      omega
    have hinit : Brackets val 0 (val + 1) := by
      refine ⟨Nat.zero_le _, ?_, ?_⟩ <;> rw [hsucc]
      · exact Nat.lt_of_lt_of_le (Nat.lt_succ_self _) (Nat.le_mul_self _)
      · exact Nat.succ_pos _
    have hwidth : (val + 1).toNat - (0 : UInt64).toNat ≤ 2 ^ 64 := by omega
    obtain ⟨r, hr, hall⟩ := integerSqrtLoop_returns hval 64 hinit hwidth
    refine ⟨r, hr, fun fuel hfuel => ?_⟩
    have hadd : U64.add val 1 = some (val + 1) := if_pos (by
      rw [UInt64.toNat_one]
      omega)
    rw [integerSqrt, if_neg hmax, hadd]
    exact hall fuel hfuel

example : integerSqrt 65 99 = some 9 := by decide

end Libaflmm
