import Mathlib.Algebra.Group.Nat.Defs
import Mathlib.Data.List.Basic
import Mathlib.Data.Stream.Init

/-!
# Randomness

A generator is anything that yields one 64 bit value after the other. The
values below a bound are scaled down from these.
-/

namespace Libaflmm

class Rand (R : Type) where
  next : R → UInt64 × R

abbrev NonZeroUsize := { n : Nat // 0 < n }

/-- The upper half of the 128 bit product. -/
def fastBound (rand : UInt64) (n : Nat) : Nat := rand.toNat * n / 2 ^ 64

theorem fastBound_lt {rand : UInt64} {n : Nat} (h : 0 < n) : fastBound rand n < n := by
  rw [fastBound, Nat.div_lt_iff_lt_mul (by decide), Nat.mul_comm n]
  exact Nat.mul_lt_mul_of_pos_right rand.toNat_lt h

theorem fastBound_zero (n : Nat) : fastBound 0 n = 0 := by simp [fastBound]

/-- Every value below the bound comes up. -/
theorem exists_fastBound {i n : Nat} (h : i < n) (hn : n ≤ 2 ^ 64) :
    ∃ rand : UInt64, fastBound rand n = i := by
  -- the least number that is scaled down to `i` or more
  have hpos : 0 < n := Nat.zero_lt_of_lt h
  have hdiv := Nat.div_add_mod (i * 2 ^ 64 + (n - 1)) n
  have hmod := Nat.mod_lt (i * 2 ^ 64 + (n - 1)) hpos
  have hlt : (i * 2 ^ 64 + (n - 1)) / n < 2 ^ 64 := by
    rw [Nat.div_lt_iff_lt_mul hpos]
    have : (i + 1) * 2 ^ 64 ≤ n * 2 ^ 64 := Nat.mul_le_mul_right _ h
    omega
  refine ⟨UInt64.ofNat ((i * 2 ^ 64 + (n - 1)) / n), ?_⟩
  rw [fastBound, UInt64.toNat_ofNat_of_lt' hlt, Nat.mul_comm]
  rw [Nat.div_eq_iff (by decide)]
  omega

namespace Rand

/-- A generator of given values. -/
instance : Rand (Stream' UInt64) where
  next s := (s.head, s.tail)

variable {R : Type} [Rand R]

def below (upperBoundExcl : NonZeroUsize) (r : R) : Nat × R :=
  let (rand, r) := next r
  (fastBound rand upperBoundExcl, r)

def belowOrZero (n : Nat) (r : R) : Nat × R :=
  let (rand, r) := next r
  (fastBound rand n, r)

/-- Both bounds are values. The debug build checks their order. -/
def between (lowerBoundIncl upperBoundIncl : Nat) (r : R) : Option (Nat × R) :=
  if lowerBoundIncl ≤ upperBoundIncl then
    if upperBoundIncl = 2 ^ 64 - 1 ∧ lowerBoundIncl = 0 then
      let (rand, r) := next r
      some (rand.toNat, r)
    else
      let (offset, r) := below ⟨upperBoundIncl - lowerBoundIncl + 1, Nat.succ_pos _⟩ r
      some (lowerBoundIncl + offset, r)
  else none

/-- `choose` from what knows its length. -/
def choose {α : Type} (l : List α) (r : R) : Option α × R :=
  if h : 0 < l.length then
    let (index, r) := below ⟨l.length, h⟩ r
    (l[index]?, r)
  else (none, r)

/-- The loop of `choose` over an iterator that does not know its length: the
element at hand takes the place of the result with one chance in `consumed`. -/
def chooseLoop {α : Type} : List α → Nat → Option α → R → Option α × R
  | [], _, result, r => (result, r)
  | elem :: iter, consumed, result, r =>
    let (rank, r) := below ⟨consumed + 1, Nat.succ_pos _⟩ r
    chooseLoop iter (consumed + 1) (if rank = 0 then some elem else result) r

def chooseIter {α : Type} (iter : List α) (r : R) : Option α × R := chooseLoop iter 0 none r

theorem below_lt (n : NonZeroUsize) (r : R) : (below n r).1 < n.val := fastBound_lt n.property

theorem belowOrZero_le (n : Nat) (r : R) : (belowOrZero n r).1 ≤ n - 1 := by
  rcases Nat.eq_zero_or_pos n with rfl | hn
  · exact Nat.le_of_eq (by simp [belowOrZero, fastBound])
  · exact Nat.le_sub_one_of_lt (fastBound_lt hn)

theorem choose_mem {α : Type} {l : List α} (h : l ≠ []) (r : R) :
    ∃ a ∈ l, ∃ r', choose l r = (some a, r') := by
  have hlen : 0 < l.length := List.length_pos_iff.mpr h
  have hlt := below_lt ⟨l.length, hlen⟩ r
  refine ⟨l[(below ⟨l.length, hlen⟩ r).1], List.getElem_mem hlt, (below ⟨l.length, hlen⟩ r).2, ?_⟩
  rw [choose, dif_pos hlen]
  exact Prod.ext (List.getElem?_eq_getElem hlt) rfl

theorem between_zero_le (n : Nat) (r : R) :
    ∃ k r', between 0 n r = some (k, r') ∧ k ≤ n := by
  unfold between
  rw [if_pos (Nat.zero_le n)]
  split
  · next hmax => exact ⟨_, _, rfl, hmax.1 ▸ Nat.le_sub_one_of_lt (next r).1.toNat_lt⟩
  · refine ⟨_, _, rfl, ?_⟩
    rw [Nat.zero_add]
    exact Nat.le_of_lt_succ (below_lt ⟨n - 0 + 1, Nat.succ_pos _⟩ r)

theorem chooseLoop_cons {α : Type} (elem : α) (iter : List α) (consumed : Nat)
    (result : Option α) (r : R) :
    chooseLoop (elem :: iter) consumed result r =
      chooseLoop iter (consumed + 1)
        (if (below ⟨consumed + 1, Nat.succ_pos _⟩ r).1 = 0 then some elem else result)
        (below ⟨consumed + 1, Nat.succ_pos _⟩ r).2 := rfl

theorem chooseLoop_mem {α : Type} {iter : List α} {consumed : Nat} {result : Option α} {r : R}
    {a : α} (h : (chooseLoop iter consumed result r).1 = some a) : a ∈ iter ∨ result = some a := by
  induction iter generalizing consumed result r with
  | nil => exact .inr h
  | cons elem iter ih =>
      rw [chooseLoop_cons] at h
      rcases ih h with hmem | hres
      · exact .inl (List.mem_cons_of_mem elem hmem)
      · split at hres
        · obtain rfl := Option.some.inj hres
          exact .inl (List.mem_cons_self ..)
        · exact .inr hres

theorem chooseLoop_isSome {α : Type} {iter : List α} {consumed : Nat} {result : Option α} {r : R}
    (h : result.isSome) : (chooseLoop iter consumed result r).1.isSome := by
  induction iter generalizing consumed result r with
  | nil => exact h
  | cons elem iter ih =>
      rw [chooseLoop_cons]
      refine ih ?_
      split
      · rfl
      · exact h

/-- The first element is drawn below one, so there always is a result. -/
theorem chooseIter_isSome {α : Type} {iter : List α} (h : iter ≠ []) (r : R) :
    (chooseIter iter r).1.isSome := by
  obtain ⟨elem, rest, rfl⟩ := List.exists_cons_of_ne_nil h
  rw [chooseIter, chooseLoop_cons]
  refine chooseLoop_isSome ?_
  rw [if_pos (Nat.lt_one_iff.mp (below_lt ⟨0 + 1, Nat.succ_pos _⟩ r))]
  rfl

theorem exists_below {i : Nat} (n : NonZeroUsize) (h : i < n) (hn : n.val ≤ 2 ^ 64) :
    ∃ rand, ∀ s : Stream' UInt64, below n (Stream'.cons rand s) = (i, s) := by
  obtain ⟨rand, hrand⟩ := exists_fastBound h hn
  exact ⟨rand, fun s => Prod.ext hrand rfl⟩

theorem chooseIter_mem {α : Type} {iter : List α} {r : R} {a : α}
    (h : (chooseIter iter r).1 = some a) : a ∈ iter := by
  rcases chooseLoop_mem h with hmem | hnone
  · exact hmem
  · simp at hnone

end Rand

/-- One step of the generator the seeds are spread with. -/
def splitmix64 (x : UInt64) : UInt64 × UInt64 :=
  let x := x + 0x9e3779b97f4a7c15
  let z := (x ^^^ (x >>> 30)) * 0xbf58476d1ce4e5b9
  let z := (z ^^^ (z >>> 27)) * 0x94d049bb133111eb
  (z ^^^ (z >>> 31), x)

/-- The generator fuzzers use by default. -/
structure RomuDuoJrRand where
  xState : UInt64
  yState : UInt64
deriving DecidableEq

def RomuDuoJrRand.withSeed (seed : UInt64) : RomuDuoJrRand :=
  let (xState, seed) := splitmix64 seed
  let (yState, _) := splitmix64 seed
  ⟨xState, yState⟩

instance : Rand RomuDuoJrRand where
  next r :=
    let y := r.yState - r.xState
    (r.xState, ⟨15241094284759029579 * r.yState, y <<< 27 ||| y >>> 37⟩)

end Libaflmm
