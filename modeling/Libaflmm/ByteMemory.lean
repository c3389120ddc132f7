import Mathlib.Data.BitVec
import Mathlib.Tactic.Common

/-!
# Byte memories

A memory has a byte at every address of some width, and addresses wrap around.
A word is stored with its lowest byte first.

`InRange a n x` says that `x` is one of the `n` addresses from `a` on. A store
changes what is in its range, and a load reads what is in its range; so a load
does not see a store whose range is apart from its own.
-/

namespace Libaflmm

abbrev ByteMemory (w : Nat) := BitVec w → BitVec 8

variable {w n : Nat}

def InRange (a : BitVec w) (n : Nat) (x : BitVec w) : Prop := (x - a).toNat < n

instance (a : BitVec w) (n : Nat) (x : BitVec w) : Decidable (InRange a n x) :=
  inferInstanceAs (Decidable (_ < _))

/-- No address is in both ranges. -/
def RangesApart (a : BitVec w) (n : Nat) (b : BitVec w) (m : Nat) : Prop :=
  ∀ x, InRange a n x → ¬InRange b m x

theorem RangesApart.symm {a b : BitVec w} {m : Nat} (h : RangesApart a n b m) :
    RangesApart b m a n :=
  fun x hb ha => h x ha hb

/-- A range that starts at a distance from `b` has the addresses at these distances. -/
theorem inRange_add_iff (b : BitVec w) {i : Nat} (hi : i + n ≤ 2 ^ w) (x : BitVec w) :
    InRange (b + BitVec.ofNat w i) n x ↔
      i ≤ (x - b).toNat ∧ (x - b).toNat < i + n := by
  have hd : x - (b + BitVec.ofNat w i) = (x - b) - BitVec.ofNat w i := (BitVec.sub_sub x b _).symm
  have hlt := (x - b).isLt
  unfold InRange
  rw [hd, BitVec.toNat_sub, BitVec.toNat_ofNat]
  generalize (x - b).toNat = d at hlt ⊢
  by_cases hid : i ≤ d
  · have hi' : i % 2 ^ w = i := Nat.mod_eq_of_lt (by omega)
    rw [hi', show 2 ^ w - i + d = 2 ^ w + (d - i) by omega, Nat.add_mod_left,
      Nat.mod_eq_of_lt (by omega)]
    omega
  · rcases Nat.lt_or_ge i (2 ^ w) with hi' | hi'
    · rw [Nat.mod_eq_of_lt hi', Nat.mod_eq_of_lt (by omega)]
      omega
    · rw [show i = 2 ^ w by omega, Nat.mod_self, Nat.sub_zero, Nat.add_mod_left]
      omega

theorem inRange_add {a : BitVec w} {k : Nat} (hk : k < n) (hn : n ≤ 2 ^ w) :
    InRange a n (a + BitVec.ofNat w k) := by
  unfold InRange
  rw [BitVec.add_comm, BitVec.add_sub_cancel, BitVec.toNat_ofNat, Nat.mod_eq_of_lt (by omega)]
  exact hk

/-- A range at a distance from `b` is in a longer range that starts at `b`. -/
theorem InRange.of_add {b : BitVec w} {i N : Nat} {x : BitVec w}
    (h : InRange (b + BitVec.ofNat w i) n x) (hi : i + n ≤ N) (hN : N ≤ 2 ^ w) :
    InRange b N x := by
  rw [inRange_add_iff b (by omega)] at h
  unfold InRange
  omega

theorem rangesApart_add (b : BitVec w) {i j m : Nat} (hij : i + n ≤ j) (hj : j + m ≤ 2 ^ w) :
    RangesApart (b + BitVec.ofNat w i) n (b + BitVec.ofNat w j) m := by
  intro x hx hx'
  rw [inRange_add_iff b (by omega)] at hx
  rw [inRange_add_iff b hj] at hx'
  omega

namespace ByteMemory

/-- `n` bytes, the lowest first. -/
def load (m : ByteMemory w) : (n : Nat) → BitVec w → BitVec (8 * n)
  | 0, _ => 0#0
  | n + 1, a => load m n (a + 1#w) ++ m a

def store (m : ByteMemory w) (a : BitVec w) (v : BitVec (8 * n)) : ByteMemory w := fun x =>
  if InRange a n x then v.extractLsb' (8 * (x - a).toNat) 8 else m x

variable {m : ByteMemory w}

theorem getLsbD_load (a : BitVec w) {i : Nat} (hi : i < 8 * n) :
    (m.load n a).getLsbD i = (m (a + BitVec.ofNat w (i / 8))).getLsbD (i % 8) := by
  induction n generalizing a i with
  | zero => omega
  | succ n ih =>
      unfold load
      rw [BitVec.getLsbD_append]
      split_ifs with hlow
      · rw [Nat.div_eq_of_lt hlow, Nat.mod_eq_of_lt hlow, BitVec.add_zero]
      · have hdiv : i / 8 = (i - 8) / 8 + 1 := by omega
        have hmod : i % 8 = (i - 8) % 8 := by omega
        rw [ih (a + 1#w) (by omega), hdiv, hmod, BitVec.ofNat_add, BitVec.add_assoc,
          BitVec.add_comm 1#w]

/-- A load sees its own range only. -/
theorem load_congr {m' : ByteMemory w} {a : BitVec w} (hn : n ≤ 2 ^ w)
    (h : ∀ x, InRange a n x → m' x = m x) : m'.load n a = m.load n a := by
  apply BitVec.eq_of_getLsbD_eq
  intro i hi
  rw [getLsbD_load a hi, getLsbD_load a hi, h _ (inRange_add (by omega) hn)]

theorem store_of_not_inRange {a x : BitVec w} (v : BitVec (8 * n)) (h : ¬InRange a n x) :
    m.store a v x = m x :=
  if_neg h

/-- What a store put down is what a load picks up. -/
theorem load_store_self (hn : n ≤ 2 ^ w) (a : BitVec w) (v : BitVec (8 * n)) :
    (m.store a v).load n a = v := by
  apply BitVec.eq_of_getLsbD_eq
  intro i hi
  have hk : i / 8 < n := by omega
  have hoff : (a + BitVec.ofNat w (i / 8) - a).toNat = i / 8 := by
    rw [BitVec.add_comm, BitVec.add_sub_cancel, BitVec.toNat_ofNat, Nat.mod_eq_of_lt (by omega)]
  have hrow : 8 * (i / 8) + i % 8 = i := by omega
  have hcol : i % 8 < 8 := Nat.mod_lt _ (by omega)
  rw [getLsbD_load a hi]
  unfold store
  rw [if_pos (inRange_add hk hn), hoff, BitVec.getLsbD_extractLsb', hrow]
  simp [hcol]

theorem load_store_of_apart {k : Nat} (hn : n ≤ 2 ^ w) {a b : BitVec w} (v : BitVec (8 * k))
    (h : RangesApart a n b k) : (m.store b v).load n a = m.load n a :=
  load_congr hn fun x hx => store_of_not_inRange v (h x hx)

end ByteMemory

end Libaflmm
