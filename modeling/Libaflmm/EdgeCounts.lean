import Mathlib.Data.BitVec
import Mathlib.Logic.Function.Basic
import Mathlib.Data.List.Count

/-!
# Edge counts

A coverage map counts, for every edge number, how often an edge with this number
was taken. The number of an edge is its previous location xor the block it leads
to, and after a block the previous location is `next` of that block. A count is
one byte that wraps around past zero, so that an edge once taken never looks
untaken.
-/

namespace Libaflmm

/-- The byte of an edge taken `k` times. -/
def neverZero (k : Nat) : BitVec 8 := if k = 0 then 0 else BitVec.ofNat 8 ((k - 1) % 255 + 1)

def bumpNeverZero (b : BitVec 8) : BitVec 8 := if b = 255 then 1 else b + 1

@[simp]
theorem bumpNeverZero_neverZero (k : Nat) : bumpNeverZero (neverZero k) = neverZero (k + 1) := by
  unfold bumpNeverZero neverZero
  rcases k with _ | k
  · rfl
  · simp only [Nat.add_one_ne_zero, if_false, Nat.add_sub_cancel]
    have hlt : k % 255 < 255 := Nat.mod_lt _ (by omega)
    split_ifs with hfull
    · have hmod : k % 255 = 254 := by
        have := congrArg BitVec.toNat hfull
        simp at this
        omega
      have hsucc : (k + 1) % 255 = 0 := by omega
      rw [hsucc]
      rfl
    · have hmod : k % 255 ≠ 254 := by
        intro h
        rw [h] at hfull
        exact hfull rfl
      have hsucc : (k + 1) % 255 = k % 255 + 1 := by omega
      rw [hsucc, BitVec.ofNat_add (k % 255 + 1) 1]
      rfl

theorem neverZero_eq_zero_iff (k : Nat) : neverZero k = 0 ↔ k = 0 := by
  unfold neverZero
  split_ifs with hk
  · exact ⟨fun _ => hk, fun _ => rfl⟩
  · refine ⟨fun h => ?_, fun h => absurd h hk⟩
    have := congrArg BitVec.toNat h
    simp at this
    omega

variable {k : Nat} (next : BitVec k → BitVec k)

/-- The numbers of the edges along a sequence of blocks. -/
def edges : BitVec k → List (BitVec k) → List (BitVec k)
  | _, [] => []
  | prev, h :: hs => (prev ^^^ h) :: edges (next h) hs

/-- The previous location after a sequence of blocks. -/
def lastLocation (prev : BitVec k) (hs : List (BitVec k)) : BitVec k :=
  hs.foldl (fun _ h => next h) prev

theorem lastLocation_append (prev : BitVec k) (hs hs' : List (BitVec k)) :
    lastLocation next prev (hs ++ hs') = lastLocation next (lastLocation next prev hs) hs' :=
  List.foldl_append

structure EdgeMap (k : Nat) where
  counts : BitVec k → BitVec 8
  prev : BitVec k

namespace EdgeMap

variable (m : EdgeMap k)

/-- A block is entered. -/
def enter (h : BitVec k) : EdgeMap k where
  counts := Function.update m.counts (m.prev ^^^ h) (bumpNeverZero (m.counts (m.prev ^^^ h)))
  prev := next h

def cleared : EdgeMap k := { m with counts := fun _ => 0 }

def run (hs : List (BitVec k)) : EdgeMap k := hs.foldl (enter next) m

theorem run_prev (hs : List (BitVec k)) : (m.run next hs).prev = lastLocation next m.prev hs := by
  induction hs generalizing m with
  | nil => rfl
  | cons h hs ih => exact ih (m.enter next h)

/-- A run adds to every count the number of its edges with that number. -/
theorem run_counts {c : BitVec k → Nat} (hc : ∀ i, m.counts i = neverZero (c i))
    (hs : List (BitVec k)) (i : BitVec k) :
    (m.run next hs).counts i = neverZero (c i + (edges next m.prev hs).count i) := by
  induction hs generalizing m c with
  | nil => exact hc i
  | cons h hs ih =>
      have hstep : ∀ j, (m.enter next h).counts j =
          neverZero (if j = m.prev ^^^ h then c j + 1 else c j) := by
        intro j
        change Function.update m.counts (m.prev ^^^ h) _ j = _
        by_cases hj : j = m.prev ^^^ h
        · subst hj
          rw [if_pos rfl, Function.update_self, hc, bumpNeverZero_neverZero]
        · rw [if_neg hj, Function.update_of_ne hj, hc]
      have hrun : (m.run next (h :: hs)).counts i =
          neverZero ((if i = m.prev ^^^ h then c i + 1 else c i) +
            (edges next (next h) hs).count i) :=
        ih (m.enter next h) hstep
      have hedges : edges next m.prev (h :: hs) = (m.prev ^^^ h) :: edges next (next h) hs := rfl
      rw [hrun, hedges, List.count_cons]
      congr 1
      by_cases hi : i = m.prev ^^^ h
      · subst hi
        simp only [if_true, beq_self_eq_true]
        exact (Nat.add_assoc ..).trans (congrArg _ (Nat.add_comm ..))
      · have hne : (m.prev ^^^ h == i) = false := beq_eq_false_iff_ne.mpr (Ne.symm hi)
        simp only [if_neg hi, hne]
        rfl

theorem run_cleared_counts (hs : List (BitVec k)) (i : BitVec k) :
    (m.cleared.run next hs).counts i = neverZero ((edges next m.prev hs).count i) := by
  have h := m.cleared.run_counts next (c := fun _ => 0) (fun _ => rfl) hs i
  rwa [Nat.zero_add] at h

end EdgeMap

end Libaflmm
