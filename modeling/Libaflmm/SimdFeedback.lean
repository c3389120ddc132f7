import Libaflmm.MapFeedback
import Mathlib.Data.Vector.Zip

/-!
# Map feedback over vectors

The vectorised map feedback compares a map with its history a vector of
bytes at a time and the rest of the map byte by byte. It wraps the generic
feedback with the criterion that anything different is novel, and replaces
only the question whether a run is interesting.

The vectors come from outside: a vector type is any type with the operations
below, lawful when they act on each byte by itself.
-/

namespace Libaflmm

/-! ## Vectors -/

/-- A vector of `N` bytes, with what the reducers use of it. -/
class VectorType (V : Type) where
  N : Nat
  fromSlice : List UInt8 → V
  asSlice : V → List UInt8
  max : V → V → V
  min : V → V → V
  or : V → V → V
  and : V → V → V

/-- The operations act on each byte by itself. -/
class LawfulVectorType (V : Type) [VectorType V] : Prop where
  N_pos : 0 < VectorType.N V
  asSlice_inj : ∀ {v w : V}, VectorType.asSlice v = VectorType.asSlice w → v = w
  asSlice_fromSlice : ∀ arr : List UInt8, VectorType.N V ≤ arr.length →
    VectorType.asSlice (VectorType.fromSlice arr : V) = arr.take (VectorType.N V)
  asSlice_max : ∀ v w : V, VectorType.asSlice (VectorType.max v w) =
    (VectorType.asSlice v).zipWith MaxReducer.reduce (VectorType.asSlice w)
  asSlice_min : ∀ v w : V, VectorType.asSlice (VectorType.min v w) =
    (VectorType.asSlice v).zipWith MinReducer.reduce (VectorType.asSlice w)
  asSlice_or : ∀ v w : V, VectorType.asSlice (VectorType.or v w) =
    (VectorType.asSlice v).zipWith OrReducer.reduce (VectorType.asSlice w)
  asSlice_and : ∀ v w : V, VectorType.asSlice (VectorType.and v w) =
    (VectorType.asSlice v).zipWith AndReducer.reduce (VectorType.asSlice w)

instance {n : Nat} : VectorType (List.Vector UInt8 n) where
  N := n
  fromSlice arr := List.Vector.ofFn fun i => arr.getD i 0
  asSlice := List.Vector.toList
  max := List.Vector.zipWith MaxReducer.reduce
  min := List.Vector.zipWith MinReducer.reduce
  or := List.Vector.zipWith OrReducer.reduce
  and := List.Vector.zipWith AndReducer.reduce

instance {n : Nat} [NeZero n] : LawfulVectorType (List.Vector UInt8 n) where
  N_pos := Nat.pos_of_ne_zero (NeZero.ne n)
  asSlice_inj := List.Vector.eq _ _
  asSlice_fromSlice arr h := by
    have hn : n ≤ arr.length := h
    refine (List.Vector.toList_ofFn _).trans (List.ext_getElem ?_ fun i hi hi' => ?_)
    · exact (List.length_ofFn ..).trans (List.length_take_of_le hn).symm
    · have hi : i < n := by simpa using hi
      simp [List.getElem?_eq_getElem (lt_of_lt_of_le hi hn)]
  asSlice_max _ _ := rfl
  asSlice_min _ _ := rfl
  asSlice_or _ _ := rfl
  asSlice_and _ _ := rfl

/-- The reducers with a variant over vectors. Those for `or`, `and` and
nothing at all are the generic ones. -/
inductive SimdReducer where
  | max
  | min
  | or
  | and
  | nop
deriving DecidableEq

namespace SimdReducer

def reduce {V : Type} [VectorType V] : SimdReducer → V → V → V
  | max => VectorType.max
  | min => VectorType.min
  | or => VectorType.or
  | and => VectorType.and
  | nop => NopReducer.reduce

def primitiveReducer : SimdReducer → UInt8 → UInt8 → UInt8
  | max => MaxReducer.reduce
  | min => MinReducer.reduce
  | or => OrReducer.reduce
  | and => AndReducer.reduce
  | nop => NopReducer.reduce

theorem asSlice_reduce {V : Type} [VectorType V] [LawfulVectorType V] (R : SimdReducer)
    {v w : V} (h : (VectorType.asSlice v).length = (VectorType.asSlice w).length) :
    VectorType.asSlice (R.reduce v w) =
      (VectorType.asSlice v).zipWith R.primitiveReducer (VectorType.asSlice w) := by
  cases R with
  | max => exact LawfulVectorType.asSlice_max v w
  | min => exact LawfulVectorType.asSlice_min v w
  | or => exact LawfulVectorType.asSlice_or v w
  | and => exact LawfulVectorType.asSlice_and v w
  | nop =>
      refine List.ext_getElem (by simp [reduce, primitiveReducer, NopReducer.reduce, h]) ?_
      intro i _ _
      simp [reduce, primitiveReducer, NopReducer.reduce]

theorem primitiveReducer_comm {R : SimdReducer} (hR : R ≠ nop) (a b : UInt8) :
    R.primitiveReducer a b = R.primitiveReducer b a := by
  cases R with
  | max =>
      simp only [primitiveReducer, MaxReducer.reduce, gt_iff_lt, UInt8.lt_iff_toNat_lt]
      split <;> split <;> first | rfl | omega | (apply UInt8.toNat_inj.mp; omega)
  | min =>
      simp only [primitiveReducer, MinReducer.reduce, UInt8.lt_iff_toNat_lt]
      split <;> split <;> first | rfl | omega | (apply UInt8.toNat_inj.mp; omega)
  | or => exact UInt8.or_comm a b
  | and => exact UInt8.and_comm a b
  | nop => exact absurd rfl hR

end SimdReducer

/-! ## The comparison -/

section

variable (V : Type) [DecidableEq V] [VectorType V] (R : SimdReducer)

/-- The history is no shorter than the map. -/
def covmapIsInterestingSimd (hist map : List UInt8) : Bool :=
  let N := VectorType.N V
  let size := map.length
  let steps := size / N
  let left := size % N
  ((List.range steps).any fun step =>
    let i := step * N
    let history : V := VectorType.fromSlice (hist.drop i)
    let items : V := VectorType.fromSlice (map.drop i)
    R.reduce history items ≠ history) ||
  (((map.drop (size - left)).zip (hist.drop (size - left))).any fun (item, history) =>
    R.primitiveReducer item history ≠ history)

namespace SimdMapFeedback

open MapFeedback (Metadata growHistory)

/-- The feedback that is wrapped. -/
def map : MapFeedback UInt8 := ⟨R.primitiveReducer, DifferentIsNovel.isNovel⟩

/-- The loop over the slices of the observer. -/
def anyChunk : List (List UInt8) → List UInt8 → Bool
  | [], _ => false
  | chunk :: chunks, history =>
    covmapIsInterestingSimd V R (history.take chunk.length) chunk ||
      anyChunk chunks (history.drop chunk.length)

def isInterestingU8SimdOptimized (observer : MapObserver UInt8) (md : Metadata UInt8) :
    Bool × Metadata UInt8 :=
  let historyMap := growHistory observer.len 0 md.historyMap
  (anyChunk V R observer.chunks historyMap, { md with historyMap })

/-- Adding to the corpus is left to the feedback that is wrapped. -/
def appendMetadata (observer : MapObserver UInt8) (md : Metadata UInt8) : Metadata UInt8 :=
  (map R).appendMetadata observer md

end SimdMapFeedback

end

/-! ### What it finds -/

section

variable {V : Type} [VectorType V] {R : SimdReducer}

/-- Reducing the entry of the map into that of the history changes it. -/
def SimdReducer.Changes (R : SimdReducer) (e : UInt8 × UInt8) : Prop :=
  R.primitiveReducer e.2 e.1 ≠ e.2

instance : DecidablePred R.Changes := fun _ => instDecidableNot

theorem SimdReducer.changes_nop {e : UInt8 × UInt8} : SimdReducer.nop.Changes e ↔ e.1 ≠ e.2 :=
  Iff.rfl

theorem append_zip {as bs cs : List UInt8} (h : as.length ≤ cs.length) :
    (as ++ bs).zip cs = as.zip cs ++ bs.zip (cs.drop as.length) := by
  induction as generalizing cs with
  | nil => simp
  | cons a as ih =>
      cases cs with
      | nil => simp at h
      | cons c cs =>
          have hlen : as.length ≤ cs.length := by simpa using h
          simp [ih hlen]

theorem zip_take_length (as cs : List UInt8) : as.zip (cs.take as.length) = as.zip cs := by
  have hwhole : as.zip cs = _ := List.zip_eq_zip_take_min
  rw [List.zip_eq_zip_take_min, hwhole]
  simp [List.take_take]

theorem zipWith_ne_self {f : UInt8 → UInt8 → UInt8} {as bs : List UInt8}
    (h : as.length = bs.length) :
    as.zipWith f bs ≠ as ↔ ∃ e ∈ bs.zip as, f e.2 e.1 ≠ e.2 := by
  induction as generalizing bs with
  | nil => simp
  | cons a as ih =>
      cases bs with
      | nil => simp at h
      | cons b bs =>
          have hlen : as.length = bs.length := by simpa using h
          have := ih hlen
          simp only [List.zipWith_cons_cons, ne_eq, List.cons.injEq, not_and_or, this,
            List.zip_cons_cons, List.mem_cons, exists_eq_or_imp]

/-- One vector differs when one of its bytes does. -/
theorem reduce_fromSlice_ne [LawfulVectorType V] (hist map : List UInt8)
    (hh : VectorType.N V ≤ hist.length) (hm : VectorType.N V ≤ map.length) :
    R.reduce (VectorType.fromSlice hist : V) (VectorType.fromSlice map) ≠
        VectorType.fromSlice hist ↔
      ∃ e ∈ (map.take (VectorType.N V)).zip hist, R.Changes e := by
  have hm' : (map.take (VectorType.N V)).length = VectorType.N V := List.length_take_of_le hm
  have hsame := zip_take_length (map.take (VectorType.N V)) hist
  rw [hm'] at hsame
  have hlen : (hist.take (VectorType.N V)).length = (map.take (VectorType.N V)).length := by
    rw [hm', List.length_take_of_le hh]
  rw [← hsame]
  refine Iff.trans ?_ (zipWith_ne_self (f := R.primitiveReducer) hlen)
  refine not_congr ?_
  rw [← LawfulVectorType.asSlice_fromSlice (V := V) hist hh,
    ← LawfulVectorType.asSlice_fromSlice (V := V) map hm] at hlen ⊢
  rw [← R.asSlice_reduce hlen]
  exact ⟨congrArg _, LawfulVectorType.asSlice_inj⟩

variable [DecidableEq V] [LawfulVectorType V]

/-- The vectors, one after the other, cover the bytes up to the last full one. -/
theorem any_steps {hist map : List UInt8} (h : map.length ≤ hist.length) {steps : Nat}
    (hs : steps * VectorType.N V ≤ map.length) :
    ((List.range steps).any fun step =>
        R.reduce (VectorType.fromSlice (hist.drop (step * VectorType.N V)) : V)
            (VectorType.fromSlice (map.drop (step * VectorType.N V))) ≠
          VectorType.fromSlice (hist.drop (step * VectorType.N V))) = true ↔
      ∃ e ∈ (map.take (steps * VectorType.N V)).zip hist, R.Changes e := by
  induction steps with
  | zero => simp
  | succ steps ih =>
      have hsum : (steps + 1) * VectorType.N V = steps * VectorType.N V + VectorType.N V :=
        Nat.succ_mul ..
      have hsplit : (map.take ((steps + 1) * VectorType.N V)).zip hist =
          (map.take (steps * VectorType.N V)).zip hist ++
            ((map.drop (steps * VectorType.N V)).take (VectorType.N V)).zip
              (hist.drop (steps * VectorType.N V)) := by
        have hlen : (map.take (steps * VectorType.N V)).length = steps * VectorType.N V :=
          List.length_take_of_le (by omega)
        rw [hsum, List.take_add, append_zip (by omega), hlen]
      have hlast := reduce_fromSlice_ne (V := V) (R := R)
        (hist.drop (steps * VectorType.N V)) (map.drop (steps * VectorType.N V))
        (by rw [List.length_drop]; omega) (by rw [List.length_drop]; omega)
      rw [List.range_succ, List.any_append, Bool.or_eq_true, ih (by omega), hsplit]
      simp only [List.any_cons, List.any_nil, Bool.or_false, decide_eq_true_eq, hlast,
        List.mem_append, or_and_right, exists_or]

theorem covmapIsInterestingSimd_iff {hist map : List UInt8} (h : map.length ≤ hist.length) :
    covmapIsInterestingSimd V R hist map = true ↔
      (∃ e ∈ (map.take (map.length / VectorType.N V * VectorType.N V)).zip hist, R.Changes e) ∨
      ∃ e ∈ (map.drop (map.length / VectorType.N V * VectorType.N V)).zip
          (hist.drop (map.length / VectorType.N V * VectorType.N V)),
        R.primitiveReducer e.1 e.2 ≠ e.2 := by
  have htail : map.length - map.length % VectorType.N V =
      map.length / VectorType.N V * VectorType.N V := by
    have := Nat.div_add_mod' map.length (VectorType.N V)
    omega
  rw [← any_steps h (Nat.div_mul_le_self ..), ← htail]
  simp [covmapIsInterestingSimd]

/-- With a reducer that does not care about the order, the tail is compared as
the vectors are. -/
theorem covmapIsInterestingSimd_reduces {hist map : List UInt8} (hR : R ≠ .nop)
    (h : map.length ≤ hist.length) :
    covmapIsInterestingSimd V R hist map = true ↔ ∃ e ∈ map.zip hist, R.Changes e := by
  set n := map.length / VectorType.N V * VectorType.N V with hn
  have hle : n ≤ map.length := Nat.div_mul_le_self ..
  have hsplit : map.zip hist = (map.take n).zip hist ++ (map.drop n).zip (hist.drop n) := by
    have hlen : (map.take n).length = n := List.length_take_of_le hle
    nth_rewrite 1 [← List.take_append_drop n map]
    rw [append_zip (by omega), hlen]
  rw [covmapIsInterestingSimd_iff h, ← hn, hsplit]
  simp only [SimdReducer.Changes, R.primitiveReducer_comm hR, List.mem_append, or_and_right,
    exists_or]

/-- Nothing in the tail is ever novel to the reducer that does nothing: it is
given the entry of the map as the history. -/
theorem covmapIsInterestingSimd_nop {hist map : List UInt8} (h : map.length ≤ hist.length) :
    covmapIsInterestingSimd V .nop hist map = true ↔
      ∃ e ∈ (map.take (map.length / VectorType.N V * VectorType.N V)).zip hist, e.1 ≠ e.2 := by
  rw [covmapIsInterestingSimd_iff h]
  simp [SimdReducer.changes_nop, SimdReducer.primitiveReducer, NopReducer.reduce]

namespace SimdMapFeedback

/-- The entries inside the full vectors of each slice, with their history. -/
def vectorEntries (N : Nat) : List (List UInt8) → List UInt8 → List (UInt8 × UInt8)
  | [], _ => []
  | chunk :: chunks, history =>
    (chunk.take (chunk.length / N * N)).zip history ++
      vectorEntries N chunks (history.drop chunk.length)

theorem anyChunk_reduces {chunks : List (List UInt8)} {history : List UInt8} (hR : R ≠ .nop)
    (h : chunks.flatten.length ≤ history.length) :
    anyChunk V R chunks history = true ↔ ∃ e ∈ chunks.flatten.zip history, R.Changes e := by
  induction chunks generalizing history with
  | nil => simp [anyChunk]
  | cons chunk chunks ih =>
      rw [List.flatten_cons, List.length_append] at h
      have hchunk : chunk.length ≤ (history.take chunk.length).length := by
        rw [List.length_take_of_le (by omega)]
      rw [anyChunk, Bool.or_eq_true, covmapIsInterestingSimd_reduces hR hchunk, zip_take_length,
        ih (by rw [List.length_drop]; omega), List.flatten_cons, append_zip (by omega)]
      simp only [List.mem_append, or_and_right, exists_or]

theorem anyChunk_nop {chunks : List (List UInt8)} {history : List UInt8}
    (h : chunks.flatten.length ≤ history.length) :
    anyChunk V .nop chunks history = true ↔
      ∃ e ∈ vectorEntries (VectorType.N V) chunks history, e.1 ≠ e.2 := by
  induction chunks generalizing history with
  | nil => simp [anyChunk, vectorEntries]
  | cons chunk chunks ih =>
      rw [List.flatten_cons, List.length_append] at h
      have hchunk : chunk.length ≤ (history.take chunk.length).length := by
        rw [List.length_take_of_le (by omega)]
      have hsame : (chunk.take (chunk.length / VectorType.N V * VectorType.N V)).zip
            (history.take chunk.length) =
          (chunk.take (chunk.length / VectorType.N V * VectorType.N V)).zip history := by
        have hle := Nat.div_mul_le_self chunk.length (VectorType.N V)
        rw [← zip_take_length, ← zip_take_length _ history, List.take_take,
          List.length_take_of_le hle, Nat.min_eq_left hle]
      rw [anyChunk, Bool.or_eq_true, covmapIsInterestingSimd_nop hchunk, hsame,
        ih (by rw [List.length_drop]; omega), vectorEntries]
      simp only [List.mem_append, or_and_right, exists_or]

end SimdMapFeedback

end

/-! ## The two feedbacks in step -/

namespace SimdMapFeedback

open MapFeedback (Metadata growHistory)

section

variable (V : Type) [DecidableEq V] [VectorType V] (R : SimdReducer)

inductive Op where
  | isInteresting (observer : MapObserver UInt8)
  | appendMetadata (observer : MapObserver UInt8)

/-- The metadata of the vectorised feedback, and that of the generic one. -/
def step (md : Metadata UInt8 × Metadata UInt8) : Op → Option (Metadata UInt8 × Metadata UInt8)
  | .isInteresting observer =>
    some ((isInterestingU8SimdOptimized V R observer md.1).2,
      ((map R).isInterestingDefault observer md.2).2)
  | .appendMetadata observer =>
    some (appendMetadata R observer md.1, (map R).appendMetadata observer md.2)

/-- Both give the same verdict and leave the same metadata. -/
def Agrees (md : Metadata UInt8 × Metadata UInt8) : Op → Prop
  | .isInteresting observer =>
    isInterestingU8SimdOptimized V R observer md.1 = (map R).isInterestingDefault observer md.2
  | .appendMetadata observer =>
    appendMetadata R observer md.1 = (map R).appendMetadata observer md.2

instance (md : Metadata UInt8 × Metadata UInt8) : DecidablePred (Agrees V R md)
  | .isInteresting _ => inferInstanceAs (Decidable (_ = _))
  | .appendMetadata _ => inferInstanceAs (Decidable (_ = _))

/-- A growing history is filled with what the observer resets its entries to,
and the entries the vectorised feedback reads differently do not decide:
those equal to the initial value, which only the generic one skips, and for
the reducer that does nothing those after the last full vector. -/
def ReadsAlike (observer : MapObserver UInt8) (md : Metadata UInt8) : Prop :=
  let history := growHistory observer.len observer.initial md.historyMap
  let entries := observer.asIter.zip history
  (observer.len ≤ md.historyMap.length ∨ observer.initial = 0) ∧
  match R with
  | .nop =>
    ((∃ e ∈ entries, e.1 ≠ observer.initial ∧ e.1 ≠ e.2) →
      ∃ e ∈ vectorEntries (VectorType.N V) observer.chunks history, e.1 ≠ e.2) ∧
    ((∃ e ∈ vectorEntries (VectorType.N V) observer.chunks history, e.1 ≠ e.2) →
      ∃ e ∈ entries, e.1 ≠ observer.initial ∧ e.1 ≠ e.2)
  | R =>
    (∃ e ∈ entries, e.1 = observer.initial ∧ R.Changes e) →
      ∃ e ∈ entries, e.1 ≠ observer.initial ∧ R.Changes e

def StepReadsAlike (md : Metadata UInt8 × Metadata UInt8) : Op → Prop
  | .isInteresting observer => ReadsAlike V R observer md.2
  | .appendMetadata _ => True

end

section

variable {V : Type} [DecidableEq V] [VectorType V] {R : SimdReducer}
  {observer : MapObserver UInt8} {md : Metadata UInt8}

theorem isInterestingDefault_iff :
    ((map R).isInterestingDefault observer md).1 = true ↔
      ∃ e ∈ observer.asIter.zip (growHistory observer.len observer.initial md.historyMap),
        e.1 ≠ observer.initial ∧ R.Changes e := by
  simp only [MapFeedback.isInterestingDefault, List.any_eq_true, Bool.and_eq_true,
    decide_eq_true_eq, DifferentIsNovel.isNovel, map, SimdReducer.Changes]
  exact exists_congr fun e => and_congr_right fun _ => and_congr_right fun _ => ne_comm

theorem len_le_growHistory (len : Nat) (value : UInt8) (history : List UInt8) :
    len ≤ (growHistory len value history).length := by
  unfold growHistory
  split <;> grind

/-- The histories grow alike. -/
theorem growHistory_eq_iff {len : Nat} {value : UInt8} {history : List UInt8} :
    growHistory len 0 history = growHistory len value history ↔
      len ≤ history.length ∨ value = 0 := by
  unfold growHistory
  split
  · next h =>
      have hpos : len - history.length ≠ 0 := by omega
      simp only [List.append_cancel_left_eq, List.replicate_inj, true_and, hpos, false_or]
      constructor
      · exact fun h => .inr h.symm
      · rintro (hle | rfl)
        · omega
        · rfl
  · next h => exact iff_of_true rfl (.inl (not_lt.mp h))

variable [LawfulVectorType V]

/-- Over a history that grew alike, the verdicts agree when the entries read
differently do not decide. -/
theorem verdict_eq_iff
    (hgrow : observer.len ≤ md.historyMap.length ∨ observer.initial = 0) :
    (isInterestingU8SimdOptimized V R observer md).1 =
        ((map R).isInterestingDefault observer md).1 ↔
      ReadsAlike V R observer md := by
  have hle := len_le_growHistory observer.len observer.initial md.historyMap
  rw [Bool.eq_iff_iff, isInterestingDefault_iff]
  simp only [isInterestingU8SimdOptimized, growHistory_eq_iff.mpr hgrow, ReadsAlike, hgrow,
    true_and]
  set history := growHistory observer.len observer.initial md.historyMap
  by_cases hR : R = .nop
  · subst hR
    rw [anyChunk_nop hle]
    exact iff_iff_implies_and_implies.trans and_comm
  · rw [anyChunk_reduces hR hle, MapObserver.asIter]
    have hsplit : (∃ e ∈ observer.chunks.flatten.zip history, R.Changes e) ↔
        (∃ e ∈ observer.chunks.flatten.zip history, e.1 = observer.initial ∧ R.Changes e) ∨
        ∃ e ∈ observer.chunks.flatten.zip history, e.1 ≠ observer.initial ∧ R.Changes e := by
      rw [← exists_or]
      refine exists_congr fun e => ?_
      rw [← and_or_left, ← or_and_right]
      simp [em]
    rw [hsplit, or_iff_right_iff_imp]
    cases R with
    | nop => exact absurd rfl hR
    | max | min | or | and => rfl

theorem agrees_iff_readsAlike :
    isInterestingU8SimdOptimized V R observer md = (map R).isInterestingDefault observer md ↔
      ReadsAlike V R observer md := by
  constructor
  · intro h
    have hgrow : growHistory observer.len 0 md.historyMap =
        growHistory observer.len observer.initial md.historyMap :=
      congrArg (·.2.historyMap) h
    exact (verdict_eq_iff (growHistory_eq_iff.mp hgrow)).mp (congrArg Prod.fst h)
  · intro h
    refine Prod.ext ((verdict_eq_iff h.1).mpr h) ?_
    simp only [isInterestingU8SimdOptimized, MapFeedback.isInterestingDefault,
      growHistory_eq_iff.mpr h.1]

omit [DecidableEq V] [LawfulVectorType V] in
/-- Where entries are reset to zero, the reducers to the maximum and to the
union read alike: a zero never changes their history. -/
theorem readsAlike_of_zero (hR : R = .max ∨ R = .or) (h0 : observer.initial = 0) :
    ReadsAlike V R observer md := by
  refine ⟨.inr h0, ?_⟩
  have hzero : ∀ e : UInt8 × UInt8, e.1 = observer.initial → ¬R.Changes e := by
    rintro ⟨item, history⟩ (rfl : item = observer.initial)
    rw [h0]
    rcases hR with rfl | rfl
    · have hle : ¬history < 0 := by simp [UInt8.lt_iff_toNat_lt]
      simp only [SimdReducer.Changes, SimdReducer.primitiveReducer, MaxReducer.reduce, gt_iff_lt,
        not_not]
      split
      · rfl
      · next h => exact (UInt8.le_antisymm (UInt8.not_lt.mp hle) (UInt8.not_lt.mp h)).symm ▸ rfl
    · simp [SimdReducer.Changes, SimdReducer.primitiveReducer, OrReducer.reduce]
  rcases hR with rfl | rfl
  · exact fun ⟨e, _, he, hc⟩ => absurd hc (hzero e he)
  · exact fun ⟨e, _, he, hc⟩ => absurd hc (hzero e he)

/-- **The vectorised feedback agrees with the generic one** along a run
exactly when every question is put over entries that both read alike. -/
theorem agrees_iff (md : Metadata UInt8) (ops : List Op) :
    StepsMeet (step V R) (md, md) ops (Agrees V R) ↔
      StepsMeet (step V R) (md, md) ops (StepReadsAlike V R) := by
  refine stepsMeet_congr (fun s => s.1 = s.2) rfl ?_ ?_
  · rintro ⟨md, _⟩ op - (rfl : md = _)
    cases op with
    | isInteresting observer => exact agrees_iff_readsAlike
    | appendMetadata observer => exact iff_of_true rfl trivial
  · rintro ⟨md, _⟩ op s' - (rfl : md = _) hop hs
    cases op with
    | isInteresting observer =>
        obtain rfl := Option.some.inj hs
        exact congrArg Prod.snd (agrees_iff_readsAlike.mpr hop)
    | appendMetadata observer =>
        obtain rfl := Option.some.inj hs
        rfl

end

/-- Vectors of sixteen bytes: a history of one entry grows and is read. -/
theorem agrees_iff_u8x16 :
    StepsMeet (step (List.Vector UInt8 16) .max) (Metadata.default, Metadata.default)
        [.isInteresting ⟨[[7]], 0⟩] (Agrees (List.Vector UInt8 16) .max) ↔
      StepsMeet (step (List.Vector UInt8 16) .max) (Metadata.default, Metadata.default)
        [.isInteresting ⟨[[7]], 0⟩] (StepReadsAlike (List.Vector UInt8 16) .max) :=
  agrees_iff Metadata.default [.isInteresting ⟨[[7]], 0⟩]

/-- An entry after the last full vector is new to the generic feedback alone. -/
theorem nop_tail_never_novel :
    ¬StepsMeet (step (List.Vector UInt8 16) .nop) (Metadata.default, Metadata.default)
      [.isInteresting ⟨[[7]], 0⟩] (Agrees (List.Vector UInt8 16) .nop) := by
  decide

end SimdMapFeedback

end Libaflmm
