import Mathlib.Data.List.Basic
import Mathlib.Tactic.SplitIfs

/-!
# Hit counts

The map observers with AFL's hit count buckets. `classify_counts` goes over
the map in place: `align_to_mut` splits it into a prefix of bytes, a body of
16-bit words and a suffix of bytes, and each part is looked up in a table of
its own. `classifyCounts_eq_map` says that this is one lookup for every byte,
whatever the split and the byte order.
-/

namespace Libaflmm

/-! ## The tables -/

set_option maxRecDepth 4000 in
def countClassLookup : Vector UInt8 256 := #v[
  0, 1, 2, 4, 8, 8, 8, 8, 16, 16, 16, 16, 16, 16, 16, 16, 32, 32, 32, 32, 32, 32, 32, 32, 32, 32,
  32, 32, 32, 32, 32, 32, 64, 64, 64, 64, 64, 64, 64, 64, 64, 64, 64, 64, 64, 64, 64, 64, 64, 64,
  64, 64, 64, 64, 64, 64, 64, 64, 64, 64, 64, 64, 64, 64, 64, 64, 64, 64, 64, 64, 64, 64, 64, 64,
  64, 64, 64, 64, 64, 64, 64, 64, 64, 64, 64, 64, 64, 64, 64, 64, 64, 64, 64, 64, 64, 64, 64, 64,
  64, 64, 64, 64, 64, 64, 64, 64, 64, 64, 64, 64, 64, 64, 64, 64, 64, 64, 64, 64, 64, 64, 64, 64,
  64, 64, 64, 64, 64, 64, 128, 128, 128, 128, 128, 128, 128, 128, 128, 128, 128, 128, 128, 128,
  128, 128, 128, 128, 128, 128, 128, 128, 128, 128, 128, 128, 128, 128, 128, 128, 128, 128, 128,
  128, 128, 128, 128, 128, 128, 128, 128, 128, 128, 128, 128, 128, 128, 128, 128, 128, 128, 128,
  128, 128, 128, 128, 128, 128, 128, 128, 128, 128, 128, 128, 128, 128, 128, 128, 128, 128, 128,
  128, 128, 128, 128, 128, 128, 128, 128, 128, 128, 128, 128, 128, 128, 128, 128, 128, 128, 128,
  128, 128, 128, 128, 128, 128, 128, 128, 128, 128, 128, 128, 128, 128, 128, 128, 128, 128, 128,
  128, 128, 128, 128, 128, 128, 128, 128, 128, 128, 128, 128, 128, 128, 128, 128, 128, 128, 128]

/-- `hi << 8 | lo` on 16 bits. -/
def joinBytes (hi lo : UInt8) : UInt16 := hi.toUInt16 <<< 8 ||| lo.toUInt16

/-- The entry that the loops write at `hi << 8 | lo`. -/
def countClassLookup16 : Vector UInt16 (256 * 256) :=
  Vector.ofFn fun idx =>
    joinBytes (countClassLookup.get ⟨idx / 256, by omega⟩)
      (countClassLookup.get ⟨idx % 256, by omega⟩)

def countClass (item : UInt8) : UInt8 := countClassLookup.get item.toFin

def countClass16 (item : UInt16) : UInt16 := countClassLookup16.get item.toFin

/-! ## Classifying a map -/

/-- The order of the two bytes of a word in memory. -/
inductive Endian where
  | little
  | big
deriving DecidableEq, Repr

namespace Endian

def load (e : Endian) (first second : UInt8) : UInt16 :=
  match e with
  | .little => joinBytes second first
  | .big => joinBytes first second

def store (e : Endian) (word : UInt16) : List UInt8 :=
  match e with
  | .little => [word.toUInt8, (word >>> 8).toUInt8]
  | .big => [(word >>> 8).toUInt8, word.toUInt8]

end Endian

/-- How `align_to_mut` splits a map: the length of the prefix, and the number
of words after it. -/
structure AlignTo where
  pre : Nat
  words : Nat
  endian : Endian

/-- `words` words, and the suffix. -/
def classifyWords (e : Endian) : Nat → List UInt8 → List UInt8
  | words + 1, first :: second :: rest =>
    e.store (countClass16 (e.load first second)) ++ classifyWords e words rest
  | _, suffix => suffix.map countClass

def classifyCounts (align : AlignTo) (map : List UInt8) : List UInt8 :=
  (map.take align.pre).map countClass ++
    classifyWords align.endian align.words (map.drop align.pre)

/-! ## One lookup for every byte -/

theorem toNat_joinBytes (hi lo : UInt8) : (joinBytes hi lo).toNat = 256 * hi.toNat + lo.toNat := by
  have hhi := hi.toNat_lt
  have hlo := lo.toNat_lt
  have hshift : (hi.toUInt16 <<< 8).toNat = hi.toNat <<< 8 := by
    rw [UInt16.toNat_shiftLeft, UInt8.toNat_toUInt16]
    show hi.toNat <<< 8 % 2 ^ 16 = hi.toNat <<< 8
    rw [Nat.shiftLeft_eq]
    omega
  rw [joinBytes, UInt16.toNat_or, hshift, UInt8.toNat_toUInt16,
    ← Nat.shiftLeft_add_eq_or_of_lt (by omega : lo.toNat < 2 ^ 8), Nat.shiftLeft_eq]
  omega

theorem joinBytes_toUInt8 (hi lo : UInt8) : (joinBytes hi lo).toUInt8 = lo := by
  have hlo := lo.toNat_lt
  apply UInt8.toNat_inj.mp
  rw [UInt16.toNat_toUInt8, toNat_joinBytes]
  omega

theorem joinBytes_shiftRight_toUInt8 (hi lo : UInt8) : (joinBytes hi lo >>> 8).toUInt8 = hi := by
  have hhi := hi.toNat_lt
  have hlo := lo.toNat_lt
  apply UInt8.toNat_inj.mp
  rw [UInt16.toNat_toUInt8, UInt16.toNat_shiftRight, toNat_joinBytes]
  show (256 * hi.toNat + lo.toNat) >>> 8 % 2 ^ 8 = hi.toNat
  rw [Nat.shiftRight_eq_div_pow]
  omega

theorem countClass16_joinBytes (hi lo : UInt8) :
    countClass16 (joinBytes hi lo) = joinBytes (countClass hi) (countClass lo) := by
  have hhi := hi.toNat_lt
  have hlo := lo.toNat_lt
  have hword := toNat_joinBytes hi lo
  have hdiv : (joinBytes hi lo).toNat / 256 = hi.toNat := by omega
  have hmod : (joinBytes hi lo).toNat % 256 = lo.toNat := by omega
  have hentry : countClass16 (joinBytes hi lo) =
      joinBytes (countClassLookup.get ⟨(joinBytes hi lo).toNat / 256, by omega⟩)
        (countClassLookup.get ⟨(joinBytes hi lo).toNat % 256, by omega⟩) :=
    Vector.getElem_ofFn (joinBytes hi lo).toFin.isLt
  rw [hentry]
  exact congrArg₂ joinBytes (congrArg _ (Fin.ext hdiv)) (congrArg _ (Fin.ext hmod))

theorem Endian.store_countClass16 (e : Endian) (first second : UInt8) :
    e.store (countClass16 (e.load first second)) = [countClass first, countClass second] := by
  cases e <;>
    simp only [load, store, countClass16_joinBytes, joinBytes_toUInt8, joinBytes_shiftRight_toUInt8]

theorem classifyWords_eq_map (e : Endian) (words : Nat) (map : List UInt8) :
    classifyWords e words map = map.map countClass := by
  induction words, map using classifyWords.induct with
  | case1 words first second rest ih =>
      rw [classifyWords, e.store_countClass16, ih]
      rfl
  | case2 words suffix hshort => rw [classifyWords.eq_2 _ _ _ hshort]

/-- **Every byte is looked up once.** -/
theorem classifyCounts_eq_map (align : AlignTo) (map : List UInt8) :
    classifyCounts align map = map.map countClass := by
  rw [classifyCounts, classifyWords_eq_map, ← List.map_append, List.take_append_drop]

/-! ## Classifying twice -/

/-- The buckets of AFL, by their bounds. -/
def countBucket (n : Nat) : Nat :=
  if n ≤ 2 then n
  else if n = 3 then 4
  else if n < 8 then 8
  else if n < 16 then 16
  else if n < 32 then 32
  else if n < 128 then 64
  else 128

theorem countClassLookup_toList :
    countClassLookup.toList = (List.range 256).map fun n => .ofNat (countBucket n) := by
  decide +kernel

theorem countBucket_cases (n : Nat) :
    n ≤ 2 ∧ countBucket n = n ∨ n = 3 ∧ countBucket n = 4 ∨
    (4 ≤ n ∧ n < 8) ∧ countBucket n = 8 ∨ (8 ≤ n ∧ n < 16) ∧ countBucket n = 16 ∨
    (16 ≤ n ∧ n < 32) ∧ countBucket n = 32 ∨ (32 ≤ n ∧ n < 128) ∧ countBucket n = 64 ∨
    128 ≤ n ∧ countBucket n = 128 := by
  unfold countBucket
  split_ifs <;> omega

theorem toList_getElem?_eq_get {α : Type} {n : Nat} (v : Vector α n) (i : Fin n) :
    v.toList[i.val]? = some (v.get i) := by
  rw [Vector.getElem?_toList]
  exact Vector.getElem?_eq_getElem i.isLt

theorem toNat_countClass (item : UInt8) : (countClass item).toNat = countBucket item.toNat := by
  have hget := toList_getElem?_eq_get countClassLookup item.toFin
  rw [countClassLookup_toList, List.getElem?_map, List.getElem?_range item.toFin.isLt] at hget
  have hbucket := countBucket_cases item.toNat
  rw [countClass, ← Option.some.inj hget]
  show (UInt8.ofNat (countBucket item.toNat)).toNat = countBucket item.toNat
  rw [UInt8.toNat_ofNat']
  omega

theorem countBucket_countBucket_iff (n : Nat) :
    countBucket (countBucket n) = countBucket n ↔ n ≤ 2 ∨ 32 ≤ n := by
  have honce := countBucket_cases n
  have htwice := countBucket_cases (countBucket n)
  omega

/-- **The buckets that classifying again moves.** -/
theorem countClass_countClass_iff (item : UInt8) :
    countClass (countClass item) = countClass item ↔ item ≤ 2 ∨ 32 ≤ item := by
  rw [← UInt8.toNat_inj, toNat_countClass, toNat_countClass, countBucket_countBucket_iff,
    UInt8.le_iff_toNat_le, UInt8.le_iff_toNat_le]
  rfl

end Libaflmm
