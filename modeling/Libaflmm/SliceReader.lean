import Mathlib.Algebra.GroupWithZero.Nat
import Libaflmm.BytesSubInput
import Libaflmm.Usize

/-!
# Reading a slice piece by piece

A `SliceReader` cuts its parent into the pieces that are asked for, until
nothing is left of it. A limit of zero has an empty piece, as has a reader at
the end.

The end of a piece is the position and the limit added, before it is cut off
at the length of the parent. That sum is not checked.
-/

namespace Libaflmm

variable {T : Type}

structure SubRangeSlice (T : Type) where
  parentSlice : List T
  range : Range

namespace SubRangeSlice

def new (parentSlice : List T) (range : RangeBounds) : Option (SubRangeSlice T) := do
  let start ← startIndex range
  let stop ← endIndex range parentSlice.length
  return ⟨parentSlice, ⟨start, stop⟩⟩

theorem new_eq (parentSlice : List T) (start stop : Nat) :
    new parentSlice ⟨.included start, .excluded stop⟩ =
      some ⟨parentSlice, ⟨start, min stop parentSlice.length⟩⟩ := rfl

def len (s : SubRangeSlice T) : Nat := s.range.len

def asSlice (s : SubRangeSlice T) : Option (List T) :=
  Slice.get s.parentSlice s.range.start s.range.stop

end SubRangeSlice

/-- A slice that is smaller than the one expected. An empty one is not kept. -/
inductive PartialSubRangeSlice (T : Type) where
  | empty
  | partialSlice (slice : SubRangeSlice T)

abbrev ReadSlice (T : Type) := Except (PartialSubRangeSlice T) (SubRangeSlice T)

structure SliceReader (T : Type) where
  parentSlice : List T
  pos : Nat

namespace SliceReader

def new (parentSlice : List T) : SliceReader T := ⟨parentSlice, 0⟩

section

variable (debug : Bool) (limit : Nat) (r : SliceReader T)

def nextSubSliceTruncated : Option (SubRangeSlice T × SliceReader T) := do
  let stop ← Usize.add debug r.pos limit
  let subSlice ← SubRangeSlice.new r.parentSlice ⟨.included r.pos, .excluded stop⟩
  let pos ← Usize.add debug r.pos subSlice.len
  return (subSlice, { r with pos })

def nextSubInput : Option (ReadSlice T × SliceReader T) :=
  (nextSubSliceTruncated debug limit r).map fun (slice, r) =>
    let realLen := slice.len
    if realLen = 0 then (.error .empty, r)
    else if realLen < limit then (.error (.partialSlice slice), r)
    else (.ok slice, r)

end

/-! ## One read -/

/-- The elements that a read returns. -/
def contents : ReadSlice T → Option (List T)
  | .ok slice => slice.asSlice
  | .error (.partialSlice slice) => slice.asSlice
  | .error .empty => some []

/-- What a read at `pos` should return. -/
structure Classified (parent : List T) (pos limit : Nat) (res : ReadSlice T) : Prop where
  contents_eq : contents res = some ((parent.drop pos).take limit)
  full_iff : (∃ slice, res = .ok slice) ↔ 0 < limit ∧ pos + limit ≤ parent.length
  partial_iff : (∃ slice, res = .error (.partialSlice slice)) ↔
    pos < parent.length ∧ parent.length < pos + limit
  empty_iff : res = .error .empty ↔ limit = 0 ∨ parent.length ≤ pos

theorem nextSubInput_classified (debug : Bool) {limit : Nat} {r : SliceReader T}
    (hpos : r.pos ≤ r.parentSlice.length) (hlt : r.pos + limit < 2 ^ 64) :
    ∃ res, nextSubInput debug limit r =
        some (res, { r with pos := min (r.pos + limit) r.parentSlice.length }) ∧
      Classified r.parentSlice r.pos limit res := by
  obtain ⟨parent, pos⟩ := r
  simp only at hpos hlt ⊢
  set stop := min (pos + limit) parent.length with hstop
  have hslice : SubRangeSlice.new parent ⟨.included pos, .excluded (pos + limit)⟩ =
      some ⟨parent, ⟨pos, stop⟩⟩ := SubRangeSlice.new_eq ..
  have hlen : (⟨parent, ⟨pos, stop⟩⟩ : SubRangeSlice T).len = stop - pos := rfl
  have hend : Usize.add debug pos (stop - pos) = some stop := by
    rw [Usize.add_of_lt (by omega)]
    exact congrArg some (by omega)
  have htruncated : nextSubSliceTruncated debug limit ⟨parent, pos⟩ =
      some (⟨parent, ⟨pos, stop⟩⟩, ⟨parent, stop⟩) := by
    rw [nextSubSliceTruncated, Usize.add_of_lt hlt, Option.bind_eq_bind, Option.bind_some]
    simp only [hslice, Option.bind_eq_bind, Option.bind_some, hlen, hend]
    rfl
  have hget : Slice.get parent pos stop = some ((parent.drop pos).take limit) := by
    rw [Slice.get, if_pos (by omega), Slice.sub]
    refine congrArg some ?_
    rw [List.take_eq_take_iff, List.length_drop]
    omega
  rw [nextSubInput, htruncated, Option.map_some]
  simp only [hlen]
  by_cases hzero : stop - pos = 0
  · refine ⟨.error .empty, by rw [if_pos hzero], ?_, ?_, ?_, ?_⟩
    · have hnil : (parent.drop pos).take limit = [] := by
        rw [← List.length_eq_zero_iff, List.length_take, List.length_drop]
        omega
      rw [contents, hnil]
    · exact iff_of_false (by simp) (by omega)
    · exact iff_of_false (by simp) (by omega)
    · exact iff_of_true rfl (by omega)
  · rw [if_neg hzero]
    by_cases hless : stop - pos < limit
    · refine ⟨.error (.partialSlice ⟨parent, ⟨pos, stop⟩⟩), by rw [if_pos hless], hget, ?_, ?_, ?_⟩
      · exact iff_of_false (by simp) (by omega)
      · exact iff_of_true ⟨_, rfl⟩ (by omega)
      · exact iff_of_false (by simp) (by omega)
    · refine ⟨.ok ⟨parent, ⟨pos, stop⟩⟩, by rw [if_neg hless], hget, ?_, ?_, ?_⟩
      · exact iff_of_true ⟨_, rfl⟩ (by omega)
      · exact iff_of_false (by simp) (by omega)
      · exact iff_of_false (by simp) (by omega)

/-- A read whose end is no `usize` panics. -/
theorem nextSubInput_panics {limit pos : Nat} {parent : List T} (h : 2 ^ 64 ≤ pos + limit) :
    nextSubInput true limit (⟨parent, pos⟩ : SliceReader T) = none := by
  rw [nextSubInput, nextSubSliceTruncated, Usize.add_panics h]
  rfl

/-- In a release build the end wraps, and nothing is read. -/
theorem nextSubInput_wraps {limit pos stop : Nat} {parent : List T} (hpos : pos < 2 ^ 64)
    (hadd : Usize.add false pos limit = some stop) (hback : stop ≤ pos) :
    nextSubInput false limit (⟨parent, pos⟩ : SliceReader T) =
      some (.error .empty, ⟨parent, pos⟩) := by
  have hslice := SubRangeSlice.new_eq parent pos stop
  have hzero : (⟨parent, ⟨pos, min stop parent.length⟩⟩ : SubRangeSlice T).len = 0 :=
    Nat.sub_eq_zero_of_le ((Nat.min_le_left ..).trans hback)
  have hend : Usize.add false pos 0 = some pos := Usize.add_of_lt hpos
  have htruncated : nextSubSliceTruncated false limit ⟨parent, pos⟩ =
      some (⟨parent, ⟨pos, min stop parent.length⟩⟩, ⟨parent, pos⟩) := by
    rw [nextSubSliceTruncated, hadd, Option.bind_eq_bind, Option.bind_some]
    simp only [hslice, Option.bind_eq_bind, Option.bind_some, hzero, hend]
    rfl
  rw [nextSubInput, htruncated, Option.map_some]
  simp only [hzero, if_true]

/-! ## Reading on -/

/-- A reader, and all it has returned. -/
structure Reading (T : Type) where
  reader : SliceReader T
  results : List (ReadSlice T)

namespace Reading

def start (parent : List T) : Reading T := ⟨.new parent, []⟩

def step (debug : Bool) (s : Reading T) (limit : Nat) : Option (Reading T) :=
  (s.reader.nextSubInput debug limit).map fun (res, reader) => ⟨reader, s.results ++ [res]⟩

/-- The end of a read is a `usize`. -/
def Fits (s : Reading T) (limit : Nat) : Prop := s.reader.pos + limit < 2 ^ 64

instance (s : Reading T) (limit : Nat) : Decidable (s.Fits limit) :=
  inferInstanceAs (Decidable (_ < _))

/-- The pieces are those that the limits cut the parent into. -/
structure Partitions (parent : List T) (limits : List Nat) (s : Reading T) : Prop where
  parent_eq : s.reader.parentSlice = parent
  pos_eq : s.reader.pos = min limits.sum parent.length
  pieces : ∃ pieces, s.results.mapM contents = some pieces ∧
    pieces.flatten = parent.take limits.sum
  length_eq : s.results.length = limits.length
  classified : ∀ pre limit, pre ++ [limit] <+: limits → ∃ res, s.results[pre.length]? = some res ∧
    Classified parent (min pre.sum parent.length) limit res

theorem partitions_start (parent : List T) : Partitions parent [] (start parent) where
  parent_eq := rfl
  pos_eq := rfl
  pieces := ⟨[], rfl, rfl⟩
  length_eq := rfl
  classified pre limit h := absurd (List.prefix_nil.mp h) (by simp)

variable {debug : Bool} {parent : List T} {limits : List Nat} {limit : Nat} {s : Reading T}

theorem Partitions.step (h : Partitions parent limits s) (hfits : s.Fits limit) :
    ∃ t, s.step debug limit = some t ∧ Partitions parent (limits ++ [limit]) t := by
  obtain ⟨⟨parent', pos⟩, results⟩ := s
  obtain ⟨hparent, hpos, ⟨pieces, hpieces, hflatten⟩, hlength, hclassified⟩ := h
  dsimp only at hparent hpos hpieces hlength hclassified
  subst hparent hpos
  have hle : min limits.sum parent'.length ≤ parent'.length := Nat.min_le_right ..
  obtain ⟨res, hread, hres⟩ := nextSubInput_classified debug
    (r := ⟨parent', min limits.sum parent'.length⟩) hle hfits
  refine ⟨_, by rw [Reading.step, hread]; rfl, rfl, ?_, ?_, ?_, ?_⟩
  · rw [List.sum_append, List.sum_singleton]
    dsimp only
    omega
  · refine ⟨pieces ++ [(parent'.drop (min limits.sum parent'.length)).take limit], ?_, ?_⟩
    · rw [List.mapM_append, hpieces]
      show (List.mapM contents [res]).bind _ = _
      rw [List.mapM_cons, hres.contents_eq]
      rfl
    · rw [List.flatten_append, hflatten, List.flatten_singleton, List.sum_append,
        List.sum_singleton, List.take_add]
      refine congrArg _ (congrArg _ ?_)
      rcases Nat.le_total limits.sum parent'.length with hsum | hsum
      · rw [Nat.min_eq_left hsum]
      · rw [Nat.min_eq_right hsum, List.drop_length, List.drop_eq_nil_of_le hsum]
  · rw [List.length_append, List.length_append, hlength]
    rfl
  · intro pre limit' hpre
    rcases List.prefix_concat_iff.mp hpre with heq | hpre
    · obtain ⟨rfl, hlast⟩ := List.append_inj' heq rfl
      obtain rfl := List.singleton_inj.mp hlast
      refine ⟨res, ?_, hres⟩
      dsimp only
      rw [← hlength, List.getElem?_concat_length]
    · obtain ⟨res', hget, hclass⟩ := hclassified pre limit' hpre
      exact ⟨res', (List.getElem?_append_left (List.getElem?_eq_some_iff.mp hget).1).trans hget,
        hclass⟩

end Reading

open Reading

/-- **A reader partitions its parent**, whatever the limits are. -/
theorem reads_partition (debug : Bool) (parent : List T) (limits : List Nat)
    (h : StepsMeet (step debug) (start parent) limits Fits) :
    Survives (step debug) (start parent) limits (Reading.Partitions parent) := by
  refine (survives_iff_stepsMeet_of h (partitions_start parent)
    fun pre t limit _ _ ht hfits => ?_).mpr h
  exact iff_of_true (ht.step hfits) hfits

/-- Nothing is asked for and nothing is returned, in front of the end. -/
theorem reads_not_classified : ∃ t res, (step true) (start [7]) 0 = some t ∧ t.results = [res] ∧
    (contents res).map List.length = some 0 ∧ (¬∃ slice, res = .ok slice) ∧
    res = .error .empty ∧ t.reader.pos < t.reader.parentSlice.length :=
  ⟨⟨⟨[7], 0⟩, [.error .empty]⟩, .error .empty, rfl, rfl, rfl, nofun, rfl, Nat.zero_lt_one⟩

theorem reads_partition_seven : Survives (step true) (start [1, 2, 3, 4, 5, 6, 7]) [2, 3, 8, 8]
    (Reading.Partitions [1, 2, 3, 4, 5, 6, 7]) :=
  reads_partition true [1, 2, 3, 4, 5, 6, 7] [2, 3, 8, 8] (by decide)

end SliceReader

end Libaflmm
