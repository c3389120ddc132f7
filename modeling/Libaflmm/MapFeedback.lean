import Libaflmm.Calibration
import Libaflmm.Runs
import Mathlib.Order.Lattice

/-!
# Map feedback

The feedback over a coverage map keeps a history: at each index, all values
observed so far in the runs that were added to the corpus, reduced to one.
What is observed is novel when reducing it into the history changes the
history in a way the novelty criterion asks for.

Entries are of any type. Two constants of the type matter: the default entry,
with which calibration fills up a short history, and the largest one, which
it writes over unstable entries.
-/

namespace Libaflmm

/-! ## Reducers and novelty -/

def MaxReducer.reduce {T : Type} [LT T] [DecidableLT T] (first second : T) : T :=
  if first > second then first else second

def MinReducer.reduce {T : Type} [LT T] [DecidableLT T] (first second : T) : T :=
  if first < second then first else second

def OrReducer.reduce {T : Type} [OrOp T] (history new : T) : T := history ||| new

def AndReducer.reduce {T : Type} [AndOp T] (history new : T) : T := history &&& new

def NopReducer.reduce {T : Type} (_history new : T) : T := new

/-- What the novelty criteria use of the primitive integers. -/
class PrimInt (T : Type) extends LinearOrder T where
  one : T
  maxValue : T
  sub : T → T → T
  saturatingAdd : T → T → T
  leadingZeros : T → Nat
  shiftRight : T → Nat → T

instance linearOrderBitVec {w : Nat} : LinearOrder (BitVec w) where
  le_refl a := Nat.le_refl a.toNat
  le_trans _ _ _ := Nat.le_trans
  le_antisymm _ _ h h' := BitVec.eq_of_toNat_eq (Nat.le_antisymm h h')
  le_total a b := Nat.le_total a.toNat b.toNat
  lt_iff_le_not_ge a b := lt_iff_le_not_ge (a := a.toNat) (b := b.toNat)
  toDecidableLE := inferInstance

/-- The unsigned integers of `w` bits. -/
instance {w : Nat} : PrimInt (BitVec w) where
  one := 1#w
  maxValue := BitVec.allOnes w
  sub a b := a - b
  saturatingAdd a b := if a.toNat + b.toNat < 2 ^ w then a + b else BitVec.allOnes w
  leadingZeros a := a.clz.toNat
  shiftRight a n := a >>> n

def saturatingNextPowerOfTwo {T : Type} [PrimInt T] (n : T) : T :=
  if n ≤ PrimInt.one then PrimInt.one
  else
    PrimInt.saturatingAdd
      (PrimInt.shiftRight PrimInt.maxValue (PrimInt.leadingZeros (PrimInt.sub n PrimInt.one)))
      PrimInt.one

def AllIsNovel.isNovel {T : Type} (_old _new : T) : Bool := true

def DifferentIsNovel.isNovel {T : Type} [DecidableEq T] (old new : T) : Bool := old ≠ new

def NextPow2IsNovel.isNovel {T : Type} [PrimInt T] (old new : T) : Bool :=
  if new ≤ old then false
  else saturatingNextPowerOfTwo (PrimInt.saturatingAdd old PrimInt.one) ≤ new

def OneOrFilledIsNovel.isNovel {T : Type} [PrimInt T] (old new : T) : Bool :=
  (new = PrimInt.one ∨ new = PrimInt.maxValue) ∧ new > old

/-! ### Reducers that join -/

/-- The reducer joins its values: in which order they come, and how often,
makes no difference. -/
structure Joins {T : Type} (reduce : T → T → T) : Prop where
  assoc : ∀ a b c, reduce (reduce a b) c = reduce a (reduce b c)
  comm : ∀ a b, reduce a b = reduce b a
  idem : ∀ a, reduce a a = a

namespace Joins

variable {T : Type} {reduce : T → T → T}

theorem absorbs (h : Joins reduce) (a b : T) : reduce (reduce a b) b = reduce a b := by
  rw [h.assoc, h.idem]

/-- What was absorbed once stays absorbed. -/
theorem stays (h : Joins reduce) {a b : T} (hab : reduce a b = a) (c : T) :
    reduce (reduce a c) b = reduce a c := by
  rw [h.assoc, h.comm c b, ← h.assoc, hab]

end Joins

theorem MaxReducer.reduce_eq_max {T : Type} [LinearOrder T] (a b : T) : reduce a b = max a b := by
  unfold reduce
  split
  · next h => exact (max_eq_left h.le).symm
  · next h => exact (max_eq_right (not_lt.mp h)).symm

theorem MinReducer.reduce_eq_min {T : Type} [LinearOrder T] (a b : T) : reduce a b = min a b := by
  unfold reduce
  split
  · next h => exact (min_eq_left h.le).symm
  · next h => exact (min_eq_right (not_lt.mp h)).symm

theorem joins_max {T : Type} [LinearOrder T] : Joins (MaxReducer.reduce : T → T → T) where
  assoc a b c := by simp only [MaxReducer.reduce_eq_max, max_assoc]
  comm a b := by simp only [MaxReducer.reduce_eq_max, max_comm]
  idem a := by simp only [MaxReducer.reduce_eq_max, max_self]

theorem joins_min {T : Type} [LinearOrder T] : Joins (MinReducer.reduce : T → T → T) where
  assoc a b c := by simp only [MinReducer.reduce_eq_min, min_assoc]
  comm a b := by simp only [MinReducer.reduce_eq_min, min_comm]
  idem a := by simp only [MinReducer.reduce_eq_min, min_self]

theorem joins_or {w : Nat} : Joins (OrReducer.reduce : BitVec w → BitVec w → BitVec w) :=
  ⟨BitVec.or_assoc, BitVec.or_comm, fun _ => BitVec.or_self⟩

theorem joins_and {w : Nat} : Joins (AndReducer.reduce : BitVec w → BitVec w → BitVec w) :=
  ⟨BitVec.and_assoc, BitVec.and_comm, fun _ => BitVec.and_self⟩

example : NextPow2IsNovel.isNovel 2#8 3#8 = false ∧ NextPow2IsNovel.isNovel 2#8 4#8 = true ∧
    NextPow2IsNovel.isNovel 254#8 255#8 = true := by decide

/-! ## The feedback -/

/-- A map observer as the feedbacks read it: the slices that hold its
entries, one after the other, and the value entries are reset to. -/
structure MapObserver (T : Type) where
  chunks : List (List T)
  initial : T

namespace MapObserver

variable {T : Type}

def asIter (o : MapObserver T) : List T := o.chunks.flatten

def len (o : MapObserver T) : Nat := o.asIter.length

end MapObserver

structure MapFeedback (T : Type) where
  reduce : T → T → T
  isNovel : T → T → Bool

namespace MapFeedback

/-- The state of a map feedback. -/
structure Metadata (T : Type) where
  historyMap : List T
  numCoveredMapIndexes : Nat
deriving DecidableEq

variable {T : Type} [DecidableEq T]

/-- The metadata as the feedback registers it. -/
def Metadata.default : Metadata T := ⟨[], 0⟩

/-- `resize`, where the history is shorter than the map. -/
def growHistory (len : Nat) (value : T) (historyMap : List T) : List T :=
  if historyMap.length < len then
    historyMap ++ List.replicate (len - historyMap.length) value
  else historyMap

/-- The history is no shorter than the map here: pairing the two reads the
history at every index of the map. -/
def isInterestingDefault (fb : MapFeedback T) (observer : MapObserver T) (md : Metadata T) :
    Bool × Metadata T :=
  let historyMap := growHistory observer.len observer.initial md.historyMap
  let interesting := (observer.asIter.zip historyMap).any fun (item, existing) =>
    item ≠ observer.initial && fb.isNovel existing (fb.reduce existing item)
  (interesting, { md with historyMap })

/-- The loop over the entries of the map: the history, and how many entries
of it became covered. -/
def appendEntries (fb : MapFeedback T) (initial : T) : List T → List T → List T × Nat
  | value :: values, history :: histories =>
    let (histories, covered) := appendEntries fb initial values histories
    if value ≠ initial then
      let val := fb.reduce history value
      (val :: histories, covered + if history = initial ∧ val ≠ initial then 1 else 0)
    else
      (history :: histories, covered)
  | _, histories => (histories, 0)

def appendMetadata (fb : MapFeedback T) (observer : MapObserver T) (md : Metadata T) :
    Metadata T :=
  let (historyMap, covered) := appendEntries fb observer.initial observer.asIter
    (growHistory observer.len observer.initial md.historyMap)
  ⟨historyMap, md.numCoveredMapIndexes + covered⟩

/-- What the feedback is asked to do over the slices of an observer. -/
inductive ObservedOp (T : Type) where
  | isInteresting (chunks : List (List T))
  | appendMetadata (chunks : List (List T))

/-- The observer resets its entries to `initial`. -/
def observe (fb : MapFeedback T) (initial : T) (md : Metadata T) : ObservedOp T → Metadata T
  | .isInteresting chunks => (fb.isInterestingDefault ⟨chunks, initial⟩ md).2
  | .appendMetadata chunks => fb.appendMetadata ⟨chunks, initial⟩ md

/-- What calibration does to the history when it compares the map of the
first run with that of another one. -/
def compareEntries (default maxValue : T) : List T → List T → List T → List T × Nat
  | first :: firsts, cur :: curs, history :: histories =>
    let (histories, covered) := compareEntries default maxValue firsts curs histories
    if first ≠ cur ∧ history ≠ maxValue then
      (maxValue :: histories, covered + if history = default then 1 else 0)
    else
      (history :: histories, covered)
  | _, _, histories => (histories, 0)

def markUnstable (default maxValue : T) (first cur : List T) (md : Metadata T) : Metadata T :=
  let (historyMap, covered) := compareEntries default maxValue first cur
    (growHistory first.length default md.historyMap)
  ⟨historyMap, md.numCoveredMapIndexes + covered⟩

/-- Calibration marks the history of a byte map so. -/
theorem compareEntries_calibration (idx : Nat) (first cur histories : List UInt8) :
    compareEntries 0 255 first cur histories =
      ((CalibrationHook.compareEntries idx first cur histories).1,
        (CalibrationHook.compareEntries idx first cur histories).2.1) := by
  induction first generalizing idx cur histories with
  | nil => rfl
  | cons first firsts ih =>
      cases cur with
      | nil => rfl
      | cons cur curs =>
          cases histories with
          | nil => rfl
          | cons history histories =>
              simp only [compareEntries, CalibrationHook.compareEntries, ih (idx + 1)]
              split <;> rfl

end MapFeedback

end Libaflmm
