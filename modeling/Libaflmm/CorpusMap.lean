import Libaflmm.Chronology
import Mathlib.Data.List.Sort
import Mathlib.Data.List.TakeWhile
import Mathlib.Order.Compare
import Std.Data.TreeMap.Lemmas

/-!
# Corpus maps

The in-memory maps of `corpus/store/maps.rs`: `TestcaseId`, the sorted key
history `TestcaseIdHistory`, the trait `InMemoryCorpusMap` and its two
implementations, `HashCorpusMap` (a hash map whose items are threaded into a
doubly linked list) and `BtreeCorpusMap` (a map ordered by id).

`none` models a panic: an `unwrap` of a missing entry, or an index out of
bounds. Both `hashbrown::HashMap` and `BTreeMap` are finite maps; only the
order of the second is ever observed, so one type serves for both.
-/

namespace Libaflmm

/-! ## Identifiers and finite maps -/

/-- `TestcaseId(pub u64)`, ordered as the number it wraps. -/
structure TestcaseId where
  val : UInt64
deriving DecidableEq, Repr

namespace TestcaseId

theorem toNat_injective : Function.Injective (fun id : TestcaseId => id.val.toNat) := by
  rintro ⟨a⟩ ⟨b⟩ h
  exact congrArg _ (UInt64.toNat_inj.mp h)

instance : LinearOrder TestcaseId :=
  LinearOrder.lift' (fun id => id.val.toNat) toNat_injective

instance : Std.LawfulEqCmp (compare : TestcaseId → TestcaseId → Ordering) where
  eq_of_compare := compare_eq_iff_eq.mp

end TestcaseId

abbrev IdMap (V : Type) := Std.TreeMap TestcaseId V

namespace IdMap

variable {V : Type} {m : IdMap V} {k a : TestcaseId} {v : V}

theorem getElem?_insert : (m.insert k v)[a]? = if a = k then some v else m[a]? := by
  simp only [Std.TreeMap.getElem?_insert, compare_eq_iff_eq, eq_comm (a := k)]

theorem getElem?_erase : (m.erase k)[a]? = if a = k then none else m[a]? := by
  simp only [Std.TreeMap.getElem?_erase, compare_eq_iff_eq, eq_comm (a := k)]

theorem mem_keys : k ∈ m.keys ↔ (m[k]?).isSome := by
  rw [Std.TreeMap.mem_keys, Std.TreeMap.mem_iff_isSome_getElem?]

theorem keys_sorted : m.keys.Pairwise (· < ·) :=
  Std.TreeMap.ordered_keys.imp fun h => compare_lt_iff_lt.mp h

end IdMap

/-! ## The key history -/

/-- `slice::binary_search` on a sorted slice: `ok` carries the position of
the id, `error` the position at which inserting it keeps the slice sorted. -/
def binarySearch (keys : List TestcaseId) (id : TestcaseId) : Except Nat Nat :=
  let idx := (keys.takeWhile (· < id)).length
  if keys[idx]? = some id then .ok idx else .error idx

/-- Where the search splits a sorted slice: the smaller ids, then either the
id itself or only larger ones. -/
theorem binarySearch_split {keys : List TestcaseId} (id : TestcaseId)
    (hs : keys.Pairwise (· < ·)) :
    ∃ lo hi, (∀ k ∈ lo, k < id) ∧ (∀ k ∈ hi, id < k) ∧
      ((keys = lo ++ id :: hi ∧ binarySearch keys id = .ok lo.length) ∨
        (keys = lo ++ hi ∧ binarySearch keys id = .error lo.length)) := by
  have hlo : ∀ k ∈ keys.takeWhile (· < id), k < id := fun k hk => by
    simpa using List.mem_takeWhile_imp hk
  have hsplit := List.takeWhile_append_dropWhile (p := fun k => decide (k < id)) (l := keys)
  have hidx : keys[(keys.takeWhile (· < id)).length]? = (keys.dropWhile (· < id)).head? := by
    conv_lhs => rw [← hsplit]
    rw [List.getElem?_append_right (Nat.le_of_eq (by rw [hsplit])), hsplit]
    simp [List.head?_eq_getElem?]
  cases hd : keys.dropWhile (· < id) with
  | nil =>
      refine ⟨keys, [], ?_, by simp, Or.inr ⟨by simp, ?_⟩⟩
      · rw [hd, List.append_nil] at hsplit
        rwa [hsplit] at hlo
      · rw [hd] at hidx hsplit
        rw [List.append_nil] at hsplit
        simp only [binarySearch, hidx]
        simp [hsplit]
  | cons b rest =>
      have hb : ¬ b < id := by
        have := List.head?_dropWhile_not (fun k => decide (k < id)) keys
        simpa [hd] using this
      rw [hd] at hsplit hidx
      rw [← hsplit, List.pairwise_append, List.pairwise_cons] at hs
      have hrest : ∀ k ∈ rest, b < k := hs.2.1.1
      by_cases hbid : b = id
      · subst hbid
        exact ⟨_, rest, hlo, hrest, Or.inl ⟨hsplit.symm, by simp [binarySearch, hidx]⟩⟩
      · have hidb : id < b := lt_of_le_of_ne (not_lt.mp hb) (Ne.symm hbid)
        refine ⟨_, b :: rest, hlo, ?_, Or.inr ⟨hsplit.symm, by simp [binarySearch, hidx, hbid]⟩⟩
        intro k hk
        rcases List.mem_cons.mp hk with rfl | hk
        · exact hidb
        · exact hidb.trans (hrest k hk)

/-- A history of the known ids, sorted without duplicates. -/
structure TestcaseIdHistory where
  keys : List TestcaseId
  sorted : keys.Pairwise (· < ·)

namespace TestcaseIdHistory

theorem insertIdx_append_length {α : Type*} (a : α) (lo hi : List α) :
    (lo ++ hi).insertIdx lo.length a = lo ++ a :: hi := by
  induction lo with
  | nil => rfl
  | cons b lo ih => exact congrArg (b :: ·) ih

def addKeys (keys : List TestcaseId) (id : TestcaseId) : List TestcaseId :=
  match binarySearch keys id with
  | .error idx => keys.insertIdx idx id
  | .ok _ => keys

def removeKeys (keys : List TestcaseId) (id : TestcaseId) : List TestcaseId :=
  match binarySearch keys id with
  | .ok idx => keys.eraseIdx idx
  | .error _ => keys

theorem addKeys_spec {keys : List TestcaseId} (id : TestcaseId) (hs : keys.Pairwise (· < ·)) :
    (addKeys keys id).Pairwise (· < ·) ∧ ∀ k, k ∈ addKeys keys id ↔ k = id ∨ k ∈ keys := by
  obtain ⟨lo, hi, hlo, hhi, ⟨rfl, hb⟩ | ⟨rfl, hb⟩⟩ := binarySearch_split id hs
  · simp only [addKeys, hb]
    refine ⟨hs, fun k => ⟨Or.inr, ?_⟩⟩
    rintro (rfl | h)
    · simp
    · exact h
  · simp only [addKeys, hb]
    rw [insertIdx_append_length]
    rw [List.pairwise_append] at hs
    refine ⟨List.pairwise_append.mpr ⟨hs.1, List.pairwise_cons.mpr ⟨hhi, hs.2.1⟩, ?_⟩, ?_⟩
    · intro a ha b hb
      rcases List.mem_cons.mp hb with rfl | hb
      · exact hlo a ha
      · exact hs.2.2 a ha b hb
    · intro k
      simp only [List.mem_append, List.mem_cons]
      tauto

theorem removeKeys_spec {keys : List TestcaseId} (id : TestcaseId)
    (hs : keys.Pairwise (· < ·)) :
    (removeKeys keys id).Pairwise (· < ·) ∧
      ∀ k, k ∈ removeKeys keys id ↔ k ≠ id ∧ k ∈ keys := by
  obtain ⟨lo, hi, hlo, hhi, ⟨rfl, hb⟩ | ⟨rfl, hb⟩⟩ := binarySearch_split id hs
  · simp only [removeKeys, hb]
    rw [List.eraseIdx_append_of_length_le (Nat.le_refl _), Nat.sub_self, List.eraseIdx_cons_zero]
    refine ⟨hs.sublist (by simp), fun k => ?_⟩
    simp only [List.mem_append, List.mem_cons]
    constructor
    · rintro (h | h)
      · exact ⟨(hlo k h).ne, Or.inl h⟩
      · exact ⟨(hhi k h).ne', Or.inr (Or.inr h)⟩
    · tauto
  · simp only [removeKeys, hb]
    refine ⟨hs, fun k => ⟨fun h => ⟨?_, h⟩, fun h => h.2⟩⟩
    rcases List.mem_append.mp h with h | h
    · exact (hlo k h).ne
    · exact (hhi k h).ne'

def empty : TestcaseIdHistory := ⟨[], List.Pairwise.nil⟩

def add (h : TestcaseIdHistory) (id : TestcaseId) : TestcaseIdHistory :=
  ⟨addKeys h.keys id, (addKeys_spec id h.sorted).1⟩

def remove (h : TestcaseIdHistory) (id : TestcaseId) : TestcaseIdHistory :=
  ⟨removeKeys h.keys id, (removeKeys_spec id h.sorted).1⟩

/-- `self.keys[idx]`, which panics out of bounds. -/
def nth (h : TestcaseIdHistory) (idx : Nat) : Option TestcaseId := h.keys[idx]?

@[simp] theorem mem_add {h : TestcaseIdHistory} {id k : TestcaseId} :
    k ∈ (h.add id).keys ↔ k = id ∨ k ∈ h.keys :=
  (addKeys_spec id h.sorted).2 k

@[simp] theorem mem_remove {h : TestcaseIdHistory} {id k : TestcaseId} :
    k ∈ (h.remove id).keys ↔ k ≠ id ∧ k ∈ h.keys :=
  (removeKeys_spec id h.sorted).2 k

/-- A history lists the ids of a sorted list when it has the same ids. -/
theorem keys_eq {h : TestcaseIdHistory} {l : List TestcaseId} (hl : l.Pairwise (· < ·))
    (hm : ∀ k, k ∈ h.keys ↔ k ∈ l) : h.keys = l :=
  h.sorted.eq_of_mem_iff hl fun {k} => hm k

end TestcaseIdHistory

/-! ## The trait -/

/-- The trait `InMemoryCorpusMap`. An operation that may panic returns an
`Option`; `get_mut` has no caller in the corpora and is left out. -/
class InMemoryCorpusMap (M : Type → Type) where
  empty {T : Type} : M T
  count {T : Type} : M T → Nat
  isEmpty {T : Type} : M T → Bool
  add {T : Type} : TestcaseId → T → M T → Option (Bool × M T)
  get {T : Type} : M T → TestcaseId → Option T
  remove {T : Type} : TestcaseId → M T → Option (Option T × M T)
  prev {T : Type} : M T → TestcaseId → Option TestcaseId
  next {T : Type} : M T → TestcaseId → Option TestcaseId
  first {T : Type} : M T → Option TestcaseId
  last {T : Type} : M T → Option TestcaseId
  nth {T : Type} : M T → Nat → Option TestcaseId

/-- The linked list as a caller sees it: walking from `first` along `next`
enumerates the keys, each once, in the order `l`, and ends at `last`; `prev`
inverts `next`; and both ends are `None` exactly on the empty map. -/
structure InMemoryCorpusMap.WellLinked {M : Type → Type} [InMemoryCorpusMap M] {T : Type}
    (m : M T) (l : List TestcaseId) : Prop where
  walk : Walk (next m) (first m) l
  nodup : l.Nodup
  keys : ∀ k, k ∈ l ↔ (get m k).isSome
  last : last m = l.getLast?
  inverse : ∀ a b, next m a = some b ↔ prev m b = some a
  first_none : first m = none ↔ isEmpty m
  last_none : InMemoryCorpusMap.last m = none ↔ isEmpty m

/-! ## The hash map -/

/-- A stored testcase and the ids of its siblings, in insertion order. -/
structure TestcaseStorageItem (T : Type) where
  testcase : T
  prev : Option TestcaseId
  next : Option TestcaseId
deriving DecidableEq

structure HashCorpusMap (T : Type) where
  map : IdMap (TestcaseStorageItem T)
  firstId : Option TestcaseId
  lastId : Option TestcaseId
  history : TestcaseIdHistory

namespace HashCorpusMap

variable {T : Type}

def empty : HashCorpusMap T := ⟨∅, none, none, .empty⟩

/-- `map.get_mut(&id).unwrap().next = next`. -/
def setNext (map : IdMap (TestcaseStorageItem T)) (id : TestcaseId)
    (next : Option TestcaseId) : Option (IdMap (TestcaseStorageItem T)) :=
  map[id]?.map fun item => map.insert id { item with next }

/-- `map.get_mut(&id).unwrap().prev = prev`. -/
def setPrev (map : IdMap (TestcaseStorageItem T)) (id : TestcaseId)
    (prev : Option TestcaseId) : Option (IdMap (TestcaseStorageItem T)) :=
  map[id]?.map fun item => map.insert id { item with prev }

/-- The map `add` inserts into: the item known as the last one is linked to
the new id, whatever that id is. -/
def linkLast (m : HashCorpusMap T) (id : TestcaseId) :
    Option (IdMap (TestcaseStorageItem T)) :=
  match m.lastId with
  | some lastId => setNext m.map lastId (some id)
  | none => some m.map

/-- `remove` links the item before a removed entry to the one after it. -/
def relinkPrev (map : IdMap (TestcaseStorageItem T)) (entry : TestcaseStorageItem T) :
    Option (IdMap (TestcaseStorageItem T)) :=
  match entry.prev with
  | some prev => setNext map prev entry.next
  | none => some map

/-- `remove` links the item after a removed entry to the one before it. -/
def relinkNext (map : IdMap (TestcaseStorageItem T)) (entry : TestcaseStorageItem T) :
    Option (IdMap (TestcaseStorageItem T)) :=
  match entry.next with
  | some next => setPrev map next entry.prev
  | none => some map

def count (m : HashCorpusMap T) : Nat := m.map.size

def isEmpty (m : HashCorpusMap T) : Bool := m.map.isEmpty

def add (id : TestcaseId) (testcase : T) (m : HashCorpusMap T) :
    Option (Bool × HashCorpusMap T) :=
  (m.linkLast id).map fun map =>
    (map.contains id,
      { map := map.insert id { testcase, prev := m.lastId, next := none }
        firstId := if m.firstId.isNone then some id else m.firstId
        lastId := some id
        history := m.history.add id })

def get (m : HashCorpusMap T) (id : TestcaseId) : Option T :=
  m.map[id]?.map (·.testcase)

/-- `first_id` and `last_id` stay as they are. -/
def remove (id : TestcaseId) (m : HashCorpusMap T) :
    Option (Option T × HashCorpusMap T) :=
  match m.map[id]? with
  | none => some (none, m)
  | some entry =>
    (relinkPrev (m.map.erase id) entry).bind fun map =>
      (relinkNext map entry).map fun map =>
        (some entry.testcase, { m with map, history := m.history.remove id })

def prev (m : HashCorpusMap T) (id : TestcaseId) : Option TestcaseId :=
  match m.map[id]? with
  | some item => item.prev
  | none => none

def next (m : HashCorpusMap T) (id : TestcaseId) : Option TestcaseId :=
  match m.map[id]? with
  | some item => item.next
  | none => none

def first (m : HashCorpusMap T) : Option TestcaseId := m.firstId

def last (m : HashCorpusMap T) : Option TestcaseId := m.lastId

def nth (m : HashCorpusMap T) (n : Nat) : Option TestcaseId := m.history.nth n

instance : InMemoryCorpusMap HashCorpusMap where
  empty := empty
  count := count
  isEmpty := isEmpty
  add := add
  get := get
  remove := remove
  prev := prev
  next := next
  first := first
  last := last
  nth := nth

end HashCorpusMap

/-! ## The B-tree map -/

structure BtreeCorpusMap (T : Type) where
  map : IdMap T
  history : TestcaseIdHistory

namespace BtreeCorpusMap

variable {T : Type}

def empty : BtreeCorpusMap T := ⟨∅, .empty⟩

def count (m : BtreeCorpusMap T) : Nat := m.map.size

def isEmpty (m : BtreeCorpusMap T) : Bool := m.map.isEmpty

def add (id : TestcaseId) (testcase : T) (m : BtreeCorpusMap T) :
    Option (Bool × BtreeCorpusMap T) :=
  some (m.map.contains id,
    { map := m.map.insert id testcase, history := m.history.add id })

def get (m : BtreeCorpusMap T) (id : TestcaseId) : Option T := m.map[id]?

def remove (id : TestcaseId) (m : BtreeCorpusMap T) :
    Option (Option T × BtreeCorpusMap T) :=
  match m.map[id]? with
  | none => some (none, m)
  | some ret =>
    some (some ret, { map := m.map.erase id, history := m.history.remove id })

/-- `range(..=id)`, taken from its back twice. -/
def prev (m : BtreeCorpusMap T) (id : TestcaseId) : Option TestcaseId :=
  let range := m.map.keys.filter (· ≤ id)
  if range.getLast?.any (id ≠ ·) then none else range.dropLast.getLast?

/-- `range(id..)`, taken from its front twice. -/
def next (m : BtreeCorpusMap T) (id : TestcaseId) : Option TestcaseId :=
  let range := m.map.keys.filter (id ≤ ·)
  if range.head?.any (id ≠ ·) then none else range.tail.head?

def first (m : BtreeCorpusMap T) : Option TestcaseId := m.map.keys.head?

def last (m : BtreeCorpusMap T) : Option TestcaseId := m.map.keys.getLast?

def nth (m : BtreeCorpusMap T) (n : Nat) : Option TestcaseId := m.history.nth n

instance : InMemoryCorpusMap BtreeCorpusMap where
  empty := empty
  count := count
  isEmpty := isEmpty
  add := add
  get := get
  remove := remove
  prev := prev
  next := next
  first := first
  last := last
  nth := nth

end BtreeCorpusMap

/-! ## Runs of adds and removes -/

inductive MapOp (T : Type) where
  | add (id : TestcaseId) (testcase : T)
  | remove (id : TestcaseId)

/-- The map after one operation, `none` when it panics. -/
def MapOp.exec {M : Type → Type} [InMemoryCorpusMap M] {T : Type} (m : M T) :
    MapOp T → Option (M T)
  | .add id testcase => (InMemoryCorpusMap.add id testcase m).map (·.2)
  | .remove id => (InMemoryCorpusMap.remove id m).map (·.2)

/-- The chronological order after one more operation. -/
def MapOp.order {T : Type} (l : List TestcaseId) : MapOp T → List TestcaseId
  | .add id _ => Chronology.insert l id
  | .remove id => l.erase id

/-- The keys of the map, in order of first insertion. -/
def chronological {T : Type} (ops : List (MapOp T)) : List TestcaseId :=
  ops.foldl MapOp.order []

@[simp] theorem chronological_concat {T : Type} (ops : List (MapOp T)) (op : MapOp T) :
    chronological (ops ++ [op]) = op.order (chronological ops) := by
  simp [chronological]

end Libaflmm
