import Mathlib.Data.List.Lemmas
import Mathlib.Data.List.Nodup
import Mathlib.Order.Defs.LinearOrder
import Mathlib.Tactic.Common

/-!
# Ordered maps

A map is the list of its entries in the order of their keys, in which a map is
iterated. What an insertion does to the entries is a permutation: a fresh key
adds its entry, and another one takes the place of the entry with that key.
-/

namespace Libaflmm

structure OrderedMap (K V : Type) [LinearOrder K] where
  entries : List (K × V)
  sorted : entries.Pairwise (·.1 < ·.1)

namespace OrderedMap

variable {K V : Type} [LinearOrder K]

def empty : OrderedMap K V := ⟨[], List.Pairwise.nil⟩

def insertEntry (k : K) (v : V) : List (K × V) → List (K × V)
  | [] => [(k, v)]
  | e :: es =>
    if k < e.1 then (k, v) :: e :: es
    else if k = e.1 then (k, v) :: es
    else e :: insertEntry k v es

theorem mem_insertEntry {k : K} {v : V} {es : List (K × V)} {e : K × V}
    (h : e ∈ insertEntry k v es) : e = (k, v) ∨ e ∈ es := by
  induction es with
  | nil => exact Or.inl (List.mem_singleton.mp h)
  | cons e' es ih =>
      unfold insertEntry at h
      split_ifs at h
      · rcases List.mem_cons.mp h with h | h
        · exact Or.inl h
        · exact Or.inr h
      · rcases List.mem_cons.mp h with h | h
        · exact Or.inl h
        · exact Or.inr (List.mem_cons_of_mem _ h)
      · rcases List.mem_cons.mp h with h | h
        · exact Or.inr (h ▸ List.mem_cons_self ..)
        · exact (ih h).imp id (List.mem_cons_of_mem _)

theorem sorted_insertEntry (k : K) (v : V) {es : List (K × V)}
    (h : es.Pairwise (·.1 < ·.1)) : (insertEntry k v es).Pairwise (·.1 < ·.1) := by
  induction es with
  | nil => exact List.pairwise_singleton _ _
  | cons e es ih =>
      obtain ⟨hhead, htail⟩ := List.pairwise_cons.mp h
      unfold insertEntry
      split_ifs with hlt heq
      · refine List.pairwise_cons.mpr ⟨fun e' he' => ?_, h⟩
        rcases List.mem_cons.mp he' with rfl | he'
        · exact hlt
        · exact hlt.trans (hhead e' he')
      · refine List.pairwise_cons.mpr ⟨fun e' he' => ?_, htail⟩
        show k < e'.1
        exact heq ▸ hhead e' he'
      · refine List.pairwise_cons.mpr ⟨fun e' he' => ?_, ih htail⟩
        rcases mem_insertEntry he' with rfl | he'
        · exact lt_of_le_of_ne (not_lt.mp hlt) (Ne.symm heq)
        · exact hhead e' he'

def insert (m : OrderedMap K V) (k : K) (v : V) : OrderedMap K V :=
  ⟨insertEntry k v m.entries, sorted_insertEntry k v m.sorted⟩

def find? (m : OrderedMap K V) (k : K) : Option V :=
  (m.entries.find? fun e => e.1 = k).map (·.2)

variable {m : OrderedMap K V} {k k' : K} {v v' : V}

theorem nodup_keys (m : OrderedMap K V) : (m.entries.map (·.1)).Nodup := by
  rw [List.Nodup, List.pairwise_map]
  exact m.sorted.imp fun h => ne_of_lt h

theorem value_unique (h : (k, v) ∈ m.entries) (h' : (k, v') ∈ m.entries) : v = v' :=
  (Prod.mk.inj (List.inj_on_of_nodup_map m.nodup_keys h h' rfl)).2

theorem find?_eq_some_iff : m.find? k = some v ↔ (k, v) ∈ m.entries := by
  unfold find?
  constructor
  · intro h
    obtain ⟨⟨k', v'⟩, hfind, rfl⟩ := Option.map_eq_some_iff.mp h
    obtain rfl : k' = k := by simpa using List.find?_some hfind
    exact List.mem_of_find?_eq_some hfind
  · intro h
    cases hfind : m.entries.find? fun e => e.1 = k with
    | none => simpa using List.find?_eq_none.mp hfind _ h
    | some e =>
        obtain ⟨k', v'⟩ := e
        obtain rfl : k' = k := by simpa using List.find?_some hfind
        exact congrArg some (value_unique (List.mem_of_find?_eq_some hfind) h)

theorem find?_eq_none_iff : m.find? k = none ↔ ∀ v, (k, v) ∉ m.entries := by
  constructor
  · intro h v hmem
    rw [find?_eq_some_iff.mpr hmem] at h
    cases h
  · intro h
    cases hfind : m.find? k with
    | none => rfl
    | some v => exact absurd (find?_eq_some_iff.mp hfind) (h v)

/-- A fresh key adds its entry. -/
theorem perm_insert_of_fresh (h : m.find? k = none) (v : V) :
    (m.insert k v).entries.Perm ((k, v) :: m.entries) := by
  have hfresh := find?_eq_none_iff.mp h
  show (insertEntry k v m.entries).Perm _
  generalize m.entries = es at hfresh
  induction es with
  | nil => exact List.Perm.refl _
  | cons e es ih =>
      unfold insertEntry
      split_ifs with hlt heq
      · exact List.Perm.refl _
      · exact absurd (by rw [heq]; exact List.mem_cons_self ..) (hfresh e.2)
      · exact ((ih fun v hv => hfresh v (List.mem_cons_of_mem _ hv)).cons e).trans
          (List.Perm.swap ..)

/-- The new entry takes the place of the old one. -/
theorem perm_insert_of_mem (h : (k, v) ∈ m.entries) (v' : V) :
    ((k, v) :: (m.insert k v').entries).Perm ((k, v') :: m.entries) := by
  have hsorted := m.sorted
  show ((k, v) :: insertEntry k v' m.entries).Perm _
  generalize m.entries = es at h hsorted
  induction es with
  | nil => cases h
  | cons e es ih =>
      obtain ⟨hhead, htail⟩ := List.pairwise_cons.mp hsorted
      unfold insertEntry
      split_ifs with hlt heq
      · rcases List.mem_cons.mp h with rfl | h
        · exact absurd hlt (lt_irrefl _)
        · exact absurd (hlt.trans (hhead _ h)) (lt_irrefl _)
      · rcases List.mem_cons.mp h with rfl | h
        · exact List.Perm.swap ..
        · exact absurd (heq ▸ hhead _ h) (lt_irrefl _)
      · rcases List.mem_cons.mp h with rfl | h
        · exact absurd rfl heq
        · exact (List.Perm.swap ..).trans (((ih h htail).cons e).trans (List.Perm.swap ..))

theorem mem_insert {e : K × V} :
    e ∈ (m.insert k v).entries ↔ e = (k, v) ∨ e ∈ m.entries ∧ e.1 ≠ k := by
  have hsorted := m.sorted
  show e ∈ insertEntry k v m.entries ↔ _
  generalize m.entries = es at hsorted
  induction es with
  | nil => simp [insertEntry]
  | cons e' es ih =>
      obtain ⟨hhead, htail⟩ := List.pairwise_cons.mp hsorted
      -- the keys that follow `e'` are above the one of `e'`
      have hne : k ≤ e'.1 → ∀ e'' ∈ es, e''.1 ≠ k := fun hle e'' he'' =>
        (lt_of_le_of_lt hle (hhead e'' he'')).ne'
      unfold insertEntry
      split_ifs with hlt heq
      · have := hne hlt.le e
        have := hlt.ne'
        grind
      · have := hne heq.le e
        grind
      · have := ih htail
        grind

theorem find?_insert : (m.insert k v).find? k' = if k' = k then some v else m.find? k' := by
  split_ifs with h
  · rw [find?_eq_some_iff, mem_insert, h]
    exact Or.inl rfl
  · cases hfind : m.find? k' with
    | none =>
        rw [find?_eq_none_iff] at hfind ⊢
        intro v' hmem
        rcases mem_insert.mp hmem with heq | ⟨hmem, -⟩
        · exact h (Prod.mk.inj heq).1
        · exact hfind v' hmem
    | some v' =>
        rw [find?_eq_some_iff] at hfind ⊢
        exact mem_insert.mpr (Or.inr ⟨hfind, h⟩)

theorem perm_foldl_insert {es : List (K × V)} (hnodup : (es.map (·.1)).Nodup)
    (hfresh : ∀ e ∈ es, m.find? e.1 = none) :
    (es.foldl (fun m e => m.insert e.1 e.2) m).entries.Perm (es ++ m.entries) := by
  induction es generalizing m with
  | nil => exact List.Perm.refl _
  | cons e es ih =>
      obtain ⟨hhead, htail⟩ := List.nodup_cons.mp hnodup
      have hinsert := perm_insert_of_fresh (hfresh e (List.mem_cons_self ..)) e.2
      refine (ih htail fun e' he' => ?_).trans ?_
      · have hne : e'.1 ≠ e.1 := fun heq =>
          hhead (List.mem_map.mpr ⟨e', he', heq⟩)
        rw [find?_insert, if_neg hne]
        exact hfresh e' (List.mem_cons_of_mem _ he')
      · exact (hinsert.append_left es).trans List.perm_middle

/-! ## Maps of lists -/

section

variable {m : OrderedMap K (List V)} {l l' : List V} {x : V}

/-- All the values of a map of lists. -/
def flat (m : OrderedMap K (List V)) : List V := m.entries.flatMap (·.2)

/-- `entry(k).or_default().push(x)` -/
def push (m : OrderedMap K (List V)) (k : K) (x : V) : OrderedMap K (List V) :=
  m.insert k ((m.find? k).getD [] ++ [x])

theorem perm_flat_insert (h : (k, l) ∈ m.entries) (l' : List V) :
    (l ++ (m.insert k l').flat).Perm (l' ++ m.flat) := by
  have := (perm_insert_of_mem h l').flatMap_right (·.2)
  rwa [List.flatMap_cons, List.flatMap_cons] at this

theorem perm_flat_push (m : OrderedMap K (List V)) (k : K) (x : V) :
    (m.push k x).flat.Perm (x :: m.flat) := by
  unfold push
  cases hfind : m.find? k with
  | none =>
      have := (perm_insert_of_fresh hfind [x]).flatMap_right (·.2)
      rwa [List.flatMap_cons] at this
  | some l =>
      have := perm_flat_insert (find?_eq_some_iff.mp hfind) (l ++ [x])
      rw [List.append_assoc] at this
      exact (List.perm_append_left_iff l).mp this

/-- The last value of a list is taken out. -/
theorem perm_flat_pop (h : (k, l ++ [x]) ∈ m.entries) :
    (x :: (m.insert k l).flat).Perm m.flat := by
  have := perm_flat_insert h l
  rw [List.append_assoc] at this
  exact (List.perm_append_left_iff l).mp this

end

end OrderedMap

end Libaflmm
