import Libaflmm.HashTables
import Mathlib.Data.Finset.Basic
import Mathlib.Algebra.Order.BigOperators.Group.Finset
import Mathlib.Order.Interval.Finset.Nat
import Mathlib.Data.Set.Card
import Mathlib.Data.Set.Finite.Lattice

/-!
# Interval trees

An interval tree is a map from half-open intervals of addresses to values,
with a query for the intervals that share an address with a given one. Only
what every such tree promises is used: `LawfulIntervalTree`.

Where no two intervals of a tree share an address, the tree is a partial
function from addresses to values (`Disjoint`, `At`), and the lengths of its
intervals add up to the number of addresses it is defined at.
-/

namespace Libaflmm

structure Interval where
  start : Nat
  stop : Nat
deriving DecidableEq

namespace Interval

instance : Membership Nat Interval := ⟨fun i a => i.start ≤ a ∧ a < i.stop⟩

theorem mem_def {i : Interval} {a : Nat} : a ∈ i ↔ i.start ≤ a ∧ a < i.stop := Iff.rfl

instance (a : Nat) (i : Interval) : Decidable (a ∈ i) := inferInstanceAs (Decidable (_ ∧ _))

def length (i : Interval) : Nat := i.stop - i.start

/-- The common part, unless it is empty. -/
def intersect (i j : Interval) : Option Interval :=
  if max i.start j.start < min i.stop j.stop then some ⟨max i.start j.start, min i.stop j.stop⟩
  else none

def Overlaps (i j : Interval) : Prop := max i.start j.start < min i.stop j.stop

instance (i j : Interval) : Decidable (Overlaps i j) := inferInstanceAs (Decidable (_ < _))

theorem overlaps_iff {i j : Interval} : i.Overlaps j ↔ ∃ a, a ∈ i ∧ a ∈ j := by
  simp only [Overlaps, mem_def, max_lt_iff, lt_min_iff]
  constructor
  · intro h
    exact ⟨max i.start j.start, by omega⟩
  · rintro ⟨a, ha⟩
    omega

theorem Overlaps.symm {i j : Interval} (h : i.Overlaps j) : j.Overlaps i := by
  rw [overlaps_iff] at h ⊢
  simpa only [and_comm] using h

/-- What is left of `i` on both sides of `j`. -/
def minus (i j : Interval) : List Interval :=
  (if i.start < j.start then [⟨i.start, j.start⟩] else []) ++
    (if j.stop < i.stop then [⟨j.stop, i.stop⟩] else [])

theorem mem_minus {i j k : Interval} (h : k ∈ i.minus j) :
    i.start < j.start ∧ k = ⟨i.start, j.start⟩ ∨ j.stop < i.stop ∧ k = ⟨j.stop, i.stop⟩ := by
  rcases List.mem_append.mp h with h | h
  · left
    split at h
    · next hlt => exact ⟨hlt, by simpa using h⟩
    · simp at h
  · right
    split at h
    · next hlt => exact ⟨hlt, by simpa using h⟩
    · simp at h

theorem exists_mem_minus {i j : Interval} {a : Nat} (hij : i.Overlaps j) :
    (∃ k ∈ i.minus j, a ∈ k) ↔ a ∈ i ∧ a ∉ j := by
  simp only [Overlaps, max_lt_iff, lt_min_iff] at hij
  constructor
  · rintro ⟨k, hk, ha⟩
    rcases mem_minus hk with ⟨_, rfl⟩ | ⟨_, rfl⟩ <;>
    · simp only [mem_def] at *
      omega
  · rintro ⟨hi, hj⟩
    simp only [mem_def, not_and_or, not_le, not_lt] at hi hj
    rcases hj with hj | hj
    · refine ⟨⟨i.start, j.start⟩, ?_, hi.1, hj⟩
      rw [minus, if_pos (by omega)]
      simp
    · refine ⟨⟨j.stop, i.stop⟩, ?_, hj, hi.2⟩
      rw [minus, if_pos (show j.stop < i.stop by omega)]
      simp

/-- The addresses of intervals that do not overlap, as a set of as many elements. -/
theorem exists_card_eq_sum {is : List Interval} (hdis : is.Pairwise fun i j => ¬i.Overlaps j) :
    ∃ u : Finset Nat, u.card = (is.map length).sum ∧ ∀ a, a ∈ u ↔ ∃ i ∈ is, a ∈ i := by
  induction is with
  | nil => exact ⟨∅, rfl, by simp⟩
  | cons i is ih =>
      obtain ⟨hi, his⟩ := List.pairwise_cons.mp hdis
      obtain ⟨u, hcard, hmem⟩ := ih his
      have hapart : Disjoint (Finset.Ico i.start i.stop) u := by
        rw [Finset.disjoint_left]
        intro a ha hu
        obtain ⟨j, hj, haj⟩ := (hmem a).mp hu
        exact hi j hj (overlaps_iff.mpr ⟨a, Finset.mem_Ico.mp ha, haj⟩)
      refine ⟨Finset.Ico i.start i.stop ∪ u, ?_, fun a => ?_⟩
      · rw [Finset.card_union_of_disjoint hapart, hcard, Nat.card_Ico, List.map_cons,
          List.sum_cons, length]
      · rw [Finset.mem_union, Finset.mem_Ico, hmem]
        simp [mem_def]

theorem sum_length_le {is : List Interval} {n : Nat}
    (hdis : is.Pairwise fun i j => ¬i.Overlaps j) (hstop : ∀ i ∈ is, i.stop ≤ n) :
    (is.map length).sum ≤ n := by
  obtain ⟨u, hcard, hmem⟩ := exists_card_eq_sum hdis
  have hsub : u ⊆ Finset.range n := by
    intro a ha
    obtain ⟨i, hi, hai⟩ := (hmem a).mp ha
    exact Finset.mem_range.mpr (lt_of_lt_of_le hai.2 (hstop i hi))
  calc (is.map length).sum = u.card := hcard.symm
    _ ≤ (Finset.range n).card := Finset.card_le_card hsub
    _ = n := Finset.card_range n

end Interval

class IntervalTree (T : Type → Type) where
  empty {V : Type} : T V
  /-- a value for an interval that is in the tree replaces its value -/
  insert {V : Type} : Interval → V → T V → T V
  delete {V : Type} : Interval → T V → T V
  /-- the entries in the order in which they are iterated -/
  entries {V : Type} : T V → List (Interval × V)
  query {V : Type} : Interval → T V → List (Interval × V)

/-- A correct map of intervals. -/
class LawfulIntervalTree (T : Type → Type) [IntervalTree T] : Prop where
  entries_empty {V : Type} : IntervalTree.entries (IntervalTree.empty : T V) = []
  nodup {V : Type} (t : T V) : ((IntervalTree.entries t).map Prod.fst).Nodup
  mem_insert {V : Type} (i : Interval) (v : V) (t : T V) (j : Interval) (w : V) :
    (j, w) ∈ IntervalTree.entries (IntervalTree.insert i v t) ↔
      j = i ∧ w = v ∨ j ≠ i ∧ (j, w) ∈ IntervalTree.entries t
  mem_delete {V : Type} (i : Interval) (t : T V) (j : Interval) (w : V) :
    (j, w) ∈ IntervalTree.entries (IntervalTree.delete i t) ↔
      j ≠ i ∧ (j, w) ∈ IntervalTree.entries t
  query_eq {V : Type} (i : Interval) (t : T V) :
    IntervalTree.query i t = (IntervalTree.entries t).filter fun e => e.1.Overlaps i

namespace IntervalTree

variable {T : Type → Type} [IntervalTree T] {V : Type}

/-- No two intervals share an address. -/
def Disjoint (t : T V) : Prop :=
  ∀ i v, (i, v) ∈ entries t → ∀ j w, (j, w) ∈ entries t → i.Overlaps j → i = j

/-- The tree has value `v` at address `a`. -/
def At (t : T V) (a : Nat) (v : V) : Prop := ∃ i, (i, v) ∈ entries t ∧ a ∈ i

/-- The lengths of the intervals, added up. -/
def total (t : T V) : Nat := ((entries t).map fun e => e.1.length).sum

theorem finite_at (t : T V) : {a | ∃ v, At t a v}.Finite := by
  have hsub : {a | ∃ v, At t a v} ⊆ ⋃ e ∈ entries t, Set.Ico e.1.start e.1.stop := by
    rintro a ⟨v, i, hi, ha⟩
    exact Set.mem_biUnion (show (i, v) ∈ {e | e ∈ entries t} from hi) ha
  refine Set.Finite.subset ?_ hsub
  exact Set.Finite.biUnion (List.finite_toSet _) fun e _ => Set.finite_Ico _ _

section

variable [LawfulIntervalTree T] {t : T V}

open LawfulIntervalTree

theorem value_unique {i : Interval} {v w : V} (hv : (i, v) ∈ entries t) (hw : (i, w) ∈ entries t) :
    v = w := by
  have := List.inj_on_of_nodup_map (nodup t) hv hw rfl
  simpa using this

theorem At.unique {a : Nat} {v w : V} (hdis : Disjoint t) (hv : At t a v) (hw : At t a w) :
    v = w := by
  obtain ⟨i, hi, hai⟩ := hv
  obtain ⟨j, hj, haj⟩ := hw
  obtain rfl := hdis i v hi j w hj (Interval.overlaps_iff.mpr ⟨a, hai, haj⟩)
  exact value_unique hi hj

theorem mem_query {i j : Interval} {v : V} :
    (j, v) ∈ query i t ↔ (j, v) ∈ entries t ∧ j.Overlaps i := by
  simp [query_eq]

/-- The number of addresses of a disjoint tree. -/
theorem total_eq_ncard (hdis : Disjoint t) : total t = Set.ncard {a | ∃ v, At t a v} := by
  have hset : {a | ∃ v, At t a v} =
      (((entries t).map Prod.fst).toFinset.biUnion fun i => Finset.Ico i.start i.stop :
        Finset Nat) := by
    ext a
    simp only [At, Set.mem_ofPred_eq, Finset.coe_biUnion, Set.mem_iUnion, Finset.mem_coe,
      List.mem_toFinset, List.mem_map, Finset.mem_Ico]
    constructor
    · rintro ⟨v, i, hi, ha⟩
      exact ⟨i, ⟨(i, v), hi, rfl⟩, ha⟩
    · rintro ⟨_, ⟨⟨i, v⟩, hi, rfl⟩, ha⟩
      exact ⟨v, i, hi, ha⟩
  rw [hset, Set.ncard_coe_finset, Finset.card_biUnion, List.sum_toFinset _ (nodup t)]
  · simp [total, Interval.length, Function.comp_def]
  · intro i hi j hj hne
    obtain ⟨⟨i', v⟩, hi', rfl⟩ := List.mem_map.mp (List.mem_toFinset.mp hi)
    obtain ⟨⟨j', w⟩, hj', rfl⟩ := List.mem_map.mp (List.mem_toFinset.mp hj)
    rw [Function.onFun, Finset.disjoint_left]
    intro a hai haj
    rw [Finset.mem_Ico] at hai haj
    exact hne (hdis i' v hi' j' w hj' (Interval.overlaps_iff.mpr ⟨a, hai, haj⟩))

/-! ## Insertion -/

theorem total_empty : total (empty : T V) = 0 := by
  rw [total, entries_empty]
  rfl

theorem disjoint_empty : Disjoint (empty : T V) := by
  intro i v hi
  simp [entries_empty] at hi

theorem at_insert {i : Interval} {v w : V} {a : Nat} (hfree : ∀ a ∈ i, ∀ w, ¬At t a w) :
    At (insert i v t) a w ↔ (a ∈ i ∧ w = v) ∨ At t a w := by
  constructor
  · rintro ⟨j, hj, ha⟩
    rcases (mem_insert i v t j w).mp hj with ⟨rfl, rfl⟩ | ⟨_, hj⟩
    · exact Or.inl ⟨ha, rfl⟩
    · exact Or.inr ⟨j, hj, ha⟩
  · rintro (⟨ha, rfl⟩ | ⟨j, hj, ha⟩)
    · exact ⟨i, (mem_insert i w t i w).mpr (Or.inl ⟨rfl, rfl⟩), ha⟩
    · refine ⟨j, (mem_insert i v t j w).mpr (Or.inr ⟨?_, hj⟩), ha⟩
      rintro rfl
      exact hfree a ha w ⟨j, hj, ha⟩

theorem at_insert_self {i : Interval} {v : V} {a : Nat} (ha : a ∈ i) : At (insert i v t) a v :=
  ⟨i, (mem_insert i v t i v).mpr (Or.inl ⟨rfl, rfl⟩), ha⟩

theorem disjoint_insert {i : Interval} {v : V} (hdis : Disjoint t)
    (hfree : ∀ a ∈ i, ∀ w, ¬At t a w) : Disjoint (insert i v t) := by
  have hout : ∀ j w, (j, w) ∈ entries t → ¬j.Overlaps i := by
    intro j w hj hji
    obtain ⟨a, haj, hai⟩ := Interval.overlaps_iff.mp hji
    exact hfree a hai w ⟨j, hj, haj⟩
  intro j w hj k u hk hjk
  rcases (mem_insert i v t j w).mp hj with ⟨hji, -⟩ | ⟨-, hj'⟩ <;>
    rcases (mem_insert i v t k u).mp hk with ⟨hki, -⟩ | ⟨-, hk'⟩
  · rw [hji, hki]
  · exact absurd (hji ▸ hjk.symm) (hout k u hk')
  · exact absurd (hki ▸ hjk) (hout j w hj')
  · exact hdis j w hj' k u hk' hjk

/-! ## Cutting an interval out -/

/-- Replaces the interval of an entry by what is left of it outside `j`. -/
def cut (j : Interval) (v : V) (i : Interval) (t : T V) : T V :=
  (i.minus j).foldl (fun t k => insert k v t) (delete i t)

theorem mem_entries_foldl_insert {is : List Interval} {v w : V} {j : Interval} :
    (j, w) ∈ entries (is.foldl (fun t k => insert k v t) t) ↔
      j ∈ is ∧ w = v ∨ j ∉ is ∧ (j, w) ∈ entries t := by
  induction is generalizing t with
  | nil => simp
  | cons i is ih =>
      rw [List.foldl_cons, ih, mem_insert, List.mem_cons]
      by_cases hi : j = i
      · subst hi
        by_cases his : j ∈ is <;> simp [his]
      · simp [hi]

theorem overlaps_of_mem_minus {i j k : Interval} (hij : i.Overlaps j) (hk : k ∈ i.minus j) :
    k.Overlaps i := by
  simp only [Interval.Overlaps] at *
  rcases Interval.mem_minus hk with ⟨hlt, rfl⟩ | ⟨hlt, rfl⟩ <;>
  · dsimp only
    omega

theorem mem_entries_cut {i j : Interval} {u v : V} (hdis : Disjoint t) (hi : (i, v) ∈ entries t)
    (hij : i.Overlaps j) {k : Interval} {w : V} :
    (k, w) ∈ entries (cut j u i t) ↔ k ∈ i.minus j ∧ w = u ∨ k ≠ i ∧ (k, w) ∈ entries t := by
  rw [cut, mem_entries_foldl_insert, mem_delete]
  constructor
  · rintro (h | ⟨_, h⟩)
    · exact Or.inl h
    · exact Or.inr h
  · rintro (h | ⟨hne, hkt⟩)
    · exact Or.inl h
    · refine Or.inr ⟨fun hk => hne ?_, hne, hkt⟩
      exact hdis k w hkt i v hi (overlaps_of_mem_minus hij hk)

theorem at_cut {i j : Interval} {u v : V} (hdis : Disjoint t) (hi : (i, v) ∈ entries t)
    (hij : i.Overlaps j) {a : Nat} {w : V} :
    At (cut j u i t) a w ↔ (a ∈ i ∧ a ∉ j) ∧ w = u ∨ a ∉ i ∧ At t a w := by
  rw [← Interval.exists_mem_minus hij]
  constructor
  · rintro ⟨k, hk, ha⟩
    rcases (mem_entries_cut hdis hi hij).mp hk with ⟨hk, hw⟩ | ⟨hne, hk⟩
    · exact Or.inl ⟨⟨k, hk, ha⟩, hw⟩
    · refine Or.inr ⟨fun hai => hne ?_, k, hk, ha⟩
      exact hdis k w hk i v hi (Interval.overlaps_iff.mpr ⟨a, ha, hai⟩)
  · rintro (⟨⟨k, hk, ha⟩, hw⟩ | ⟨hai, k, hk, ha⟩)
    · exact ⟨k, (mem_entries_cut hdis hi hij).mpr (Or.inl ⟨hk, hw⟩), ha⟩
    · refine ⟨k, (mem_entries_cut hdis hi hij).mpr (Or.inr ⟨?_, hk⟩), ha⟩
      rintro rfl
      exact hai ha

theorem disjoint_cut {i j : Interval} {u v : V} (hdis : Disjoint t) (hi : (i, v) ∈ entries t)
    (hij : i.Overlaps j) : Disjoint (cut j u i t) := by
  intro k w hk l x hl hkl
  obtain ⟨a, hak, hal⟩ := Interval.overlaps_iff.mp hkl
  have hin : ∀ m, m ∈ i.minus j → a ∈ m → a ∈ i := fun m hm ham =>
    ((Interval.exists_mem_minus hij).mp ⟨m, hm, ham⟩).1
  have hout : ∀ m y, m ≠ i → (m, y) ∈ entries t → a ∈ m → a ∉ i := fun m y hne hm ham hai =>
    hne (hdis m y hm i v hi (Interval.overlaps_iff.mpr ⟨a, ham, hai⟩))
  rcases (mem_entries_cut hdis hi hij).mp hk with ⟨hk, -⟩ | ⟨hki, hk⟩ <;>
    rcases (mem_entries_cut hdis hi hij).mp hl with ⟨hl, -⟩ | ⟨hli, hl⟩
  · -- the two residuals lie on different sides of `j`
    simp only [Interval.Overlaps] at hij hkl
    rcases Interval.mem_minus hk with ⟨hlt, rfl⟩ | ⟨hlt, rfl⟩ <;>
      rcases Interval.mem_minus hl with ⟨hlt', rfl⟩ | ⟨hlt', rfl⟩
    · rfl
    · dsimp only at hkl
      omega
    · dsimp only at hkl
      omega
    · rfl
  · exact absurd (hin k hk hak) (hout l x hli hl hal)
  · exact absurd (hin l hl hal) (hout k w hki hk hak)
  · exact hdis k w hk l x hl hkl

/-- Cuts `j` out of some entries, which get the values `f` of theirs. -/
def cutAll (j : Interval) (f : V → V) (found : List (Interval × V)) (t : T V) : T V :=
  found.foldl (fun t e => cut j (f e.2) e.1 t) t

theorem cutAll_spec {j : Interval} {f : V → V} {found : List (Interval × V)} (hdis : Disjoint t)
    (hmem : ∀ e ∈ found, e ∈ entries t ∧ e.1.Overlaps j) (hnodup : (found.map Prod.fst).Nodup) :
    Disjoint (cutAll j f found t) ∧ ∀ a w, At (cutAll j f found t) a w ↔
      (∃ e ∈ found, a ∈ e.1 ∧ a ∉ j ∧ w = f e.2) ∨ (∀ e ∈ found, a ∉ e.1) ∧ At t a w := by
  induction found generalizing t with
  | nil => exact ⟨hdis, fun a w => by simp [cutAll]⟩
  | cons e found ih =>
      obtain ⟨⟨he, hej⟩, hfound⟩ := List.forall_mem_cons.mp hmem
      obtain ⟨hnew, hnodup⟩ := List.nodup_cons.mp (List.map_cons ▸ hnodup)
      have hcut : Disjoint (cut j (f e.2) e.1 t) := disjoint_cut hdis he hej
      have hstill : ∀ e' ∈ found, e' ∈ entries (cut j (f e.2) e.1 t) ∧ e'.1.Overlaps j := by
        intro e' he'
        refine ⟨(mem_entries_cut hdis he hej).mpr (Or.inr ⟨?_, (hfound e' he').1⟩),
          (hfound e' he').2⟩
        intro heq
        exact hnew (List.mem_map.mpr ⟨e', he', heq⟩)
      obtain ⟨hdis', hat⟩ := ih hcut hstill hnodup
      refine ⟨hdis', fun a w => ?_⟩
      rw [cutAll, List.foldl_cons, ← cutAll, hat, at_cut hdis he hej]
      have hother : a ∈ e.1 → ∀ e' ∈ found, a ∉ e'.1 := by
        intro hae e' he' hae'
        have heq := hdis _ _ (hfound e' he').1 _ _ he (Interval.overlaps_iff.mpr ⟨a, hae', hae⟩)
        exact hnew (List.mem_map.mpr ⟨e', he', heq⟩)
      by_cases hae : a ∈ e.1
      · constructor
        · rintro (⟨e', he', hae', -⟩ | ⟨-, ⟨⟨-, haj⟩, hw⟩ | ⟨hne, -⟩⟩)
          · exact absurd hae' (hother hae e' he')
          · exact Or.inl ⟨e, by simp, hae, haj, hw⟩
          · exact absurd hae hne
        · rintro (⟨e', he', hae', haj, hw⟩ | ⟨hnone, -⟩)
          · rcases List.mem_cons.mp he' with rfl | he'
            · exact Or.inr ⟨hother hae, Or.inl ⟨⟨hae, haj⟩, hw⟩⟩
            · exact absurd hae' (hother hae e' he')
          · exact absurd hae (hnone e (by simp))
      · simp [hae]

/-- Cutting `j` out of every interval that overlaps it leaves the tree outside `j`,
as far as `g` can tell. -/
theorem cutAll_query {P : Type} {j : Interval} {f : V → V} {g : V → P} (hg : ∀ v, g (f v) = g v)
    (hdis : Disjoint t) :
    Disjoint (cutAll j f (query j t) t) ∧ ∀ a p,
      (∃ w, At (cutAll j f (query j t) t) a w ∧ g w = p) ↔
        a ∉ j ∧ ∃ v, At t a v ∧ g v = p := by
  have hnodup : ((query j t).map Prod.fst).Nodup := by
    rw [query_eq]
    exact (nodup t).sublist (List.filter_sublist.map Prod.fst)
  obtain ⟨hdis', hat⟩ := cutAll_spec (f := f) hdis (fun e he => mem_query.mp he) hnodup
  refine ⟨hdis', fun a p => ?_⟩
  simp only [hat]
  constructor
  · rintro ⟨w, ⟨⟨i, v⟩, hi, hai, haj, rfl⟩ | ⟨hnone, hw⟩, hp⟩
    · exact ⟨haj, v, ⟨i, (mem_query.mp hi).1, hai⟩, by rw [← hp, hg]⟩
    · refine ⟨fun haj => ?_, w, hw, hp⟩
      obtain ⟨i, hi, hai⟩ := hw
      exact hnone (i, w) (mem_query.mpr ⟨hi, Interval.overlaps_iff.mpr ⟨a, hai, haj⟩⟩) hai
  · rintro ⟨haj, v, ⟨i, hi, hai⟩, hp⟩
    by_cases hij : i.Overlaps j
    · exact ⟨f v, Or.inl ⟨(i, v), mem_query.mpr ⟨hi, hij⟩, hai, haj, rfl⟩, by rw [hg, hp]⟩
    · refine ⟨v, Or.inr ⟨fun e he hae => hij ?_, i, hi, hai⟩, hp⟩
      obtain ⟨he, hej⟩ := mem_query.mp (show (e.1, e.2) ∈ query j t from he)
      have heq := hdis _ _ hi _ _ he (Interval.overlaps_iff.mpr ⟨a, hai, hae⟩)
      exact heq ▸ hej

end

end IntervalTree

/-! ## A table of intervals -/

/-- An interval tree as a plain table. -/
structure IntervalMap (V : Type) where
  table : HashMap Interval V

namespace IntervalMap

instance : IntervalTree IntervalMap where
  empty := ⟨∅⟩
  insert i v t := ⟨t.table.insert i v⟩
  delete i t := ⟨t.table.erase i⟩
  entries t := t.table.entries.map fun e => (e.1, e.2)
  query i t := (t.table.entries.map fun e => (e.1, e.2)).filter fun e => e.1.Overlaps i

theorem mem_entries {V : Type} {t : IntervalMap V} {i : Interval} {v : V} :
    (i, v) ∈ IntervalTree.entries t ↔ t.table.lookup i = some v := by
  rw [← Option.mem_def, AList.mem_lookup_iff]
  simp only [IntervalTree.entries, List.mem_map, Prod.mk.injEq]
  constructor
  · rintro ⟨e, he, rfl, rfl⟩
    exact he
  · intro h
    exact ⟨_, h, rfl, rfl⟩

instance : LawfulIntervalTree IntervalMap where
  entries_empty := rfl
  nodup t := by
    have hkeys : (IntervalTree.entries t).map Prod.fst = t.table.keys := List.map_map
    rw [hkeys]
    exact t.table.nodupKeys
  mem_insert i v t j w := by
    simp only [mem_entries]
    show (t.table.insert i v).lookup j = some w ↔ _
    rw [HashMap.lookup_insert]
    split
    · next h => simp [h, eq_comm]
    · next h => simp [h]
  mem_delete i t j w := by
    simp only [mem_entries]
    show (t.table.erase i).lookup j = some w ↔ _
    rw [HashMap.lookup_erase]
    split
    · next h => simp [h]
    · next h => simp [h]
  query_eq _ _ := rfl

end IntervalMap

end Libaflmm
