import Libaflmm.CorpusObs
import Mathlib.Data.Set.Card

/-!
# What the stores rely on in a map

A store only looks entries up, so it does not see the order that a map
keeps. `LawfulCorpusMap` says what it does see: which entries an operation
that returns leaves behind. Both maps are lawful in every state, well linked
or not.

Whether an operation returns is a matter of order after all. `FifoCorpusMap`
describes it for a map used first in, first out, as a cache uses one. The
hash map panics there in a single case: it was emptied, and is filled again.
-/

namespace Libaflmm

open InMemoryCorpusMap

instance : Finite TestcaseId :=
  Finite.of_injective (fun id => (⟨id.val.toNat, id.val.toNat_lt⟩ : Fin (2 ^ 64))) fun _ _ h =>
    TestcaseId.toNat_injective (congrArg Fin.val h)

/-! ## Entries -/

/-- A map that was only ever added to. -/
inductive Filled {M : Type → Type} [InMemoryCorpusMap M] {T : Type} : M T → Prop
  | empty : Filled InMemoryCorpusMap.empty
  | add {m m' : M T} {id : TestcaseId} {testcase : T} {present : Bool} :
      Filled m → InMemoryCorpusMap.add id testcase m = some (present, m') → Filled m'

/-- The map has lost the entry it names as its last. -/
def Stuck {M : Type → Type} [InMemoryCorpusMap M] {T : Type} (m : M T) : Prop :=
  ∃ k, last m = some k ∧ get m k = none

instance {M : Type → Type} [InMemoryCorpusMap M] {T : Type} (m : M T) : Decidable (Stuck m) :=
  decidable_of_iff ((last m).any fun k => (get m k).isNone) <| by
    unfold Stuck
    cases last m <;> simp

class LawfulCorpusMap (M : Type → Type) [InMemoryCorpusMap M] : Prop where
  get_empty {T : Type} (id : TestcaseId) : get (empty : M T) id = none
  add_returns {T : Type} {m m' : M T} {id : TestcaseId} {testcase : T} {present : Bool} :
    add id testcase m = some (present, m') →
      present = (get m id).isSome ∧ ∀ k, get m' k = if k = id then some testcase else get m k
  remove_returns {T : Type} {m m' : M T} {id : TestcaseId} {removed : Option T} :
    remove id m = some (removed, m') →
      removed = get m id ∧ ∀ k, get m' k = if k = id then none else get m k
  /-- The only panic of an add. -/
  add_eq_none_iff {T : Type} {m : M T} {id : TestcaseId} {testcase : T} :
    add id testcase m = none ↔ Stuck m
  filled_last {T : Type} {m : M T} : Filled m → ¬ Stuck m
  count_eq {T : Type} (m : M T) : count m = {k | (get m k).isSome}.ncard

theorem LawfulCorpusMap.add_of_not_stuck {M : Type → Type} [InMemoryCorpusMap M]
    [LawfulCorpusMap M] {T : Type} {m : M T} (h : ¬ Stuck m) (id : TestcaseId) (testcase : T) :
    ∃ present m', add id testcase m = some (present, m') := by
  obtain ⟨⟨present, m'⟩, hadd⟩ := Option.ne_none_iff_exists'.mp (mt add_eq_none_iff.mp h)
  exact ⟨present, m', hadd⟩

theorem IdMap.size_eq_ncard {V : Type} (m : IdMap V) :
    m.size = {k : TestcaseId | (m[k]?).isSome}.ncard := by
  have hset : {k : TestcaseId | (m[k]?).isSome} = m.keys.toFinset := by
    ext k
    simp only [Set.mem_ofPred_eq, Finset.mem_coe, List.mem_toFinset, IdMap.mem_keys]
  rw [hset, Set.ncard_coe_finset, List.toFinset_card_of_nodup (m.keys_sorted.imp ne_of_lt),
    Std.TreeMap.length_keys]

namespace HashCorpusMap

variable {T : Type} {map map' : IdMap (TestcaseStorageItem T)} {id : TestcaseId}

/-- Relinking an item changes the testcase of no id. -/
theorem testcase_setNext {next : Option TestcaseId} (h : setNext map id next = some map')
    (k : TestcaseId) : map'[k]?.map (·.testcase) = map[k]?.map (·.testcase) := by
  obtain ⟨item, hitem, rfl⟩ := Option.map_eq_some_iff.mp h
  rw [IdMap.getElem?_insert]
  split
  · next hk => subst hk; simp [hitem]
  · rfl

theorem testcase_setPrev {prev : Option TestcaseId} (h : setPrev map id prev = some map')
    (k : TestcaseId) : map'[k]?.map (·.testcase) = map[k]?.map (·.testcase) := by
  obtain ⟨item, hitem, rfl⟩ := Option.map_eq_some_iff.mp h
  rw [IdMap.getElem?_insert]
  split
  · next hk => subst hk; simp [hitem]
  · rfl

theorem testcase_linkLast {m : HashCorpusMap T} (h : m.linkLast id = some map')
    (k : TestcaseId) : map'[k]?.map (·.testcase) = m.get k := by
  unfold linkLast at h
  split at h
  · exact testcase_setNext h k
  · obtain rfl := Option.some.inj h
    rfl

theorem testcase_relinkPrev {entry : TestcaseStorageItem T}
    (h : relinkPrev map entry = some map') (k : TestcaseId) :
    map'[k]?.map (·.testcase) = map[k]?.map (·.testcase) := by
  unfold relinkPrev at h
  split at h
  · exact testcase_setNext h k
  · obtain rfl := Option.some.inj h
    rfl

theorem testcase_relinkNext {entry : TestcaseStorageItem T}
    (h : relinkNext map entry = some map') (k : TestcaseId) :
    map'[k]?.map (·.testcase) = map[k]?.map (·.testcase) := by
  unfold relinkNext at h
  split at h
  · exact testcase_setPrev h k
  · obtain rfl := Option.some.inj h
    rfl

/-- As long as nothing is removed, the last id names an item. -/
theorem Filled.last_mem {m : HashCorpusMap T} (h : Filled m) :
    ∀ k, m.lastId = some k → (m.map[k]?).isSome := by
  induction h with
  | empty => exact nofun
  | add _ hadd _ =>
      obtain ⟨map, -, heq⟩ := Option.map_eq_some_iff.mp hadd
      obtain ⟨-, rfl⟩ := Prod.mk.inj heq
      intro k hk
      obtain rfl := Option.some.inj hk
      rw [IdMap.getElem?_insert, if_pos rfl]
      rfl

instance : LawfulCorpusMap HashCorpusMap where
  get_empty _ := rfl
  add_returns {T m m' id testcase present} h := by
    obtain ⟨map, hmap, heq⟩ := Option.map_eq_some_iff.mp h
    obtain ⟨rfl, rfl⟩ := Prod.mk.inj heq
    refine ⟨?_, fun k => ?_⟩
    · rw [Std.TreeMap.contains_eq_isSome_getElem?, ← Option.isSome_map (f := (·.testcase)),
        testcase_linkLast hmap]
      rfl
    · show (map.insert id _)[k]?.map (·.testcase) = _
      rw [IdMap.getElem?_insert]
      split
      · rfl
      · exact testcase_linkLast hmap k
  remove_returns {T m m' id removed} h := by
    change m.remove id = some (removed, m') at h
    unfold remove at h
    split at h
    · next hnone =>
        have hget : m.get id = none := by simp [get, hnone]
        obtain ⟨rfl, rfl⟩ := Prod.mk.inj (Option.some.inj h)
        refine ⟨hget.symm, fun k => ?_⟩
        split
        · next hk => exact hk ▸ hget
        · rfl
    · next entry hentry =>
        obtain ⟨map₁, h₁, hrest⟩ := Option.bind_eq_some_iff.mp h
        obtain ⟨map₂, h₂, heq⟩ := Option.map_eq_some_iff.mp hrest
        obtain ⟨rfl, rfl⟩ := Prod.mk.inj heq
        refine ⟨?_, fun k => ?_⟩
        · show _ = m.map[id]?.map (·.testcase)
          rw [hentry]
          rfl
        · show map₂[k]?.map (·.testcase) = _
          rw [testcase_relinkNext h₂ k, testcase_relinkPrev h₁ k, IdMap.getElem?_erase]
          split <;> rfl
  add_eq_none_iff {T m id testcase} := by
    refine Option.map_eq_none_iff.trans ?_
    have hget : ∀ k, m.get k = none ↔ m.map[k]? = none := fun k => Option.map_eq_none_iff
    show m.linkLast id = none ↔ ∃ k, m.lastId = some k ∧ m.get k = none
    simp only [hget]
    unfold HashCorpusMap.linkLast
    cases m.lastId with
    | none => simp
    | some lastId => simp [setNext]
  filled_last {T m} h := by
    rintro ⟨k, hlast, hget⟩
    have hmem := Filled.last_mem h k hlast
    have hget : m.get k = none := hget
    rw [← isSome_get, hget] at hmem
    cases hmem
  count_eq {T} m := by
    refine (IdMap.size_eq_ncard m.map).trans ?_
    congr 1
    ext k
    exact Bool.eq_iff_iff.mp (isSome_get k).symm

end HashCorpusMap

/-- The last id is the greatest of the keys. -/
theorem BtreeCorpusMap.not_stuck {T : Type} (m : BtreeCorpusMap T) : ¬ Stuck m := by
  rintro ⟨k, hlast, hget⟩
  have hmem := IdMap.mem_keys.mp (List.mem_of_getLast? hlast)
  have hget : m.map[k]? = none := hget
  rw [hget] at hmem
  cases hmem

instance : LawfulCorpusMap BtreeCorpusMap where
  get_empty _ := rfl
  add_returns {T m m' id testcase present} h := by
    obtain ⟨rfl, rfl⟩ := Prod.mk.inj (Option.some.inj h)
    exact ⟨Std.TreeMap.contains_eq_isSome_getElem?, fun k => IdMap.getElem?_insert⟩
  remove_returns {T m m' id removed} h := by
    change m.remove id = some (removed, m') at h
    unfold BtreeCorpusMap.remove at h
    split at h
    · next hnone =>
        have hget : m.get id = none := hnone
        obtain ⟨rfl, rfl⟩ := Prod.mk.inj (Option.some.inj h)
        refine ⟨hget.symm, fun k => ?_⟩
        split
        · next hk => exact hk ▸ hget
        · rfl
    · next entry hentry =>
        obtain ⟨rfl, rfl⟩ := Prod.mk.inj (Option.some.inj h)
        exact ⟨hentry.symm, fun k => IdMap.getElem?_erase⟩
  add_eq_none_iff {T m id testcase} := iff_of_false nofun m.not_stuck
  filled_last {T m} _ := m.not_stuck
  count_eq m := IdMap.size_eq_ncard m.map

/-! ## First in, first out -/

/-- `Fifo m l`: the map holds the ids `l`, oldest first, and only the oldest
was ever removed. -/
class FifoCorpusMap (M : Type → Type) [InMemoryCorpusMap M] extends LawfulCorpusMap M where
  /-- Whether the map can be filled again once it was emptied. -/
  reusable : Bool
  Fifo {T : Type} : M T → List TestcaseId → Prop
  fifo_empty {T : Type} : Fifo (empty : M T) []
  last_empty {T : Type} : last (empty : M T) = none
  mem_iff {T : Type} {m : M T} {l : List TestcaseId} :
    Fifo m l → ∀ k, k ∈ l ↔ (get m k).isSome
  fifo_add {T : Type} {m : M T} {l : List TestcaseId} {id : TestcaseId} (testcase : T) :
    Fifo m l → id ∉ l → reusable = true ∨ l ≠ [] ∨ last m = none →
      ∃ m', add id testcase m = some (false, m') ∧ Fifo m' (l ++ [id])
  fifo_remove {T : Type} {m : M T} {l : List TestcaseId} {id : TestcaseId} :
    Fifo m (id :: l) → ∃ m', remove id m = some (get m id, m') ∧ Fifo m' l ∧
      (reusable = false → last m' = last m)

instance : FifoCorpusMap HashCorpusMap where
  reusable := false
  Fifo m l := HashCorpusMap.Chained m.map l ∧ (l ≠ [] → m.lastId = l.getLast?)
  fifo_empty := ⟨.empty, fun h => (h rfl).elim⟩
  last_empty := rfl
  mem_iff h k := (h.1.keys k).trans (by rw [← HashCorpusMap.isSome_get]; rfl)
  fifo_add {T m l id} testcase h hid hlast := by
    have hlastId : m.lastId = l.getLast? := by
      by_cases hl : l = []
      · subst hl
        rcases hlast with hr | hne | hnone
        · cases hr
        · exact (hne rfl).elim
        · exact hnone
      · exact h.2 hl
    obtain ⟨m', hadd, hchain, -, -, hlast', -⟩ :=
      HashCorpusMap.add_chained h.1 hlastId hid testcase
    exact ⟨m', hadd, hchain, fun _ => by simpa using hlast'⟩
  fifo_remove {T m l id} h := by
    obtain ⟨m', hrem, hchain, -, -, hlast, -⟩ := HashCorpusMap.remove_chained (x := []) h.1
    refine ⟨m', hrem, ⟨hchain, fun hl => ?_⟩, fun _ => hlast⟩
    rw [hlast, h.2 (List.cons_ne_nil _ _), List.getLast?_cons_of_ne_nil hl]

instance : FifoCorpusMap BtreeCorpusMap where
  reusable := true
  Fifo m l := l.Nodup ∧ ∀ k, k ∈ l ↔ (m.get k).isSome
  fifo_empty := by
    refine ⟨List.nodup_nil, fun k => iff_of_false List.not_mem_nil ?_⟩
    simp [BtreeCorpusMap.get, InMemoryCorpusMap.empty, BtreeCorpusMap.empty]
  last_empty := rfl
  mem_iff h := h.2
  fifo_add {T m l id} testcase h hid _ := by
    have habsent : m.map.contains id = false := by
      rw [Std.TreeMap.contains_eq_isSome_getElem?, ← Bool.not_eq_true]
      exact mt (h.2 id).mpr hid
    refine ⟨⟨m.map.insert id testcase, m.history.add id⟩, ?_, ?_, fun k => ?_⟩
    · exact congrArg (fun b => some (b, _)) habsent
    · exact List.nodup_append.mpr
        ⟨h.1, by simp, by simpa using fun k hk => ne_of_mem_of_not_mem hk hid⟩
    · show _ ↔ ((m.map.insert id testcase)[k]?).isSome
      rw [IdMap.getElem?_insert, List.mem_append, List.mem_singleton, h.2 k]
      split <;> simp [*, BtreeCorpusMap.get]
  fifo_remove {T m l id} h := by
    obtain ⟨testcase, hitem⟩ := Option.isSome_iff_exists.mp ((h.2 id).mp List.mem_cons_self)
    have hid : m.map[id]? = some testcase := hitem
    obtain ⟨hnot, hnodup⟩ := List.nodup_cons.mp h.1
    refine ⟨⟨m.map.erase id, m.history.remove id⟩, ?_, ⟨hnodup, fun k => ?_⟩, nofun⟩
    · show m.remove id = some (m.get id, _)
      simp only [BtreeCorpusMap.remove, BtreeCorpusMap.get, hid]
    · show _ ↔ ((m.map.erase id)[k]?).isSome
      rw [IdMap.getElem?_erase]
      have hk := h.2 k
      rw [List.mem_cons] at hk
      split
      · next heq => subst heq; simp [hnot]
      · next hne => exact ⟨fun hl => hk.mp (Or.inr hl), fun hs => (hk.mpr hs).resolve_left hne⟩

theorem FifoCorpusMap.stuck_of_emptied {M : Type → Type} [InMemoryCorpusMap M] [FifoCorpusMap M]
    {T : Type} {m : M T} (h : FifoCorpusMap.Fifo m []) (hlast : last m ≠ none) : Stuck m := by
  obtain ⟨k, hk⟩ := Option.ne_none_iff_exists'.mp hlast
  exact ⟨k, hk, by simpa using mt (FifoCorpusMap.mem_iff h k).mpr List.not_mem_nil⟩

end Libaflmm
