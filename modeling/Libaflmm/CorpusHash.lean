import Libaflmm.CorpusMap
import Libaflmm.Runs

/-!
# The linked list of the hash map

`HashCorpusMap` threads its items into a doubly linked list, and answers
`first` and `last` from two ids kept on the side. The invariant is split
accordingly:

- `Chained map l`: the items are exactly the keys of `l`, each with the
  neighbours it has in `l`. `add` of a new id and `remove` of any id keep it.
- `Linked m l`: moreover the two ends are those of `l`. `remove` does not
  touch `first_id` and `last_id`, so it keeps this only inside the list; and
  `add` of a present id links the last item to one already in the list.

`WellLinked` is the same condition as a caller observes it, through `first`,
`next`, `prev` and `last` alone (`linked_iff_wellLinked`).
-/

namespace Libaflmm

open InMemoryCorpusMap (WellLinked)

namespace HashCorpusMap

variable {T : Type}

/-! ## Items and their neighbours -/

/-- The items are the keys of `l`, each linked to its neighbours in `l`. -/
structure Chained (map : IdMap (TestcaseStorageItem T)) (l : List TestcaseId) : Prop where
  nodup : l.Nodup
  keys : ∀ k, k ∈ l ↔ (map[k]?).isSome
  item : ∀ x k y, l = x ++ k :: y →
    ∃ testcase, map[k]? = some { testcase, prev := x.getLast?, next := y.head? }

/-- Where there is an item to set, `setNext` changes its `next` and nothing else. -/
theorem setNext_spec (map : IdMap (TestcaseStorageItem T)) (o : Option TestcaseId)
    (next : Option TestcaseId) (h : ∀ id, o = some id → (map[id]?).isSome) :
    ∃ map', o.elim (some map) (fun id => setNext map id next) = some map' ∧
      ∀ k, map'[k]? = if o = some k then map[k]?.map ({ · with next }) else map[k]? := by
  cases o with
  | none => exact ⟨map, rfl, fun k => rfl⟩
  | some id =>
      obtain ⟨item, hitem⟩ := Option.isSome_iff_exists.mp (h id rfl)
      refine ⟨map.insert id { item with next }, by simp [setNext, hitem], fun k => ?_⟩
      rw [IdMap.getElem?_insert]
      by_cases hk : k = id
      · subst hk
        simp [hitem]
      · rw [if_neg hk, if_neg (by simpa [eq_comm] using hk)]

theorem setPrev_spec (map : IdMap (TestcaseStorageItem T)) (o : Option TestcaseId)
    (prev : Option TestcaseId) (h : ∀ id, o = some id → (map[id]?).isSome) :
    ∃ map', o.elim (some map) (fun id => setPrev map id prev) = some map' ∧
      ∀ k, map'[k]? = if o = some k then map[k]?.map ({ · with prev }) else map[k]? := by
  cases o with
  | none => exact ⟨map, rfl, fun k => rfl⟩
  | some id =>
      obtain ⟨item, hitem⟩ := Option.isSome_iff_exists.mp (h id rfl)
      refine ⟨map.insert id { item with prev }, by simp [setPrev, hitem], fun k => ?_⟩
      rw [IdMap.getElem?_insert]
      by_cases hk : k = id
      · subst hk
        simp [hitem]
      · rw [if_neg hk, if_neg (by simpa [eq_comm] using hk)]

section

variable {map : IdMap (TestcaseStorageItem T)} {l x y : List TestcaseId} {id k : TestcaseId}

theorem Chained.empty : Chained (∅ : IdMap (TestcaseStorageItem T)) [] where
  nodup := List.nodup_nil
  keys := fun k => by simp
  item := fun x k y h => by simp at h

theorem Chained.getElem?_eq_none (h : Chained map l) (hk : k ∉ l) : map[k]? = none := by
  simpa using mt (h.keys k).mpr hk

end

/-! ## `add` of a new id -/

theorem linkLast_spec {m : HashCorpusMap T} {l : List TestcaseId} (h : Chained m.map l)
    (hlast : m.lastId = l.getLast?) (id : TestcaseId) :
    ∃ map, m.linkLast id = some map ∧
      ∀ k, map[k]? = if m.lastId = some k then m.map[k]?.map ({ · with next := some id })
        else m.map[k]? := by
  have hlink : m.linkLast id =
      m.lastId.elim (some m.map) fun lastId => setNext m.map lastId (some id) := by
    unfold linkLast
    cases m.lastId <;> rfl
  rw [hlink]
  refine setNext_spec m.map m.lastId (some id) fun lastId hl => ?_
  exact (h.keys lastId).mp (List.mem_of_getLast? (hlast ▸ hl))

/-- **`add` appends.** On a chain whose last id is known, adding an id that
is not in it returns, appends the id and reports that it was absent. -/
theorem add_chained {m : HashCorpusMap T} {l : List TestcaseId} {id : TestcaseId}
    (h : Chained m.map l) (hlast : m.lastId = l.getLast?) (hid : id ∉ l) (testcase : T) :
    ∃ m', m.add id testcase = some (false, m') ∧ Chained m'.map (l ++ [id]) ∧
      (∀ k, m'.get k = if k = id then some testcase else m.get k) ∧
      m'.firstId = (if m.firstId.isNone then some id else m.firstId) ∧
      m'.lastId = some id ∧ m'.history = m.history.add id := by
  obtain ⟨map, hmap, hget⟩ := linkLast_spec h hlast id
  have hsome : ∀ k, (map[k]?).isSome = (m.map[k]?).isSome := fun k => by
    rw [hget k]
    split
    · exact Option.isSome_map
    · rfl
  have hcontains : map.contains id = false := by
    rw [Std.TreeMap.contains_eq_isSome_getElem?, hsome, h.getElem?_eq_none hid]
    rfl
  refine ⟨_, by rw [add, hmap, Option.map_some, hcontains], ⟨?_, ?_, ?_⟩, ?_, rfl, rfl, rfl⟩
  · exact List.nodup_append.mpr
      ⟨h.nodup, by simp, by simpa using fun k hk => ne_of_mem_of_not_mem hk hid⟩
  · intro k
    rw [IdMap.getElem?_insert]
    by_cases hk : k = id
    · simp [hk]
    · rw [if_neg hk, hsome, ← h.keys k]
      simp [hk]
  · intro x k y hsplit
    rw [IdMap.getElem?_insert]
    rcases split_append hsplit.symm with ⟨z, rfl, rfl⟩ | ⟨z, hz, rfl⟩
    · have hk : k ≠ id := fun e => hid (by simp [e])
      obtain ⟨old, hitem⟩ := h.item x k z rfl
      rw [if_neg hk, hget k, hitem]
      by_cases hz : z = []
      · subst hz
        rw [if_pos (by rw [hlast]; simp)]
        exact ⟨old, rfl⟩
      · have hne : m.lastId ≠ some k := by
          intro heq
          rw [hlast, List.getLast?_append_of_ne_nil _ (by simp),
            List.getLast?_cons_of_ne_nil hz] at heq
          exact (not_mem_split h.nodup).2 (List.mem_of_getLast? heq)
        rw [if_neg hne]
        exact ⟨old, by rw [List.head?_append_of_ne_nil _ hz]⟩
    · obtain ⟨rfl, rfl, rfl⟩ : z = [] ∧ k = id ∧ y = [] := by
        cases z with
        | nil => simpa [eq_comm] using hz
        | cons c z => simp at hz
      exact ⟨testcase, by simp [hlast]⟩
  · intro k
    simp only [get, IdMap.getElem?_insert]
    split
    · rfl
    · rw [hget k]
      split
      · rw [Option.map_map]
        rfl
      · rfl

/-! ## `remove` -/

section

variable {map : IdMap (TestcaseStorageItem T)} {x y : List TestcaseId} {id : TestcaseId}

/-- Erasing an id and linking its neighbours to one another. -/
theorem relink_spec (testcase : T) (h : Chained map (x ++ id :: y)) :
    ∃ map₁ map₂,
      relinkPrev (map.erase id) ⟨testcase, x.getLast?, y.head?⟩ = some map₁ ∧
      relinkNext map₁ ⟨testcase, x.getLast?, y.head?⟩ = some map₂ ∧
      ∀ k, map₂[k]? = if k = id then none else
        map[k]?.map fun item =>
          { item with
            next := if x.getLast? = some k then y.head? else item.next
            prev := if y.head? = some k then x.getLast? else item.prev } := by
  obtain ⟨hidx, hidy⟩ := not_mem_split h.nodup
  have hkept : ∀ k, k ≠ id → k ∈ x ++ id :: y → ((map.erase id)[k]?).isSome := by
    intro k hk hmem
    rw [IdMap.getElem?_erase, if_neg hk]
    exact (h.keys k).mp hmem
  obtain ⟨map₁, h₁, hget₁⟩ := setNext_spec (map.erase id) x.getLast? y.head? <| by
    intro p hp
    have hpx : p ∈ x := List.mem_of_getLast? hp
    exact hkept p (ne_of_mem_of_not_mem hpx hidx) (List.mem_append_left _ hpx)
  obtain ⟨map₂, h₂, hget₂⟩ := setPrev_spec map₁ y.head? x.getLast? <| by
    intro n hn
    have hny : n ∈ y := List.mem_of_mem_head? hn
    have hsome := hkept n (ne_of_mem_of_not_mem hny hidy)
      (List.mem_append_right _ (List.mem_cons_of_mem _ hny))
    rw [hget₁ n]
    split
    · exact Option.isSome_map.trans hsome
    · exact hsome
  have hprev : relinkPrev (map.erase id) ⟨testcase, x.getLast?, y.head?⟩ = some map₁ := by
    rw [← h₁]
    unfold relinkPrev
    cases x.getLast? <;> rfl
  have hnext : relinkNext map₁ ⟨testcase, x.getLast?, y.head?⟩ = some map₂ := by
    rw [← h₂]
    unfold relinkNext
    cases y.head? <;> rfl
  refine ⟨map₁, map₂, hprev, hnext, fun k => ?_⟩
  rw [hget₂ k, hget₁ k, IdMap.getElem?_erase]
  by_cases hk : k = id
  · simp [hk]
  · rw [if_neg hk, if_neg hk]
    by_cases hx : x.getLast? = some k <;> by_cases hy : y.head? = some k <;>
      simp [hx, hy, Option.map_map, Function.comp_def]

/-- **`remove` unlinks.** Removing an id of a chain returns and leaves the
chain without it; the two ends recorded on the side are not updated. -/
theorem remove_chained {m : HashCorpusMap T} (h : Chained m.map (x ++ id :: y)) :
    ∃ m', m.remove id = some (m.get id, m') ∧ Chained m'.map (x ++ y) ∧
      (∀ k, m'.get k = if k = id then none else m.get k) ∧
      m'.firstId = m.firstId ∧ m'.lastId = m.lastId ∧ m'.history = m.history.remove id := by
  obtain ⟨testcase, hitem⟩ := h.item x id y rfl
  obtain ⟨map₁, map₂, h₁, h₂, hget⟩ := relink_spec testcase h
  have hsub : (x ++ y).Sublist (x ++ id :: y) :=
    List.Sublist.append_left (List.sublist_cons_self _ _) _
  refine ⟨{ m with map := map₂, history := m.history.remove id }, ?_, ⟨?_, ?_, ?_⟩, ?_,
    rfl, rfl, rfl⟩
  · simp only [remove, get, hitem, h₁, Option.bind_some, h₂, Option.map_some]
  · exact h.nodup.sublist hsub
  · intro k
    rw [hget k]
    by_cases hk : k = id
    · subst hk
      have := not_mem_split h.nodup
      simp [this]
    · rw [if_neg hk, Option.isSome_map, ← h.keys k]
      simp [hk]
  · intro u k v hsplit
    have hk : k ≠ id := by
      rintro rfl
      have hmem : k ∈ x ++ y := by rw [hsplit]; simp
      have := not_mem_split h.nodup
      simp [this] at hmem
    -- `k` stood before the id or after it, and one of its two neighbours may change
    rcases split_append hsplit.symm with ⟨z, rfl, rfl⟩ | ⟨z, rfl, rfl⟩
    · obtain ⟨old, hold⟩ := h.item u k (z ++ id :: y) (by simp)
      obtain ⟨hky, hnext⟩ := head?_unlinked h.nodup
      refine ⟨old, ?_⟩
      rw [hget k, if_neg hk, hold, Option.map_some, if_neg hky, hnext]
    · obtain ⟨old, hold⟩ := h.item (x ++ id :: z) k v (by simp)
      obtain ⟨hkx, hprev⟩ := getLast?_unlinked h.nodup
      refine ⟨old, ?_⟩
      rw [hget k, if_neg hk, hold, Option.map_some, if_neg hkx, hprev]
  · intro k
    simp only [get, hget k]
    split
    · rfl
    · rw [Option.map_map]
      rfl

theorem remove_absent {m : HashCorpusMap T} (h : m.get id = none) :
    m.remove id = some (none, m) := by
  have hmap : m.map[id]? = none := by simpa [get] using h
  simp only [remove, hmap]

end

/-! ## The two ends -/

structure Linked (m : HashCorpusMap T) (l : List TestcaseId) : Prop
    extends Chained m.map l where
  firstId_eq : m.firstId = l.head?
  lastId_eq : m.lastId = l.getLast?

section

variable {m : HashCorpusMap T} {l x y : List TestcaseId} {id : TestcaseId}

theorem isSome_get (k : TestcaseId) : (m.get k).isSome = (m.map[k]?).isSome := Option.isSome_map

theorem Chained.threads (h : Chained m.map l) : Threads m.next m.prev l where
  next_at := fun x k y hl => by
    obtain ⟨testcase, hitem⟩ := h.item x k y hl
    simp only [next, hitem]
  prev_at := fun x k y hl => by
    obtain ⟨testcase, hitem⟩ := h.item x k y hl
    simp only [prev, hitem]

theorem next_eq_none {k : TestcaseId} (hk : (m.map[k]?) = none) : m.next k = none := by
  simp only [next, hk]

theorem prev_eq_none {k : TestcaseId} (hk : (m.map[k]?) = none) : m.prev k = none := by
  simp only [prev, hk]

theorem Chained.isEmpty_iff (h : Chained m.map l) : m.isEmpty = true ↔ l = [] := by
  rw [isEmpty, Std.TreeMap.isEmpty_iff_forall_not_mem, List.eq_nil_iff_forall_not_mem]
  refine forall_congr' fun k => not_congr ?_
  rw [h.keys k, Std.TreeMap.mem_iff_isSome_getElem?]

theorem Linked.wellLinked (h : Linked m l) : WellLinked m l where
  walk := by
    show Walk m.next m.firstId l
    rw [h.firstId_eq]
    exact walk_of_next_at h.threads.next_at
  nodup := h.nodup
  keys := fun k => (h.keys k).trans (by rw [← isSome_get k]; rfl)
  last := h.lastId_eq
  inverse := h.threads.inverse h.nodup (fun k hk => next_eq_none (h.getElem?_eq_none hk))
    (fun k hk => prev_eq_none (h.getElem?_eq_none hk))
  first_none := by
    show m.firstId = none ↔ m.isEmpty
    rw [h.firstId_eq, List.head?_eq_none_iff, h.isEmpty_iff]
  last_none := by
    show m.lastId = none ↔ m.isEmpty
    rw [h.lastId_eq, List.getLast?_eq_none_iff, h.isEmpty_iff]

theorem linked_of_wellLinked (h : WellLinked m l) : Linked m l := by
  have hkeys : ∀ k, k ∈ l ↔ (m.map[k]?).isSome := fun k => by
    rw [← isSome_get k]
    exact h.keys k
  have hthreads : Threads m.next m.prev l := threads_of_walk h.walk h.nodup
    (fun k hk => next_eq_none (by simpa using mt (hkeys k).mpr hk)) h.inverse
  refine ⟨⟨h.nodup, hkeys, fun u k v hl => ?_⟩, h.walk.head, h.last⟩
  obtain ⟨item, hitem⟩ := Option.isSome_iff_exists.mp ((hkeys k).mp (by simp [hl]))
  have hnext := hthreads.next_at u k v hl
  have hprev := hthreads.prev_at u k v hl
  simp only [next, prev, hitem] at hnext hprev
  exact ⟨item.testcase, by rw [hitem, ← hnext, ← hprev]⟩

/-- What a caller observes determines the representation. -/
theorem linked_iff_wellLinked : Linked m l ↔ WellLinked m l :=
  ⟨Linked.wellLinked, linked_of_wellLinked⟩

theorem Linked.empty : Linked (HashCorpusMap.empty : HashCorpusMap T) [] :=
  ⟨Chained.empty, rfl, rfl⟩

/-! ## One step -/

theorem Linked.add_new (h : Linked m l) (hid : id ∉ l) (testcase : T) :
    ∃ m', m.add id testcase = some (false, m') ∧ Linked m' (l ++ [id]) := by
  obtain ⟨m', hadd, hchain, -, hfirst, hlast, -⟩ := add_chained h.toChained h.lastId_eq hid testcase
  refine ⟨m', hadd, hchain, ?_, by simpa using hlast⟩
  rw [hfirst, h.firstId_eq]
  cases l <;> rfl

theorem Linked.remove_inner (h : Linked m (x ++ id :: y)) (hx : x ≠ []) (hy : y ≠ []) :
    ∃ m', m.remove id = some (m.get id, m') ∧ Linked m' (x ++ y) := by
  obtain ⟨m', hrem, hchain, -, hfirst, hlast, -⟩ := remove_chained h.toChained
  refine ⟨m', hrem, hchain, ?_, ?_⟩
  · rw [hfirst, h.firstId_eq, List.head?_append_of_ne_nil _ hx, List.head?_append_of_ne_nil _ hx]
  · rw [hlast, h.lastId_eq, List.getLast?_append_of_ne_nil _ hy,
      List.getLast?_append_of_ne_nil _ (by simp), List.getLast?_cons_of_ne_nil hy]

/-- `add` never leaves the order as it was: an id already last would be its
own predecessor with nothing after it. -/
theorem Linked.add_same_order (h : Linked m l) {testcase : T} {b : Bool}
    {m' : HashCorpusMap T} (hadd : m.add id testcase = some (b, m')) :
    ¬ WellLinked m' l := by
  intro hw
  obtain ⟨map, hmap, -⟩ := linkLast_spec h.toChained h.lastId_eq id
  rw [add, hmap] at hadd
  obtain ⟨-, hm'⟩ := Prod.mk.inj (Option.some.inj hadd)
  have hlast : some id = l.getLast? := by
    rw [← hw.last, ← hm']
    rfl
  have hnext : m'.next id = none := by
    simp only [← hm', next, IdMap.getElem?_insert, if_pos]
  have hprev : m'.prev id = some id := by
    simp only [← hm', prev, IdMap.getElem?_insert, if_pos]
    rw [h.lastId_eq, ← hlast]
  have hself := (hw.inverse id id).mpr hprev
  exact absurd (hself.symm.trans hnext) (by simp)

/-- Removing the first or the last key leaves it recorded as an end. -/
theorem Linked.remove_end (h : Linked m (x ++ id :: y)) (hend : x = [] ∨ y = [])
    {r : Option T} {m' : HashCorpusMap T} (hrem : m.remove id = some (r, m')) :
    ¬ WellLinked m' (x ++ y) := by
  intro hw
  obtain ⟨m'', hrem', -, -, hfirst, hlast, -⟩ := remove_chained h.toChained
  obtain ⟨-, rfl⟩ := Prod.mk.inj (Option.some.inj (hrem'.symm.trans hrem))
  have hnot := not_mem_split h.nodup
  rcases hend with rfl | rfl
  · have hhead : some id = y.head? := by
      have : m''.firstId = y.head? := hw.walk.head
      rwa [hfirst, h.firstId_eq] at this
    exact hnot.2 (List.mem_of_mem_head? hhead.symm)
  · have hhead : some id = x.getLast? := by
      have : m''.lastId = (x ++ []).getLast? := hw.last
      rw [hlast, h.lastId_eq] at this
      simpa using this
    exact hnot.1 (List.mem_of_getLast? hhead.symm)

end

end HashCorpusMap

/-! ## Whole runs -/

namespace HashCorpusMap

variable {T : Type}

/-- The steps that keep the list: adding an id the map does not hold, and
removing one that is absent or neither the first nor the last. -/
def EndsKept (m : HashCorpusMap T) : MapOp T → Prop
  | .add id _ => m.get id = none
  | .remove id => m.get id = none ∨ (m.first ≠ some id ∧ m.last ≠ some id)

theorem Linked.get_eq_none_iff {m : HashCorpusMap T} {l : List TestcaseId} {id : TestcaseId}
    (h : Linked m l) : m.get id = none ↔ id ∉ l := by
  rw [h.keys id, ← isSome_get id]
  simp

theorem Linked.endsKept_remove_iff {m : HashCorpusMap T} {x y : List TestcaseId}
    {id : TestcaseId} (h : Linked m (x ++ id :: y)) :
    EndsKept m (.remove id) ↔ x ≠ [] ∧ y ≠ [] := by
  obtain ⟨hx, hy⟩ := not_mem_split h.nodup
  rw [EndsKept, h.get_eq_none_iff, HashCorpusMap.first, HashCorpusMap.last, h.firstId_eq,
    h.lastId_eq]
  simp only [List.mem_append, List.mem_cons, true_or, or_true, not_true_eq_false, false_or]
  refine and_congr (not_congr ?_) (not_congr ?_)
  · cases x with
    | nil => simp
    | cons c x => simpa using fun e => hx (by simp [e])
  · rcases List.eq_nil_or_concat y with rfl | ⟨z, c, rfl⟩
    · simp
    · simp only [List.concat_eq_append, List.append_eq_nil_iff, List.cons_ne_self,
        and_false, iff_false]
      rw [← List.cons_append, ← List.append_assoc, List.getLast?_concat]
      intro e
      exact hy (by simp [Option.some.inj e])

/-- **The step lemma.** From a well linked map an operation returns and
leaves the map well linked exactly when it is one of `EndsKept`. -/
theorem Linked.step_iff {m : HashCorpusMap T} {l : List TestcaseId} (h : Linked m l)
    (op : MapOp T) :
    (∃ m', op.exec m = some m' ∧ WellLinked m' (op.order l)) ↔ EndsKept m op := by
  cases op with
  | add id testcase =>
      rw [EndsKept, h.get_eq_none_iff]
      constructor
      · rintro ⟨m', hexec, hw⟩ hid
        obtain ⟨⟨b, m''⟩, hadd, rfl⟩ := Option.map_eq_some_iff.mp hexec
        rw [MapOp.order, Chronology.insert_of_mem hid] at hw
        exact h.add_same_order hadd hw
      · intro hid
        obtain ⟨m', hadd, hl⟩ := h.add_new hid testcase
        refine ⟨m', Option.map_eq_some_iff.mpr ⟨_, hadd, rfl⟩, ?_⟩
        rw [MapOp.order, Chronology.insert_of_not_mem hid]
        exact hl.wellLinked
  | remove id =>
      by_cases hid : id ∈ l
      · obtain ⟨x, y, rfl⟩ := List.append_of_mem hid
        obtain ⟨hx, hy⟩ := not_mem_split h.nodup
        have horder : (MapOp.remove id : MapOp T).order (x ++ id :: y) = x ++ y :=
          Chronology.erase_split hx
        rw [horder, h.endsKept_remove_iff]
        constructor
        · rintro ⟨m', hexec, hw⟩
          obtain ⟨⟨r, m''⟩, hrem, rfl⟩ := Option.map_eq_some_iff.mp hexec
          by_contra hne
          exact h.remove_end (by tauto) hrem hw
        · rintro ⟨hxne, hyne⟩
          obtain ⟨m', hrem, hl⟩ := h.remove_inner hxne hyne
          exact ⟨m', Option.map_eq_some_iff.mpr ⟨_, hrem, rfl⟩, hl.wellLinked⟩
      · have hget := h.get_eq_none_iff.mpr hid
        refine iff_of_true ⟨m, ?_, ?_⟩ (Or.inl hget)
        · exact Option.map_eq_some_iff.mpr ⟨_, remove_absent hget, rfl⟩
        · rw [MapOp.order, List.erase_of_not_mem hid]
          exact h.wellLinked

/-- **The hash map stays well linked exactly as long as its ends are kept.**
Along a run from the empty map no operation panics and the list enumerates
the keys in order of first insertion, if and only if every operation adds an
absent id, or removes an absent or an inner one. -/
theorem survives_wellLinked_iff (ops : List (MapOp T)) :
    Survives MapOp.exec (InMemoryCorpusMap.empty : HashCorpusMap T) ops
        (fun done m => WellLinked m (chronological done)) ↔
      StepsMeet MapOp.exec (InMemoryCorpusMap.empty : HashCorpusMap T) ops EndsKept := by
  refine survives_iff_stepsMeet Linked.empty.wellLinked fun done m op _ hm => ?_
  rw [chronological_concat]
  exact (linked_iff_wellLinked.mpr hm).step_iff op

/-- Emptied and filled again, the map panics. -/
theorem readd_after_empty_panics :
    ¬ ∀ ops : List (MapOp Unit), ∃ m : HashCorpusMap Unit,
      run MapOp.exec InMemoryCorpusMap.empty ops = some m ∧
        WellLinked m (chronological ops) := by
  intro h
  obtain ⟨m, hm, -⟩ := h [.add ⟨1⟩ (), .remove ⟨1⟩, .add ⟨2⟩ ()]
  have hpanic : (run MapOp.exec (InMemoryCorpusMap.empty : HashCorpusMap Unit)
      [.add ⟨1⟩ (), .remove ⟨1⟩, .add ⟨2⟩ ()]).isNone = true := by decide
  rw [hm] at hpanic
  cases hpanic

end HashCorpusMap

end Libaflmm
