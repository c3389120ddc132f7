import Libaflmm.CorpusHash

/-!
# The two maps side by side

`BtreeCorpusMap` keeps no links: it answers `prev`, `next`, `first` and
`last` in the order of the ids. Where the trait speaks of chronological
order, the two maps therefore agree only on histories whose ids grow.

- `BtreeCorpusMap.wellLinked_keys`: the B-tree realises the sorted order of
  its keys, after any history.
- `wellLinked_unique`: a map realises at most one order. Hence the B-tree
  realises the chronological order exactly when that is sorted.
- `Agree.step_iff`: the step lemma for the two maps run in parallel, from
  which `agree_iff_idsGrow` follows by the run lemma.
-/

namespace Libaflmm

open InMemoryCorpusMap (WellLinked)

/-- A map realises one order only. -/
theorem wellLinked_unique {M : Type → Type} [InMemoryCorpusMap M] {T : Type} {m : M T}
    {l l' : List TestcaseId} (h : WellLinked m l) (h' : WellLinked m l') : l = l' :=
  h.walk.unique h'.walk

/-! ## The B-tree realises the order of the ids -/

namespace BtreeCorpusMap

variable {T : Type} {m : BtreeCorpusMap T} {x y : List TestcaseId} {id : TestcaseId}

theorem filter_le_split (h : (x ++ id :: y).Pairwise (· < ·)) :
    (x ++ id :: y).filter (· ≤ id) = x ++ [id] := by
  obtain ⟨-, hy, hx⟩ := List.pairwise_append.mp h
  have hxid : ∀ k ∈ x, k ≤ id := fun k hk => (hx k hk id (by simp)).le
  have hyid : ∀ k ∈ y, ¬ k ≤ id := fun k hk => not_le.mpr ((List.pairwise_cons.mp hy).1 k hk)
  have hkeep : x.filter (· ≤ id) = x := List.filter_eq_self.mpr (by simpa using hxid)
  have hdrop : y.filter (· ≤ id) = [] := List.filter_eq_nil_iff.mpr (by simpa using hyid)
  rw [List.filter_append, List.filter_cons_of_pos (by simp), hkeep, hdrop]

theorem filter_ge_split (h : (x ++ id :: y).Pairwise (· < ·)) :
    (x ++ id :: y).filter (id ≤ ·) = id :: y := by
  obtain ⟨-, hy, hx⟩ := List.pairwise_append.mp h
  have hxid : ∀ k ∈ x, ¬ id ≤ k := fun k hk => not_le.mpr (hx k hk id (by simp))
  have hyid : ∀ k ∈ y, id ≤ k := fun k hk => ((List.pairwise_cons.mp hy).1 k hk).le
  have hdrop : x.filter (id ≤ ·) = [] := List.filter_eq_nil_iff.mpr (by simpa using hxid)
  have hkeep : y.filter (id ≤ ·) = y := List.filter_eq_self.mpr (by simpa using hyid)
  rw [List.filter_append, List.filter_cons_of_pos (by simp), hdrop, hkeep, List.nil_append]

/-- `prev` and `next` thread the sorted keys. -/
theorem threads_keys (m : BtreeCorpusMap T) : Threads m.next m.prev m.map.keys where
  next_at := fun x id y hl => by
    have hs := m.map.keys_sorted
    rw [hl] at hs
    simp [next, hl, filter_ge_split hs]
  prev_at := fun x id y hl => by
    have hs := m.map.keys_sorted
    rw [hl] at hs
    simp [prev, hl, filter_le_split hs]

theorem next_absent (h : id ∉ m.map.keys) : m.next id = none := by
  unfold next
  cases hr : m.map.keys.filter (id ≤ ·) with
  | nil => rfl
  | cons k r =>
      have hk : k ∈ m.map.keys := (List.mem_filter.mp (by rw [hr]; simp)).1
      simp [ne_of_mem_of_not_mem hk h |>.symm]

theorem prev_absent (h : id ∉ m.map.keys) : m.prev id = none := by
  unfold prev
  rcases List.eq_nil_or_concat (m.map.keys.filter (· ≤ id)) with hr | ⟨r, k, hr⟩
  · simp [hr]
  · have hk : k ∈ m.map.keys := (List.mem_filter.mp (by rw [hr]; simp)).1
    simp [hr, ne_of_mem_of_not_mem hk h |>.symm]

theorem isEmpty_iff : m.isEmpty = true ↔ m.map.keys = [] := by
  rw [isEmpty, Std.TreeMap.isEmpty_iff_forall_not_mem, List.eq_nil_iff_forall_not_mem]
  exact forall_congr' fun k => not_congr Std.TreeMap.mem_keys.symm

/-- **The order of the B-tree** is that of its keys. -/
theorem wellLinked_keys (m : BtreeCorpusMap T) : WellLinked m m.map.keys where
  walk := walk_of_next_at m.threads_keys.next_at
  nodup := m.map.keys_sorted.imp ne_of_lt
  keys := fun _ => IdMap.mem_keys
  last := rfl
  inverse := m.threads_keys.inverse (m.map.keys_sorted.imp ne_of_lt)
    (fun _ => next_absent) (fun _ => prev_absent)
  first_none := List.head?_eq_none_iff.trans isEmpty_iff.symm
  last_none := List.getLast?_eq_none_iff.trans isEmpty_iff.symm

theorem remove_answer (id : TestcaseId) : (m.remove id).map (·.1) = some (m.get id) := by
  unfold remove get
  cases m.map[id]? <;> rfl

end BtreeCorpusMap

/-! ## Answering alike -/

section

variable {M M' : Type → Type} [InMemoryCorpusMap M] [InMemoryCorpusMap M'] {T : Type}

open InMemoryCorpusMap in
/-- Every query of the trait has the same answer in the two maps. -/
structure SameAnswers (m : M T) (m' : M' T) : Prop where
  count : count m = count m'
  isEmpty : isEmpty m = isEmpty m'
  get : ∀ id, get m id = get m' id
  remove : ∀ id, (remove id m).map (·.1) = (remove id m').map (·.1)
  prev : ∀ id, prev m id = prev m' id
  next : ∀ id, next m id = next m' id
  first : first m = first m'
  last : last m = last m'
  nth : ∀ n, nth m n = nth m' n

/-- The order that the trait documents: `l` is met from `first` to `last`,
and `nth` counts along it. -/
structure Realises (m : M T) (l : List TestcaseId) : Prop extends WellLinked m l where
  nth : ∀ n, InMemoryCorpusMap.nth m n = l[n]?

structure Agree (m : M T) (m' : M' T) (l : List TestcaseId) : Prop where
  answers : SameAnswers m m'
  left : Realises m l
  right : Realises m' l

end

theorem HashCorpusMap.Linked.remove_answer {T : Type} {m : HashCorpusMap T}
    {l : List TestcaseId} (h : m.Linked l) (id : TestcaseId) :
    (m.remove id).map (·.1) = some (m.get id) := by
  by_cases hid : id ∈ l
  · obtain ⟨x, y, rfl⟩ := List.append_of_mem hid
    obtain ⟨m', hrem, -⟩ := HashCorpusMap.remove_chained h.toChained
    rw [hrem, Option.map_some]
  · have hget := h.get_eq_none_iff.mpr hid
    rw [HashCorpusMap.remove_absent hget, Option.map_some, hget]

section

variable {T : Type} {m : HashCorpusMap T} {b : BtreeCorpusMap T} {l : List TestcaseId}

/-- The relation behind the answers: the linked list, the keys of the B-tree
and the two histories are one list, and the testcases are the same. -/
structure MapSim (m : HashCorpusMap T) (b : BtreeCorpusMap T) (l : List TestcaseId) : Prop where
  linked : m.Linked l
  keys : b.map.keys = l
  get : ∀ id, m.get id = b.get id
  history : m.history.keys = l
  history_btree : b.history.keys = l

theorem MapSim.sorted (h : MapSim m b l) : l.Pairwise (· < ·) := h.keys ▸ b.map.keys_sorted

theorem MapSim.empty : MapSim (HashCorpusMap.empty : HashCorpusMap T) BtreeCorpusMap.empty [] where
  linked := .empty
  keys := rfl
  get := fun _ => rfl
  history := rfl
  history_btree := rfl

theorem MapSim.count_eq (h : MapSim m b l) : m.count = b.count := by
  have hkeys : m.map.keys = l := m.map.keys_sorted.eq_of_mem_iff h.sorted fun k => by
    rw [IdMap.mem_keys, h.linked.keys k]
  rw [HashCorpusMap.count, BtreeCorpusMap.count, ← Std.TreeMap.length_keys,
    ← Std.TreeMap.length_keys, hkeys, h.keys]

theorem MapSim.agree (h : MapSim m b l) : Agree m b l := by
  have hm := h.linked.wellLinked
  have hb : WellLinked b l := h.keys ▸ b.wellLinked_keys
  have hnth : ∀ n, m.nth n = l[n]? := fun n => by rw [← h.history]; rfl
  have hnth' : ∀ n, b.nth n = l[n]? := fun n => by rw [← h.history_btree]; rfl
  have hthreads := h.linked.threads
  have hthreads' := b.threads_keys
  rw [h.keys] at hthreads'
  refine ⟨⟨h.count_eq, ?_, h.get, ?_, ?_, ?_, ?_, ?_, ?_⟩, ⟨hm, hnth⟩, ⟨hb, hnth'⟩⟩
  · refine Bool.eq_iff_iff.mpr (hm.last_none.symm.trans ?_)
    rw [hm.last, ← hb.last]
    exact hb.last_none
  · intro id
    exact (h.linked.remove_answer id).trans (h.get id ▸ (b.remove_answer id).symm)
  · intro id
    by_cases hid : id ∈ l
    · obtain ⟨x, y, rfl⟩ := List.append_of_mem hid
      exact (hthreads.prev_at x id y rfl).trans (hthreads'.prev_at x id y rfl).symm
    · exact (HashCorpusMap.prev_eq_none (h.linked.getElem?_eq_none hid)).trans
        (BtreeCorpusMap.prev_absent (h.keys ▸ hid)).symm
  · intro id
    by_cases hid : id ∈ l
    · obtain ⟨x, y, rfl⟩ := List.append_of_mem hid
      exact (hthreads.next_at x id y rfl).trans (hthreads'.next_at x id y rfl).symm
    · exact (HashCorpusMap.next_eq_none (h.linked.getElem?_eq_none hid)).trans
        (BtreeCorpusMap.next_absent (h.keys ▸ hid)).symm
  · exact hm.walk.head.trans hb.walk.head.symm
  · exact hm.last.trans hb.last.symm
  · exact fun n => (hnth n).trans (hnth' n).symm

theorem Agree.sim (h : Agree m b l) : MapSim m b l where
  linked := HashCorpusMap.linked_of_wellLinked h.left.toWellLinked
  keys := wellLinked_unique b.wellLinked_keys h.right.toWellLinked
  get := h.answers.get
  history := List.ext_getElem? h.left.nth
  history_btree := List.ext_getElem? h.right.nth

/-! ## The two maps in parallel -/

/-- Both maps after one operation, `none` when either panics. -/
def MapOp.execBoth (s : HashCorpusMap T × BtreeCorpusMap T) (op : MapOp T) :
    Option (HashCorpusMap T × BtreeCorpusMap T) :=
  (op.exec s.1).bind fun m => (op.exec s.2).map fun b => (m, b)

/-- The steps on which the maps keep agreeing: adding an id above the last
one, and removing one that is absent or neither the first nor the last. -/
def IdsGrow (s : HashCorpusMap T × BtreeCorpusMap T) : MapOp T → Prop
  | .add id _ => ∀ last, s.1.last = some last → last < id
  | .remove id => s.1.get id = none ∨ (s.1.first ≠ some id ∧ s.1.last ≠ some id)

theorem sorted_concat_iff {id : TestcaseId} (hs : l.Pairwise (· < ·)) :
    (l ++ [id]).Pairwise (· < ·) ↔ ∀ last, l.getLast? = some last → last < id := by
  rw [List.pairwise_append]
  constructor
  · intro h last hlast
    exact h.2.2 last (List.mem_of_getLast? hlast) id (by simp)
  · intro h
    refine ⟨hs, by simp, fun k hk c hc => ?_⟩
    obtain rfl := List.mem_singleton.mp hc
    rcases List.eq_nil_or_concat l with rfl | ⟨l, last, rfl⟩
    · cases hk
    · rw [List.concat_eq_append] at hk hs h
      have hlast : last < c := h last (by simp)
      rcases List.mem_append.mp hk with hk | hk
      · exact ((List.pairwise_append.mp hs).2.2 k hk last (by simp)).trans hlast
      · rwa [List.mem_singleton.mp hk]

theorem MapSim.not_mem {id : TestcaseId} (h : MapSim m b l)
    (hgrow : ∀ last, m.last = some last → last < id) : id ∉ l := by
  have hsorted := (sorted_concat_iff h.sorted).mpr fun last hlast =>
    hgrow last (h.linked.lastId_eq.trans hlast)
  intro hid
  exact lt_irrefl id ((List.pairwise_append.mp hsorted).2.2 id hid id (by simp))

theorem MapSim.add {id : TestcaseId} (h : MapSim m b l)
    (hgrow : ∀ last, m.last = some last → last < id) (testcase : T) :
    ∃ m' b', m.add id testcase = some (false, m') ∧ b.add id testcase = some (false, b') ∧
      MapSim m' b' (l ++ [id]) := by
  have hid := h.not_mem hgrow
  have hsorted : (l ++ [id]).Pairwise (· < ·) := (sorted_concat_iff h.sorted).mpr
    fun last hlast => hgrow last (h.linked.lastId_eq.trans hlast)
  obtain ⟨m', hadd, hlinked⟩ := h.linked.add_new hid testcase
  obtain ⟨m'', hadd', -, hget, -, -, hhist⟩ :=
    HashCorpusMap.add_chained h.linked.toChained h.linked.lastId_eq hid testcase
  obtain ⟨-, rfl⟩ := Prod.mk.inj (Option.some.inj (hadd.symm.trans hadd'))
  have habsent : b.map.contains id = false := by
    rw [Std.TreeMap.contains_eq_isSome_getElem?, ← Bool.not_eq_true, ← IdMap.mem_keys, h.keys]
    exact hid
  have hmem : ∀ k, k ∈ l ++ [id] ↔ k = id ∨ k ∈ l := fun k => by simp [or_comm]
  refine ⟨m', ⟨b.map.insert id testcase, b.history.add id⟩, hadd, ?_, hlinked, ?_, ?_, ?_, ?_⟩
  · rw [BtreeCorpusMap.add, habsent]
  · refine (IdMap.keys_sorted).eq_of_mem_iff hsorted fun k => ?_
    rw [IdMap.mem_keys, IdMap.getElem?_insert, hmem, ← h.keys, IdMap.mem_keys]
    split <;> simp [*]
  · intro k
    rw [hget k]
    show _ = (b.map.insert id testcase)[k]?
    rw [IdMap.getElem?_insert]
    split
    · rfl
    · exact h.get k
  · rw [hhist]
    exact TestcaseIdHistory.keys_eq hsorted fun k => by
      rw [TestcaseIdHistory.mem_add, h.history, hmem]
  · exact TestcaseIdHistory.keys_eq hsorted fun k => by
      rw [TestcaseIdHistory.mem_add, h.history_btree, hmem]

theorem MapSim.remove_inner {x y : List TestcaseId} {id : TestcaseId}
    (h : MapSim m b (x ++ id :: y)) (hx : x ≠ []) (hy : y ≠ []) :
    ∃ m' b', m.remove id = some (m.get id, m') ∧ b.remove id = some (b.get id, b') ∧
      MapSim m' b' (x ++ y) := by
  have hnot := not_mem_split h.linked.nodup
  have hsorted : (x ++ y).Pairwise (· < ·) :=
    h.sorted.sublist (List.Sublist.append_left (List.sublist_cons_self _ _) _)
  have hmem : ∀ k, k ∈ x ++ y ↔ k ≠ id ∧ k ∈ x ++ id :: y := fun k => by
    by_cases hk : k = id
    · subst hk; simp [hnot]
    · simp [hk]
  obtain ⟨m', hrem, hlinked⟩ := h.linked.remove_inner hx hy
  obtain ⟨m'', hrem', -, hget, -, -, hhist⟩ :=
    HashCorpusMap.remove_chained h.linked.toChained
  obtain ⟨-, rfl⟩ := Prod.mk.inj (Option.some.inj (hrem.symm.trans hrem'))
  obtain ⟨testcase, hitem⟩ : ∃ testcase, b.map[id]? = some testcase := by
    have : id ∈ b.map.keys := by rw [h.keys]; simp
    exact Option.isSome_iff_exists.mp (IdMap.mem_keys.mp this)
  refine ⟨m', ⟨b.map.erase id, b.history.remove id⟩, hrem, ?_, hlinked, ?_, ?_, ?_, ?_⟩
  · simp only [BtreeCorpusMap.remove, BtreeCorpusMap.get, hitem]
  · refine (IdMap.keys_sorted).eq_of_mem_iff hsorted fun k => ?_
    rw [IdMap.mem_keys, IdMap.getElem?_erase, hmem, ← h.keys, IdMap.mem_keys]
    split <;> simp [*]
  · intro k
    rw [hget k]
    show _ = (b.map.erase id)[k]?
    rw [IdMap.getElem?_erase]
    split
    · rfl
    · exact h.get k
  · rw [hhist]
    exact TestcaseIdHistory.keys_eq hsorted fun k => by
      rw [TestcaseIdHistory.mem_remove, h.history, hmem]
  · exact TestcaseIdHistory.keys_eq hsorted fun k => by
      rw [TestcaseIdHistory.mem_remove, h.history_btree, hmem]

/-- **The step lemma.** From agreeing maps an operation returns in both and
leaves them agreeing exactly when it is one of `IdsGrow`. -/
theorem Agree.step_iff (h : Agree m b l) (op : MapOp T) :
    (∃ s, op.execBoth (m, b) = some s ∧ Agree s.1 s.2 (op.order l)) ↔ IdsGrow (m, b) op := by
  have hsim := h.sim
  constructor
  · rintro ⟨⟨m', b'⟩, hstep, hagree⟩
    obtain ⟨m'', hm, hrest⟩ := Option.bind_eq_some_iff.mp hstep
    obtain ⟨b'', -, heq⟩ := Option.map_eq_some_iff.mp hrest
    obtain ⟨rfl, -⟩ := Prod.mk.inj heq
    have hkept : m.EndsKept op :=
      (hsim.linked.step_iff op).mp ⟨m'', hm, hagree.left.toWellLinked⟩
    cases op with
    | add id testcase =>
        have hid := hsim.linked.get_eq_none_iff.mp hkept
        have hsorted := hagree.sim.sorted
        rw [MapOp.order, Chronology.insert_of_not_mem hid] at hsorted
        intro last hlast
        exact (sorted_concat_iff hsim.sorted).mp hsorted last (hsim.linked.lastId_eq ▸ hlast)
    | remove id => exact hkept
  · intro hgrow
    cases op with
    | add id testcase =>
        obtain ⟨m', b', hm, hb, hsim'⟩ := hsim.add hgrow testcase
        refine ⟨(m', b'), ?_, ?_⟩
        · simp [MapOp.execBoth, MapOp.exec, InMemoryCorpusMap.add, hm, hb]
        · rw [MapOp.order, Chronology.insert_of_not_mem (hsim.not_mem hgrow)]
          exact hsim'.agree
    | remove id =>
        by_cases hid : id ∈ l
        · obtain ⟨x, y, rfl⟩ := List.append_of_mem hid
          obtain ⟨hx, hy⟩ := (hsim.linked.endsKept_remove_iff).mp hgrow
          obtain ⟨m', b', hm, hb, hsim'⟩ := hsim.remove_inner hx hy
          refine ⟨(m', b'), ?_, ?_⟩
          · simp [MapOp.execBoth, MapOp.exec, InMemoryCorpusMap.remove, hm, hb]
          · rw [MapOp.order,
              Chronology.erase_split (not_mem_split hsim.linked.nodup).1]
            exact hsim'.agree
        · have hget := hsim.linked.get_eq_none_iff.mpr hid
          have hb : b.remove id = some (none, b) := by
            have : b.map[id]? = none := (hsim.get id).symm.trans hget
            simp only [BtreeCorpusMap.remove, this]
          refine ⟨(m, b), ?_, ?_⟩
          · simp [MapOp.execBoth, MapOp.exec, InMemoryCorpusMap.remove,
              HashCorpusMap.remove_absent hget, hb]
          · rw [MapOp.order, List.erase_of_not_mem hid]
            exact h

/-- **The two maps are interchangeable exactly as long as the ids grow.**
Along a run from the empty maps neither panics, they answer every query
alike and both realise the order of first insertion, if and only if every
add is of an id above the last one and every remove is of an absent or an
inner one. -/
theorem agree_iff_idsGrow (ops : List (MapOp T)) :
    Survives MapOp.execBoth (HashCorpusMap.empty, BtreeCorpusMap.empty) ops
        (fun done s => Agree s.1 s.2 (chronological done)) ↔
      StepsMeet MapOp.execBoth (HashCorpusMap.empty, BtreeCorpusMap.empty) ops IdsGrow := by
  refine survives_iff_stepsMeet MapSim.empty.agree fun done s op _ h => ?_
  rw [chronological_concat]
  exact h.step_iff op

end

/-- Added with the larger id first, the hash map starts at the older
testcase and the B-tree at the smaller id. -/
theorem decreasing_ids_disagree :
    ¬ ∀ ops : List (MapOp Unit), ∃ s,
      run MapOp.execBoth (HashCorpusMap.empty, BtreeCorpusMap.empty) ops = some s ∧
        Agree s.1 s.2 (chronological ops) := by
  intro h
  obtain ⟨s, hs, hagree⟩ := h [.add ⟨2⟩ (), .add ⟨1⟩ ()]
  have hfirst : (run MapOp.execBoth
      ((HashCorpusMap.empty, BtreeCorpusMap.empty) : HashCorpusMap Unit × BtreeCorpusMap Unit)
      [.add ⟨2⟩ (), .add ⟨1⟩ ()]).map (fun s => (s.1.first, s.2.first)) =
      some (some ⟨2⟩, some ⟨1⟩) := by decide
  rw [hs] at hfirst
  obtain ⟨h₁, h₂⟩ := Prod.mk.inj (Option.some.inj hfirst)
  have heq : s.1.first = s.2.first := hagree.answers.first
  rw [h₁, h₂] at heq
  exact absurd heq (by decide)

end Libaflmm
