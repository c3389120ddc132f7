import Libaflmm.CorpusLaws

/-!
# The history beside a map

Both maps keep the sorted list of their keys beside them, and `nth` is an
index into it. An operation of the hash map may panic: an `add` before it has
changed anything, a `remove` when the entry and the key are both gone. What is
left then is a map like any other, as far as its history goes.
-/

namespace Libaflmm

open InMemoryCorpusMap

/-! ## Ranks -/

/-- A sorted list has each of its elements behind the smaller ones. -/
theorem ncard_lt_of_getElem? {l : List TestcaseId} (hl : l.Pairwise (· < ·)) {i : Nat}
    {id : TestcaseId} (h : l[i]? = some id) : {k | k ∈ l ∧ k < id}.ncard = i := by
  obtain ⟨hi, rfl⟩ := List.getElem?_eq_some_iff.mp h
  have hsplit : l.take i ++ l[i] :: l.drop (i + 1) = l := by
    rw [List.getElem_cons_drop, List.take_append_drop]
  have hsorted := hl
  rw [← hsplit, List.pairwise_append, List.pairwise_cons] at hsorted
  obtain ⟨htake, ⟨hbehind, -⟩, hfront⟩ := hsorted
  have hset : {k | k ∈ l ∧ k < l[i]} = (l.take i).toFinset := by
    ext k
    rw [Set.mem_ofPred_eq, List.coe_toFinset, Set.mem_ofPred_eq]
    constructor
    · rintro ⟨hk, hlt⟩
      rw [← hsplit] at hk
      rcases List.mem_append.mp hk with hk | hk
      · exact hk
      · rcases List.mem_cons.mp hk with rfl | hk
        · exact absurd hlt (lt_irrefl _)
        · exact absurd hlt (hbehind k hk).not_gt
    · exact fun hk => ⟨List.mem_of_mem_take hk, hfront k hk _ List.mem_cons_self⟩
  rw [hset, Set.ncard_coe_finset, List.toFinset_card_of_nodup (htake.imp ne_of_lt),
    List.length_take, Nat.min_eq_left hi.le]

/-! ## Maps with a history -/

/-- `left m op` is what an operation leaves of a map, also one that panics. -/
class HistoryCorpusMap (M : Type → Type) [InMemoryCorpusMap M] extends LawfulCorpusMap M where
  history {T : Type} : M T → TestcaseIdHistory
  left {T : Type} : M T → MapOp T → M T
  left_of_exec {T : Type} {m m' : M T} {op : MapOp T} : op.exec m = some m' → left m op = m'
  nth_eq {T : Type} (m : M T) (i : Nat) : nth m i = (history m).nth i
  history_empty {T : Type} : (history (empty : M T)).keys = []
  /-- The history and the entries change together, or neither does. -/
  left_cases {T : Type} (m : M T) (op : MapOp T) :
    (∃ id testcase, op = .add id testcase ∧ history (left m op) = (history m).add id ∧
      ∀ k, get (left m op) k = if k = id then some testcase else get m k) ∨
    (∃ id, op = .remove id ∧ history (left m op) = (history m).remove id ∧
      ∀ k, get (left m op) k = if k = id then none else get m k) ∨
    (history (left m op) = history m ∧ ∀ k, get (left m op) k = get m k)

namespace HistoryCorpusMap

variable {M : Type → Type} [InMemoryCorpusMap M] [HistoryCorpusMap M] {T : Type} {m : M T}

/-- The keys are listed, from the smallest on. -/
structure ListsKeys (m : M T) : Prop where
  sorted : (history m).keys.Pairwise (· < ·)
  mem_iff : ∀ k, k ∈ (history m).keys ↔ (get m k).isSome
  nth_of_lt : ∀ i < count m, ∃ id, nth m i = some id ∧ (get m id).isSome ∧
    {k | (get m k).isSome ∧ k < id}.ncard = i
  nth_of_le : ∀ i, count m ≤ i → nth m i = none

theorem listsKeys_of_mem_iff (h : ∀ k, k ∈ (history m).keys ↔ (get m k).isSome) :
    ListsKeys m := by
  have hsorted := (history m).sorted
  have hcount : count m = (history m).keys.length := by
    have hset : {k | (get m k).isSome} = (history m).keys.toFinset := by
      ext k
      rw [Set.mem_ofPred_eq, ← h, List.coe_toFinset, Set.mem_ofPred_eq]
    rw [LawfulCorpusMap.count_eq, hset, Set.ncard_coe_finset,
      List.toFinset_card_of_nodup (hsorted.imp ne_of_lt)]
  refine ⟨hsorted, h, fun i hi => ?_, fun i hi => ?_⟩
  · rw [hcount] at hi
    have hget : (history m).keys[i]? = some (history m).keys[i] := List.getElem?_eq_getElem hi
    refine ⟨_, (nth_eq m i).trans hget, (h _).mp (List.getElem_mem hi), ?_⟩
    have hncard := ncard_lt_of_getElem? hsorted hget
    simpa only [h] using hncard
  · rw [hcount] at hi
    exact (nth_eq m i).trans (List.getElem?_eq_none hi)

/-- What is left of a map after some operations. -/
def leftBy (ops : List (MapOp T)) : M T := ops.foldl left empty

theorem leftBy_concat (ops : List (MapOp T)) (op : MapOp T) :
    (leftBy (ops ++ [op]) : M T) = left (leftBy ops) op := by
  rw [leftBy, List.foldl_append]
  rfl

/-- Where no operation panics it is the state of the run. -/
theorem leftBy_of_run {ops : List (MapOp T)} (h : run MapOp.exec (empty : M T) ops = some m) :
    leftBy ops = m := by
  induction ops using List.reverseRecOn generalizing m with
  | nil => exact Option.some.inj h
  | append_singleton ops op ih =>
      rw [run_concat] at h
      obtain ⟨u, hu, hm⟩ := Option.bind_eq_some_iff.mp h
      rw [leftBy_concat, ih hu]
      exact left_of_exec hm

theorem mem_iff_left (h : ∀ k, k ∈ (history m).keys ↔ (get m k).isSome) (op : MapOp T)
    (k : TestcaseId) : k ∈ (history (left m op)).keys ↔ (get (left m op) k).isSome := by
  rcases left_cases m op with ⟨id, testcase, -, hhistory, hget⟩ | ⟨id, -, hhistory, hget⟩ |
    ⟨hhistory, hget⟩
  · rw [hhistory, TestcaseIdHistory.mem_add, hget, h]
    split
    · next hk => exact iff_of_true (.inl hk) rfl
    · next hk => exact or_iff_right hk
  · rw [hhistory, TestcaseIdHistory.mem_remove, hget, h]
    split
    · next hk => exact iff_of_false (fun hmem => hmem.1 hk) Bool.false_ne_true
    · next hk => exact and_iff_right hk
  · rw [hhistory, hget, h]

theorem listsKeys_leftBy (ops : List (MapOp T)) : ListsKeys (leftBy ops : M T) := by
  refine listsKeys_of_mem_iff ?_
  induction ops using List.reverseRecOn with
  | nil =>
      intro k
      have hget : get (leftBy [] : M T) k = none := LawfulCorpusMap.get_empty k
      have hkeys : (history (leftBy [] : M T)).keys = [] := history_empty
      rw [hget, hkeys]
      exact iff_of_false List.not_mem_nil Bool.false_ne_true
  | append_singleton ops op ih =>
      rw [leftBy_concat]
      exact mem_iff_left ih op

end HistoryCorpusMap

/-! ## The two maps -/

namespace HashCorpusMap

variable {T : Type}

/-- An `add` has changed nothing when it panics. -/
def leftByAdd (id : TestcaseId) (testcase : T) (m : HashCorpusMap T) : HashCorpusMap T :=
  match m.add id testcase with
  | some (_, m) => m
  | none => m

/-- A `remove` panics where a sibling is missing: the entry and the key are
gone by then, and the sibling before them is linked if that is there. -/
def leftByRemove (id : TestcaseId) (m : HashCorpusMap T) : HashCorpusMap T :=
  match m.map[id]? with
  | none => m
  | some entry =>
    let removed := { m with map := m.map.erase id, history := m.history.remove id }
    match relinkPrev removed.map entry with
    | none => removed
    | some map =>
      match relinkNext map entry with
      | none => { removed with map }
      | some map => { removed with map }

def left (m : HashCorpusMap T) : MapOp T → HashCorpusMap T
  | .add id testcase => m.leftByAdd id testcase
  | .remove id => m.leftByRemove id

/-- Whether it panics or not, a `remove` takes the entry and the key. -/
theorem leftByRemove_of_some {m : HashCorpusMap T} {id : TestcaseId}
    {entry : TestcaseStorageItem T} (h : m.map[id]? = some entry) :
    (m.leftByRemove id).history = m.history.remove id ∧
      ∀ k, (m.leftByRemove id).get k = if k = id then none else m.get k := by
  have herase : ∀ k, (m.map.erase id)[k]?.map (·.testcase) =
      if k = id then none else m.get k := by
    intro k
    rw [IdMap.getElem?_erase]
    split <;> rfl
  simp only [leftByRemove, h]
  split
  · exact ⟨rfl, herase⟩
  · next hprev =>
      split
      · exact ⟨rfl, fun k => (testcase_relinkPrev hprev k).trans (herase k)⟩
      · next hnext =>
          refine ⟨rfl, fun k => ?_⟩
          exact (testcase_relinkNext hnext k).trans
            ((testcase_relinkPrev hprev k).trans (herase k))

theorem leftByRemove_of_remove {m m' : HashCorpusMap T} {id : TestcaseId} {r : Option T}
    (h : m.remove id = some (r, m')) : m.leftByRemove id = m' := by
  rw [remove] at h
  rw [leftByRemove]
  cases hentry : m.map[id]? with
  | none =>
      simp only [hentry] at h
      exact (Prod.mk.inj (Option.some.inj h)).2
  | some entry =>
      simp only [hentry] at h ⊢
      obtain ⟨map, hprev, hrest⟩ := Option.bind_eq_some_iff.mp h
      obtain ⟨map', hnext, heq⟩ := Option.map_eq_some_iff.mp hrest
      rw [hprev]
      simp only [hnext]
      exact (Prod.mk.inj heq).2

theorem history_of_add {m m' : HashCorpusMap T} {id : TestcaseId} {testcase : T} {present : Bool}
    (h : m.add id testcase = some (present, m')) : m'.history = m.history.add id := by
  obtain ⟨map, -, heq⟩ := Option.map_eq_some_iff.mp h
  obtain ⟨-, rfl⟩ := Prod.mk.inj heq
  rfl

instance : HistoryCorpusMap HashCorpusMap where
  history := HashCorpusMap.history
  left := left
  left_of_exec {T m m' op} h := by
    cases op with
    | add id testcase =>
        obtain ⟨⟨present, m''⟩, hadd, rfl⟩ := Option.map_eq_some_iff.mp h
        replace hadd : m.add id testcase = some (present, m'') := hadd
        simp only [left, leftByAdd, hadd]
    | remove id =>
        obtain ⟨⟨r, m''⟩, hremove, rfl⟩ := Option.map_eq_some_iff.mp h
        exact leftByRemove_of_remove hremove
  nth_eq _ _ := rfl
  history_empty := rfl
  left_cases m op := by
    cases op with
    | add id testcase =>
        cases hadd : m.add id testcase with
        | none =>
            have hleft : left m (.add id testcase) = m := by
              simp only [left, leftByAdd, hadd]
            exact .inr (.inr (by rw [hleft]; exact ⟨rfl, fun _ => rfl⟩))
        | some e =>
            have hleft : left m (.add id testcase) = e.2 := by
              simp only [left, leftByAdd, hadd]
            rw [hleft]
            exact .inl ⟨id, testcase, rfl, history_of_add hadd,
              (LawfulCorpusMap.add_returns hadd).2⟩
    | remove id =>
        cases hentry : m.map[id]? with
        | none =>
            have hleft : left m (.remove id) = m := by
              simp only [left, leftByRemove, hentry]
            exact .inr (.inr (by rw [hleft]; exact ⟨rfl, fun _ => rfl⟩))
        | some entry => exact .inr (.inl ⟨id, rfl, leftByRemove_of_some hentry⟩)

end HashCorpusMap

/-- No operation of the B-tree panics. -/
def BtreeCorpusMap.left {T : Type} (m : BtreeCorpusMap T) (op : MapOp T) : BtreeCorpusMap T :=
  (op.exec m).getD m

instance : HistoryCorpusMap BtreeCorpusMap where
  history := BtreeCorpusMap.history
  left := BtreeCorpusMap.left
  left_of_exec {T m m' op} h := by rw [BtreeCorpusMap.left, h, Option.getD_some]
  nth_eq _ _ := rfl
  history_empty := rfl
  left_cases m op := by
    cases op with
    | add id testcase => exact .inl ⟨id, testcase, rfl, rfl, fun _ => IdMap.getElem?_insert⟩
    | remove id =>
        cases hentry : m.map[id]? with
        | none =>
            have hleft : m.left (.remove id) = m := by
              show (Option.map _ (m.remove id)).getD m = m
              simp only [BtreeCorpusMap.remove, hentry]
              rfl
            exact .inr (.inr (by rw [hleft]; exact ⟨rfl, fun _ => rfl⟩))
        | some testcase =>
            have hleft : m.left (.remove id) =
                ⟨m.map.erase id, m.history.remove id⟩ := by
              show (Option.map _ (m.remove id)).getD m = _
              simp only [BtreeCorpusMap.remove, hentry]
              rfl
            rw [hleft]
            exact .inr (.inl ⟨id, rfl, rfl, fun _ => IdMap.getElem?_erase⟩)

open HistoryCorpusMap

/-- **The history lists the keys**, from the smallest to the largest, after
any operations on either map. -/
theorem history_listsKeys {T : Type} (ops : List (MapOp T)) :
    (ListsKeys (leftBy ops : HashCorpusMap T) ∧ ∀ m : HashCorpusMap T,
        run MapOp.exec InMemoryCorpusMap.empty ops = some m → ListsKeys m) ∧
      ListsKeys (leftBy ops : BtreeCorpusMap T) ∧ ∀ m : BtreeCorpusMap T,
        run MapOp.exec InMemoryCorpusMap.empty ops = some m → ListsKeys m :=
  ⟨⟨listsKeys_leftBy ops, fun _ h => leftBy_of_run h ▸ listsKeys_leftBy ops⟩,
    listsKeys_leftBy ops, fun _ h => leftBy_of_run h ▸ listsKeys_leftBy ops⟩

/-- Behind the last key there is nothing to return, not even `None`. -/
theorem nth_empty_panics :
    (∀ id, nth (empty : HashCorpusMap Unit) 0 ≠ some id) ∧
      ∀ id, nth (empty : BtreeCorpusMap Unit) 0 ≠ some id :=
  ⟨fun id h => Option.some_ne_none id h.symm, fun id h => Option.some_ne_none id h.symm⟩

end Libaflmm
