import Libaflmm.CorpusLaws
import Libaflmm.Runs
import Libaflmm.Store

/-!
# The two partitions of a store

What the operations of a store do to the pairs of an id and a partition,
over any lawful map. An add looks at one of the two maps only, so it is the
caller that keeps them separate: nothing else puts an id in both.
-/

namespace Libaflmm

/-! ## Effect of the operations -/

namespace Partitions

variable {M : Type → Type} [InMemoryCorpusMap M] {V : Type} {p p' : Partitions M V}
  {enabled : Bool} {id : TestcaseId}

/-- The entry of one of the two maps. -/
def find (p : Partitions M V) (enabled : Bool) (id : TestcaseId) : Option V :=
  InMemoryCorpusMap.get (p.map enabled) id

/-- An id that either map holds. -/
def Stored (p : Partitions M V) (id : TestcaseId) : Prop :=
  (p.find true id).isSome ∨ (p.find false id).isSome

def Separate (p : Partitions M V) : Prop :=
  ∀ id, ¬ ((p.find true id).isSome ∧ (p.find false id).isSome)

theorem find_true : p.find true id = InMemoryCorpusMap.get p.enabledMap id := rfl

theorem find_false : p.find false id = InMemoryCorpusMap.get p.disabledMap id := rfl

theorem getFrom_true : p.getFrom true id = p.find true id := rfl

theorem getFrom_false : p.getFrom false id = (p.find true id).or (p.find false id) := by
  have henabled : p.find true id = InMemoryCorpusMap.get p.enabledMap id := rfl
  rw [getFrom, if_neg Bool.false_ne_true, henabled]
  cases InMemoryCorpusMap.get p.enabledMap id <;> rfl

variable [LawfulCorpusMap M]

@[simp] theorem find_empty : (empty : Partitions M V).find enabled id = none := by
  cases enabled <;> exact LawfulCorpusMap.get_empty id

theorem not_stored_empty : ¬ (empty : Partitions M V).Stored id := by simp [Stored]

theorem add_returns {value : V} {present : Bool} (h : p.add enabled id value = some (present, p')) :
    present = (p.find enabled id).isSome ∧
      ∀ e k, p'.find e k = if e = enabled ∧ k = id then some value else p.find e k := by
  cases enabled with
  | true =>
      obtain ⟨⟨present', m⟩, hadd, heq⟩ := Option.map_eq_some_iff.mp h
      obtain ⟨rfl, rfl⟩ := Prod.mk.inj heq
      obtain ⟨hpresent, hget⟩ := LawfulCorpusMap.add_returns hadd
      refine ⟨hpresent, fun e k => ?_⟩
      cases e with
      | true => simpa [find_true] using hget k
      | false => rfl
  | false =>
      obtain ⟨⟨present', m⟩, hadd, heq⟩ := Option.map_eq_some_iff.mp h
      obtain ⟨rfl, rfl⟩ := Prod.mk.inj heq
      obtain ⟨hpresent, hget⟩ := LawfulCorpusMap.add_returns hadd
      refine ⟨hpresent, fun e k => ?_⟩
      cases e with
      | true => rfl
      | false => simpa [find_false] using hget k

theorem add_eq_none_iff {value : V} :
    p.add enabled id value = none ↔ Stuck (p.map enabled) := by
  cases enabled with
  | true => exact Option.map_eq_none_iff.trans LawfulCorpusMap.add_eq_none_iff
  | false => exact Option.map_eq_none_iff.trans LawfulCorpusMap.add_eq_none_iff

theorem not_stuck_of_add {value : V} {present : Bool}
    (h : p.add enabled id value = some (present, p')) : ¬ Stuck (p.map enabled) := by
  intro hstuck
  rw [add_eq_none_iff.mpr hstuck] at h
  cases h

/-- `disable` moves an enabled entry to the disabled map. -/
theorem disable_returns {found : Bool} (h : p.disable id = some (found, p')) :
    found = (p.find true id).isSome ∧
      ∀ e k, p'.find e k = if k = id ∧ found then (if e then none else p.find true id)
        else p.find e k := by
  obtain ⟨⟨removed, m⟩, hrem, hrest⟩ := Option.bind_eq_some_iff.mp h
  obtain ⟨rfl, hget⟩ := LawfulCorpusMap.remove_returns hrem
  have hfind : InMemoryCorpusMap.get p.enabledMap id = p.find true id := rfl
  rw [hfind] at hrest
  cases hvalue : p.find true id with
  | none =>
      rw [hvalue] at hrest
      obtain ⟨rfl, rfl⟩ := Prod.mk.inj (Option.some.inj hrest)
      refine ⟨rfl, fun e k => ?_⟩
      rw [if_neg (by simp)]
      cases e with
      | true =>
          show InMemoryCorpusMap.get m k = p.find true k
          rw [hget k]
          split
          · next hk => rw [hk, hvalue]
          · rfl
      | false => rfl
  | some value =>
      rw [hvalue] at hrest
      obtain ⟨⟨present, m'⟩, hadd, heq⟩ := Option.map_eq_some_iff.mp hrest
      obtain ⟨rfl, rfl⟩ := Prod.mk.inj heq
      obtain ⟨-, hget'⟩ := LawfulCorpusMap.add_returns hadd
      refine ⟨rfl, fun e k => ?_⟩
      cases e with
      | true => simpa [find_true] using hget k
      | false => simpa [find_false] using hget' k

/-- `remove` takes the enabled entry, or else the disabled one. -/
theorem remove_returns {removed : Option V} (h : p.remove id = some (removed, p')) :
    removed = (p.find true id).or (p.find false id) ∧
      ∀ e k, p'.find e k = if k = id ∧ (e ∨ p.find true id = none) then none else p.find e k := by
  obtain ⟨⟨value, m⟩, hrem, hrest⟩ := Option.bind_eq_some_iff.mp h
  obtain ⟨rfl, hget⟩ := LawfulCorpusMap.remove_returns hrem
  have hfind : InMemoryCorpusMap.get p.enabledMap id = p.find true id := rfl
  rw [hfind] at hrest
  cases hvalue : p.find true id with
  | none =>
      rw [hvalue] at hrest
      obtain ⟨⟨value, m'⟩, hrem', heq⟩ := Option.map_eq_some_iff.mp hrest
      obtain ⟨rfl, rfl⟩ := Prod.mk.inj heq
      obtain ⟨rfl, hget'⟩ := LawfulCorpusMap.remove_returns hrem'
      refine ⟨rfl, fun e k => ?_⟩
      cases e with
      | true => simpa [find_true] using hget k
      | false => simpa [find_false] using hget' k
  | some value =>
      rw [hvalue] at hrest
      obtain ⟨rfl, rfl⟩ := Prod.mk.inj (Option.some.inj hrest)
      refine ⟨rfl, fun e k => ?_⟩
      cases e with
      | true => simpa [find_true] using hget k
      | false => simp [find_false]

/-! ## Separate partitions -/

theorem Separate.empty : (Partitions.empty : Partitions M V).Separate := fun id => by simp

theorem Separate.add {value : V} {present : Bool} (h : p.Separate)
    (hfree : p.find (!enabled) id = none) (hadd : p.add enabled id value = some (present, p')) :
    p'.Separate := by
  obtain ⟨-, hfind⟩ := add_returns hadd
  intro k
  rw [hfind true k, hfind false k]
  by_cases hk : k = id
  · subst hk
    cases enabled <;> simp_all
  · simpa [hk] using h k

theorem Separate.disable {found : Bool} (h : p.Separate)
    (hdis : p.disable id = some (found, p')) : p'.Separate := by
  obtain ⟨-, hfind⟩ := disable_returns hdis
  intro k
  rw [hfind true k, hfind false k]
  split
  · simp
  · exact h k

theorem Separate.remove {removed : Option V} (h : p.Separate)
    (hrem : p.remove id = some (removed, p')) : p'.Separate := by
  obtain ⟨-, hfind⟩ := remove_returns hrem
  intro k
  rw [hfind true k, hfind false k]
  by_cases hk : k = id
  · simp [hk]
  · simpa [hk] using h k

/-- Every value is stored under its own key. -/
def Keyed (key : V → TestcaseId) (p : Partitions M V) : Prop :=
  ∀ enabled id value, p.find enabled id = some value → key value = id

variable {key : V → TestcaseId}

theorem Keyed.empty : (Partitions.empty : Partitions M V).Keyed key :=
  fun _ _ _ h => by cases find_empty.symm.trans h

theorem Keyed.add {value : V} {present : Bool} (h : p.Keyed key) (hkey : key value = id)
    (hadd : p.add enabled id value = some (present, p')) : p'.Keyed key := by
  obtain ⟨-, hfind⟩ := add_returns hadd
  intro e k v hk
  rw [hfind e k] at hk
  split at hk
  · next heq => rw [← Option.some.inj hk, hkey, heq.2]
  · exact h e k v hk

theorem Keyed.disable {found : Bool} (h : p.Keyed key)
    (hdis : p.disable id = some (found, p')) : p'.Keyed key := by
  obtain ⟨-, hfind⟩ := disable_returns hdis
  intro e k v hk
  rw [hfind e k] at hk
  split at hk
  · next heq =>
      split at hk
      · cases hk
      · exact heq.1 ▸ h true id v hk
  · exact h e k v hk

/-- Separate partitions are counted once each. -/
theorem Separate.count_add (h : p.Separate) :
    InMemoryCorpusMap.count p.enabledMap + InMemoryCorpusMap.count p.disabledMap =
      {id | p.Stored id}.ncard := by
  have hdisj : Disjoint {id | (p.find true id).isSome} {id | (p.find false id).isSome} :=
    Set.disjoint_left.mpr fun id h₁ h₂ => h id ⟨h₁, h₂⟩
  have hunion : {id | p.Stored id} =
      {id | (p.find true id).isSome} ∪ {id | (p.find false id).isSome} := rfl
  rw [hunion, Set.ncard_union_eq hdisj, LawfulCorpusMap.count_eq, LawfulCorpusMap.count_eq]
  rfl

end Partitions

/-! ## Runs of a store -/

inductive StoreOp (I Env : Type) [Input I] where
  | add (enabled : Bool) (testcase : Testcase I) (env : Env)
  | disable (id : TestcaseId)

/-- With the operation only an in-memory store has. -/
inductive RemovableOp (I Env : Type) [Input I] where
  | store (op : StoreOp I Env)
  | remove (id : TestcaseId)

section

variable {I Env : Type} [Input I] {M : Type → Type} [InMemoryCorpusMap M]

/-- The store after one operation, whatever its result. -/
def StoreOp.exec {S : Type} [Store S I Env] (s : S) : StoreOp I Env → Option S
  | .add enabled testcase env => (Store.addShared enabled testcase env s).map (·.2)
  | .disable id => (Store.disable id s).map (·.2)

def RemovableOp.exec {S : Type} [RemovableStore S I Env] (s : S) : RemovableOp I Env → Option S
  | .store op => op.exec s
  | .remove id => (RemovableStore.remove id s).map (·.2)

/-- The operation adds no testcase that the other map holds. -/
def StoreOp.Uncrossed {V : Type} (p : Partitions M V) : StoreOp I Env → Prop
  | .add enabled testcase _ => p.find (!enabled) testcase.id = none
  | .disable _ => True

def RemovableOp.Uncrossed {V : Type} (p : Partitions M V) : RemovableOp I Env → Prop
  | .store op => op.Uncrossed p
  | .remove _ => True

instance {V : Type} (p : Partitions M V) : ∀ op : StoreOp I Env, Decidable (op.Uncrossed p)
  | .add enabled testcase _ =>
    inferInstanceAs (Decidable (p.find (!enabled) testcase.id = none))
  | .disable _ => inferInstanceAs (Decidable True)

instance {V : Type} (p : Partitions M V) : ∀ op : RemovableOp I Env, Decidable (op.Uncrossed p)
  | .store op => inferInstanceAs (Decidable (op.Uncrossed p))
  | .remove _ => inferInstanceAs (Decidable True)

end

/-- What a caller gets from a store whose partitions are separate: the ids
counted once, and each found by `get_from` where it is looked for, provided
the testcase behind it is `available`. -/
structure Partitioned {S I Env : Type} [Input I] [Store S I Env] {M : Type → Type}
    [InMemoryCorpusMap M] {V : Type} (s : S) (p : Partitions M V)
    (available : TestcaseId → Prop) : Prop where
  separate : p.Separate
  countAll : Store.countAll s = {id | p.Stored id}.ncard
  get_enabled : ∀ id, (Store.getFrom true id s).isOk ↔ (p.find true id).isSome ∧ available id
  get_all : ∀ id, (Store.getFrom false id s).isOk ↔ p.Stored id ∧ available id

variable {I : Type} [Input I] {M : Type → Type} [InMemoryCorpusMap M] [LawfulCorpusMap M]

/-! ## The in-memory store -/

namespace InMemoryStore

variable {s s' : InMemoryStore I M} {enabled : Bool} {id : TestcaseId}

omit [LawfulCorpusMap M] in
theorem addShared_maps {testcase : Testcase I} {r : Result StorageResult}
    (h : s.addShared enabled testcase = some (r, s')) :
    ∃ present, s.maps.add enabled testcase.id testcase = some (present, s'.maps) ∧
      r = .ok (if present then .duplicate testcase.id else .stored testcase.id) := by
  obtain ⟨⟨present, maps⟩, hadd, heq⟩ := Option.map_eq_some_iff.mp h
  obtain ⟨rfl, rfl⟩ := Prod.mk.inj heq
  exact ⟨present, hadd, rfl⟩

omit [LawfulCorpusMap M] in
theorem disable_maps {r : Result Unit} (h : s.disable id = some (r, s')) :
    ∃ found, s.maps.disable id = some (found, s'.maps) := by
  obtain ⟨⟨found, maps⟩, hdis, heq⟩ := Option.map_eq_some_iff.mp h
  obtain ⟨-, rfl⟩ := Prod.mk.inj heq
  exact ⟨found, hdis⟩

omit [LawfulCorpusMap M] in
theorem remove_maps {r : Result (Testcase I)} (h : s.remove id = some (r, s')) :
    ∃ removed, s.maps.remove id = some (removed, s'.maps) := by
  obtain ⟨⟨removed, maps⟩, hrem, heq⟩ := Option.map_eq_some_iff.mp h
  refine ⟨removed, ?_⟩
  cases removed <;>
  · obtain ⟨-, rfl⟩ := Prod.mk.inj heq
    exact hrem

/-- **The step lemma.** An uncrossed operation keeps the partitions separate. -/
theorem separate_step (h : s.maps.Separate) {op : RemovableOp I Unit}
    (hop : op.Uncrossed s.maps) (hstep : op.exec s = some s') : s'.maps.Separate := by
  cases op with
  | store op =>
      cases op with
      | add enabled testcase env =>
          obtain ⟨⟨r, t⟩, hadd, rfl⟩ := Option.map_eq_some_iff.mp hstep
          obtain ⟨present, hmaps, -⟩ := addShared_maps hadd
          exact h.add hop hmaps
      | disable id =>
          obtain ⟨⟨r, t⟩, hdis, rfl⟩ := Option.map_eq_some_iff.mp hstep
          obtain ⟨found, hmaps⟩ := disable_maps hdis
          exact h.disable hmaps
  | remove id =>
      obtain ⟨⟨r, t⟩, hrem, rfl⟩ := Option.map_eq_some_iff.mp hstep
      obtain ⟨removed, hmaps⟩ := remove_maps hrem
      exact h.remove hmaps

theorem partitioned (h : s.maps.Separate) : Partitioned s s.maps fun _ => True where
  separate := h
  countAll := h.count_add
  get_enabled := fun id => by
    show (getFrom true id s).isOk ↔ _
    rw [getFrom, Partitions.getFrom_true]
    cases s.maps.find true id <;> simp [Except.isOk, Except.toBool]
  get_all := fun id => by
    show (getFrom false id s).isOk ↔ _
    rw [getFrom, Partitions.getFrom_false, Partitions.Stored]
    cases s.maps.find true id <;> cases s.maps.find false id <;>
      simp [Except.isOk, Except.toBool]

end InMemoryStore

/-! ## The on-disk store -/

namespace OnDiskStore

variable {s s' : OnDiskStore I M} {enabled : Bool} {id : TestcaseId}

omit [LawfulCorpusMap M] in
/-- The maps change first; the testcase is saved only when they lacked it. -/
theorem addShared_maps {testcase : Testcase I} {outcome : WriteOutcome} {r : Result StorageResult}
    (h : s.addShared enabled testcase outcome = some (r, s')) :
    ∃ present, s.maps.add enabled testcase.id testcase.id = some (present, s'.maps) ∧
      s'.diskMgr = s.diskMgr ∧
      if present then r = .ok (.duplicate testcase.id) ∧ s'.dir = s.dir
      else s'.dir = (s.diskMgr.saveTestcase testcase outcome s.dir).2 ∧
        r = (s.diskMgr.saveTestcase testcase outcome s.dir).1.map fun _ => .stored testcase.id := by
  obtain ⟨⟨present, maps⟩, hadd, heq⟩ := Option.map_eq_some_iff.mp h
  refine ⟨present, ?_⟩
  cases present with
  | true =>
      obtain ⟨rfl, rfl⟩ := Prod.mk.inj heq
      exact ⟨hadd, rfl, rfl, rfl⟩
  | false =>
      cases hsave : s.diskMgr.saveTestcase testcase outcome s.dir with
      | mk result dir =>
          cases result <;>
          · simp only [hsave, Bool.false_eq_true, if_false] at heq
            obtain ⟨rfl, rfl⟩ := Prod.mk.inj heq
            exact ⟨hadd, rfl, rfl, rfl⟩

omit [LawfulCorpusMap M] in
theorem disable_maps {r : Result Unit} (h : s.disable id = some (r, s')) :
    ∃ found, s.maps.disable id = some (found, s'.maps) ∧ s'.diskMgr = s.diskMgr ∧
      s'.dir = s.dir := by
  obtain ⟨⟨found, maps⟩, hdis, heq⟩ := Option.map_eq_some_iff.mp h
  obtain ⟨-, rfl⟩ := Prod.mk.inj heq
  exact ⟨found, hdis, rfl, rfl⟩

theorem keyed_step (h : s.maps.Keyed fun k => k) {op : StoreOp I WriteOutcome}
    (hstep : op.exec s = some s') : s'.maps.Keyed (fun k => k) := by
  cases op with
  | add enabled testcase outcome =>
      obtain ⟨⟨r, t⟩, hadd, rfl⟩ := Option.map_eq_some_iff.mp hstep
      obtain ⟨present, hmaps, -⟩ := addShared_maps hadd
      exact h.add rfl hmaps
  | disable id =>
      obtain ⟨⟨r, t⟩, hdis, rfl⟩ := Option.map_eq_some_iff.mp hstep
      obtain ⟨found, hmaps, -⟩ := disable_maps hdis
      exact h.disable hmaps

theorem separate_step (h : s.maps.Separate) {op : StoreOp I WriteOutcome}
    (hop : op.Uncrossed s.maps) (hstep : op.exec s = some s') : s'.maps.Separate := by
  cases op with
  | add enabled testcase outcome =>
      obtain ⟨⟨r, t⟩, hadd, rfl⟩ := Option.map_eq_some_iff.mp hstep
      obtain ⟨present, hmaps, -⟩ := addShared_maps hadd
      exact h.add hop hmaps
  | disable id =>
      obtain ⟨⟨r, t⟩, hdis, rfl⟩ := Option.map_eq_some_iff.mp hstep
      obtain ⟨found, hmaps, -⟩ := disable_maps hdis
      exact h.disable hmaps

/-- An id is available when its file can be loaded. -/
theorem partitioned (h : s.maps.Separate) (hself : s.maps.Keyed fun k => k) :
    Partitioned s s.maps fun id => (s.diskMgr.loadTestcase (I := I) id s.dir).isOk where
  separate := h
  countAll := h.count_add
  get_enabled := fun id => by
    show (getFrom true id s).isOk ↔ _
    rw [getFrom, Partitions.getFrom_true]
    cases hfind : s.maps.find true id with
    | none => simp [Except.isOk, Except.toBool]
    | some value => simp [show value = id from hself true id value hfind]
  get_all := fun id => by
    show (getFrom false id s).isOk ↔ _
    rw [getFrom, Partitions.getFrom_false, Partitions.Stored]
    cases hfind : s.maps.find true id with
    | some value => simp [show value = id from hself true id value hfind]
    | none =>
        cases hfind' : s.maps.find false id with
        | none => simp [Except.isOk, Except.toBool]
        | some value => simp [show value = id from hself false id value hfind']

end OnDiskStore

/-! ## Whole runs -/

/-- **Partitions stay separate as long as no add crosses them.** In a run of
either store that adds no testcase to a map while the other one holds it, the
state reached has no id in both maps and counts each id once; `get_from`
finds under `ENABLED` the enabled ids and otherwise the ids of either map. -/
theorem partitioned_of_uncrossed :
    (∀ (ops : List (RemovableOp I Unit)) (s : InMemoryStore I M),
      run RemovableOp.exec InMemoryStore.new ops = some s →
      StepsMeet RemovableOp.exec InMemoryStore.new ops
        (fun (t : InMemoryStore I M) op => op.Uncrossed t.maps) →
      Partitioned s s.maps fun _ => True) ∧
    (∀ (fileFmt : TestcaseFilenameFormat) (dir : Dir) (ops : List (StoreOp I WriteOutcome))
      (s : OnDiskStore I M),
      run StoreOp.exec (OnDiskStore.new fileFmt dir) ops = some s →
      StepsMeet StoreOp.exec (OnDiskStore.new fileFmt dir) ops
        (fun (t : OnDiskStore I M) op => op.Uncrossed t.maps) →
      Partitioned s s.maps fun id => (s.diskMgr.loadTestcase (I := I) id s.dir).isOk) := by
  constructor
  · intro ops s hrun hmeet
    have hsep := hmeet.invariant (fun t => t.maps.Separate) Partitions.Separate.empty
      (fun _ _ _ _ ht hop => InMemoryStore.separate_step ht hop) hrun
    exact InMemoryStore.partitioned hsep
  · intro fileFmt dir ops s hrun hmeet
    have hsep := hmeet.invariant (fun t => t.maps.Separate) Partitions.Separate.empty
      (fun _ _ _ _ ht hop => OnDiskStore.separate_step ht hop) hrun
    have hself := run_invariant (fun t => t.maps.Keyed fun k => k)
      (fun _ _ _ ht => OnDiskStore.keyed_step ht) Partitions.Keyed.empty hrun
    exact OnDiskStore.partitioned hsep hself

theorem partitioned_after_disable :
    (∃ s, run RemovableOp.exec (InMemoryStore.new : InMemoryStore ValueInput HashCorpusMap)
        [.store (.add true (.new ⟨1⟩) ()), .store (.add false (.new ⟨2⟩) ()),
          .store (.disable ⟨1⟩), .remove ⟨2⟩] = some s ∧
      Partitioned s s.maps fun _ => True) ∧
    ∃ s, run StoreOp.exec
        (OnDiskStore.new .id fun _ => none : OnDiskStore ValueInput BtreeCorpusMap)
        [.add true (.new ⟨1⟩) .completes, .add false (.new ⟨2⟩) .completes, .disable ⟨1⟩] =
          some s ∧
      Partitioned s s.maps fun id => (s.diskMgr.loadTestcase (I := ValueInput) id s.dir).isOk := by
  constructor
  · obtain ⟨s, hs⟩ := Option.isSome_iff_exists.mp (show (run RemovableOp.exec
      (InMemoryStore.new : InMemoryStore ValueInput HashCorpusMap)
      [.store (.add true (.new ⟨1⟩) ()), .store (.add false (.new ⟨2⟩) ()),
        .store (.disable ⟨1⟩), .remove ⟨2⟩]).isSome by decide)
    exact ⟨s, hs, partitioned_of_uncrossed.1 _ s hs (by decide)⟩
  · obtain ⟨s, hs⟩ := Option.isSome_iff_exists.mp (show (run StoreOp.exec
      (OnDiskStore.new .id fun _ => none : OnDiskStore ValueInput BtreeCorpusMap)
      [.add true (.new ⟨1⟩) .completes, .add false (.new ⟨2⟩) .completes, .disable ⟨1⟩]).isSome
      by decide)
    exact ⟨s, hs, partitioned_of_uncrossed.2 .id _ _ s hs (by decide)⟩

/-- Offered to both partitions, an input is in both maps; and an enabled
input alone is found with and without `ENABLED`. -/
theorem separate_fails_crossed :
    ¬ (∀ (ops : List (RemovableOp ValueInput Unit)) (s : InMemoryStore ValueInput HashCorpusMap),
      run RemovableOp.exec InMemoryStore.new ops = some s → s.maps.Separate) ∧
    ¬ (∀ (ops : List (RemovableOp ValueInput Unit)) (s : InMemoryStore ValueInput HashCorpusMap),
      run RemovableOp.exec InMemoryStore.new ops = some s →
      ∀ id, ¬ ((Store.getFrom true id s).isOk ∧ (Store.getFrom false id s).isOk)) := by
  constructor
  · intro h
    obtain ⟨s, hs, hboth⟩ : ∃ s, run RemovableOp.exec
        (InMemoryStore.new : InMemoryStore ValueInput HashCorpusMap)
        [.store (.add true (.new ⟨1⟩) ()), .store (.add false (.new ⟨1⟩) ())] = some s ∧
        (s.maps.find true ⟨1⟩).isSome ∧ (s.maps.find false ⟨1⟩).isSome :=
      ⟨_, rfl, by decide⟩
    exact h _ s hs ⟨1⟩ hboth
  · intro h
    obtain ⟨s, hs, hboth⟩ : ∃ s, run RemovableOp.exec
        (InMemoryStore.new : InMemoryStore ValueInput HashCorpusMap)
        [.store (.add true (.new ⟨1⟩) ())] = some s ∧
        (Store.getFrom true ⟨1⟩ s).isOk ∧ (Store.getFrom false ⟨1⟩ s).isOk :=
      ⟨_, rfl, by decide⟩
    exact h _ s hs ⟨1⟩ hboth

end Libaflmm
