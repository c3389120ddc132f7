import Libaflmm.StorePartition

/-!
# Stores as sets of ids

The view of a store that the corpora above it rely on: which ids each
partition holds, and for which of them the testcase can be had. The laws
follow the code where the two part: an add records the id in its partition
even if the write it needs fails, and only a write that goes through makes a
testcase loadable.

`CoherentStore` looks at the testcases themselves: a store that is only
added to answers with testcases it was given, and keeps answering.

Both stores are lawful, over any lawful map.
-/

namespace Libaflmm

class PartitionedStore (S : Type) (I Env : outParam Type) [Input I] extends Store S I Env where
  Holds : S → Bool → TestcaseId → Prop
  Loads : S → TestcaseId → Prop
  /-- The write an add of the testcase would need goes through. -/
  Saves : S → Testcase I → Env → Prop
  /-- The map of the partition is stuck. -/
  StuckIn : S → Bool → Prop
  Wf : S → Prop
  AddOnly : S → Prop
  count_eq (s : S) : count s = {id | Holds s true id}.ncard
  add_wf {s s' : S} {e : Bool} {tc : Testcase I} {env : Env} {r : Result StorageResult} :
    Wf s → addShared e tc env s = some (r, s') → Wf s'
  add_holds {s s' : S} {e : Bool} {tc : Testcase I} {env : Env} {r : Result StorageResult} :
    addShared e tc env s = some (r, s') →
      ∀ e' id, Holds s' e' id ↔ (e' = e ∧ id = tc.id) ∨ Holds s e' id
  add_loads {s s' : S} {e : Bool} {tc : Testcase I} {env : Env} {r : Result StorageResult} :
    addShared e tc env s = some (r, s') →
      ∀ id, Loads s' id ↔ Loads s id ∨ (id = tc.id ∧ ¬ Holds s e id ∧ Saves s tc env)
  add_result {s s' : S} {e : Bool} {tc : Testcase I} {env : Env} {r : Result StorageResult} :
    addShared e tc env s = some (r, s') →
      (Holds s e tc.id ∧ r = .ok (.duplicate tc.id)) ∨
      (¬ Holds s e tc.id ∧ Saves s tc env ∧ r = .ok (.stored tc.id)) ∨
      (¬ Holds s e tc.id ∧ ¬ Saves s tc env ∧ ∃ err, r = .error err)
  add_eq_none_iff {s : S} {e : Bool} {tc : Testcase I} {env : Env} :
    addShared e tc env s = none ↔ StuckIn s e
  add_returns {s : S} (e : Bool) (tc : Testcase I) (env : Env) :
    AddOnly s → ∃ r s', addShared e tc env s = some (r, s') ∧ AddOnly s'
  disable_wf {s s' : S} {id : TestcaseId} {r : Result Unit} :
    Wf s → disable id s = some (r, s') → Wf s'
  disable_holds {s s' : S} {id : TestcaseId} {r : Result Unit} :
    disable id s = some (r, s') →
      ∀ e k, Holds s' e k ↔
        (k = id ∧ Holds s true id ∧ e = false) ∨ (¬ (k = id ∧ Holds s true id) ∧ Holds s e k)
  disable_loads {s s' : S} {id : TestcaseId} {r : Result Unit} :
    disable id s = some (r, s') → ∀ k, Loads s' k ↔ Loads s k
  disable_result {s s' : S} {id : TestcaseId} {r : Result Unit} :
    disable id s = some (r, s') → (r = .ok () ↔ Holds s true id)
  getFrom_held {s : S} {e : Bool} {id : TestcaseId} :
    Wf s → Holds s true id ∨ (e = false ∧ Holds s false id) → Loads s id →
      ∃ tc, getFrom e id s = .ok tc ∧ tc.id = id
  getFrom_not_held {s : S} {e : Bool} {id : TestcaseId} :
    ¬ (Holds s true id ∨ (e = false ∧ Holds s false id)) →
      ∃ message, getFrom e id s = .error (.keyNotFound message)

theorem PartitionedStore.add_of_not_stuck {S I Env : Type} [Input I] [PartitionedStore S I Env]
    {s : S} {e : Bool} (tc : Testcase I) (env : Env) (h : ¬ StuckIn s e) :
    ∃ rs, Store.addShared e tc env s = some rs :=
  Option.ne_none_iff_exists'.mp (mt add_eq_none_iff.mp h)

theorem PartitionedStore.not_stuck_of_add {S I Env : Type} [Input I] [PartitionedStore S I Env]
    {s : S} {e : Bool} {tc : Testcase I} {env : Env} {rs : Result StorageResult × S}
    (h : Store.addShared e tc env s = some rs) : ¬ StuckIn s e := by
  intro hstuck
  rw [add_eq_none_iff.mpr hstuck] at h
  cases h

variable {I : Type} [Input I] {M : Type → Type} [InMemoryCorpusMap M] [LawfulCorpusMap M]

/-! ## Ids held -/

namespace Partitions

variable {V : Type} {p p' : Partitions M V} {enabled : Bool} {id : TestcaseId}

def Holds (p : Partitions M V) (enabled : Bool) (id : TestcaseId) : Prop :=
  (p.find enabled id).isSome

instance {V : Type} (p : Partitions M V) (enabled : Bool) (id : TestcaseId) :
    Decidable (p.Holds enabled id) :=
  inferInstanceAs (Decidable ((p.find enabled id).isSome = true))

theorem not_holds_empty : ¬ (empty : Partitions M V).Holds enabled id := by simp [Holds]

theorem add_holds {value : V} {present : Bool} (h : p.add enabled id value = some (present, p')) :
    ∀ e k, p'.Holds e k ↔ (e = enabled ∧ k = id) ∨ p.Holds e k := by
  intro e k
  rw [Holds, (add_returns h).2 e k]
  split
  · next heq => exact iff_of_true rfl (Or.inl heq)
  · next hne => exact (or_iff_right hne).symm

theorem disable_holds {found : Bool} (h : p.disable id = some (found, p')) :
    ∀ e k, p'.Holds e k ↔
      (k = id ∧ p.Holds true id ∧ e = false) ∨ (¬ (k = id ∧ p.Holds true id) ∧ p.Holds e k) := by
  obtain ⟨rfl, hfind⟩ := disable_returns h
  intro e k
  simp only [Holds]
  rw [hfind e k]
  by_cases hcase : k = id ∧ (p.find true id).isSome
  · rw [if_pos hcase]
    cases e <;> simp [hcase]
  · rw [if_neg hcase]
    have hnot : ¬ (k = id ∧ (p.find true id).isSome ∧ e = false) := fun h => hcase ⟨h.1, h.2.1⟩
    simp only [hnot, hcase, not_false_eq_true, true_and, false_or]

omit [LawfulCorpusMap M] in
theorem getFrom_isSome {p : Partitions M V} :
    (p.getFrom enabled id).isSome ↔ p.Holds true id ∨ (enabled = false ∧ p.Holds false id) := by
  cases enabled with
  | true => simp [getFrom_true, Holds]
  | false => simp [getFrom_false, Holds]

omit [LawfulCorpusMap M] in
theorem find_of_getFrom {value : V} (h : p.getFrom enabled id = some value) :
    ∃ e, p.find e id = some value := by
  cases enabled with
  | true => exact ⟨true, h⟩
  | false =>
      rw [getFrom_false, Option.or_eq_some_iff] at h
      rcases h with h | ⟨-, h⟩
      · exact ⟨true, h⟩
      · exact ⟨false, h⟩

omit [LawfulCorpusMap M] in
theorem Keyed.getFrom {key : V → TestcaseId} {value : V} (h : p.Keyed key)
    (hget : p.getFrom enabled id = some value) : key value = id := by
  obtain ⟨e, hfind⟩ := find_of_getFrom hget
  exact h e id value hfind

structure AddOnly (p : Partitions M V) : Prop where
  enabled : Filled p.enabledMap
  disabled : Filled p.disabledMap

omit [LawfulCorpusMap M] in
theorem AddOnly.empty : (Partitions.empty : Partitions M V).AddOnly := ⟨.empty, .empty⟩

theorem AddOnly.add (h : p.AddOnly) (e : Bool) (id : TestcaseId) (value : V) :
    ∃ present p', p.add e id value = some (present, p') ∧ p'.AddOnly := by
  cases e with
  | true =>
      obtain ⟨present, m, hadd⟩ := LawfulCorpusMap.add_of_not_stuck
        (LawfulCorpusMap.filled_last h.enabled) id value
      exact ⟨present, ⟨m, p.disabledMap⟩, congrArg (Option.map _) hadd, h.enabled.add hadd,
        h.disabled⟩
  | false =>
      obtain ⟨present, m, hadd⟩ := LawfulCorpusMap.add_of_not_stuck
        (LawfulCorpusMap.filled_last h.disabled) id value
      exact ⟨present, ⟨p.enabledMap, m⟩, congrArg (Option.map _) hadd, h.enabled,
        h.disabled.add hadd⟩

end Partitions

/-! ## The in-memory store -/

instance : PartitionedStore (InMemoryStore I M) I Unit where
  Holds s := s.maps.Holds
  Loads _ _ := True
  Saves _ _ _ := True
  StuckIn s e := Stuck (s.maps.map e)
  Wf s := s.maps.Keyed (·.id)
  AddOnly s := s.maps.AddOnly
  count_eq s := LawfulCorpusMap.count_eq s.maps.enabledMap
  add_wf hs h := by
    obtain ⟨present, hmaps, -⟩ := InMemoryStore.addShared_maps h
    exact hs.add rfl hmaps
  add_holds h := by
    obtain ⟨present, hmaps, -⟩ := InMemoryStore.addShared_maps h
    exact Partitions.add_holds hmaps
  add_loads _ _ := by simp
  add_result {s s' e tc env r} h := by
    obtain ⟨present, hmaps, rfl⟩ := InMemoryStore.addShared_maps h
    obtain ⟨rfl, -⟩ := Partitions.add_returns hmaps
    by_cases hold : s.maps.Holds e tc.id
    · exact Or.inl ⟨hold, congrArg _ (if_pos hold)⟩
    · exact Or.inr (Or.inl ⟨hold, trivial, congrArg _ (if_neg hold)⟩)
  add_eq_none_iff := Option.map_eq_none_iff.trans Partitions.add_eq_none_iff
  add_returns e tc env hs := by
    obtain ⟨present, maps, hadd, haddOnly⟩ := hs.add e tc.id tc
    exact ⟨_, ⟨maps⟩, congrArg (Option.map _) hadd, haddOnly⟩
  disable_wf hs h := by
    obtain ⟨found, hmaps⟩ := InMemoryStore.disable_maps h
    exact hs.disable hmaps
  disable_holds h := by
    obtain ⟨found, hmaps⟩ := InMemoryStore.disable_maps h
    exact Partitions.disable_holds hmaps
  disable_loads _ _ := Iff.rfl
  disable_result h := by
    obtain ⟨⟨found, maps⟩, hmaps, heq⟩ := Option.map_eq_some_iff.mp h
    obtain ⟨rfl, -⟩ := Prod.mk.inj heq
    obtain ⟨rfl, -⟩ := Partitions.disable_returns hmaps
    unfold Partitions.Holds
    split <;> simp [*]
  getFrom_held {s e id} hs hheld _ := by
    obtain ⟨tc, hget⟩ := Option.isSome_iff_exists.mp (Partitions.getFrom_isSome.mpr hheld)
    refine ⟨tc, ?_, hs.getFrom hget⟩
    show s.getFrom e id = .ok tc
    simp only [InMemoryStore.getFrom, hget]
  getFrom_not_held {s e id} h := by
    have hnone : s.maps.getFrom e id = none := by
      simpa using mt Partitions.getFrom_isSome.mp h
    refine ⟨s!"Index {id} not found", ?_⟩
    show s.getFrom e id = .error (.indexNotFound id)
    simp only [InMemoryStore.getFrom, hnone]

/-! ## The on-disk store -/

namespace OnDiskStore

variable {s s' : OnDiskStore I M} {e : Bool} {id : TestcaseId}

/-- The file of the id holds a testcase of that id. -/
def Loads (s : OnDiskStore I M) (id : TestcaseId) : Prop :=
  ∃ tc : Testcase I, tc.id = id ∧ s.diskMgr.loadTestcase id s.dir = .ok tc

/-- What an add does to the directory, and what it reports. -/
theorem addShared_cases {tc : Testcase I} {outcome : WriteOutcome} {r : Result StorageResult}
    (h : s.addShared e tc outcome = some (r, s')) :
    s'.diskMgr = s.diskMgr ∧
      ((s.maps.Holds e tc.id ∧ r = .ok (.duplicate tc.id) ∧ s'.dir = s.dir) ∨
      (¬ s.maps.Holds e tc.id ∧
        s'.dir = (s.diskMgr.saveTestcase tc outcome s.dir).2 ∧
        r = (s.diskMgr.saveTestcase tc outcome s.dir).1.map fun _ => .stored tc.id)) := by
  obtain ⟨present, hmaps, hmgr, hcase⟩ := addShared_maps h
  obtain ⟨rfl, -⟩ := Partitions.add_returns hmaps
  refine ⟨hmgr, ?_⟩
  split at hcase
  · next hold => exact Or.inl ⟨hold, hcase⟩
  · next hold => exact Or.inr ⟨hold, hcase⟩

/-- What was only added to takes every testcase, whatever becomes of the write. -/
theorem addShared_returns (h : s.maps.AddOnly) (e : Bool) (tc : Testcase I)
    (outcome : WriteOutcome) :
    ∃ r s', s.addShared e tc outcome = some (r, s') ∧ s'.maps.AddOnly := by
  obtain ⟨present, maps, hmaps, haddOnly⟩ := h.add e tc.id tc.id
  obtain ⟨⟨r, s'⟩, hadd⟩ : ∃ rs, s.addShared e tc outcome = some rs :=
    ⟨_, congrArg (Option.map _) hmaps⟩
  obtain ⟨present', hmaps', -⟩ := addShared_maps hadd
  obtain ⟨-, rfl⟩ := Prod.mk.inj (Option.some.inj (hmaps.symm.trans hmaps'))
  exact ⟨r, s', hadd, haddOnly⟩

theorem add_loads {tc : Testcase I} {outcome : WriteOutcome} {r : Result StorageResult}
    (h : s.addShared e tc outcome = some (r, s')) :
    ∀ k, s'.Loads k ↔
      s.Loads k ∨ (k = tc.id ∧ ¬ s.maps.Holds e k ∧ s.diskMgr.Saves tc outcome s.dir) := by
  intro k
  obtain ⟨hmgr, ⟨hold, -, hdir⟩ | ⟨hold, hdir, -⟩⟩ := addShared_cases h
  · rw [Loads, hmgr, hdir]
    refine (or_iff_left ?_).symm
    rintro ⟨rfl, hnot, -⟩
    exact hnot hold
  · rw [Loads, hmgr, hdir]
    by_cases hsave : s.diskMgr.Saves tc outcome s.dir
    · obtain ⟨dir', hok, hfile, hother⟩ := DiskMgr.saveTestcase_of_saves hsave
      rw [hok]
      by_cases hk : k = tc.id
      · subst hk
        exact iff_of_true ⟨tc, rfl, DiskMgr.loadTestcase_of_onDisk hfile⟩
          (Or.inr ⟨rfl, hold, hsave⟩)
      · simp only [hk, false_and, or_false, DiskMgr.loadTestcase_congr (hother k hk)]
        rfl
    · obtain ⟨err, dir', herr, hother⟩ := DiskMgr.saveTestcase_of_not_saves hsave
      rw [herr]
      simp only [hsave, and_false, or_false, DiskMgr.loadTestcase_congr (hother k)]
      rfl

instance : PartitionedStore (OnDiskStore I M) I WriteOutcome where
  Holds s := s.maps.Holds
  Loads := Loads
  Saves s tc outcome := s.diskMgr.Saves tc outcome s.dir
  StuckIn s e := Stuck (s.maps.map e)
  Wf s := s.maps.Keyed fun k => k
  AddOnly s := s.maps.AddOnly
  count_eq s := LawfulCorpusMap.count_eq s.maps.enabledMap
  add_wf hs h := by
    obtain ⟨present, hmaps, -⟩ := addShared_maps h
    exact hs.add rfl hmaps
  add_holds h := by
    obtain ⟨present, hmaps, -⟩ := addShared_maps h
    exact Partitions.add_holds hmaps
  add_loads := add_loads
  add_result {s s' e tc outcome r} h := by
    obtain ⟨-, ⟨hold, rfl, -⟩ | ⟨hold, -, rfl⟩⟩ := addShared_cases h
    · exact Or.inl ⟨hold, rfl⟩
    · refine Or.inr ?_
      by_cases hsave : s.diskMgr.Saves tc outcome s.dir
      · obtain ⟨dir', hok, -⟩ := DiskMgr.saveTestcase_of_saves hsave
        exact Or.inl ⟨hold, hsave, by rw [hok]; rfl⟩
      · obtain ⟨err, dir', herr, -⟩ := DiskMgr.saveTestcase_of_not_saves hsave
        exact Or.inr ⟨hold, hsave, err, by rw [herr]; rfl⟩
  add_eq_none_iff := Option.map_eq_none_iff.trans Partitions.add_eq_none_iff
  add_returns e tc outcome hs := addShared_returns hs e tc outcome
  disable_wf hs h := by
    obtain ⟨found, hmaps, -⟩ := disable_maps h
    exact hs.disable hmaps
  disable_holds h := by
    obtain ⟨found, hmaps, -⟩ := disable_maps h
    exact Partitions.disable_holds hmaps
  disable_loads h k := by
    obtain ⟨found, hmaps, hmgr, hdir⟩ := disable_maps h
    simp only [Loads, hmgr, hdir]
  disable_result h := by
    obtain ⟨⟨found, maps⟩, hmaps, heq⟩ := Option.map_eq_some_iff.mp h
    obtain ⟨rfl, -⟩ := Prod.mk.inj heq
    obtain ⟨rfl, -⟩ := Partitions.disable_returns hmaps
    unfold Partitions.Holds
    split <;> simp [*]
  getFrom_held {s e id} hs hheld hloads := by
    obtain ⟨k, hget⟩ := Option.isSome_iff_exists.mp (Partitions.getFrom_isSome.mpr hheld)
    obtain rfl : k = id := hs.getFrom hget
    obtain ⟨tc, hid, hload⟩ := hloads
    refine ⟨tc, ?_, hid⟩
    show s.getFrom e k = .ok tc
    simp only [getFrom, hget, hload]
  getFrom_not_held {s e id} h := by
    have hnone : s.maps.getFrom e id = none := by
      simpa using mt Partitions.getFrom_isSome.mp h
    refine ⟨if e then s!"Index not found: {id}" else s!"Index {id} not found", ?_⟩
    show s.getFrom e id = _
    simp only [getFrom, hnone]
    cases e <;> rfl

end OnDiskStore

/-! ## Answers of a store that is only added to -/

class CoherentStore (S : Type) (I Env : outParam Type) [Input I] extends Store S I Env where
  /-- Only added to, and every testcase to be had from it is one of `U`. -/
  Within : (Testcase I → Prop) → S → Prop
  add_within {U : Testcase I → Prop} {s : S} {tc : Testcase I} (e : Bool) (env : Env) :
    Within U s → U tc → ∃ r s', addShared e tc env s = some (r, s') ∧ Within U s' ∧
      ∀ id, (∃ t, getFrom true id s = .ok t) → ∃ t, getFrom true id s' = .ok t
  getFrom_within {U : Testcase I → Prop} {s : S} {e : Bool} {id : TestcaseId} {t : Testcase I} :
    Within U s → getFrom e id s = .ok t → U t ∧ t.id = id
  getFrom_enabled {s : S} {id : TestcaseId} {t : Testcase I} :
    getFrom true id s = .ok t → ∃ t', getFrom false id s = .ok t'

namespace InMemoryStore

variable {s s' : InMemoryStore I M} {e : Bool} {id : TestcaseId} {t : Testcase I}

omit [LawfulCorpusMap M] in
theorem getFrom_eq_ok : s.getFrom e id = .ok t ↔ s.maps.getFrom e id = some t := by
  unfold getFrom
  cases s.maps.getFrom e id <;> simp

structure Within (U : Testcase I → Prop) (s : InMemoryStore I M) : Prop where
  addOnly : s.maps.AddOnly
  values : ∀ e id t, s.maps.find e id = some t → U t ∧ t.id = id

instance : CoherentStore (InMemoryStore I M) I Unit where
  Within := Within
  add_within {U s tc} e env hs hU := by
    obtain ⟨present, maps, hadd, haddOnly⟩ := hs.addOnly.add e tc.id tc
    obtain ⟨-, hfind⟩ := Partitions.add_returns hadd
    refine ⟨_, ⟨maps⟩, congrArg (Option.map _) hadd, ⟨haddOnly, fun e' k t ht => ?_⟩, ?_⟩
    · rw [hfind e' k] at ht
      split at ht
      · next heq => exact Option.some.inj ht ▸ ⟨hU, heq.2.symm⟩
      · exact hs.values e' k t ht
    · rintro k ⟨t, ht⟩
      have hold : s.maps.find true k = some t := getFrom_eq_ok.mp ht
      have hnew : (maps.find true k).isSome := by
        rw [hfind true k]
        split
        · rfl
        · rw [hold]; rfl
      obtain ⟨t', ht'⟩ := Option.isSome_iff_exists.mp hnew
      exact ⟨t', getFrom_eq_ok.mpr ht'⟩
  getFrom_within {U s e id t} hs hget := by
    obtain ⟨e', hfind⟩ := Partitions.find_of_getFrom (getFrom_eq_ok.mp hget)
    exact hs.values e' id t hfind
  getFrom_enabled {s id t} hget := by
    refine ⟨t, getFrom_eq_ok.mpr ?_⟩
    rw [Partitions.getFrom_false, ← Partitions.getFrom_true, getFrom_eq_ok.mp hget]
    rfl

end InMemoryStore

namespace OnDiskStore

variable {s s' : OnDiskStore I M} {e : Bool} {id : TestcaseId} {t : Testcase I}

omit [LawfulCorpusMap M] in
theorem getFrom_eq_ok : s.getFrom e id = .ok t ↔
    ∃ k, s.maps.getFrom e id = some k ∧ s.diskMgr.loadTestcase k s.dir = .ok t := by
  unfold getFrom
  cases s.maps.getFrom e id <;> simp

structure Within (U : Testcase I → Prop) (s : OnDiskStore I M) : Prop where
  addOnly : s.maps.AddOnly
  keyed : s.maps.Keyed fun k => k
  files : ∀ id t, s.diskMgr.loadTestcase id s.dir = .ok t → U t ∧ t.id = id

/-- An add leaves the file of an id alone, or writes the testcase there. -/
theorem add_load {tc : Testcase I} {outcome : WriteOutcome} {r : Result StorageResult}
    (h : s.addShared e tc outcome = some (r, s')) (k : TestcaseId) :
    s'.diskMgr.loadTestcase (I := I) k s'.dir = s.diskMgr.loadTestcase k s.dir ∨
      (k = tc.id ∧ s'.diskMgr.loadTestcase k s'.dir = .ok tc) := by
  obtain ⟨hmgr, ⟨-, -, hdir⟩ | ⟨-, hdir, -⟩⟩ := addShared_cases h
  · exact Or.inl (by rw [hmgr, hdir])
  · by_cases hsave : s.diskMgr.Saves tc outcome s.dir
    · obtain ⟨dir', hok, hfile, hother⟩ := DiskMgr.saveTestcase_of_saves hsave
      have hdir' : s'.dir = dir' := hdir.trans (by rw [hok])
      rw [hmgr, hdir']
      by_cases hk : k = tc.id
      · subst hk
        exact Or.inr ⟨rfl, DiskMgr.loadTestcase_of_onDisk hfile⟩
      · exact Or.inl (DiskMgr.loadTestcase_congr (hother k hk))
    · obtain ⟨err, dir', herr, hother⟩ := DiskMgr.saveTestcase_of_not_saves hsave
      have hdir' : s'.dir = dir' := hdir.trans (by rw [herr])
      rw [hmgr, hdir']
      exact Or.inl (DiskMgr.loadTestcase_congr (hother k))

instance : CoherentStore (OnDiskStore I M) I WriteOutcome where
  Within := Within
  add_within {U s tc} e outcome hs hU := by
    obtain ⟨r, s', hadd, haddOnly⟩ := addShared_returns hs.addOnly e tc outcome
    obtain ⟨present, hmaps, -⟩ := addShared_maps hadd
    obtain ⟨-, hfind⟩ := Partitions.add_returns hmaps
    refine ⟨r, s', hadd, ⟨haddOnly, hs.keyed.add rfl hmaps, fun k t ht => ?_⟩, ?_⟩
    · rcases add_load hadd k with hload | ⟨rfl, hload⟩
      · exact hs.files k t (hload ▸ ht)
      · obtain rfl := Except.ok.inj (hload.symm.trans ht)
        exact ⟨hU, rfl⟩
    · rintro k ⟨t, ht⟩
      obtain ⟨k', hget, hload⟩ := getFrom_eq_ok.mp ht
      obtain rfl : k' = k := hs.keyed true k k' hget
      have hnew : s'.maps.find true k' = some k' := by
        rw [hfind true k']
        split
        · next heq => rw [heq.2]
        · exact hget
      rcases add_load hadd k' with hsame | ⟨-, hwritten⟩
      · exact ⟨t, getFrom_eq_ok.mpr ⟨k', hnew, hsame.trans hload⟩⟩
      · exact ⟨tc, getFrom_eq_ok.mpr ⟨k', hnew, hwritten⟩⟩
  getFrom_within {U s e id t} hs hget := by
    obtain ⟨k, hfrom, hload⟩ := getFrom_eq_ok.mp hget
    obtain rfl : k = id := hs.keyed.getFrom hfrom
    exact hs.files k t hload
  getFrom_enabled {s id t} hget := by
    obtain ⟨k, hfrom, hload⟩ := getFrom_eq_ok.mp hget
    refine ⟨t, getFrom_eq_ok.mpr ⟨k, ?_, hload⟩⟩
    rw [Partitions.getFrom_false, ← Partitions.getFrom_true, hfrom]
    rfl

end OnDiskStore

end Libaflmm
