import Libaflmm.StorePartition

/-!
# The index of the on-disk store and its files

`OnDiskStore::add_shared` records the id first and saves the testcase second,
and does not take the id back when the save fails. From then on the id counts
as stored: it is reported as a duplicate, and its testcase is never saved
again. So an add is atomic exactly when it needs no save or its save goes
through, and the index is sound for as long as that is so.
-/

namespace Libaflmm

namespace OnDiskStore

variable {I : Type} [Input I] {M : Type → Type} [InMemoryCorpusMap M]
  {s s' : OnDiskStore I M} {enabled : Bool} {testcase : Testcase I} {outcome : WriteOutcome}

/-- Some testcase of that id has a file that was written completely. -/
def Written (s : OnDiskStore I M) (id : TestcaseId) : Prop :=
  ∃ testcase : Testcase I, testcase.id = id ∧ s.diskMgr.OnDisk testcase s.dir

/-- Every id of the two maps has its file. -/
def Indexed (s : OnDiskStore I M) : Prop := ∀ id, s.maps.Stored id → s.Written id

/-- One operation is atomic: when it fails the maps are unchanged, the index
is sound afterwards, and a duplicate is on disk. -/
def Atomic (s : OnDiskStore I M) : StoreOp I WriteOutcome → Prop
  | .add enabled testcase outcome => ∀ r s', s.addShared enabled testcase outcome = some (r, s') →
      (∀ err, r = .error err → s'.maps = s.maps) ∧ s'.Indexed ∧
        (r = .ok (.duplicate testcase.id) → s'.Written testcase.id)
  | .disable id => ∀ r s', s.disable id = some (r, s') → s'.Indexed

/-- The operation needs no save, or its save goes through: the map of the
partition has the id already (or is stuck, where every add panics), or the
testcase can be serialised, no earlier write of it was interrupted, and this
one completes. -/
def SaveSucceeds (s : OnDiskStore I M) : StoreOp I WriteOutcome → Prop
  | .add enabled testcase outcome =>
      ¬ Stuck (s.maps.map enabled) →
        s.maps.find enabled testcase.id = none → s.diskMgr.Saves testcase outcome s.dir
  | .disable _ => True

instance (s : OnDiskStore I M) : ∀ op, Decidable (s.SaveSucceeds op)
  | .add enabled testcase outcome => inferInstanceAs (Decidable
      (¬ Stuck (s.maps.map enabled) →
        s.maps.find enabled testcase.id = none → s.diskMgr.Saves testcase outcome s.dir))
  | .disable _ => inferInstanceAs (Decidable True)

variable [LawfulCorpusMap M]

/-! ## One step -/

theorem add_indexed {r : Result StorageResult} (h : s.Indexed)
    (hadd : s.addShared enabled testcase outcome = some (r, s'))
    (hsave : s.maps.find enabled testcase.id = none → s.diskMgr.Saves testcase outcome s.dir) :
    (∃ result, r = .ok result) ∧ s'.Indexed ∧ s'.Written testcase.id := by
  obtain ⟨present, hmaps, hmgr, hcase⟩ := addShared_maps hadd
  obtain ⟨hpresent, hfind⟩ := Partitions.add_returns hmaps
  have hstored : ∀ id, s'.maps.Stored id → id = testcase.id ∨ s.maps.Stored id := by
    intro id hid
    by_cases heq : id = testcase.id
    · exact Or.inl heq
    · have hboth : ∀ e, s'.maps.find e id = s.maps.find e id := fun e => by
        rw [hfind e id, if_neg (fun h => heq h.2)]
      rw [Partitions.Stored, hboth, hboth] at hid
      exact Or.inr hid
  cases hold : s.maps.find enabled testcase.id with
  | some value =>
      obtain rfl : present = true := by rw [hpresent, hold]; rfl
      obtain ⟨rfl, hdir⟩ := hcase
      have hwritten : ∀ id, s.Written id → s'.Written id := fun id hid => by
        simpa only [Written, hmgr, hdir] using hid
      have hid : s.maps.Stored testcase.id := by
        cases enabled
        · exact Or.inr (by simp [hold])
        · exact Or.inl (by simp [hold])
      refine ⟨⟨_, rfl⟩, fun id hnew => ?_, hwritten _ (h _ hid)⟩
      rcases hstored id hnew with rfl | hst
      · exact hwritten _ (h _ hid)
      · exact hwritten _ (h _ hst)
  | none =>
      obtain rfl : present = false := by rw [hpresent, hold]; rfl
      obtain ⟨dir', hok, hfile, hother⟩ := DiskMgr.saveTestcase_of_saves (hsave hold)
      obtain ⟨hdir, rfl⟩ := hcase
      rw [hok] at hdir ⊢
      have hdir' : s'.dir = dir' := hdir
      have hnew : s'.Written testcase.id := ⟨testcase, rfl, by rw [hmgr, hdir']; exact hfile⟩
      refine ⟨⟨_, rfl⟩, fun id hid => ?_, hnew⟩
      by_cases heq : id = testcase.id
      · exact heq ▸ hnew
      · obtain ⟨t, rfl, bytes, hbytes, ht⟩ := h id ((hstored id hid).resolve_left heq)
        exact ⟨t, rfl, bytes, hbytes, by rw [hmgr, hdir', hother _ heq, ht]⟩

theorem disable_indexed {id : TestcaseId} {r : Result Unit} (h : s.Indexed)
    (hdis : s.disable id = some (r, s')) : s'.Indexed := by
  obtain ⟨found, hmaps, hmgr, hdir⟩ := disable_maps hdis
  obtain ⟨hfound, hfind⟩ := Partitions.disable_returns hmaps
  intro k hk
  have hstored : s.maps.Stored k := by
    rw [Partitions.Stored, hfind true k, hfind false k] at hk
    split at hk
    · next heq => exact heq.1 ▸ Or.inl (hfound ▸ heq.2)
    · exact hk
  simpa only [Written, hmgr, hdir] using h k hstored

/-- A failed save has recorded the id nevertheless. -/
theorem add_not_atomic {r : Result StorageResult}
    (hadd : s.addShared enabled testcase outcome = some (r, s'))
    (hfree : s.maps.find enabled testcase.id = none)
    (hsave : ¬ s.diskMgr.Saves testcase outcome s.dir) :
    (∃ err, r = .error err) ∧ s'.maps ≠ s.maps := by
  obtain ⟨present, hmaps, -, hcase⟩ := addShared_maps hadd
  obtain ⟨hpresent, hfind⟩ := Partitions.add_returns hmaps
  obtain rfl : present = false := by rw [hpresent, hfree]; rfl
  obtain ⟨err, dir', herr, -⟩ := DiskMgr.saveTestcase_of_not_saves hsave
  obtain ⟨-, rfl⟩ := hcase
  refine ⟨⟨err, by rw [herr]; rfl⟩, fun heq => ?_⟩
  have hnew := hfind enabled testcase.id
  rw [heq, hfree, if_pos ⟨rfl, rfl⟩] at hnew
  cases hnew

/-- **The step lemma.** With a sound index an operation is atomic exactly when
it needs no save or its save goes through. -/
theorem atomic_iff (h : s.Indexed) (op : StoreOp I WriteOutcome) :
    s.Atomic op ↔ s.SaveSucceeds op := by
  cases op with
  | disable id => exact iff_of_true (fun _ _ => disable_indexed h) trivial
  | add enabled testcase outcome =>
      constructor
      · intro hatomic hreturns hfree
        obtain ⟨⟨present, maps⟩, hmaps⟩ := Option.ne_none_iff_exists'.mp
          (mt Partitions.add_eq_none_iff.mp hreturns)
        obtain ⟨⟨r, s'⟩, hadd⟩ : ∃ rs, s.addShared enabled testcase outcome = some rs :=
          ⟨_, congrArg (Option.map _) hmaps⟩
        by_contra hsave
        obtain ⟨⟨err, hr⟩, hne⟩ := add_not_atomic hadd hfree hsave
        exact hne ((hatomic r s' hadd).1 err hr)
      · intro hsave r s' hadd
        obtain ⟨present, hmaps, -⟩ := addShared_maps hadd
        obtain ⟨⟨result, rfl⟩, hindexed, hwritten⟩ :=
          add_indexed h hadd (hsave (Partitions.not_stuck_of_add hmaps))
        exact ⟨fun err herr => (nomatch herr), hindexed, fun _ => hwritten⟩

theorem saveSucceeds_indexed (h : s.Indexed) {op : StoreOp I WriteOutcome}
    (hop : s.SaveSucceeds op) (hstep : op.exec s = some s') : s'.Indexed := by
  cases op with
  | add enabled testcase outcome =>
      obtain ⟨⟨r, t⟩, hadd, rfl⟩ := Option.map_eq_some_iff.mp hstep
      exact ((atomic_iff h _).mpr hop r t hadd).2.1
  | disable id =>
      obtain ⟨⟨r, t⟩, hdis, rfl⟩ := Option.map_eq_some_iff.mp hstep
      exact disable_indexed h hdis

/-! ## Whole runs -/

/-- **The store is atomic exactly as long as no save fails.** Along a run from
an empty index, over a directory with any files, every operation is atomic if
and only if every operation needs no save or has its save go through. -/
theorem atomic_iff_saveSucceeds (fileFmt : TestcaseFilenameFormat) (dir : Dir)
    (ops : List (StoreOp I WriteOutcome)) :
    StepsMeet StoreOp.exec (new fileFmt dir : OnDiskStore I M) ops Atomic ↔
      StepsMeet StoreOp.exec (new fileFmt dir : OnDiskStore I M) ops SaveSucceeds := by
  exact stepsMeet_congr Indexed (fun id hid => (Partitions.not_stored_empty hid).elim)
    (fun _ op _ ht => atomic_iff ht op) fun _ _ _ _ ht hop => saveSucceeds_indexed ht hop

/-- Added twice, with every write going through. -/
theorem atomic_twice_written :
    StepsMeet StoreOp.exec (new .id fun _ => none : OnDiskStore ValueInput HashCorpusMap)
      [.add true (.new ⟨1⟩) .completes, .add true (.new ⟨1⟩) .completes] Atomic :=
  (atomic_iff_saveSucceeds .id _ _).mpr (by decide)

/-- A write that cannot open its file leaves the id in the map. -/
theorem add_unwritten_not_atomic :
    ¬ ∀ ops : List (StoreOp ValueInput WriteOutcome),
      StepsMeet StoreOp.exec (new .id fun _ => none : OnDiskStore ValueInput HashCorpusMap)
        ops Atomic := by
  intro h
  have hatomic := h [.add true (.new ⟨1⟩) (.openFails .other)] [] _ (List.prefix_refl _) _ rfl
  have hmaps := (hatomic _ _ rfl).1 _ rfl
  have hfind := congrArg (fun maps => (maps.find true ⟨1⟩).isSome) hmaps
  exact absurd hfind (by decide)

end OnDiskStore

end Libaflmm
