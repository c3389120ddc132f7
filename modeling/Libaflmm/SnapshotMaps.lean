import Libaflmm.Runs
import Libaflmm.Snapshot

/-!
# When the mapping model is faithful

What the guest has mapped is a partial function from addresses to permissions.
`Faithful` says that `new_maps` represents it: disjoint intervals, with the last
permissions of each address, whose lengths add up to the recorded size.

A new mapping is inserted over the old ones, a change of permissions maps what
it covers, and a removal does not touch the size. A call keeps `Faithful`
exactly when none of this shows (`Meets`).
-/

namespace Libaflmm

namespace SnapshotModule

variable {T : Type → Type} [IntervalTree T]

/-! ## The memory as the guest sees it -/

abbrev Mapped := Nat → Option (Option MmapPerms)

inductive MapCall
  | addMapped (start size : Nat) (perms : Option MmapPerms)
  | changeMappedPerms (start size : Nat) (perms : Option MmapPerms)
  | removeMapped (thread start size : Nat)

def MapCall.range : MapCall → Interval
  | .addMapped start size _ => SnapshotModule.range start size
  | .changeMappedPerms start size _ => SnapshotModule.range start size
  | .removeMapped _ start size => SnapshotModule.range start size

def MapCall.apply (call : MapCall) (m : Mapped) : Mapped := fun a =>
  if a ∈ call.range then
    match call with
    | .addMapped _ _ perms => some perms
    | .changeMappedPerms _ _ perms => (m a).map fun _ => perms
    | .removeMapped _ _ _ => none
  else m a

/-- The number of mapped bytes. -/
noncomputable def mappedBytes (m : Mapped) : Nat := Set.ncard {a | m a ≠ none}

/-- The module beside the memory it follows, and whether the last call called
the callback. -/
structure Followed (T : Type → Type) where
  module : SnapshotModule T
  mapped : Mapped
  called : Bool

def step (t : Followed T) (call : MapCall) : Option (Followed T) :=
  match call with
  | .addMapped start size perms =>
      (t.module.addMapped start size perms).map fun (called, module) =>
        { module, mapped := call.apply t.mapped, called }
  | .changeMappedPerms start size perms =>
      (t.module.changeMappedPerms start size perms).map fun module =>
        { module, mapped := call.apply t.mapped, called := false }
  | .removeMapped thread start size =>
      (t.module.removeMapped thread start size).map fun module =>
        { module, mapped := call.apply t.mapped, called := false }

/-- The tree represents the memory. -/
structure Represents (tree : T MemoryRegionInfo) (m : Mapped) : Prop where
  disjoint : IntervalTree.Disjoint tree
  covers : ∀ a p, m a = some p ↔ ∃ info, IntervalTree.At tree a info ∧ info.perms = p

/-- After the calls: the module represents the memory with the right size, and
the callback was called by a mapping that exceeds the limit. -/
structure Faithful (calls : List MapCall) (t : Followed T) : Prop where
  represents : Represents t.module.newMaps.tree t.mapped
  size : t.module.newMaps.size = IntervalTree.total t.module.newMaps.tree
  called : ∀ start size perms, calls.getLast? = some (.addMapped start size perms) → size ≠ 0 →
    (t.called = true ↔ t.module.mmapLimit ≠ 0 ∧ t.module.mmapLimit < mappedBytes t.mapped)
  callback : t.module.mmapLimit ≠ 0 → t.module.stopExecution = true

/-- A mapping is made, or removed, where nothing is mapped; permissions are
changed where everything is. -/
def Meets (t : Followed T) (call : MapCall) : Prop :=
  match call with
  | .addMapped _ _ _ => ∀ a ∈ call.range, t.mapped a = none
  | .changeMappedPerms _ _ _ => ∀ a ∈ call.range, t.mapped a ≠ none
  | .removeMapped _ _ _ => ∀ a ∈ call.range, t.mapped a = none

/-! ## The calls -/

theorem splitMapped_eq {interval i : Interval} {perms : Option MmapPerms}
    {tree : T MemoryRegionInfo} (h : i.Overlaps interval) :
    splitMapped interval i perms tree =
      some (IntervalTree.cut interval { perms, changed := true } i tree) := by
  have hinter : i.intersect interval =
      some ⟨max i.start interval.start, min i.stop interval.stop⟩ :=
    if_pos h
  have hleft : max i.start interval.start =
      if i.start < interval.start then interval.start else i.start := by
    split <;> omega
  have hright : min i.stop interval.stop =
      if interval.stop < i.stop then interval.stop else i.stop := by
    split <;> omega
  simp only [splitMapped, hinter, IntervalTree.cut, Interval.minus, hleft, hright]
  by_cases h1 : i.start < interval.start <;> by_cases h2 : interval.stop < i.stop <;> simp [h1, h2]

/-- What becomes of an entry that is split. -/
def touch (info : MemoryRegionInfo) : MemoryRegionInfo := { perms := info.perms, changed := true }

theorem foldlM_splitMapped {interval : Interval} {found : List (Interval × MemoryRegionInfo)}
    {tree : T MemoryRegionInfo} (h : ∀ e ∈ found, e.1.Overlaps interval) :
    (found.map fun e => (e.1, e.2.perms)).foldlM
        (fun tree (i, perms) => splitMapped interval i perms tree) tree =
      some (IntervalTree.cutAll interval touch found tree) := by
  induction found generalizing tree with
  | nil => rfl
  | cons e found ih =>
      obtain ⟨he, hfound⟩ := List.forall_mem_cons.mp h
      simp only [List.map_cons, List.foldlM_cons, splitMapped_eq he, Option.bind_eq_bind,
        Option.bind_some]
      exact ih hfound

theorem addMapped_eq {start size : Nat} {perms : Option MmapPerms} {self : SnapshotModule T}
    (hsize : size ≠ 0) (hcb : self.mmapLimit ≠ 0 → self.stopExecution = true) :
    self.addMapped start size perms =
      let totalSize := self.newMaps.size + roundUp size
      let tree := IntervalTree.insert (range start size) { perms, changed := true }
        self.newMaps.tree
      some (decide (self.mmapLimit ≠ 0 ∧ self.mmapLimit < totalSize),
        { self with newMaps := ⟨tree, totalSize⟩ }) := by
  simp only [addMapped, if_neg hsize]
  split
  · next h => simp [h, hcb h.1]
  · next h => simp [h]

theorem overlaps_of_mem_query [LawfulIntervalTree T] {interval : Interval}
    {tree : T MemoryRegionInfo} :
    ∀ e ∈ IntervalTree.query interval tree, e.1.Overlaps interval :=
  fun _ he => (IntervalTree.mem_query.mp he).2

theorem changeMappedPerms_eq [LawfulIntervalTree T] (start size : Nat) (perms : Option MmapPerms)
    (self : SnapshotModule T) :
    self.changeMappedPerms start size perms =
      let interval := range start size
      let tree := IntervalTree.cutAll interval touch
        (IntervalTree.query interval self.newMaps.tree) self.newMaps.tree
      let tree := IntervalTree.insert interval { perms, changed := true } tree
      some { self with newMaps := { self.newMaps with tree } } := by
  simp only [changeMappedPerms, foldlM_splitMapped overlaps_of_mem_query]
  rfl

omit [IntervalTree T] in
theorem foldl_pageAccessNoCache (thread : Nat) (pages : List Nat) (self : SnapshotModule T) :
    ∃ accesses, pages.foldl (fun self page => self.pageAccessNoCache thread page) self =
      { self with accesses } := by
  induction pages generalizing self with
  | nil => exact ⟨self.accesses, rfl⟩
  | cons page pages ih => exact ih (self.pageAccessNoCache thread page)

theorem removeMapped_eq [LawfulIntervalTree T] (thread start size : Nat)
    (self : SnapshotModule T) : ∃ accesses,
    self.removeMapped thread start size =
      let interval := range start size
      let tree := IntervalTree.cutAll interval touch
        (IntervalTree.query interval self.newMaps.tree) self.newMaps.tree
      some { self with accesses, newMaps := { self.newMaps with tree } } := by
  have hfold : ∀ (found : List (Interval × MemoryRegionInfo)) (self : SnapshotModule T),
      (∀ e ∈ found, e.1.Overlaps (range start size)) → ∃ accesses,
      (found.map fun e => (e.1, e.2.perms)).foldlM (fun (self : SnapshotModule T) (i, perms) => do
        let tree ← splitMapped (range start size) i perms self.newMaps.tree
        let self := (strided SNAPSHOT_PAGE_SIZE i.start i.stop).foldl
          (fun self page => self.pageAccessNoCache thread page) self
        pure { self with newMaps := { self.newMaps with tree } }) self =
      some { self with
        accesses
        newMaps.tree := IntervalTree.cutAll (range start size) touch found self.newMaps.tree } := by
    intro found
    induction found with
    | nil => exact fun self _ => ⟨self.accesses, rfl⟩
    | cons e found ih =>
        intro self h
        obtain ⟨he, hfound⟩ := List.forall_mem_cons.mp h
        obtain ⟨acc, hacc⟩ := foldl_pageAccessNoCache thread
          (strided SNAPSHOT_PAGE_SIZE e.1.start e.1.stop) self
        simp only [List.map_cons, List.foldlM_cons, splitMapped_eq he, Option.bind_eq_bind,
          Option.bind_some, hacc, Option.pure_def]
        exact ih _ hfound
  exact hfold _ self overlaps_of_mem_query

/-! ## The memory represented -/

section

variable {tree : T MemoryRegionInfo} {m : Mapped} {i : Interval}

theorem Represents.dom (h : Represents tree m) :
    {a | m a ≠ none} = {a | ∃ info, IntervalTree.At tree a info} := by
  ext a
  simp only [Set.mem_ofPred_eq, Option.ne_none_iff_exists', h.covers]
  constructor
  · rintro ⟨_, info, hat, -⟩
    exact ⟨info, hat⟩
  · rintro ⟨info, hat⟩
    exact ⟨info.perms, info, hat, rfl⟩

theorem Represents.finite (h : Represents tree m) : {a | m a ≠ none}.Finite := by
  rw [h.dom]
  exact IntervalTree.finite_at tree

theorem Represents.not_at (h : Represents tree m) {a : Nat} (ha : m a = none)
    (info : MemoryRegionInfo) : ¬IntervalTree.At tree a info := by
  intro hat
  have := (h.covers a info.perms).mpr ⟨info, hat, rfl⟩
  rw [ha] at this
  cases this

theorem Represents.congr (h : Represents tree m) (m' : Mapped) (heq : ∀ a, m' a = m a) :
    Represents tree m' := by
  obtain rfl := funext heq
  exact h

theorem length_range (start size : Nat) : (range start size).length = roundUp size := by
  simp [range, Interval.length]

theorem ncard_interval (i : Interval) : Set.ncard {a | a ∈ i} = i.length := by
  have : {a | a ∈ i} = (Finset.Ico i.start i.stop : Set Nat) := by
    ext a
    simp [Interval.mem_def]
  rw [this, Set.ncard_coe_finset, Nat.card_Ico, Interval.length]

/-- Mapping an interval adds what was not mapped of it. -/
theorem mappedBytes_add (h : Represents tree m) (p : Option MmapPerms) :
    mappedBytes (fun a => if a ∈ i then some p else m a) + Set.ncard {a | m a ≠ none ∧ a ∈ i} =
      mappedBytes m + i.length := by
  have hunion : {a | (if a ∈ i then some p else m a) ≠ none} = {a | m a ≠ none} ∪ {a | a ∈ i} := by
    ext a
    by_cases ha : a ∈ i <;> simp [ha]
  have hinter : {a | m a ≠ none ∧ a ∈ i} = {a | m a ≠ none} ∩ {a | a ∈ i} := rfl
  have hfin : {a | a ∈ i}.Finite := Set.finite_Ico i.start i.stop
  rw [mappedBytes, hunion, hinter, Set.ncard_union_add_ncard_inter _ _ h.finite hfin,
    ncard_interval, mappedBytes]

theorem mappedBytes_add_of_free (h : Represents tree m) (p : Option MmapPerms)
    (hfree : ∀ a ∈ i, m a = none) :
    mappedBytes (fun a => if a ∈ i then some p else m a) = mappedBytes m + i.length := by
  have hempty : {a | m a ≠ none ∧ a ∈ i} = ∅ := by
    ext a
    simp only [Set.mem_ofPred_eq, Set.mem_empty_iff_false, iff_false, not_and]
    intro ha hi
    exact ha (hfree a hi)
  have hadd := mappedBytes_add (i := i) h p
  rwa [hempty, Set.ncard_empty, Nat.add_zero] at hadd

theorem mappedBytes_add_lt (h : Represents tree m) (p : Option MmapPerms) {a : Nat} (hi : a ∈ i)
    (ha : m a ≠ none) :
    mappedBytes (fun a => if a ∈ i then some p else m a) < mappedBytes m + i.length := by
  have hpos : 0 < Set.ncard {a | m a ≠ none ∧ a ∈ i} :=
    (Set.ncard_pos (h.finite.subset fun _ hb => hb.1)).mpr ⟨a, ha, hi⟩
  have hadd := mappedBytes_add (i := i) h p
  omega

theorem mappedBytes_remove_lt (h : Represents tree m) {a : Nat} (hi : a ∈ i) (ha : m a ≠ none) :
    mappedBytes (fun a => if a ∈ i then none else m a) < mappedBytes m := by
  refine Set.ncard_lt_ncard ?_ h.finite
  rw [Set.ssubset_iff_of_subset]
  · exact ⟨a, ha, by simp [hi]⟩
  · intro b hb
    by_cases hbi : b ∈ i
    · simp [hbi] at hb
    · simpa [hbi] using hb

variable [LawfulIntervalTree T]

theorem Represents.total (h : Represents tree m) : IntervalTree.total tree = mappedBytes m := by
  rw [mappedBytes, h.dom, IntervalTree.total_eq_ncard h.disjoint]

theorem Represents.insert (h : Represents tree m) (hfree : ∀ a ∈ i, m a = none)
    (info : MemoryRegionInfo) :
    Represents (IntervalTree.insert i info tree)
      (fun a => if a ∈ i then some info.perms else m a) := by
  have hnot : ∀ a ∈ i, ∀ info, ¬IntervalTree.At tree a info := fun a ha => h.not_at (hfree a ha)
  refine ⟨IntervalTree.disjoint_insert h.disjoint hnot, fun a p => ?_⟩
  simp only [IntervalTree.at_insert hnot]
  by_cases ha : a ∈ i
  · simp [ha, hnot a ha]
  · simp [ha, h.covers]

theorem Represents.cut (h : Represents tree m) :
    Represents (IntervalTree.cutAll i touch (IntervalTree.query i tree) tree)
      (fun a => if a ∈ i then none else m a) := by
  obtain ⟨hdis, hat⟩ := IntervalTree.cutAll_query (j := i) (f := touch)
    (g := MemoryRegionInfo.perms) (fun _ => rfl) h.disjoint
  refine ⟨hdis, fun a p => ?_⟩
  rw [hat]
  by_cases ha : a ∈ i
  · simp [ha]
  · simp [ha, h.covers]

/-! ## One call -/

variable {calls : List MapCall} {t : Followed T}

theorem not_mem_range_zero (start a : Nat) : a ∉ range start 0 := by
  simp [range, roundUp, Interval.mem_def]

theorem faithful_add_iff {start size : Nat} {perms : Option MmapPerms} (h : Faithful calls t) :
    (∃ t', step t (.addMapped start size perms) = some t' ∧
      Faithful (calls ++ [.addMapped start size perms]) t') ↔
      ∀ a ∈ range start size, t.mapped a = none := by
  by_cases hsize : size = 0
  · subst hsize
    refine iff_of_true ⟨_, rfl, ?_⟩ fun a ha => absurd ha (not_mem_range_zero start a)
    refine ⟨h.represents.congr _ ?_, h.size, ?_, h.callback⟩
    · intro a
      simp [MapCall.apply, MapCall.range, not_mem_range_zero]
    · intro start' size' perms' hlast hne
      obtain ⟨-, rfl, -⟩ := by simpa using hlast
      exact absurd rfl hne
  · have hbytes : t.module.newMaps.size = mappedBytes t.mapped := h.size.trans h.represents.total
    simp only [step, addMapped_eq hsize h.callback]
    constructor
    · rintro ⟨t', ht', hfaithful⟩ a ha
      by_contra hmapped
      have hlt := mappedBytes_add_lt h.represents perms ha hmapped
      have hsame := hfaithful.size.trans hfaithful.represents.total
      obtain rfl := Option.some.inj ht'
      rw [length_range, ← hbytes] at hlt
      exact absurd hsame hlt.ne'
    · intro hfree
      have hrep := h.represents.insert hfree { perms, changed := true }
      have hadd := mappedBytes_add_of_free h.represents perms hfree
      rw [length_range, ← hbytes] at hadd
      refine ⟨_, rfl, hrep, hadd.symm.trans hrep.total.symm, ?_, h.callback⟩
      intro start' size' perms' _ _
      simp only [decide_eq_true_eq, ← hadd]
      rfl

theorem faithful_change_iff {start size : Nat} {perms : Option MmapPerms} (h : Faithful calls t) :
    (∃ t', step t (.changeMappedPerms start size perms) = some t' ∧
      Faithful (calls ++ [.changeMappedPerms start size perms]) t') ↔
      ∀ a ∈ range start size, t.mapped a ≠ none := by
  simp only [step, changeMappedPerms_eq]
  constructor
  · rintro ⟨t', ht', hfaithful⟩ a ha hnone
    have hcovers := (hfaithful.represents.covers a perms).mpr
    obtain rfl := Option.some.inj ht'
    have hmapped := hcovers ⟨_, IntervalTree.at_insert_self ha, rfl⟩
    simp [MapCall.apply, MapCall.range, ha, hnone] at hmapped
  · intro hmapped
    have hrep := (h.represents.cut (i := range start size)).insert (i := range start size)
      (fun a ha => if_pos ha) { perms, changed := true }
    have hrep' := hrep.congr (MapCall.apply (.changeMappedPerms start size perms) t.mapped) <| by
      intro a
      by_cases ha : a ∈ range start size
      · obtain ⟨p, hp⟩ := Option.ne_none_iff_exists'.mp (hmapped a ha)
        simp [MapCall.apply, MapCall.range, ha, hp]
      · simp [MapCall.apply, MapCall.range, ha]
    refine ⟨_, rfl, hrep', ?_, ?_, h.callback⟩
    · have hdom : {a | MapCall.apply (.changeMappedPerms start size perms) t.mapped a ≠ none} =
          {a | t.mapped a ≠ none} := by
        ext a
        by_cases ha : a ∈ range start size <;> simp [MapCall.apply, MapCall.range, ha]
      refine (h.size.trans h.represents.total).trans (Eq.trans ?_ hrep'.total.symm)
      rw [mappedBytes, mappedBytes, hdom]
    · intro start' size' perms' hlast
      simp at hlast

theorem faithful_remove_iff {thread start size : Nat} (h : Faithful calls t) :
    (∃ t', step t (.removeMapped thread start size) = some t' ∧
      Faithful (calls ++ [.removeMapped thread start size]) t') ↔
      ∀ a ∈ range start size, t.mapped a = none := by
  obtain ⟨accesses, heq⟩ := removeMapped_eq thread start size t.module
  have hbytes : t.module.newMaps.size = mappedBytes t.mapped := h.size.trans h.represents.total
  simp only [step, heq]
  constructor
  · rintro ⟨t', ht', hfaithful⟩ a ha
    by_contra hmapped
    have hlt := mappedBytes_remove_lt h.represents ha hmapped
    have hsame := hfaithful.size.trans hfaithful.represents.total
    obtain rfl := Option.some.inj ht'
    rw [← hbytes] at hlt
    exact absurd hsame hlt.ne'
  · intro hfree
    have hsame : ∀ a, MapCall.apply (.removeMapped thread start size) t.mapped a = t.mapped a := by
      intro a
      by_cases ha : a ∈ range start size
      · simp [MapCall.apply, MapCall.range, ha, hfree a ha]
      · simp [MapCall.apply, MapCall.range, ha]
    have hrep : Represents (T := T) _ (MapCall.apply (.removeMapped thread start size) t.mapped) :=
      h.represents.cut (i := range start size)
    refine ⟨_, rfl, hrep, ?_, ?_, h.callback⟩
    · refine hbytes.trans (Eq.trans ?_ hrep.total.symm)
      rw [funext hsame]
    · intro start' size' perms' hlast
      simp at hlast

end

/-! ## After a snapshot -/

/-- What the mappings map. -/
def mappedBy (mappings : List MapInfo) : Mapped := fun a =>
  (mappings.find? fun map => a ∈ (⟨map.start, map.stop⟩ : Interval)).map fun map => some map.flags

/-- No two mappings share an address. -/
def Apart (mappings : List MapInfo) : Prop :=
  mappings.Pairwise fun map map' =>
    ¬(⟨map.start, map.stop⟩ : Interval).Overlaps ⟨map'.start, map'.stop⟩

/-- The parts of the module that the loop over the pages leaves alone. -/
structure SameMaps (before after : SnapshotModule T) : Prop where
  maps : after.maps = before.maps
  mmapLimit : after.mmapLimit = before.mmapLimit
  stopExecution : after.stopExecution = before.stopExecution

omit [IntervalTree T] in
theorem sameMaps_pages {qemu : Qemu} {map : MapInfo} {self s : SnapshotModule T} {addrs : List Nat}
    (h : addrs.foldlM (snapshotPage qemu map) self = some s) : SameMaps self s := by
  refine run_invariant (SameMaps self) ?_ ⟨rfl, rfl, rfl⟩ h
  intro t addr t' ht hstep
  have hpages : ∃ pages, t' = { t with pages } := by
    simp only [snapshotPage] at hstep
    split at hstep
    · obtain ⟨data, -, rfl⟩ := Option.map_eq_some_iff.mp hstep
      exact ⟨_, rfl⟩
    · exact ⟨_, (Option.some.inj hstep).symm⟩
  obtain ⟨pages, rfl⟩ := hpages
  exact ⟨ht.maps, ht.mmapLimit, ht.stopExecution⟩

theorem snapshotMap_spec {qemu : Qemu} {map : MapInfo} {self s : SnapshotModule T}
    (h : snapshotMap qemu self map = some s) :
    s.maps = ⟨IntervalTree.insert ⟨map.start, map.stop⟩
        { perms := some map.flags, changed := false } self.maps.tree,
      self.maps.size + (map.stop - map.start)⟩ ∧
    s.mmapLimit = self.mmapLimit ∧ s.stopExecution = self.stopExecution := by
  simp only [snapshotMap, Option.bind_eq_bind, Option.bind_eq_some_iff, Option.pure_def] at h
  obtain ⟨t, ht, h⟩ := h
  obtain rfl := Option.some.inj h
  have hsame := sameMaps_pages ht
  exact ⟨by rw [hsame.maps], hsame.mmapLimit, hsame.stopExecution⟩

section

variable [LawfulIntervalTree T]

theorem snapshotMaps_spec {qemu : Qemu} {mappings : List MapInfo} {self s : SnapshotModule T}
    (hempty : self.maps = ⟨IntervalTree.empty, 0⟩) (hapart : Apart mappings)
    (h : mappings.foldlM (snapshotMap qemu) self = some s) :
    Represents s.maps.tree (mappedBy mappings) ∧ s.maps.size = IntervalTree.total s.maps.tree ∧
      s.mmapLimit = self.mmapLimit ∧ s.stopExecution = self.stopExecution := by
  induction mappings using List.reverseRecOn generalizing s with
  | nil =>
      obtain rfl := Option.some.inj h
      rw [hempty]
      refine ⟨⟨IntervalTree.disjoint_empty, ?_⟩, IntervalTree.total_empty.symm, rfl, rfl⟩
      intro a p
      simp [mappedBy, IntervalTree.At, LawfulIntervalTree.entries_empty]
  | append_singleton mappings map ih =>
      rw [List.foldlM_append] at h
      obtain ⟨t, ht, h⟩ := Option.bind_eq_some_iff.mp h
      rw [List.foldlM_cons] at h
      obtain ⟨u, hu, h⟩ := Option.bind_eq_some_iff.mp h
      obtain rfl := Option.some.inj h
      obtain ⟨hbefore, -, hlast⟩ := List.pairwise_append.mp hapart
      obtain ⟨hrep, hsize, hlimit, hstop⟩ := ih hbefore ht
      obtain ⟨hmaps, hlimit', hstop'⟩ := snapshotMap_spec hu
      have hfree : ∀ a ∈ (⟨map.start, map.stop⟩ : Interval), mappedBy mappings a = none := by
        intro a ha
        simp only [mappedBy, Option.map_eq_none_iff, List.find?_eq_none, decide_eq_true_eq]
        intro map' hmap' ha'
        exact hlast map' hmap' map (by simp) (Interval.overlaps_iff.mpr ⟨a, ha', ha⟩)
      have hins := hrep.insert hfree { perms := some map.flags, changed := false }
      have heq : ∀ a, mappedBy (mappings ++ [map]) a =
          if a ∈ (⟨map.start, map.stop⟩ : Interval) then some (some map.flags)
          else mappedBy mappings a := by
        intro a
        by_cases ha : a ∈ (⟨map.start, map.stop⟩ : Interval)
        · have hnone := hfree a ha
          simp only [mappedBy, Option.map_eq_none_iff] at hnone
          simp [mappedBy, List.find?_append, hnone, ha]
        · simp [mappedBy, List.find?_append, ha]
      refine ⟨?_, ?_, hlimit'.trans hlimit, hstop'.trans hstop⟩
      · rw [hmaps]
        exact hins.congr _ heq
      · rw [hmaps]
        show t.maps.size + (map.stop - map.start) = _
        rw [hins.total, mappedBytes_add_of_free hrep (some map.flags) hfree, hsize, hrep.total]
        rfl

/-- A fresh module, with or without a limit. -/
def Fresh (self : SnapshotModule T) : Prop := self = new ∨ ∃ limit, self = withMmapLimit limit

theorem faithful_snapshot {qemu : Qemu} {mappings : List MapInfo} {self s : SnapshotModule T}
    (hfresh : Fresh self) (hapart : Apart mappings)
    (h : self.snapshot qemu mappings = some s) : Faithful [] ⟨s, mappedBy mappings, false⟩ := by
  simp only [snapshot, Option.bind_eq_bind, Option.bind_eq_some_iff, Option.pure_def] at h
  obtain ⟨t, ht, h⟩ := h
  obtain rfl := Option.some.inj h
  have hempty : self.maps = ⟨IntervalTree.empty, 0⟩ := by
    rcases hfresh with rfl | ⟨limit, rfl⟩ <;> rfl
  have hcallback : self.mmapLimit ≠ 0 → self.stopExecution = true := by
    rcases hfresh with rfl | ⟨limit, rfl⟩
    · exact fun h => absurd rfl h
    · exact fun _ => rfl
  obtain ⟨hrep, hsize, hlimit, hstop⟩ := snapshotMaps_spec (by exact hempty) hapart ht
  refine ⟨hrep, hsize, ?_, ?_⟩
  · intro start size perms hlast
    simp at hlast
  · show t.mmapLimit ≠ 0 → t.stopExecution = true
    rw [hlimit, hstop]
    exact hcallback

end

end SnapshotModule

end Libaflmm
