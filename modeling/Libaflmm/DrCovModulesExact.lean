import Libaflmm.DrCovModules
import Mathlib.Data.Set.Card

/-!
# When the modules are those of the mappings

The value of an address in the range map is the last file in the order of the
hash table that has mappings below and above it, its `owner`. A mapping keeps
its addresses unless a later file is around them, and the modules have ids of
their own as long as there are not too many: `firstExec_faithful_iff`.
-/

namespace Libaflmm

namespace DrCovModules

open Ranges

variable {M : Type} [OverwritingRangeMap M] {rs ps : List ModuleRange} {addr : Nat} {path : Text}

/-! ## What it should be -/

/-- Every file has one place in the order. -/
structure Lists (order : List Text) (mappings : List MapInfo) : Prop where
  nodup : order.Nodup
  mem_iff : ∀ path, path ∈ order ↔ ∃ m ∈ mappings, m.filePath = some path

structure Faithful (mappings : List MapInfo) (ranges : List ModuleRange) : Prop where
  disjoint : ranges.Pairwise fun r r' => ∀ addr, ¬(r.contains addr ∧ r'.contains addr)
  short : ∀ r ∈ ranges, r.stop - r.start ≤ 2 ^ 32
  ids : (ranges.map ModuleRange.id).Nodup
  covered : ∀ m ∈ mappings, ∀ path, m.filePath = some path → ∀ addr, m.Has addr →
    ∃ r ∈ ranges, r.contains addr ∧ r.path = path ∧ ∀ r' ∈ ranges, r'.contains addr → r' = r

/-- An address is between the first and the last one mapped to the file. -/
def InHull (mappings : List MapInfo) (path : Text) (addr : Nat) : Prop :=
  (∃ m ∈ mappings, m.filePath = some path ∧ m.start ≤ addr) ∧
    ∃ m ∈ mappings, m.filePath = some path ∧ addr < m.stop

instance (mappings : List MapInfo) (path : Text) (addr : Nat) :
    Decidable (InHull mappings path addr) :=
  inferInstanceAs (Decidable ((∃ m ∈ mappings, _ ∧ _) ∧ ∃ m ∈ mappings, _ ∧ _))

/-- The last of the files in the order that have the address between their
first and last one. -/
def owner (mappings : List MapInfo) (order : List Text) (addr : Nat) : Option Text :=
  order.reverse.find? fun path => InHull mappings path addr

/-- No address of a mapping is between the first and the last one of a file
that comes later. -/
def Separate (mappings : List MapInfo) (order : List Text) : Prop :=
  order.Pairwise fun path path' => ∀ m ∈ mappings, m.filePath = some path → ∀ addr, m.Has addr →
    ¬InHull mappings path' addr

/-- A module begins where the owner changes, and at the multiples of 4 GiB in
more than 4 GiB of one owner. -/
def Begins (owner : Nat → Option Text) (addr : Nat) : Prop :=
  owner addr ≠ none ∧
    ((addr = 0 ∨ owner (addr - 1) ≠ owner addr) ∨
      2 ^ 32 ∣ addr ∧ ∃ start stop, start < addr ∧ addr < stop ∧ 2 ^ 32 < stop - start ∧
        ∀ a, start ≤ a → a < stop → owner a = owner addr)

/-- There are enough ids, for the files and for the modules. With overflow
checks there is one less. -/
structure IdsSuffice (debug : Bool) (mappings : List MapInfo) (order : List Text) : Prop where
  files : debug = true → order.length < 2 ^ 16
  modules : {addr | Begins (owner mappings order) addr}.ncard + debug.toNat ≤ 2 ^ 16

/-! ## The table of the paths -/

/-- The paths of files, each once. -/
def filePaths (mappings : List MapInfo) : Finset Text :=
  (mappings.filterMap MapInfo.filePath).toFinset

theorem mem_filePaths {mappings : List MapInfo} {path : Text} :
    path ∈ filePaths mappings ↔ ∃ m ∈ mappings, m.filePath = some path := by
  rw [filePaths, List.mem_toFinset, List.mem_filterMap]

theorem exists_concat {mappings : List MapInfo} {m : MapInfo} {P : MapInfo → Prop} :
    (∃ m' ∈ mappings ++ [m], P m') ↔ (∃ m' ∈ mappings, P m') ∨ P m := by
  simp only [List.mem_append, List.mem_singleton, or_and_right, exists_or, exists_eq_left]

/-- What the table holds of the mappings seen so far. -/
structure Tabulates (mappings : List MapInfo) (s : PathMap × UInt16) : Prop where
  mem : ∀ path, path ∈ s.1 ↔ ∃ m ∈ mappings, m.filePath = some path
  bounds : ∀ path range id, s.1.lookup path = some (range, id) →
    range.start < range.stop ∧ range.stop < 2 ^ 64
  start_le : ∀ path range id, s.1.lookup path = some (range, id) → ∀ addr,
    range.start ≤ addr ↔ ∃ m ∈ mappings, m.filePath = some path ∧ m.start ≤ addr
  lt_stop : ∀ path range id, s.1.lookup path = some (range, id) → ∀ addr,
    addr < range.stop ↔ ∃ m ∈ mappings, m.filePath = some path ∧ addr < m.stop
  next : s.2 = .ofNat (filePaths mappings).card

section

variable {mappings : List MapInfo} {s : PathMap × UInt16} {m : MapInfo}

/-- A mapping that is no file. -/
theorem Tabulates.skip (h : Tabulates mappings s) (hm : m.filePath = none) :
    filePaths (mappings ++ [m]) = filePaths mappings ∧ Tabulates (mappings ++ [m]) s := by
  have hnone : ∀ (path : Text) (P : Prop), ¬(m.filePath = some path ∧ P) := by
    simp [hm]
  have hpaths : filePaths (mappings ++ [m]) = filePaths mappings := by
    ext path
    simp [mem_filePaths, hm]
  refine ⟨hpaths, fun path => ?_, h.bounds, fun path range id hpath addr => ?_,
    fun path range id hpath addr => ?_, ?_⟩
  · rw [h.mem, exists_concat, hm]
    exact (or_iff_left (Option.some_ne_none _).symm).symm
  · rw [h.start_le path range id hpath, exists_concat]
    exact (or_iff_left (hnone path _)).symm
  · rw [h.lt_stop path range id hpath, exists_concat]
    exact (or_iff_left (hnone path _)).symm
  · rw [hpaths, h.next]

/-- A mapping of a file that is in the table. -/
theorem Tabulates.known (h : Tabulates mappings s) {path : Text} {range : AddrRange} {id : UInt16}
    (hm : m.filePath = some path) (hpath : s.1.lookup path = some (range, id)) :
    filePaths (mappings ++ [m]) = filePaths mappings ∧ Tabulates (mappings ++ [m])
      (s.1.replace path (⟨min range.start m.start, max range.stop m.stop⟩, id), s.2) := by
  have hmem : path ∈ s.1 := AList.lookup_isSome.mp (Option.isSome_of_eq_some hpath)
  have hpaths : filePaths (mappings ++ [m]) = filePaths mappings := by
    ext path'
    rw [mem_filePaths, mem_filePaths, exists_concat, hm]
    refine or_iff_left_of_imp fun heq => ?_
    obtain rfl := Option.some.inj heq
    exact (h.mem path).mp hmem
  have hother : ∀ (path' : Text) (P : Prop), path' ≠ path → ¬(m.filePath = some path' ∧ P) := by
    rintro path' P hne ⟨heq, -⟩
    exact hne (Option.some.inj (heq.symm.trans hm))
  refine ⟨hpaths, fun path' => ?_, fun path' range' id' hpath' => ?_,
    fun path' range' id' hpath' addr => ?_, fun path' range' id' hpath' addr => ?_, ?_⟩
  · rw [AList.mem_replace, ← mem_filePaths, hpaths, mem_filePaths]
    exact h.mem path'
  · rw [HashMap.lookup_replace hmem] at hpath'
    split at hpath'
    · cases hpath'
      have := h.bounds path range id hpath
      have := m.start_lt
      have := m.stop_lt
      dsimp only
      omega
    · exact h.bounds path' range' id' hpath'
  · rw [HashMap.lookup_replace hmem] at hpath'
    rw [exists_concat]
    split at hpath'
    · next heq =>
        subst heq
        cases hpath'
        rw [← h.start_le path' range id hpath, hm]
        simp
    · next hne =>
        rw [h.start_le path' range' id' hpath']
        exact (or_iff_left (hother path' _ hne)).symm
  · rw [HashMap.lookup_replace hmem] at hpath'
    rw [exists_concat]
    split at hpath'
    · next heq =>
        subst heq
        cases hpath'
        rw [← h.lt_stop path' range id hpath, hm]
        simp
    · next hne =>
        rw [h.lt_stop path' range' id' hpath']
        exact (or_iff_left (hother path' _ hne)).symm
  · rw [hpaths, ← h.next]

/-- A mapping of a file that is new. -/
theorem Tabulates.new (h : Tabulates mappings s) {path : Text} (hm : m.filePath = some path)
    (hpath : s.1.lookup path = none) :
    (filePaths (mappings ++ [m])).card = (filePaths mappings).card + 1 ∧
      Tabulates (mappings ++ [m]) (AList.insert path (⟨m.start, m.stop⟩, s.2) s.1, s.2 + 1) := by
  have hfresh : ¬∃ m' ∈ mappings, m'.filePath = some path := by
    rw [← h.mem]
    exact AList.lookup_eq_none.mp hpath
  have hpaths : filePaths (mappings ++ [m]) = insert path (filePaths mappings) := by
    ext path'
    rw [mem_filePaths, exists_concat, hm, Finset.mem_insert, mem_filePaths, or_comm,
      Option.some_inj, eq_comm]
  have hcard : (filePaths (mappings ++ [m])).card = (filePaths mappings).card + 1 := by
    rw [hpaths, Finset.card_insert_of_notMem (mt mem_filePaths.mp hfresh)]
  have hno : ∀ P : MapInfo → Prop, ¬∃ m' ∈ mappings, m'.filePath = some path ∧ P m' :=
    fun P ⟨m', hm', hfile, _⟩ => hfresh ⟨m', hm', hfile⟩
  have hother : ∀ (path' : Text) (P : Prop), path' ≠ path → ¬(m.filePath = some path' ∧ P) := by
    rintro path' P hne ⟨heq, -⟩
    exact hne (Option.some.inj (heq.symm.trans hm))
  refine ⟨hcard, fun path' => ?_, fun path' range' id' hpath' => ?_,
    fun path' range' id' hpath' addr => ?_, fun path' range' id' hpath' addr => ?_, ?_⟩
  · rw [AList.mem_insert, h.mem, exists_concat, hm, Option.some_inj, or_comm, eq_comm]
  · rw [HashMap.lookup_insert] at hpath'
    split at hpath'
    · cases hpath'
      exact ⟨m.start_lt, m.stop_lt⟩
    · exact h.bounds path' range' id' hpath'
  · rw [HashMap.lookup_insert] at hpath'
    rw [exists_concat]
    split at hpath'
    · next heq =>
        subst heq
        cases hpath'
        rw [or_iff_right (hno _), and_iff_right hm]
    · next hne =>
        rw [h.start_le path' range' id' hpath']
        exact (or_iff_left (hother path' _ hne)).symm
  · rw [HashMap.lookup_insert] at hpath'
    rw [exists_concat]
    split at hpath'
    · next heq =>
        subst heq
        cases hpath'
        rw [or_iff_right (hno _), and_iff_right hm]
    · next hne =>
        rw [h.lt_stop path' range' id' hpath']
        exact (or_iff_left (hother path' _ hne)).symm
  · rw [hcard, UInt16.ofNat_add, ← h.next]
    rfl

theorem card_filePaths_le : (filePaths mappings).card ≤ (filePaths (mappings ++ [m])).card := by
  refine Finset.card_le_card fun path hpath => ?_
  rw [mem_filePaths] at hpath ⊢
  exact exists_concat.mpr (.inl hpath)

/-- One turn of the loop fails when the last id is given away. -/
theorem Tabulates.widen (debug : Bool) (h : Tabulates mappings s)
    (hids : debug = true → (filePaths mappings).card < 2 ^ 16) :
    (debug = true ∧ 2 ^ 16 ≤ (filePaths (mappings ++ [m])).card ∧
      DrCovModules.widen debug s m = none) ∨
    (debug = true → (filePaths (mappings ++ [m])).card < 2 ^ 16) ∧ ∃ t,
      DrCovModules.widen debug s m = some t ∧ Tabulates (mappings ++ [m]) t := by
  rw [DrCovModules.widen]
  cases hm : m.filePath with
  | none =>
      obtain ⟨hpaths, hskip⟩ := h.skip hm
      exact .inr ⟨by rwa [hpaths], s, rfl, hskip⟩
  | some path =>
      dsimp only
      cases hpath : s.1.lookup path with
      | some entry =>
          obtain ⟨hpaths, hknown⟩ := h.known hm hpath
          exact .inr ⟨by rwa [hpaths], _, rfl, hknown⟩
      | none =>
          obtain ⟨hcard, hnew⟩ := h.new hm hpath
          rw [hcard]
          rcases nextId_cases hids with ⟨hdebug, hlong, hnone⟩ | ⟨hshort, hnext⟩
          · refine .inl ⟨hdebug, hlong, ?_⟩
            rw [h.next, hnone]
            rfl
          · refine .inr ⟨hshort, _, ?_, hnew⟩
            rw [h.next, hnext, UInt16.ofNat_add]
            rfl

/-- What the loop over the mappings makes of them. -/
theorem foldlM_widen (debug : Bool) (mappings : List MapInfo) :
    (debug = true ∧ 2 ^ 16 ≤ (filePaths mappings).card ∧
      mappings.foldlM (DrCovModules.widen debug) (∅, 0) = none) ∨
    (debug = true → (filePaths mappings).card < 2 ^ 16) ∧ ∃ t,
      mappings.foldlM (DrCovModules.widen debug) (∅, 0) = some t ∧ Tabulates mappings t := by
  induction mappings using List.reverseRecOn with
  | nil =>
      refine .inr ⟨fun _ => by simp [filePaths], _, rfl, fun path => ?_, nofun, nofun, nofun, rfl⟩
      simp
  | append_singleton mappings m ih =>
      rw [List.foldlM_append]
      rcases ih with ⟨hdebug, hlong, hnone⟩ | ⟨hshort, s, hrun, hs⟩
      · exact .inl ⟨hdebug, hlong.trans card_filePaths_le, by rw [hnone]; rfl⟩
      · have hfold : [m].foldlM (DrCovModules.widen debug) s = DrCovModules.widen debug s m := by
          rw [List.foldlM_cons]
          exact bind_pure _
        rw [hrun]
        rcases hs.widen debug hshort with ⟨hdebug, hlong, hnone⟩ | ⟨hshort, t, ht, htab⟩
        · exact .inl ⟨hdebug, hlong, hfold.trans hnone⟩
        · exact .inr ⟨hshort, t, hfold.trans ht, htab⟩

end

/-! ## Who owns an address -/

section

variable {mappings : List MapInfo} {order : List Text} {paths : PathMap} {i : UInt16}

theorem Tabulates.contains_iff (h : Tabulates mappings (paths, i)) {range : AddrRange} {id : UInt16}
    (hpath : paths.lookup path = some (range, id)) :
    (⟨range.start, range.stop, id, path⟩ : ModuleRange).contains addr ↔
      InHull mappings path addr := by
  rw [ModuleRange.contains_iff]
  exact and_congr (h.start_le path range id hpath addr) (h.lt_stop path range id hpath addr)

theorem owner_concat (path : Text) (addr : Nat) : owner mappings (order ++ [path]) addr =
    if InHull mappings path addr then some path else owner mappings order addr := by
  rw [owner, List.reverse_append, List.reverse_singleton, List.singleton_append, List.find?_cons]
  by_cases h : InHull mappings path addr
  · simp [h]
  · simp [h, owner]

def idOf (paths : PathMap) (path : Text) : UInt16 := (paths.lookup path).elim 0 Prod.snd

/-- What is inserted last is the value of an address. -/
theorem moduleRangeMap_valueAt (h : Tabulates mappings (paths, i))
    (horder : ∀ path ∈ order, path ∈ paths) :
    ∃ modules : M, moduleRangeMap paths order = some modules ∧ ∀ addr,
      valueAt (RangeMap.iter modules) addr =
        (owner mappings order addr).map fun path => (idOf paths path, path) := by
  induction order using List.reverseRecOn with
  | nil =>
      refine ⟨_, rfl, fun addr => ?_⟩
      rw [RangeMap.iter_new]
      rfl
  | append_singleton order path ih =>
      obtain ⟨modules, hrun, hvalue⟩ := ih fun path hpath => horder path (by simp [hpath])
      have hmem : path ∈ paths := horder path (by simp)
      obtain ⟨⟨range, id⟩, hlookup⟩ := Option.isSome_iff_exists.mp (AList.lookup_isSome.mpr hmem)
      obtain ⟨hlt, hbound⟩ := h.bounds path range id hlookup
      obtain ⟨modules', hinsert, hvalue'⟩ := OverwritingRangeMap.valueAt_insert modules
        ⟨range.start, range.stop, id, path⟩ hlt hbound
      refine ⟨modules', ?_, fun addr => ?_⟩
      · rw [moduleRangeMap, List.foldlM_append]
        show (moduleRangeMap paths order).bind _ = _
        rw [hrun, Option.bind_some, List.foldlM_cons, hlookup]
        show (RangeMap.insert _ _).bind _ = _
        rw [hinsert]
        rfl
      · have hid : idOf paths path = id := by rw [idOf, hlookup]; rfl
        rw [hvalue', owner_concat, hvalue, if_congr (h.contains_iff hlookup) rfl rfl]
        split
        · rw [Option.map_some, hid]
        · rfl

end

/-! ## Where modules begin -/

/-- The ranges are those of the owners, each as long as it can be. -/
structure OwnedBy (owner : Nat → Option Text) (rs : List ModuleRange) : Prop where
  ordered : Ordered rs
  path_ne : ∀ r ∈ rs, ∀ r' ∈ rs, r.stop = r'.start → r.path ≠ r'.path
  owner_iff : ∀ addr path, owner addr = some path ↔ ∃ r ∈ rs, r.contains addr ∧ r.path = path

theorem ownedBy_of_valueAt {owner : Nat → Option Text} {idOf : Text → UInt16} (h : Ordered rs)
    (hc : Coalesced rs) (hvalue : ∀ addr, valueAt rs addr =
      (owner addr).map fun path => (idOf path, path)) : OwnedBy owner rs := by
  have hid : ∀ r ∈ rs, r.id = idOf r.path := by
    intro r hr
    have hstart : r.contains r.start := ModuleRange.contains_iff.mpr ⟨le_rfl, (h.bounds r hr).1⟩
    have hsome := h.valueAt_eq_some_iff.mpr ⟨r, hr, hstart, rfl⟩
    rw [hvalue] at hsome
    obtain ⟨path, -, heq⟩ := Option.map_eq_some_iff.mp hsome
    obtain ⟨hid, hpath⟩ := Prod.mk.inj heq
    rw [← hid, hpath]
  refine ⟨h, fun r hr r' hr' htouch hpath => ?_, fun addr path => ?_⟩
  · obtain ⟨i, hi, rfl⟩ := List.mem_iff_getElem.mp hr
    obtain ⟨j, hj, rfl⟩ := List.mem_iff_getElem.mp hr'
    have hbi := (h.bounds _ hr).1
    have hbj := (h.bounds _ hr').1
    rcases Nat.lt_trichotomy i j with hlt | rfl | hgt
    · refine List.pairwise_iff_getElem.mp hc i j hi hj hlt htouch ⟨?_, hpath⟩
      rw [hid _ hr, hid _ hr', hpath]
    · omega
    · have := List.pairwise_iff_getElem.mp h.sorted j i hj hi hgt
      omega
  · have hsome : owner addr = some path ↔ valueAt rs addr = some (idOf path, path) := by
      rw [hvalue, Option.map_eq_some_iff]
      constructor
      · exact fun heq => ⟨path, heq, rfl⟩
      · rintro ⟨path', heq, hpair⟩
        rw [heq, (Prod.mk.inj hpair).2]
    rw [hsome, h.valueAt_eq_some_iff]
    refine exists_congr fun r => and_congr_right fun hr => and_congr_right fun _ => ?_
    rw [hid r hr, Prod.mk.injEq]
    exact ⟨And.right, fun hpath => ⟨congrArg idOf hpath, hpath⟩⟩

section

variable {owner : Nat → Option Text} {r : ModuleRange}

theorem OwnedBy.owner_eq (h : OwnedBy owner rs) (hr : r ∈ rs) (hle : r.start ≤ addr)
    (hlt : addr < r.stop) : owner addr = some r.path :=
  (h.owner_iff addr r.path).mpr ⟨r, hr, ModuleRange.contains_iff.mpr ⟨hle, hlt⟩, rfl⟩

/-- The owner changes at the start of a range. -/
theorem OwnedBy.owner_pred_ne (h : OwnedBy owner rs) (hr : r ∈ rs) (hpos : 0 < r.start) :
    owner (r.start - 1) ≠ some r.path := by
  intro hpred
  obtain ⟨r', hr', hc, hpath⟩ := (h.owner_iff _ _).mp hpred
  rw [ModuleRange.contains_iff] at hc
  rcases h.ordered.apart hr hr' with rfl | happart | happart
  · omega
  · have := (h.ordered.bounds r hr).1
    omega
  · exact h.path_ne r' hr' r hr (by omega) hpath

/-- The owner changes at the end of a range. -/
theorem OwnedBy.owner_stop_ne (h : OwnedBy owner rs) (hr : r ∈ rs) :
    owner r.stop ≠ some r.path := by
  intro hstop
  obtain ⟨r', hr', hc, hpath⟩ := (h.owner_iff _ _).mp hstop
  rw [ModuleRange.contains_iff] at hc
  rcases h.ordered.apart hr hr' with rfl | happart | happart
  · omega
  · exact h.path_ne r hr r' hr' (by omega) hpath.symm
  · have := (h.ordered.bounds r hr).1
    omega

/-- What has one owner is in one range. -/
theorem OwnedBy.inside (h : OwnedBy owner rs) (hr : r ∈ rs) (hc : r.contains addr)
    {start stop : Nat} (hstart : start ≤ addr) (hstop : addr < stop)
    (hone : ∀ a, start ≤ a → a < stop → owner a = owner addr) :
    r.start ≤ start ∧ stop ≤ r.stop := by
  rw [ModuleRange.contains_iff] at hc
  have haddr := h.owner_eq hr hc.1 hc.2
  constructor
  · by_contra hlt
    refine h.owner_pred_ne hr (by omega) ?_
    rw [hone (r.start - 1) (by omega) (by omega), haddr]
  · by_contra hlt
    refine h.owner_stop_ne hr ?_
    rw [hone r.stop (by omega) (by omega), haddr]

theorem exists_mem_parts_start_iff (h : Ordered rs) :
    (∃ r ∈ parts rs, r.start = addr) ↔ ∃ r ∈ rs, r.start ≤ addr ∧ addr < r.stop ∧
      (addr = r.start ∨ 2 ^ 32 ∣ addr ∧ 2 ^ 32 < r.stop - r.start) := by
  constructor
  · rintro ⟨r, hr, rfl⟩
    obtain ⟨r', hr', hpart⟩ := List.mem_flatMap.mp hr
    obtain ⟨c, hc, rfl⟩ := List.mem_map.mp hpart
    exact ⟨r', hr', (exists_mem_cuts_start_iff (h.bounds r' hr').1).mp ⟨c, hc, rfl⟩⟩
  · rintro ⟨r, hr, hstart⟩
    obtain ⟨c, hc, rfl⟩ := (exists_mem_cuts_start_iff (h.bounds r hr).1).mpr hstart
    exact ⟨_, List.mem_flatMap.mpr ⟨r, hr, List.mem_map.mpr ⟨c, hc, rfl⟩⟩, rfl⟩

/-- **The parts begin where modules do.** -/
theorem OwnedBy.exists_part_start_iff (h : OwnedBy owner rs) :
    (∃ r ∈ parts rs, r.start = addr) ↔ Begins owner addr := by
  rw [exists_mem_parts_start_iff h.ordered]
  constructor
  · rintro ⟨r, hr, hle, hlt, hbegins⟩
    have haddr := h.owner_eq hr hle hlt
    refine ⟨haddr ▸ Option.some_ne_none _, ?_⟩
    by_cases hstart : addr = r.start
    · refine .inl (or_iff_not_imp_left.mpr fun hpos => ?_)
      rw [haddr, hstart]
      exact h.owner_pred_ne hr (by omega)
    · obtain ⟨hdvd, hlong⟩ := hbegins.resolve_left hstart
      refine .inr ⟨hdvd, r.start, r.stop, by omega, hlt, hlong, fun a hle hlt => ?_⟩
      rw [h.owner_eq hr hle hlt, haddr]
  · rintro ⟨hsome, hbegins⟩
    obtain ⟨path, hpath⟩ := Option.ne_none_iff_exists'.mp hsome
    obtain ⟨r, hr, hc, rfl⟩ := (h.owner_iff addr path).mp hpath
    have hin := ModuleRange.contains_iff.mp hc
    refine ⟨r, hr, hin.1, hin.2, ?_⟩
    rcases hbegins with hchange | ⟨hdvd, start, stop, hstart, hstop, hlong, hone⟩
    · left
      by_contra hne
      rcases hchange with hzero | hpred
      · omega
      · refine hpred ?_
        rw [hpath]
        exact h.owner_eq hr (by omega) (by omega)
    · have := h.inside hr hc (by omega) hstop hone
      exact .inr ⟨hdvd, by omega⟩

/-- There are as many parts as modules begin. -/
theorem OwnedBy.ncard_begins (h : OwnedBy owner rs) :
    {addr | Begins owner addr}.ncard = (parts rs).length := by
  have hordered := ordered_parts h.ordered
  have hnodup : ((parts rs).map ModuleRange.start).Nodup := by
    refine List.pairwise_map.mpr (hordered.sorted.imp_of_mem fun hr _ hle => ?_)
    have := (hordered.bounds _ hr).1
    omega
  have hset : {addr | Begins owner addr} = ↑((parts rs).map ModuleRange.start).toFinset := by
    ext addr
    rw [Set.mem_ofPred_eq, ← h.exists_part_start_iff, List.coe_toFinset, Set.mem_ofPred_eq,
      List.mem_map]
  rw [hset, Set.ncard_coe_finset, List.toFinset_card_of_nodup hnodup, List.length_map]

end

/-! ## When the modules are those of the mappings -/

section

variable {mappings : List MapInfo} {order : List Text}

/-- The last of a list that meets a condition. -/
theorem forall_find?_reverse_iff {α β : Type} {Q : α → β → Prop} {H : α → β → Prop}
    [∀ a b, Decidable (H a b)] {l : List α} (hl : l.Nodup) (hQ : ∀ a b, Q a b → H a b) :
    (∀ a ∈ l, ∀ b, Q a b → (l.reverse.find? fun a' => H a' b) = some a) ↔
      l.Pairwise fun a a' => ∀ b, Q a b → ¬H a' b := by
  induction l with
  | nil => exact iff_of_true nofun .nil
  | cons a l ih =>
      obtain ⟨hnew, hl⟩ := List.nodup_cons.mp hl
      have hfind : ∀ b, ((a :: l).reverse.find? fun a' => H a' b) =
          (l.reverse.find? fun a' => H a' b).or (if H a b then some a else none) := by
        intro b
        rw [List.reverse_cons, List.find?_append]
        by_cases h : H a b <;> simp [h]
      rw [List.pairwise_cons, ← ih hl, List.forall_mem_cons]
      simp only [hfind]
      refine and_congr ⟨fun h a' ha' b hq hH => ?_, fun h b hq => ?_⟩ ?_
      · cases hlast : l.reverse.find? fun a' => H a' b with
        | none =>
            have := List.find?_eq_none.mp hlast a' (List.mem_reverse.mpr ha')
            simp [hH] at this
        | some last =>
            have hlasteq := h b hq
            rw [hlast, Option.some_or] at hlasteq
            obtain rfl := Option.some.inj hlasteq
            exact hnew (List.mem_reverse.mp (List.mem_of_find?_eq_some hlast))
      · have hnone : (l.reverse.find? fun a' => H a' b) = none := by
          refine List.find?_eq_none.mpr fun a' ha' => ?_
          simpa using h a' (List.mem_reverse.mp ha') b hq
        rw [hnone, Option.none_or, if_pos (hQ a b hq)]
      · refine forall₂_congr fun a' ha' => forall₂_congr fun b hq => ?_
        cases hlast : l.reverse.find? fun a' => H a' b with
        | none =>
            have := List.find?_eq_none.mp hlast a' (List.mem_reverse.mpr ha')
            simp [hQ a' b hq] at this
        | some last => rw [Option.some_or]

/-- Every mapping owns its addresses exactly where no later file gets in. -/
theorem forall_owner_iff_separate (horder : Lists order mappings) :
    (∀ m ∈ mappings, ∀ path, m.filePath = some path → ∀ addr, m.Has addr →
      owner mappings order addr = some path) ↔ Separate mappings order := by
  have hhull : ∀ path addr, (∃ m ∈ mappings, m.filePath = some path ∧ m.Has addr) →
      InHull mappings path addr := by
    rintro path addr ⟨m, hm, hpath, hle, hlt⟩
    exact ⟨⟨m, hm, hpath, hle⟩, m, hm, hpath, hlt⟩
  have hlast := forall_find?_reverse_iff horder.nodup hhull
  constructor
  · intro h
    refine (hlast.mp fun path _ addr => ?_).imp fun hsep m hm hpath addr hhas =>
      hsep addr ⟨m, hm, hpath, hhas⟩
    rintro ⟨m, hm, hpath, hhas⟩
    exact h m hm path hpath addr hhas
  · intro hsep m hm path hpath addr hhas
    refine hlast.mpr (hsep.imp fun {path path'} h addr => ?_) path
      ((horder.mem_iff path).mpr ⟨m, hm, hpath⟩) addr ⟨m, hm, hpath, hhas⟩
    rintro ⟨m, hm, hpath, hhas⟩
    exact h m hm hpath addr hhas

theorem faithful_numbered_iff (h : OwnedBy (owner mappings order) ps)
    (horder : Lists order mappings) :
    Faithful mappings (numbered (parts ps)) ↔
      Separate mappings order ∧ (parts ps).length ≤ 2 ^ 16 := by
  have hordered := ordered_numbered (ordered_parts h.ordered)
  have howner : ∀ addr path, (∃ r ∈ numbered (parts ps), r.contains addr ∧ r.path = path) ↔
      owner mappings order addr = some path := by
    intro addr path
    rw [h.owner_iff, ← exists_mem_parts_iff h.ordered]
    exact exists_mem_numbered_iff fun _ _ => Iff.rfl
  rw [← forall_owner_iff_separate horder, ← nodup_ids_numbered_iff]
  constructor
  · intro hf
    refine ⟨fun m hm path hpath addr hhas => ?_, hf.ids⟩
    obtain ⟨r, hr, hc, hrpath, -⟩ := hf.covered m hm path hpath addr hhas
    exact (howner addr path).mp ⟨r, hr, hc, hrpath⟩
  · rintro ⟨hall, hids⟩
    refine ⟨hordered.sorted.imp fun {r r'} hle addr hc => ?_, ?_, hids,
      fun m hm path hpath addr hhas => ?_⟩
    · rw [ModuleRange.contains_iff, ModuleRange.contains_iff] at hc
      omega
    · intro r hr
      obtain ⟨k, hk, rfl⟩ := List.mem_mapIdx.mp hr
      have hshort := (mem_parts h.ordered (List.getElem_mem hk)).2.1
      exact hshort
    · obtain ⟨r, hr, hc, hrpath⟩ := (howner addr path).mpr (hall m hm path hpath addr hhas)
      refine ⟨r, hr, hc, hrpath, fun r' hr' hc' => ?_⟩
      rw [ModuleRange.contains_iff] at hc hc'
      exact (hordered.apart hr' hr).resolve_right (by omega)

theorem ordered_iter (m : M) : Ordered (RangeMap.iter m) :=
  ⟨fun r hr => ⟨RangeMap.start_lt m r hr, RangeMap.stop_lt m r hr⟩, RangeMap.sorted m⟩

/-- Either the ids run out in a build that checks for it, or there is a map. -/
theorem firstExec_cases (debug : Bool) (horder : Lists order mappings) :
    (debug = true ∧ ¬IdsSuffice debug mappings order ∧
        (firstExec debug mappings order : Option M) = none) ∨
      ∃ m : M, firstExec debug mappings order = some m ∧
        (Faithful mappings (RangeMap.iter m) ↔
          Separate mappings order ∧ IdsSuffice debug mappings order) := by
  have hcard : (filePaths mappings).card = order.length := by
    have hset : filePaths mappings = order.toFinset := by
      ext path
      rw [mem_filePaths, List.mem_toFinset, horder.mem_iff]
    rw [hset, List.toFinset_card_of_nodup horder.nodup]
  rcases foldlM_widen debug mappings with ⟨hdebug, hlong, hnone⟩ | ⟨hfiles, ⟨paths, i⟩, hrun, htab⟩
  · refine .inl ⟨hdebug, fun h => ?_, ?_⟩
    · have := h.files hdebug
      omega
    · rw [firstExec, modulePathMap, hnone]
      rfl
  have hpaths : ∀ path ∈ order, path ∈ paths := fun path hpath =>
    (htab.mem path).mpr ((horder.mem_iff path).mp hpath)
  obtain ⟨modules, hmodules, hvalue⟩ := moduleRangeMap_valueAt (M := M) htab hpaths
  have howned := ownedBy_of_valueAt (ordered_iter modules) (RangeMap.coalesced modules) hvalue
  have hexec : (firstExec debug mappings order : Option M) =
      (splitModules debug modules).bind fun split => fromIter (RangeMap.iter split) := by
    rw [firstExec, modulePathMap, hrun]
    show (moduleRangeMap paths order).bind _ = _
    rw [hmodules]
    rfl
  have hcount := howned.ncard_begins
  rw [hexec]
  rcases splitModules_cases debug modules howned.ordered with
    ⟨hdebug, hlong, hnone⟩ | ⟨hshort, split, hsplit, hiter⟩
  · refine .inl ⟨hdebug, fun h => ?_, by rw [hnone]; rfl⟩
    have := h.modules
    rw [hcount, hdebug, Bool.toNat_true] at this
    omega
  · have hordered := ordered_parts howned.ordered
    obtain ⟨m, hm, hm'⟩ := fromIter_of_ordered (M := M) (ordered_numbered hordered)
      (coalesced_numbered hordered)
    have hids : (parts (RangeMap.iter modules)).length ≤ 2 ^ 16 ↔
        IdsSuffice debug mappings order := by
      constructor
      · intro hle
        refine ⟨fun hdebug => hcard ▸ hfiles hdebug, ?_⟩
        rw [hcount]
        cases debug with
        | false => exact hle
        | true => exact hshort rfl
      · intro h
        have := h.modules
        rw [hcount] at this
        omega
    refine .inr ⟨m, ?_, ?_⟩
    · rw [hsplit, Option.bind_some, hiter, hm]
    · rw [hm', faithful_numbered_iff howned horder, hids]

/-- **The modules are those of the mappings** exactly where no file gets in
between the mappings of an earlier one, and the ids suffice. -/
theorem firstExec_faithful_iff (debug : Bool) (horder : Lists order mappings) :
    (∃ m : M, firstExec debug mappings order = some m ∧ Faithful mappings (RangeMap.iter m)) ↔
      Separate mappings order ∧ IdsSuffice debug mappings order := by
  rcases firstExec_cases (M := M) debug horder with ⟨-, hids, hnone⟩ | ⟨m, hm, hiff⟩
  · refine iff_of_false ?_ fun h => hids h.2
    rintro ⟨m, hm, -⟩
    rw [hnone] at hm
    cases hm
  · rw [← hiff, hm]
    constructor
    · rintro ⟨m', heq, hf⟩
      exact Option.some.inj heq ▸ hf
    · exact fun hf => ⟨m, rfl, hf⟩

end

/-- A file with a gap, and another one in it. -/
def gapMappings : List MapInfo :=
  [⟨0x1000, 0x2000, some "a".toList, by decide, by decide⟩,
    ⟨0x2000, 0x3000, some "b".toList, by decide, by decide⟩,
    ⟨0x3000, 0x4000, some "a".toList, by decide, by decide⟩]

theorem gapMappings_lists : Lists ["b".toList, "a".toList] gapMappings := by
  refine ⟨by decide, fun path => ?_⟩
  constructor
  · intro h
    rcases List.mem_cons.mp h with rfl | h
    · exact ⟨_, .tail _ (.head _), rfl⟩
    · obtain rfl := List.mem_singleton.mp h
      exact ⟨_, .head _, rfl⟩
  · rintro ⟨m, hm, hpath⟩
    simp only [gapMappings, List.mem_cons, List.not_mem_nil, or_false] at hm
    rcases hm with rfl | rfl | rfl <;> cases hpath <;> simp

theorem firstExec_faithful_iff_gap :
    (∃ m : CoalescedRanges, firstExec true gapMappings ["b".toList, "a".toList] = some m ∧
        Faithful gapMappings (RangeMap.iter m)) ↔
      Separate gapMappings ["b".toList, "a".toList] ∧
        IdsSuffice true gapMappings ["b".toList, "a".toList] :=
  firstExec_faithful_iff true gapMappings_lists

/-- The file with the gap comes last, and covers the one in it. -/
theorem firstExec_not_faithful : ∃ m : CoalescedRanges,
    firstExec false gapMappings ["b".toList, "a".toList] = some m ∧
      ¬Faithful gapMappings (RangeMap.iter m) := by
  rcases firstExec_cases (M := CoalescedRanges) false gapMappings_lists with
    ⟨hdebug, -⟩ | ⟨m, hm, hiff⟩
  · exact absurd hdebug Bool.false_ne_true
  refine ⟨m, hm, fun hf => ?_⟩
  have hsep := (List.pairwise_cons.mp (hiff.mp hf).1).1 "a".toList (.head _)
  refine hsep _ (.tail _ (.head _)) rfl 0x2000 ⟨le_rfl, by decide⟩ ⟨?_, ?_⟩
  · exact ⟨_, .head _, rfl, by decide⟩
  · exact ⟨_, .tail _ (.tail _ (.head _)), rfl, by decide⟩

end DrCovModules

end Libaflmm
