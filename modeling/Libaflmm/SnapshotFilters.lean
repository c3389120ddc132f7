import Libaflmm.AddressFilters
import Libaflmm.Snapshot

/-!
# The pages a filtered snapshot records

The walk over a mapping asks the filters at every address it comes to. A skipped
address lies in a range of a deny list, and the walk goes on at the end of that
range; any other address is recorded, and the walk goes on a page further. Allow
lists only keep a later deny list from being asked.
-/

namespace Libaflmm

inductive IntervalSnapshotFilter
  | all
  | allowList (ranges : List AddressRange)
  | denyList (ranges : List AddressRange)
  | zeroList (ranges : List AddressRange)

abbrev IntervalSnapshotFilters := List IntervalSnapshotFilter

namespace IntervalSnapshotFilters

def toSkip : IntervalSnapshotFilters → Nat → Option AddressRange
  | [], _ => none
  | .all :: _, _ => none
  | .allowList ranges :: filters, addr =>
    if ranges.any fun range => range.contains addr then none else toSkip filters addr
  | .denyList ranges :: filters, addr =>
    match ranges.find? fun range => range.contains addr with
    | some range => some range
    | none => toSkip filters addr
  | .zeroList _ :: filters, addr => toSkip filters addr

def toZero : IntervalSnapshotFilters → Nat → Option AddressRange
  | [], _ => none
  | .zeroList ranges :: filters, addr =>
    match ranges.find? fun range => range.contains addr with
    | some range => some range
    | none => toZero filters addr
  | .all :: filters, addr => toZero filters addr
  | .allowList _ :: filters, addr => toZero filters addr
  | .denyList _ :: filters, addr => toZero filters addr

/-- A deny list has the address. -/
def Denied (filters : IntervalSnapshotFilters) (addr : Nat) : Prop :=
  ∃ ranges, .denyList ranges ∈ filters ∧ ∃ range ∈ ranges, range.contains addr

/-- An allow list has the address. -/
def Allowed (filters : IntervalSnapshotFilters) (addr : Nat) : Prop :=
  ∃ ranges, .allowList ranges ∈ filters ∧ ∃ range ∈ ranges, range.contains addr

def GivesAllowList (filters : IntervalSnapshotFilters) : Prop :=
  ∃ ranges, .allowList ranges ∈ filters

variable {filters : IntervalSnapshotFilters} {addr : Nat} {range : AddressRange}

/-- A range that is skipped is one of a deny list. -/
theorem toSkip_spec (h : toSkip filters addr = some range) :
    ∃ ranges, .denyList ranges ∈ filters ∧ range ∈ ranges ∧ range.contains addr := by
  induction filters with
  | nil => cases h
  | cons filter filters ih =>
      have hrest (hskip : toSkip filters addr = some range) :
          ∃ ranges, .denyList ranges ∈ filter :: filters ∧ range ∈ ranges ∧
            range.contains addr := by
        obtain ⟨ranges, hmem, hrange⟩ := ih hskip
        exact ⟨ranges, List.mem_cons_of_mem filter hmem, hrange⟩
      cases filter with
      | all => cases h
      | allowList ranges =>
          rw [toSkip] at h
          split at h
          · cases h
          · exact hrest h
      | denyList ranges =>
          rw [toSkip] at h
          cases hfind : ranges.find? fun range => range.contains addr with
          | some found =>
              rw [hfind] at h
              obtain rfl := Option.some.inj h
              refine ⟨ranges, List.mem_cons_self, List.mem_of_find?_eq_some hfind, ?_⟩
              simpa using List.find?_some hfind
          | none =>
              rw [hfind] at h
              exact hrest h
      | zeroList ranges => exact hrest h

theorem denied_of_toSkip (h : toSkip filters addr = some range) {addr' : Nat}
    (haddr : addr ≤ addr') (hlt : addr' < range.stop) : Denied filters addr' := by
  obtain ⟨ranges, hmem, hrange, hcontains⟩ := toSkip_spec h
  exact ⟨ranges, hmem, range, hrange, hcontains.1.trans haddr, hlt⟩

/-- The walk moves on. -/
theorem lt_stop_of_toSkip (h : toSkip filters addr = some range) : addr < range.stop := by
  obtain ⟨-, -, -, hcontains⟩ := toSkip_spec h
  exact hcontains.2

/-- The addresses of a mapping that are recorded, from `addr` on. -/
def selected (filters : IntervalSnapshotFilters) (stop addr : Nat) : List Nat :=
  if addr < stop then
    match h : toSkip filters addr with
    | some range =>
      have := lt_stop_of_toSkip h
      selected filters stop range.stop
    | none => addr :: selected filters stop (addr + SNAPSHOT_PAGE_SIZE)
  else []
termination_by stop - addr
decreasing_by
  · omega
  · rw [SNAPSHOT_PAGE_SIZE]
    omega

/-- The addresses the walk over a mapping comes to. -/
inductive Reaches (filters : IntervalSnapshotFilters) (stop : Nat) : Nat → Nat → Prop
  | here (addr : Nat) : Reaches filters stop addr addr
  | skip {addr addr' : Nat} {range : AddressRange} (hlt : addr < stop)
      (hskip : toSkip filters addr = some range) (hrest : Reaches filters stop range.stop addr') :
      Reaches filters stop addr addr'
  | page {addr addr' : Nat} (hlt : addr < stop) (hskip : toSkip filters addr = none)
      (hrest : Reaches filters stop (addr + SNAPSHOT_PAGE_SIZE) addr') :
      Reaches filters stop addr addr'

theorem selected_of_skip {stop : Nat} (hlt : addr < stop) (h : toSkip filters addr = some range) :
    selected filters stop addr = selected filters stop range.stop := by
  rw [selected, if_pos hlt]
  split
  · next range' h' =>
      rw [h] at h'
      rw [Option.some.inj h']
  · next h' =>
      rw [h] at h'
      cases h'

theorem selected_of_none {stop : Nat} (hlt : addr < stop) (h : toSkip filters addr = none) :
    selected filters stop addr =
      addr :: selected filters stop (addr + SNAPSHOT_PAGE_SIZE) := by
  rw [selected, if_pos hlt]
  split
  · next range' h' =>
      rw [h] at h'
      cases h'
  · rfl

theorem selected_of_le {stop : Nat} (hle : stop ≤ addr) : selected filters stop addr = [] := by
  rw [selected, if_neg (Nat.not_lt.mpr hle)]

/-- **What is recorded** is what the walk comes to, and does not skip. -/
theorem mem_selected {stop addr a : Nat} : a ∈ selected filters stop addr ↔
    Reaches filters stop addr a ∧ a < stop ∧ toSkip filters a = none := by
  induction addr using selected.induct filters stop with
  | case1 addr hlt range hskip hmove ih =>
      rw [selected_of_skip hlt hskip, ih]
      refine and_congr_left fun ⟨_, hnone⟩ => ⟨fun h => .skip hlt hskip h, fun h => ?_⟩
      cases h with
      | here =>
          rw [hskip] at hnone
          cases hnone
      | skip _ hskip' hrest =>
          rw [hskip] at hskip'
          rw [Option.some.inj hskip']
          exact hrest
      | page _ hskip' _ =>
          rw [hskip] at hskip'
          cases hskip'
  | case2 addr hlt hskip ih =>
      rw [selected_of_none hlt hskip, List.mem_cons, ih]
      constructor
      · rintro (rfl | ⟨h, hstop, hnone⟩)
        · exact ⟨.here _, hlt, hskip⟩
        · exact ⟨.page hlt hskip h, hstop, hnone⟩
      · rintro ⟨h, hstop, hnone⟩
        cases h with
        | here => exact .inl rfl
        | skip _ hskip' _ =>
            rw [hskip] at hskip'
            cases hskip'
        | page _ _ hrest => exact .inr ⟨hrest, hstop, hnone⟩
  | case3 addr hge =>
      rw [selected_of_le (Nat.not_lt.mp hge)]
      refine iff_of_false List.not_mem_nil ?_
      rintro ⟨h, hstop, -⟩
      cases h with
      | here => exact hge hstop
      | skip hlt _ _ => exact hge hlt
      | page hlt _ _ => exact hge hlt

/-- The walk does not miss a page: it steps from page to page, and what it skips is
denied. -/
theorem mem_selected_of_aligned {stop addr page : Nat}
    (haligned : ∀ a ∈ selected filters stop addr, a % SNAPSHOT_PAGE_SIZE = 0)
    (hpage : page % SNAPSHOT_PAGE_SIZE = 0) (hge : addr ≤ page) (hlt : page < stop)
    (hdenied : ¬ Denied filters page) : page ∈ selected filters stop addr := by
  induction addr using selected.induct filters stop with
  | case1 addr haddr range hskip hmove ih =>
      rw [selected_of_skip haddr hskip] at haligned ⊢
      refine ih haligned (Nat.le_of_not_lt fun hin => hdenied ?_)
      exact denied_of_toSkip hskip hge hin
  | case2 addr haddr hskip ih =>
      rw [selected_of_none haddr hskip] at haligned ⊢
      rcases Nat.eq_or_lt_of_le hge with rfl | hgt
      · exact List.mem_cons_self
      · have hmod := haligned addr List.mem_cons_self
        refine List.mem_cons_of_mem addr (ih ?_ ?_)
        · exact fun a ha => haligned a (List.mem_cons_of_mem addr ha)
        · rw [SNAPSHOT_PAGE_SIZE] at hmod hpage ⊢
          omega
  | case3 addr hge' => exact absurd (Nat.lt_of_le_of_lt hge hlt) hge'

theorem le_of_reaches {stop a : Nat} (h : Reaches filters stop addr a) : addr ≤ a := by
  induction h with
  | here => exact Nat.le_refl _
  | skip hlt hskip hrest ih => exact Nat.le_trans (Nat.le_of_lt (lt_stop_of_toSkip hskip)) ih
  | page hlt hskip hrest ih => exact Nat.le_trans (Nat.le_add_right _ _) ih

/-- From a skipped address the walk comes to the end of the range. -/
theorem Reaches.behind {stop a : Nat} (h : Reaches filters stop addr a) (hlt : a < stop)
    (hskip : toSkip filters a = some range) : Reaches filters stop addr range.stop := by
  induction h with
  | here => exact .skip hlt hskip (.here _)
  | skip hlt' hskip' _ ih => exact .skip hlt' hskip' (ih hlt hskip)
  | page hlt' hskip' _ ih => exact .page hlt' hskip' (ih hlt hskip)

/-- The walk goes from page to page when it starts, and goes on behind each range it
skips, at a page. -/
theorem aligned_of_reaches {stop a : Nat} (h : Reaches filters stop addr a)
    (hstart : addr < stop → toSkip filters addr = none → addr % SNAPSHOT_PAGE_SIZE = 0)
    (hresumes : ∀ addr' range', Reaches filters stop addr addr' → addr' < stop →
      toSkip filters addr' = some range' → range'.stop < stop →
      toSkip filters range'.stop = none → range'.stop % SNAPSHOT_PAGE_SIZE = 0)
    (hlt : a < stop) (hnone : toSkip filters a = none) : a % SNAPSHOT_PAGE_SIZE = 0 := by
  induction h with
  | here => exact hstart hlt hnone
  | skip hlt' hskip _ ih =>
      refine ih ?_ ?_ hlt hnone
      · exact hresumes _ _ (.here _) hlt' hskip
      · intro addr' range' hreach
        exact hresumes addr' range' (.skip hlt' hskip hreach)
  | page hlt' hskip _ ih =>
      refine ih ?_ ?_ hlt hnone
      · intro _ _
        exact (Nat.add_mod_right _ _).trans (hstart hlt' hskip)
      · intro addr' range' hreach
        exact hresumes addr' range' (.page hlt' hskip hreach)

/-- Without filters every page is recorded. -/
theorem selected_nil (stop addr : Nat) :
    selected [] stop addr = strided SNAPSHOT_PAGE_SIZE addr stop := by
  induction addr using selected.induct [] stop with
  | case1 addr hlt range hskip => cases hskip
  | case2 addr hlt hskip ih =>
      have hcount : (stop - addr + (4096 - 1)) / 4096 =
          (stop - (addr + 4096) + (4096 - 1)) / 4096 + 1 := by omega
      rw [selected_of_none hlt hskip, ih, strided, strided, SNAPSHOT_PAGE_SIZE, hcount,
        List.range'_succ]
  | case3 addr hge =>
      rw [selected_of_le (Nat.not_lt.mp hge), strided, SNAPSHOT_PAGE_SIZE,
        show (stop - addr + (4096 - 1)) / 4096 = 0 by omega]
      rfl

end IntervalSnapshotFilters

namespace Qemu

theorem mod_lt_page (a : Nat) : a % SNAPSHOT_PAGE_SIZE < SNAPSHOT_PAGE_SIZE :=
  Nat.mod_lt a (Nat.succ_pos 4095)

/-- Reads as much as a page from any address, when all of it is mapped and readable. -/
def readFrom (addr : Nat) (qemu : Qemu) : Option PageData := do
  let first := addr - addr % SNAPSHOT_PAGE_SIZE
  let stop := addr + SNAPSHOT_PAGE_SIZE - 1
  let data ← qemu.readMem first
  let data' ← qemu.readMem (stop - stop % SNAPSHOT_PAGE_SIZE)
  pure fun i =>
    let a := addr + i.val
    if a < first + SNAPSHOT_PAGE_SIZE then data ⟨a % SNAPSHOT_PAGE_SIZE, mod_lt_page a⟩
    else data' ⟨a % SNAPSHOT_PAGE_SIZE, mod_lt_page a⟩

theorem readFrom_page {addr : Nat} (h : addr % SNAPSHOT_PAGE_SIZE = 0) (qemu : Qemu) :
    qemu.readFrom addr = qemu.readMem addr := by
  have hfirst : addr - addr % SNAPSHOT_PAGE_SIZE = addr := by rw [h, Nat.sub_zero]
  have hlast : addr + SNAPSHOT_PAGE_SIZE - 1 -
      (addr + SNAPSHOT_PAGE_SIZE - 1) % SNAPSHOT_PAGE_SIZE = addr := by
    rw [SNAPSHOT_PAGE_SIZE] at h ⊢
    omega
  rw [readFrom, hfirst, hlast]
  cases qemu.readMem addr with
  | none => rfl
  | some data =>
      refine congrArg some (funext fun i => ?_)
      have hmod : (addr + i.val) % SNAPSHOT_PAGE_SIZE = i.val := by
        rw [Nat.add_mod, h, Nat.zero_add, Nat.mod_mod, Nat.mod_eq_of_lt i.isLt]
      simp only [if_pos (Nat.add_lt_add_left i.isLt addr), hmod]

end Qemu

namespace SnapshotModule

variable {T : Type → Type}

open IntervalSnapshotFilters

/-- The body of the walk over a mapping, at an address that is not skipped. -/
def snapshotSelected (filters : IntervalSnapshotFilters) (qemu : Qemu) (map : MapInfo)
    (self : SnapshotModule T) (addr : Nat) : Option (SnapshotModule T) :=
  let insertPage (data : Option PageData) : SnapshotModule T :=
    let info := { addr, perms := map.flags, isPrivate := map.isPriv, data }
    { self with pages := self.pages.insert addr info }
  if map.flags.readable ∧ (toZero filters addr).isNone then
    (qemu.readFrom addr).map fun data => insertPage (some data)
  else some (insertPage none)

/-- The pages of the module are those in `recorded`, each under its address. -/
structure Records (s : SnapshotModule T) (recorded : Nat → Prop) : Prop where
  keys : ∀ page, page ∈ s.pages ↔ recorded page
  addr : ∀ page info, s.pages.lookup page = some info → info.addr = page

variable {filters : IntervalSnapshotFilters} {qemu : Qemu} {map : MapInfo}
  {self s : SnapshotModule T} {recorded : Nat → Prop}

theorem Records.congr (h : self.Records recorded) (hpages : s.pages = self.pages) :
    s.Records recorded := by
  obtain ⟨hkeys, haddr⟩ := h
  rw [← hpages] at hkeys haddr
  exact ⟨hkeys, haddr⟩

theorem Records.page (h : self.Records recorded) {addr : Nat}
    (hs : snapshotSelected filters qemu map self addr = some s) :
    s.Records fun page => page = addr ∨ recorded page := by
  have hpages : ∃ info : SnapshotPageInfo, info.addr = addr ∧
      s.pages = self.pages.insert addr info := by
    rw [snapshotSelected] at hs
    split at hs
    · obtain ⟨data, -, rfl⟩ := Option.map_eq_some_iff.mp hs
      exact ⟨_, rfl, rfl⟩
    · obtain rfl := Option.some.inj hs
      exact ⟨_, rfl, rfl⟩
  obtain ⟨info, hinfo, hpages⟩ := hpages
  constructor
  · intro page
    rw [hpages]
    exact (AList.mem_insert _).trans (or_congr_right (h.keys page))
  · intro page info' hlookup
    rw [hpages, HashMap.lookup_insert] at hlookup
    split at hlookup
    · next heq =>
        rw [← Option.some.inj hlookup, hinfo, heq]
    · exact h.addr page info' hlookup

theorem Records.pages (h : self.Records recorded) {addrs : List Nat}
    (hs : addrs.foldlM (snapshotSelected filters qemu map) self = some s) :
    s.Records fun page => page ∈ addrs ∨ recorded page := by
  induction addrs generalizing self recorded with
  | nil =>
      obtain rfl := Option.some.inj hs
      exact ⟨fun page => (h.keys page).trans (or_iff_right List.not_mem_nil).symm, h.addr⟩
  | cons addr addrs ih =>
      rw [List.foldlM_cons] at hs
      obtain ⟨t, ht, hs⟩ := Option.bind_eq_some_iff.mp hs
      obtain ⟨hkeys, haddr⟩ := ih (h.page ht) hs
      refine ⟨fun page => (hkeys page).trans ?_, haddr⟩
      rw [List.mem_cons, or_left_comm, or_assoc]

/-- A mapping that cannot be read is recorded without reading. -/
theorem exists_foldlM_unreadable (h : ¬ map.flags.readable) (addrs : List Nat) :
    ∃ s, addrs.foldlM (snapshotSelected filters qemu map) self = some s := by
  induction addrs generalizing self with
  | nil => exact ⟨self, rfl⟩
  | cons addr addrs ih =>
      rw [List.foldlM_cons, snapshotSelected, if_neg fun hread => h hread.1]
      exact ih

theorem foldlM_snapshotSelected_nil {addrs : List Nat}
    (haligned : ∀ addr ∈ addrs, addr % SNAPSHOT_PAGE_SIZE = 0) :
    addrs.foldlM (snapshotSelected [] qemu map) self =
      addrs.foldlM (snapshotPage qemu map) self := by
  induction addrs generalizing self with
  | nil => rfl
  | cons addr addrs ih =>
      have hbody : snapshotSelected [] qemu map self addr = snapshotPage qemu map self addr := by
        rw [snapshotSelected, snapshotPage,
          Qemu.readFrom_page (haligned addr List.mem_cons_self)]
        simp only [toZero, Option.isNone_none, and_true]
      rw [List.foldlM_cons, List.foldlM_cons, hbody]
      exact bind_congr fun s => ih fun a ha => haligned a (List.mem_cons_of_mem addr ha)

variable [IntervalTree T]

def snapshotMapFiltered (filters : IntervalSnapshotFilters) (qemu : Qemu)
    (self : SnapshotModule T) (map : MapInfo) : Option (SnapshotModule T) := do
  let self ← (selected filters map.stop map.start).foldlM (snapshotSelected filters qemu map) self
  let tree := IntervalTree.insert ⟨map.start, map.stop⟩
    { perms := some map.flags, changed := false } self.maps.tree
  pure { self with maps := ⟨tree, self.maps.size + (map.stop - map.start)⟩ }

/-- `snapshot` of a module with `filters`. -/
def snapshotFiltered (filters : IntervalSnapshotFilters) (qemu : Qemu) (mappings : List MapInfo)
    (self : SnapshotModule T) : Option (SnapshotModule T) := do
  let self := { self with
    brk := qemu.brk, initialBrk := qemu.initialBrk, mmapStart := qemu.mmapStart
    pages := ∅, accesses := self.accesses.mapValues SnapshotAccessInfo.clear }
  let self ← mappings.foldlM (snapshotMapFiltered filters qemu) self
  pure { self with empty := false, newMaps := self.maps }

/-- **Without filters** this is the snapshot of a module that has none. -/
theorem snapshotFiltered_nil {mappings : List MapInfo}
    (haligned : ∀ map ∈ mappings, map.start % SNAPSHOT_PAGE_SIZE = 0) :
    self.snapshotFiltered [] qemu mappings = self.snapshot qemu mappings := by
  have hfold (start : SnapshotModule T) :
      mappings.foldlM (snapshotMapFiltered [] qemu) start =
        mappings.foldlM (snapshotMap qemu) start := by
    induction mappings generalizing start with
    | nil => rfl
    | cons map mappings ih =>
        have hmap : start.snapshotMapFiltered [] qemu map = start.snapshotMap qemu map := by
          have hpages : ∀ addr ∈ strided SNAPSHOT_PAGE_SIZE map.start map.stop,
              addr % SNAPSHOT_PAGE_SIZE = 0 := by
            intro addr hmem
            have hpos : 0 < SNAPSHOT_PAGE_SIZE := Nat.succ_pos 4095
            obtain ⟨i, rfl, -⟩ := (mem_strided hpos).mp hmem
            rw [Nat.add_mul_mod_self_left]
            exact haligned map List.mem_cons_self
          rw [snapshotMapFiltered, snapshotMap, selected_nil, foldlM_snapshotSelected_nil hpages]
        rw [List.foldlM_cons, List.foldlM_cons, hmap]
        exact bind_congr fun s => ih (fun m hm => haligned m (List.mem_cons_of_mem map hm)) s
  rw [snapshotFiltered, snapshot, hfold]

theorem Records.maps (h : self.Records recorded) {mappings : List MapInfo}
    (hs : mappings.foldlM (snapshotMapFiltered filters qemu) self = some s) :
    s.Records fun page =>
      (∃ map ∈ mappings, page ∈ selected filters map.stop map.start) ∨ recorded page := by
  induction mappings generalizing self recorded with
  | nil =>
      obtain rfl := Option.some.inj hs
      refine ⟨fun page => (h.keys page).trans (or_iff_right ?_).symm, h.addr⟩
      rintro ⟨map, hmem, -⟩
      exact List.not_mem_nil hmem
  | cons map mappings ih =>
      rw [List.foldlM_cons] at hs
      obtain ⟨u, hu, hs⟩ := Option.bind_eq_some_iff.mp hs
      obtain ⟨t, ht, hu⟩ := Option.bind_eq_some_iff.mp hu
      obtain rfl := Option.some.inj hu
      obtain ⟨hkeys, haddr⟩ := ih (by exact (h.pages ht).congr rfl) hs
      refine ⟨fun page => (hkeys page).trans ?_, haddr⟩
      rw [List.exists_mem_cons_iff, or_left_comm, or_assoc]

/-- **The pages of a snapshot** are those its walks select. -/
theorem records_snapshotFiltered {mappings : List MapInfo}
    (h : self.snapshotFiltered filters qemu mappings = some s) :
    s.Records fun page => ∃ map ∈ mappings, page ∈ selected filters map.stop map.start := by
  obtain ⟨t, ht, h⟩ := Option.bind_eq_some_iff.mp h
  obtain rfl := Option.some.inj h
  have hstart : ∀ page, page ∈ (∅ : HashMap Nat SnapshotPageInfo) ↔ False := fun page =>
    iff_false_intro (AList.notMem_empty page)
  obtain ⟨hkeys, haddr⟩ := Records.maps (by exact ⟨hstart, fun _ _ h => by cases h⟩) ht
  exact ⟨fun page => (hkeys page).trans (or_iff_left id), haddr⟩

/-! ## What the filters are named after -/

/-- The pages of the mappings that are in some allowed range, when there are any, and
in no denied one. -/
def Expected (filters : IntervalSnapshotFilters) (mappings : List MapInfo) (page : Nat) : Prop :=
  page % SNAPSHOT_PAGE_SIZE = 0 ∧ (∃ map ∈ mappings, map.start ≤ page ∧ page < map.stop) ∧
    (GivesAllowList filters → Allowed filters page) ∧ ¬ Denied filters page

/-- The walk over a mapping starts, and goes on behind a skipped range, at pages; no
page is left out by the allow lists alone; and no filter in front of a deny list has a
page of it that the walk comes to. -/
structure WalksRight (filters : IntervalSnapshotFilters) (map : MapInfo) : Prop where
  starts : map.start < map.stop → toSkip filters map.start = none →
    map.start % SNAPSHOT_PAGE_SIZE = 0
  resumes : ∀ addr range, filters.Reaches map.stop map.start addr → addr < map.stop →
    toSkip filters addr = some range → range.stop < map.stop →
    toSkip filters range.stop = none → range.stop % SNAPSHOT_PAGE_SIZE = 0
  allows : GivesAllowList filters → ∀ page, page % SNAPSHOT_PAGE_SIZE = 0 →
    map.start ≤ page → page < map.stop → ¬ Denied filters page → Allowed filters page
  denies : ∀ addr, filters.Reaches map.stop map.start addr → addr < map.stop →
    Denied filters addr → (toSkip filters addr).isSome

/-- **Exactly when a snapshot records the pages its filters name.** -/
theorem records_expected_iff {mappings : List MapInfo}
    (h : self.snapshotFiltered filters qemu mappings = some s) :
    s.Records (Expected filters mappings) ↔ ∀ map ∈ mappings, WalksRight filters map := by
  have hrecords := records_snapshotFiltered h
  constructor
  · intro hexpected map hmap
    have hselected : ∀ addr ∈ selected filters map.stop map.start,
        Expected filters mappings addr := fun addr hmem =>
      (hexpected.keys addr).mp ((hrecords.keys addr).mpr ⟨map, hmap, hmem⟩)
    constructor
    · intro hlt hskip
      exact (hselected _ (mem_selected.mpr ⟨.here _, hlt, hskip⟩)).1
    · intro addr range hreach hlt hskip hlt' hskip'
      exact (hselected _ (mem_selected.mpr ⟨hreach.behind hlt hskip, hlt', hskip'⟩)).1
    · intro hgives page hpage hge hlt hdenied
      have hmem := mem_selected_of_aligned (fun a ha => (hselected a ha).1) hpage hge hlt hdenied
      exact (hselected page hmem).2.2.1 hgives
    · intro addr hreach hlt hdenied
      rw [Option.isSome_iff_ne_none]
      intro hskip
      exact (hselected addr (mem_selected.mpr ⟨hreach, hlt, hskip⟩)).2.2.2 hdenied
  · intro hright
    refine ⟨fun page => (hrecords.keys page).trans ?_, hrecords.addr⟩
    constructor
    · rintro ⟨map, hmap, hmem⟩
      obtain ⟨hstarts, hresumes, hallows, hdenies⟩ := hright map hmap
      obtain ⟨hreach, hlt, hskip⟩ := mem_selected.mp hmem
      have hpage := aligned_of_reaches hreach hstarts hresumes hlt hskip
      have hge := le_of_reaches hreach
      have hdenied : ¬ Denied filters page := by
        intro hdenied
        have hsome := hdenies page hreach hlt hdenied
        rw [hskip] at hsome
        cases hsome
      exact ⟨hpage, ⟨map, hmap, hge, hlt⟩, fun hgives => hallows hgives page hpage hge hlt hdenied,
        hdenied⟩
    · rintro ⟨hpage, ⟨map, hmap, hge, hlt⟩, -, hdenied⟩
      obtain ⟨hstarts, hresumes, -, -⟩ := hright map hmap
      refine ⟨map, hmap, mem_selected_of_aligned (fun a ha => ?_) hpage hge hlt hdenied⟩
      obtain ⟨hreach, hstop, hskip⟩ := mem_selected.mp ha
      exact aligned_of_reaches hreach hstarts hresumes hstop hskip

/-- Without filters the walk over an aligned mapping is right. -/
theorem walksRight_nil (haligned : map.start % SNAPSHOT_PAGE_SIZE = 0) : WalksRight [] map := by
  constructor
  · intro _ _
    exact haligned
  · intro addr range _ _ hskip
    cases hskip
  · rintro ⟨ranges, hmem⟩
    cases hmem
  · rintro addr _ _ ⟨ranges, hmem, _⟩
    cases hmem

/-- Two pages that cannot be read. -/
def twoPages : MapInfo := ⟨0x1000, 0x3000, .none, true⟩

def noMemory : Qemu := ⟨fun _ => none, 0, 0, 0⟩

theorem snapshotFiltered_twoPages (filters : IntervalSnapshotFilters) (self : SnapshotModule T) :
    ∃ s, self.snapshotFiltered filters noMemory [twoPages] = some s := by
  have hread : ¬ twoPages.flags.readable := by decide
  have hmap (start : SnapshotModule T) :
      ∃ s, start.snapshotMapFiltered filters noMemory twoPages = some s := by
    obtain ⟨s, hs⟩ := exists_foldlM_unreadable hread
      (selected filters twoPages.stop twoPages.start)
    exact ⟨_, Option.bind_eq_some_iff.mpr ⟨s, hs, rfl⟩⟩
  obtain ⟨s, hs⟩ := hmap _
  exact ⟨_, Option.bind_eq_some_iff.mpr ⟨s, Option.bind_eq_some_iff.mpr ⟨s, hs, rfl⟩, rfl⟩⟩

/-- An allow list with the first of the two pages: both are recorded. -/
theorem not_records_expected_allowList :
    ∃ s, (new : SnapshotModule IntervalMap).snapshotFiltered [.allowList [⟨0x1000, 0x2000⟩]]
      noMemory [twoPages] = some s ∧
      ¬ s.Records (Expected [.allowList [⟨0x1000, 0x2000⟩]] [twoPages]) := by
  have hsel : selected [.allowList [⟨0x1000, 0x2000⟩]] 0x3000 0x1000 = [0x1000, 0x2000] := by
    rw [selected_of_none (by decide) rfl, SNAPSHOT_PAGE_SIZE, selected_of_none (by decide) rfl,
      SNAPSHOT_PAGE_SIZE, selected_of_le (by decide)]
  obtain ⟨s, hs⟩ := snapshotFiltered_twoPages
    [.allowList [⟨0x1000, 0x2000⟩]] (new : SnapshotModule IntervalMap)
  refine ⟨s, hs, fun h => ?_⟩
  have hmem : 0x2000 ∈ s.pages := by
    refine ((records_snapshotFiltered hs).keys 0x2000).mpr ⟨twoPages, List.mem_cons_self, ?_⟩
    exact hsel ▸ List.mem_cons_of_mem _ List.mem_cons_self
  obtain ⟨-, -, hallowed, -⟩ := (h.keys 0x2000).mp hmem
  obtain ⟨ranges, hranges, range, hrange, hcontains⟩ := hallowed ⟨_, List.mem_cons_self⟩
  obtain rfl : ranges = [⟨0x1000, 0x2000⟩] := by
    cases List.mem_singleton.mp hranges
    rfl
  rw [List.mem_singleton.mp hrange] at hcontains
  exact absurd hcontains (by decide)

/-- Without filters, both pages are recorded, as they should. -/
theorem records_expected_nil :
    ∃ s, (new : SnapshotModule IntervalMap).snapshotFiltered [] noMemory [twoPages] = some s ∧
      s.Records (Expected [] [twoPages]) := by
  obtain ⟨s, hs⟩ := snapshotFiltered_twoPages [] (new : SnapshotModule IntervalMap)
  refine ⟨s, hs, (records_expected_iff hs).mpr fun map hmap => ?_⟩
  rw [List.mem_singleton.mp hmap]
  exact walksRight_nil rfl

end SnapshotModule

end Libaflmm
