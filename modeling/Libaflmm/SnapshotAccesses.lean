import Libaflmm.Snapshot

/-!
# The pages a thread has written to

A page that is in the cache is not recorded again, which is right as long as the
cached pages are dirty. The cache of a thread that was there at the last snapshot
or reset starts with an address that is no page. That of a new thread starts with
page 0, which is then taken to be dirty until four other pages have replaced it.
-/

namespace Libaflmm

theorem mem_accessPages {addr size page : Nat} (hsize : 0 < size) :
    page ∈ SnapshotModule.accessPages addr size ↔
      page % SNAPSHOT_PAGE_SIZE = 0 ∧ page < addr + size ∧ addr < page + SNAPSHOT_PAGE_SIZE := by
  rw [SnapshotModule.accessPages]
  rw [SNAPSHOT_PAGE_SIZE, mem_strided (Nat.succ_pos 4095)]
  constructor
  · rintro ⟨i, rfl, hlt⟩
    omega
  · rintro ⟨hpage, hlt, hle⟩
    exact ⟨(page - (addr - addr % 4096)) / 4096, by omega, by omega⟩

/-- Page 0 comes first. -/
theorem accessPages_of_zero_mem {addr size : Nat} (hsize : 0 < size)
    (h : 0 ∈ SnapshotModule.accessPages addr size) :
    ∃ pages, SnapshotModule.accessPages addr size = 0 :: pages ∧ 0 ∉ pages := by
  obtain ⟨-, -, hlt⟩ := (mem_accessPages hsize).mp h
  rw [Nat.zero_add, SNAPSHOT_PAGE_SIZE] at hlt
  have hstart : addr - addr % SNAPSHOT_PAGE_SIZE = 0 := by
    rw [SNAPSHOT_PAGE_SIZE]
    omega
  rw [SnapshotModule.accessPages, hstart, strided, SNAPSHOT_PAGE_SIZE]
  obtain ⟨n, hn⟩ : ∃ n, (addr + size - 1 - (addr + size - 1) % 4096 + 1 - 0 + (4096 - 1)) / 4096 =
      n + 1 := ⟨(addr + size - 1 - (addr + size - 1) % 4096) / 4096, by omega⟩
  rw [hn, List.range'_succ]
  refine ⟨_, rfl, fun hmem => ?_⟩
  obtain ⟨i, -, hi⟩ := List.mem_range'.mp hmem
  omega

namespace SnapshotAccessInfo

theorem record_cases (acc : SnapshotAccessInfo) (page : Nat) :
    (∃ i, acc.accessCache i = page) ∧ acc.record page = acc ∨
    (∀ i, acc.accessCache i ≠ page) ∧ acc.record page =
      { accessCache := Function.update acc.accessCache acc.accessCacheIdx page
        accessCacheIdx := acc.accessCacheIdx + 1
        dirty := acc.dirty.insert page () } := by
  by_cases h : acc.accessCache 0 = page ∨ acc.accessCache 1 = page ∨ acc.accessCache 2 = page ∨
      acc.accessCache 3 = page
  · refine .inl ⟨?_, if_pos h⟩
    rcases h with h | h | h | h
    · exact ⟨_, h⟩
    · exact ⟨_, h⟩
    · exact ⟨_, h⟩
    · exact ⟨_, h⟩
  · refine .inr ⟨fun i hi => h ?_, if_neg h⟩
    match i with
    | 0 => exact .inl hi
    | 1 => exact .inr (.inl hi)
    | 2 => exact .inr (.inr (.inl hi))
    | 3 => exact .inr (.inr (.inr hi))

/-- The cached pages are dirty. -/
def Warm (acc : SnapshotAccessInfo) : Prop :=
  ∀ i, acc.accessCache i ∈ acc.dirty ∨ acc.accessCache i = addrMax

theorem warm_clear (acc : SnapshotAccessInfo) : acc.clear.Warm := fun _ => .inr rfl

variable {acc : SnapshotAccessInfo} {page : Nat}

theorem Warm.after_record (h : acc.Warm) (hpage : page ≠ addrMax) :
    (acc.record page).Warm ∧
      ∀ page', page' ∈ (acc.record page).dirty ↔ page' = page ∨ page' ∈ acc.dirty := by
  rcases acc.record_cases page with ⟨⟨i, hi⟩, heq⟩ | ⟨-, heq⟩
  · rw [heq]
    have hdirty : page ∈ acc.dirty := hi ▸ (h i).resolve_right (hi ▸ hpage)
    refine ⟨h, fun page' => (or_iff_right_of_imp ?_).symm⟩
    rintro rfl
    exact hdirty
  · rw [heq]
    refine ⟨fun i => ?_, fun page' => AList.mem_insert _⟩
    dsimp only
    by_cases hidx : i = acc.accessCacheIdx
    · subst hidx
      rw [Function.update_self]
      exact .inl ((AList.mem_insert _).mpr (.inl rfl))
    · rw [Function.update_of_ne hidx]
      exact (h i).imp_left fun hmem => (AList.mem_insert _).mpr (.inr hmem)

theorem Warm.foldl_record (h : acc.Warm) {pages : List Nat} (hpages : addrMax ∉ pages) :
    (pages.foldl record acc).Warm ∧
      ∀ page, page ∈ (pages.foldl record acc).dirty ↔ page ∈ pages ∨ page ∈ acc.dirty := by
  induction pages generalizing acc with
  | nil => exact ⟨h, fun page => (or_iff_right List.not_mem_nil).symm⟩
  | cons page pages ih =>
      rw [List.mem_cons, not_or] at hpages
      obtain ⟨hwarm, hdirty⟩ := h.after_record (Ne.symm hpages.1)
      obtain ⟨hwarm', hdirty'⟩ := ih hwarm hpages.2
      refine ⟨hwarm', fun page' => ?_⟩
      rw [List.foldl_cons, hdirty', hdirty, List.mem_cons, or_left_comm, or_assoc]

/-! ## New threads -/

/-- The cache of a new thread that has accessed the pages `seen`, all different
and none of them page 0. -/
structure Filling (acc : SnapshotAccessInfo) (seen : List Nat) : Prop where
  few : seen.length < 4
  nodup : seen.Nodup
  ne_zero : 0 ∉ seen
  idx : acc.accessCacheIdx.val = seen.length
  cache : ∀ i : Fin 4, acc.accessCache i = seen[i.val]?.getD 0
  dirty : ∀ page, page ∈ acc.dirty ↔ page ∈ seen

theorem filling_default : default.Filling [] where
  few := Nat.succ_pos 3
  nodup := List.nodup_nil
  ne_zero := List.not_mem_nil
  idx := rfl
  cache _ := rfl
  dirty page := iff_of_false (AList.notMem_empty page) List.not_mem_nil

variable {seen : List Nat}

/-- The cache holds the pages that have been accessed, and else page 0. -/
theorem Filling.exists_cache_iff (h : acc.Filling seen) (hpage : page ≠ 0) :
    (∃ i, acc.accessCache i = page) ↔ page ∈ seen := by
  constructor
  · rintro ⟨i, hi⟩
    rw [h.cache] at hi
    cases hget : seen[i.val]? with
    | none =>
        rw [hget] at hi
        exact absurd hi.symm hpage
    | some page' =>
        rw [hget] at hi
        exact hi ▸ List.mem_of_getElem? hget
  · intro hmem
    obtain ⟨i, hi, rfl⟩ := List.mem_iff_getElem.mp hmem
    refine ⟨⟨i, hi.trans h.few⟩, ?_⟩
    rw [h.cache, List.getElem?_eq_getElem hi]
    rfl

/-- A new page takes the place of the first page 0. -/
theorem Filling.update_cache (h : acc.Filling seen) (page : Nat) (i : Fin 4) :
    Function.update acc.accessCache acc.accessCacheIdx page i =
      (seen ++ [page])[i.val]?.getD 0 := by
  by_cases hidx : i = acc.accessCacheIdx
  · rw [hidx, Function.update_self, h.idx, List.getElem?_concat_length]
    rfl
  · have hne : i.val ≠ seen.length := fun hval => hidx (Fin.ext (hval.trans h.idx.symm))
    rw [Function.update_of_ne hidx, h.cache]
    rcases Nat.lt_or_gt_of_ne hne with hlt | hgt
    · rw [List.getElem?_append_left hlt]
    · rw [List.getElem?_eq_none (Nat.le_of_lt hgt), List.getElem?_eq_none]
      rw [List.length_append, List.length_singleton]
      omega

/-- Page 0 is taken to be dirty. -/
theorem Filling.record_zero (h : acc.Filling seen) : acc.record 0 = acc := by
  rcases acc.record_cases 0 with ⟨-, heq⟩ | ⟨hne, -⟩
  · exact heq
  · refine absurd ?_ (hne ⟨seen.length, h.few⟩)
    rw [h.cache, List.getElem?_eq_none (Nat.le_refl _)]
    rfl

/-- Another page is in the cache, or takes the place of a page 0. -/
theorem Filling.after_record (h : acc.Filling seen) (hpage : page ≠ 0) :
    (page ∈ seen ∧ (acc.record page).Filling seen) ∨
    (page ∉ seen ∧ seen.length + 1 < 4 ∧ (acc.record page).Filling (seen ++ [page])) ∨
    (page ∉ seen ∧ seen.length + 1 = 4 ∧ (acc.record page).Warm ∧
      ∀ page', page' ∈ (acc.record page).dirty ↔ page' ∈ seen ++ [page]) := by
  have hcached := h.exists_cache_iff hpage
  rcases acc.record_cases page with ⟨hhit, heq⟩ | ⟨hmiss, heq⟩
  · rw [heq]
    exact .inl ⟨hcached.mp hhit, h⟩
  · have hnew : page ∉ seen := by
      intro hmem
      obtain ⟨i, hi⟩ := hcached.mpr hmem
      exact hmiss i hi
    have hdirty : ∀ page', page' ∈ (acc.record page).dirty ↔ page' ∈ seen ++ [page] := by
      intro page'
      rw [heq, List.mem_append, List.mem_singleton, or_comm]
      exact (AList.mem_insert _).trans (or_congr_right (h.dirty page'))
    have hcache : ∀ i : Fin 4, (acc.record page).accessCache i =
        (seen ++ [page])[i.val]?.getD 0 := by
      intro i
      rw [heq]
      exact h.update_cache page i
    have hidx : (acc.record page).accessCacheIdx = acc.accessCacheIdx + 1 := by rw [heq]
    have hfew := h.few
    have hlen : (seen ++ [page]).length = seen.length + 1 := by simp
    right
    by_cases hfour : seen.length + 1 < 4
    · refine .inl ⟨hnew, hfour, ⟨hlen ▸ hfour, ?_, ?_, ?_, hcache, hdirty⟩⟩
      · exact List.concat_eq_append ▸ h.nodup.concat hnew
      · rw [List.mem_append, List.mem_singleton]
        exact not_or.mpr ⟨h.ne_zero, Ne.symm hpage⟩
      · rw [hidx, hlen, Fin.val_add, h.idx]
        exact Nat.mod_eq_of_lt hfour
    · refine .inr ⟨hnew, by omega, fun i => .inl ?_, hdirty⟩
      rw [hdirty, hcache, List.getElem?_eq_getElem (by omega)]
      exact List.getElem_mem _

theorem length_dedup_of_nodup {seen pages : List Nat} (hnodup : seen.Nodup)
    (hseen : ∀ page, page ∈ seen ↔ page ∈ pages) : pages.dedup.length = seen.length := by
  refine (((List.perm_ext_iff_of_nodup hnodup (List.nodup_dedup pages)).mpr ?_).length_eq).symm
  intro page
  rw [List.mem_dedup, hseen]

/-- The state of a new thread after it has accessed `pages`: its cache is filling
up, or four pages have been accessed and the cached ones are dirty. -/
def Tracked (acc : SnapshotAccessInfo) (pages : List Nat) : Prop :=
  (∃ seen, acc.Filling seen ∧ ∀ page, page ∈ seen ↔ page ∈ pages) ∨
    (acc.Warm ∧ 4 ≤ pages.dedup.length ∧ ∀ page, page ∈ acc.dirty ↔ page ∈ pages)

/-- Page 0 does not come before four other pages. -/
def LateZero (pages : List Nat) : Prop :=
  0 ∈ pages → 4 ≤ (pages.takeWhile (· ≠ 0)).dedup.length

variable {pages rest : List Nat}

theorem takeWhile_ne_zero (h : 0 ∉ pages) : (pages ++ 0 :: rest).takeWhile (· ≠ 0) = pages := by
  rw [List.takeWhile_append_of_pos, List.takeWhile_cons_of_neg (by decide), List.append_nil]
  intro page hmem
  refine decide_eq_true ?_
  rintro rfl
  exact h hmem

theorem LateZero.of_append (h : LateZero (pages ++ 0 :: rest)) :
    0 ∈ pages ∨ 4 ≤ pages.dedup.length := by
  by_cases hmem : 0 ∈ pages
  · exact .inl hmem
  · have hfour := h (List.mem_append_right _ List.mem_cons_self)
    rw [takeWhile_ne_zero hmem] at hfour
    exact .inr hfour

theorem LateZero.of_prefix (h : LateZero rest) (hpages : pages <+: rest) : LateZero pages := by
  intro hmem
  obtain ⟨tail, rfl⟩ := hpages
  have htake : (pages ++ tail).takeWhile (· ≠ 0) = pages.takeWhile (· ≠ 0) := by
    obtain ⟨before, after, rfl, hbefore⟩ := List.eq_append_cons_of_mem hmem
    rw [takeWhile_ne_zero hbefore, List.append_assoc, List.cons_append, takeWhile_ne_zero hbefore]
  rw [← htake]
  exact h (List.mem_append_left tail hmem)

theorem tracked_default : default.Tracked [] :=
  .inl ⟨[], filling_default, fun _ => Iff.rfl⟩

theorem Tracked.mem_dirty (h : acc.Tracked pages) : page ∈ acc.dirty ↔ page ∈ pages := by
  rcases h with ⟨seen, hfill, hseen⟩ | ⟨-, -, hdirty⟩
  · exact (hfill.dirty page).trans (hseen page)
  · exact hdirty page

theorem Tracked.after_record (h : acc.Tracked pages) (hpage : page ≠ addrMax)
    (hzero : page = 0 → 0 ∈ pages ∨ 4 ≤ pages.dedup.length) :
    (acc.record page).Tracked (pages ++ [page]) := by
  rcases h with ⟨seen, hfill, hseen⟩ | ⟨hwarm, hfour, hdirty⟩
  · have hsnoc : ∀ p, p ∈ seen ++ [page] ↔ p ∈ pages ++ [page] := by
      intro p
      rw [List.mem_append, List.mem_append, hseen]
    have hne : page ≠ 0 := by
      intro h0
      rcases hzero h0 with hmem | hlen
      · exact hfill.ne_zero ((hseen 0).mpr hmem)
      · rw [length_dedup_of_nodup hfill.nodup hseen] at hlen
        exact Nat.not_lt.mpr hlen hfill.few
    rcases hfill.after_record hne with ⟨hmem, hfill'⟩ | ⟨-, -, hfill'⟩ | ⟨hnew, hlen, hwarm, hdirty⟩
    · refine .inl ⟨seen, hfill', fun p => ?_⟩
      rw [List.mem_append, List.mem_singleton, hseen]
      refine (or_iff_left_of_imp ?_).symm
      rintro rfl
      exact (hseen p).mp hmem
    · exact .inl ⟨seen ++ [page], hfill', hsnoc⟩
    · have hnodup : (seen ++ [page]).Nodup :=
        List.concat_eq_append ▸ hfill.nodup.concat hnew
      refine .inr ⟨hwarm, ?_, fun p => (hdirty p).trans (hsnoc p)⟩
      rw [length_dedup_of_nodup hnodup hsnoc, List.length_append, List.length_singleton, hlen]
  · obtain ⟨hwarm', hdirty'⟩ := hwarm.after_record hpage
    refine .inr ⟨hwarm', hfour.trans ?_, fun p => ?_⟩
    · refine (List.subperm_of_subset (List.nodup_dedup pages) fun p hp => ?_).length_le
      exact List.mem_dedup.mpr (List.mem_append_left _ (List.mem_dedup.mp hp))
    · rw [hdirty', hdirty, List.mem_append, List.mem_singleton, or_comm]

theorem Tracked.foldl_record (h : acc.Tracked pages) (hrest : addrMax ∉ rest)
    (hzero : LateZero (pages ++ rest)) : (rest.foldl record acc).Tracked (pages ++ rest) := by
  induction rest generalizing acc pages with
  | nil => exact (List.append_nil pages).symm ▸ h
  | cons page rest ih =>
      rw [List.mem_cons, not_or] at hrest
      rw [← List.singleton_append, ← List.append_assoc] at hzero ⊢
      refine ih (h.after_record (Ne.symm hrest.1) ?_) hrest.2 hzero
      rintro rfl
      rw [List.append_assoc] at hzero
      exact hzero.of_append

theorem mem_dirty_of_record {page' : Nat} (h : page' ∈ (acc.record page).dirty) :
    page' = page ∨ page' ∈ acc.dirty := by
  rcases acc.record_cases page with ⟨-, heq⟩ | ⟨-, heq⟩
  · rw [heq] at h
    exact .inr h
  · rw [heq] at h
    exact (AList.mem_insert _).mp h

theorem mem_dirty_of_foldl_record (h : page ∈ (pages.foldl record acc).dirty) :
    page ∈ pages ∨ page ∈ acc.dirty := by
  induction pages generalizing acc with
  | nil => exact .inr h
  | cons p pages ih =>
      rcases ih h with hmem | hdirty
      · exact .inl (List.mem_cons_of_mem p hmem)
      · rcases mem_dirty_of_record hdirty with rfl | hdirty
        · exact .inl List.mem_cons_self
        · exact .inr hdirty

end SnapshotAccessInfo

/-! ## Accesses of several threads -/

/-- A call of `access`. -/
structure Access where
  thread : Nat
  addr : Nat
  size : Nat
  size_pos : 0 < size
  noWrap : addr + size < 2 ^ 64

namespace Access

def pages (a : Access) : List Nat := SnapshotModule.accessPages a.addr a.size

/-- `page` is the address of a page, some byte of which is accessed. -/
def Touches (a : Access) (page : Nat) : Prop :=
  page % SNAPSHOT_PAGE_SIZE = 0 ∧ page < a.addr + a.size ∧ a.addr < page + SNAPSHOT_PAGE_SIZE

theorem mem_pages {a : Access} {page : Nat} : page ∈ a.pages ↔ a.Touches page :=
  mem_accessPages a.size_pos

/-- The pages a thread accesses, one after the other. -/
def pagesOf (thread : Nat) (accesses : List Access) : List Nat :=
  (accesses.filter fun a => a.thread = thread).flatMap pages

theorem pagesOf_cons (thread : Nat) (a : Access) (accesses : List Access) :
    pagesOf thread (a :: accesses) =
      if a.thread = thread then a.pages ++ pagesOf thread accesses
      else pagesOf thread accesses := by
  rw [pagesOf]
  by_cases h : a.thread = thread
  · rw [if_pos h, List.filter_cons_of_pos (by simpa using h)]
    rfl
  · rw [if_neg h, List.filter_cons_of_neg (by simpa using h)]
    rfl

theorem pagesOf_nil (thread : Nat) : pagesOf thread [] = [] := rfl

theorem pagesOf_append (thread : Nat) (done accesses : List Access) :
    pagesOf thread (done ++ accesses) = pagesOf thread done ++ pagesOf thread accesses := by
  rw [pagesOf, List.filter_append, List.flatMap_append]
  rfl

theorem mem_pagesOf {thread page : Nat} {accesses : List Access} :
    page ∈ pagesOf thread accesses ↔ ∃ a ∈ accesses, a.thread = thread ∧ a.Touches page := by
  rw [pagesOf, List.mem_flatMap]
  refine exists_congr fun a => ?_
  rw [List.mem_filter, decide_eq_true_iff, mem_pages, and_assoc]

/-- The first access of a thread to page 0. -/
theorem exists_first {thread : Nat} {accesses : List Access} (h : 0 ∈ pagesOf thread accesses) :
    ∃ done a rest, accesses = done ++ a :: rest ∧ a.thread = thread ∧ 0 ∈ a.pages ∧
      0 ∉ pagesOf thread done := by
  induction accesses with
  | nil => exact absurd h List.not_mem_nil
  | cons a accesses ih =>
      by_cases ha : a.thread = thread ∧ 0 ∈ a.pages
      · exact ⟨[], a, accesses, rfl, ha.1, ha.2, List.not_mem_nil⟩
      · have hskip {l : List Access} : 0 ∈ pagesOf thread (a :: l) ↔ 0 ∈ pagesOf thread l := by
          rw [pagesOf_cons]
          split
          · next heq => exact List.mem_append.trans (or_iff_right fun hmem => ha ⟨heq, hmem⟩)
          · rfl
        obtain ⟨done, b, rest, rfl, hb, hzero, hfirst⟩ := ih (hskip.mp h)
        exact ⟨a :: done, b, rest, rfl, hb, hzero, mt hskip.mp hfirst⟩

end Access

namespace SnapshotModule

variable {T : Type → Type} {self : SnapshotModule T} {thread thread' page : Nat}

theorem accessInfo_pageAccess : (self.pageAccess thread page).accessInfo thread' =
    if thread' = thread then (self.accessInfo thread).record page
    else self.accessInfo thread' := by
  rw [accessInfo, pageAccess, HashMap.lookup_insert]
  split
  · rfl
  · rfl

theorem accessInfo_foldl_pageAccess {pages : List Nat} :
    (pages.foldl (fun self page => self.pageAccess thread page) self).accessInfo thread' =
      if thread' = thread then pages.foldl SnapshotAccessInfo.record (self.accessInfo thread)
      else self.accessInfo thread' := by
  induction pages generalizing self with
  | nil =>
      split
      · next h => rw [h]; rfl
      · rfl
  | cons page pages ih =>
      rw [List.foldl_cons, ih, accessInfo_pageAccess, accessInfo_pageAccess, if_pos rfl]
      split
      · rfl
      · rfl

/-- Accesses of any number of threads, one after the other. -/
def accessAll (self : SnapshotModule T) (accesses : List Access) : SnapshotModule T :=
  accesses.foldl (fun self a => self.access a.thread a.addr a.size) self

/-- A thread is affected by its own accesses only. -/
theorem accessInfo_accessAll {accesses : List Access} :
    (self.accessAll accesses).accessInfo thread =
      (Access.pagesOf thread accesses).foldl SnapshotAccessInfo.record
        (self.accessInfo thread) := by
  induction accesses generalizing self with
  | nil => rfl
  | cons a accesses ih =>
      show ((self.access a.thread a.addr a.size).accessAll accesses).accessInfo thread = _
      rw [ih, access, accessInfo_foldl_pageAccess, Access.pagesOf_cons]
      by_cases h : a.thread = thread
      · rw [if_pos h.symm, if_pos h, List.foldl_append, h]
        rfl
      · rw [if_neg (Ne.symm h), if_neg h]

theorem accessInfo_clearAccesses : self.clearAccesses.accessInfo thread =
    if thread ∈ self.accesses then (self.accessInfo thread).clear
    else SnapshotAccessInfo.default := by
  rw [accessInfo, clearAccesses, HashMap.lookup_mapValues]
  split
  · next h =>
      obtain ⟨acc, hacc⟩ := Option.isSome_iff_exists.mp (AList.lookup_isSome.mpr h)
      rw [hacc]
      rfl
  · next h =>
      rw [AList.lookup_eq_none.mpr h]
      rfl

theorem accesses_of_foldlM {α : Type} {f : SnapshotModule T → α → Option (SnapshotModule T)}
    (hf : ∀ s a s', f s a = some s' → s'.accesses = s.accesses) {l : List α}
    {s s' : SnapshotModule T} (h : l.foldlM f s = some s') : s'.accesses = s.accesses := by
  induction l generalizing s with
  | nil =>
      obtain rfl := Option.some.inj h
      rfl
  | cons a l ih =>
      rw [List.foldlM_cons] at h
      obtain ⟨t, ht, h⟩ := Option.bind_eq_some_iff.mp h
      exact (ih h).trans (hf s a t ht)

theorem accesses_snapshotPage {qemu : Qemu} {map : MapInfo} {s s' : SnapshotModule T} {addr : Nat}
    (h : snapshotPage qemu map s addr = some s') : s'.accesses = s.accesses := by
  rw [snapshotPage] at h
  split at h
  · obtain ⟨data, -, rfl⟩ := Option.map_eq_some_iff.mp h
    rfl
  · obtain rfl := Option.some.inj h
    rfl

/-- A snapshot clears the accesses, and records none. -/
theorem accesses_snapshot [IntervalTree T] {qemu : Qemu} {mappings : List MapInfo}
    {s' : SnapshotModule T} (h : self.snapshot qemu mappings = some s') :
    s'.accesses = self.clearAccesses.accesses := by
  obtain ⟨t, ht, h⟩ := Option.bind_eq_some_iff.mp h
  obtain rfl := Option.some.inj h
  refine (accesses_of_foldlM (fun s map s' hmap => ?_) ht : t.accesses = _)
  obtain ⟨u, hu, hmap⟩ := Option.bind_eq_some_iff.mp hmap
  obtain rfl := Option.some.inj hmap
  exact (accesses_of_foldlM (fun _ _ _ => accesses_snapshotPage) hu : u.accesses = s.accesses)

/-- What the module says of a thread, from where the accesses were last cleared:
after some of the accesses, the dirty pages are those they touch, and a page that
is accessed is dirty from then on. -/
structure TracksDirty (start : SnapshotModule T) (thread : Nat) (accesses : List Access) :
    Prop where
  exact : ∀ done, done <+: accesses → ∀ page,
    page ∈ ((start.clearAccesses.accessAll done).accessInfo thread).dirty ↔
      ∃ a ∈ done, a.thread = thread ∧ a.Touches page
  recorded : ∀ done a, done ++ [a] <+: accesses → a.thread = thread → ∀ pages page,
    pages ++ [page] <+: a.pages →
    page ∈ (((pages.foldl (fun self page => self.pageAccess thread page)
      (start.clearAccesses.accessAll done)).pageAccess thread page).accessInfo thread).dirty

variable {accesses : List Access} {pages : List Nat}

theorem addrMax_notMem_pagesOf : SnapshotAccessInfo.addrMax ∉ Access.pagesOf thread accesses := by
  intro hmem
  obtain ⟨a, -, -, hpage, -, -⟩ := Access.mem_pagesOf.mp hmem
  exact absurd hpage (by decide)

/-- The pages recorded for a thread whose cache was cleared, or that does not come
to page 0 too early. -/
theorem mem_dirty_foldl_record
    (h : thread ∈ self.accesses ∨ SnapshotAccessInfo.LateZero (Access.pagesOf thread accesses))
    (hpages : pages <+: Access.pagesOf thread accesses) :
    page ∈ (pages.foldl SnapshotAccessInfo.record
      (self.clearAccesses.accessInfo thread)).dirty ↔ page ∈ pages := by
  have hmax : SnapshotAccessInfo.addrMax ∉ pages := fun hmem =>
    addrMax_notMem_pagesOf (hpages.subset hmem)
  rw [accessInfo_clearAccesses]
  split
  · rw [((SnapshotAccessInfo.warm_clear _).foldl_record hmax).2]
    exact or_iff_left (AList.notMem_empty page)
  · next hnew =>
      have hzero := SnapshotAccessInfo.LateZero.of_prefix (h.resolve_left hnew) hpages
      exact (SnapshotAccessInfo.tracked_default.foldl_record hmax hzero).mem_dirty

/-- A new thread that comes to page 0 too early does not record it. -/
theorem zero_notMem_dirty {done : List Access} {a : Access}
    (hnew : thread ∉ self.accesses) (ha : a.thread = thread) (hmem : 0 ∈ a.pages)
    (hfirst : 0 ∉ Access.pagesOf thread done)
    (hfew : (Access.pagesOf thread done).dedup.length < 4) :
    0 ∉ ((self.clearAccesses.accessAll (done ++ [a])).accessInfo thread).dirty := by
  obtain ⟨pages, hpages, hzero⟩ := accessPages_of_zero_mem a.size_pos hmem
  have hmax : SnapshotAccessInfo.addrMax ∉ Access.pagesOf thread done := addrMax_notMem_pagesOf
  have htracked := SnapshotAccessInfo.tracked_default.foldl_record hmax fun h => absurd h hfirst
  rw [List.nil_append] at htracked
  rcases htracked with ⟨seen, hfill, hseen⟩ | ⟨-, hfour, -⟩
  · rw [accessInfo_accessAll, accessInfo_clearAccesses, if_neg hnew, Access.pagesOf_append,
      List.foldl_append, Access.pagesOf_cons, if_pos ha, Access.pages, hpages]
    rw [List.cons_append, List.foldl_cons, hfill.record_zero]
    intro hdirty
    rcases SnapshotAccessInfo.mem_dirty_of_foldl_record hdirty with hmem | hmem
    · rw [Access.pagesOf_nil, List.append_nil] at hmem
      exact hzero hmem
    · exact hfill.ne_zero ((hfill.dirty 0).mp hmem)
  · exact absurd hfew (Nat.not_lt.mpr hfour)

/-- Exactly when the dirty pages of a thread are tracked: a thread that is new, and
accesses page 0, accesses four other pages before. -/
theorem tracksDirty_iff : self.TracksDirty thread accesses ↔
    (thread ∉ self.accesses → 0 ∈ Access.pagesOf thread accesses →
      4 ≤ ((Access.pagesOf thread accesses).takeWhile (· ≠ 0)).dedup.length) := by
  constructor
  · intro h hnew hmem
    by_contra hfew
    obtain ⟨done, a, rest, rfl, ha, hzero, hfirst⟩ := Access.exists_first hmem
    obtain ⟨pages, hpages, -⟩ := accessPages_of_zero_mem a.size_pos hzero
    rw [Access.pagesOf_append, Access.pagesOf_cons, if_pos ha, Access.pages, hpages,
      List.cons_append, SnapshotAccessInfo.takeWhile_ne_zero hfirst, Nat.not_le] at hfew
    refine zero_notMem_dirty hnew ha hzero hfirst hfew ((h.exact _ ?_ 0).mpr ?_)
    · exact ⟨rest, List.append_assoc done [a] rest⟩
    · exact ⟨a, List.mem_append_right done List.mem_cons_self, ha, Access.mem_pages.mp hzero⟩
  · intro h
    have hcase : thread ∈ self.accesses ∨
        SnapshotAccessInfo.LateZero (Access.pagesOf thread accesses) :=
      or_iff_not_imp_left.mpr h
    refine ⟨?_, ?_⟩
    · rintro done ⟨rest, rfl⟩ page
      rw [accessInfo_accessAll, mem_dirty_foldl_record hcase, Access.mem_pagesOf]
      exact ⟨_, (Access.pagesOf_append thread done rest).symm⟩
    · rintro done a ⟨rest, rfl⟩ ha pages page ⟨pages', hpages⟩
      rw [accessInfo_pageAccess, if_pos rfl, accessInfo_foldl_pageAccess, if_pos rfl,
        accessInfo_accessAll, ← List.foldl_append]
      rw [← List.foldl_concat SnapshotAccessInfo.record, mem_dirty_foldl_record hcase]
      · exact List.mem_append_right _ List.mem_cons_self
      · rw [Access.pagesOf_append, Access.pagesOf_append, Access.pagesOf_cons, if_pos ha,
          ← hpages, Access.pagesOf_nil, List.append_nil]
        refine ⟨pages' ++ Access.pagesOf thread rest, ?_⟩
        simp only [List.append_assoc]

/-- A new thread that writes to address 0. -/
theorem not_tracksDirty_newThread :
    ¬ (new : SnapshotModule IntervalMap).TracksDirty 1
      [⟨1, 0, 8, Nat.succ_pos 7, by decide⟩] := by
  intro h
  have hmem : 0 ∈ Access.pages ⟨1, 0, 8, Nat.succ_pos 7, by decide⟩ := List.mem_cons_self
  have hfew : (Access.pagesOf 1 []).dedup.length < 4 := Nat.succ_pos 3
  have hnew : 1 ∉ (new : SnapshotModule IntervalMap).accesses := AList.notMem_empty 1
  refine zero_notMem_dirty hnew (Eq.refl 1) hmem List.not_mem_nil hfew ?_
  refine (h.exact _ (List.prefix_refl _) 0).mpr ⟨_, List.mem_cons_self, rfl, ?_⟩
  exact Access.mem_pages.mp hmem

end SnapshotModule

end Libaflmm
