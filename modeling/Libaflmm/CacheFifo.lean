import Libaflmm.Cache
import Libaflmm.Runs
import Libaflmm.StoreLaws

/-!
# The FIFO cache in front of a fallback store

Three structures have to stay in step: the list of cached ids, the enabled
map of the cache store, and the fallback store. `Cached` says how: the list
is the map read newest first, never longer than the cache, and every cached
testcase is the one that the fallback store answers with.

A lookup that misses keeps this, and is answered as the fallback store would,
except that

- a cache of length zero has nothing to evict, and panics;
- a testcase fetched with `ENABLED` unset goes to the disabled map of the
  cache store, where the lookup that follows does not find it;
- a hash map that was emptied panics on the next add, and a cache of length
  one empties its map at each eviction.
-/

namespace Libaflmm

namespace FifoCache

variable {I Env SC : Type} [Input I] {M : Type → Type} [InMemoryCorpusMap M] [FifoCorpusMap M]
  {FS : Type} [CoherentStore FS I Env]

open CoherentStore FifoCorpusMap

/-! ## Transparency -/

/-- The operation does not panic, and a lookup answers exactly as the
fallback store does. -/
def Transparent [Scheduler SC] (x : CombinedCorpus FifoCache (InMemoryStore I M) FS SC) :
    CorpusOp I Env → Prop
  | .add enabled testcase env => ∃ x', (CorpusOp.add enabled testcase env).exec x = some x'
  | .getFrom enabled id =>
      ∃ x', Corpus.getFrom enabled id x = some (Store.getFrom enabled id x.fallbackStore, x')

/-- The lookup hits; or the cache has room for an entry and, should the
fallback store find the testcase, it is looked up as enabled and the cache
map can take it: it can be filled again once emptied, or never gets empty,
or was never filled. -/
def Served (x : CombinedCorpus FifoCache (InMemoryStore I M) FS SC) : CorpusOp I Env → Prop
  | .add _ _ _ => True
  | .getFrom enabled id =>
      id ∈ x.cache.cachedIds ∨
        (0 < x.cache.cacheMaxLen ∧
          ((Store.getFrom enabled id x.fallbackStore).isOk →
            enabled = true ∧ (reusable (M := M) = true ∨ 2 ≤ x.cache.cacheMaxLen ∨
              InMemoryCorpusMap.last x.cacheStore.maps.enabledMap = none)))

instance (x : CombinedCorpus FifoCache (InMemoryStore I M) FS SC) :
    ∀ op : CorpusOp I Env, Decidable (Served x op)
  | .add _ _ _ => inferInstanceAs (Decidable True)
  | .getFrom enabled id => inferInstanceAs (Decidable
      (id ∈ x.cache.cachedIds ∨
        (0 < x.cache.cacheMaxLen ∧
          ((Store.getFrom enabled id x.fallbackStore).isOk →
            enabled = true ∧ (reusable (M := M) = true ∨ 2 ≤ x.cache.cacheMaxLen ∨
              InMemoryCorpusMap.last x.cacheStore.maps.enabledMap = none)))))

/-- The three structures in step, over testcases of `U`. -/
structure Cached (U : Testcase I → Prop)
    (x : CombinedCorpus FifoCache (InMemoryStore I M) FS SC) : Prop where
  within : Within U x.fallbackStore
  fifo : Fifo x.cacheStore.maps.enabledMap x.cache.cachedIds.reverse
  length_le : x.cache.cachedIds.length ≤ x.cache.cacheMaxLen
  answers : ∀ id ∈ x.cache.cachedIds, ∃ t, x.cacheStore.maps.find true id = some t ∧
    Store.getFrom true id x.fallbackStore = .ok t
  unused : 2 ≤ x.cache.cacheMaxLen → x.cache.cachedIds = [] →
    InMemoryCorpusMap.last x.cacheStore.maps.enabledMap = none

/-! ## Eviction -/

section

variable {c : FifoCache} {cs : InMemoryStore I M}

/-- The oldest id of the list is the oldest key of the map. -/
theorem remove_oldest {id : TestcaseId} {l : List TestcaseId}
    (h : Fifo cs.maps.enabledMap (id :: l)) :
    ∃ t m', RemovableStore.remove id cs =
        some (.ok t, (⟨{ cs.maps with enabledMap := m' }⟩ : InMemoryStore I M)) ∧
      Fifo m' l ∧
      (∀ k ∈ l, InMemoryCorpusMap.get m' k = InMemoryCorpusMap.get cs.maps.enabledMap k) ∧
      (reusable (M := M) = false →
        InMemoryCorpusMap.last m' = InMemoryCorpusMap.last cs.maps.enabledMap) := by
  obtain ⟨m', hrem, hfifo, hlast⟩ := fifo_remove h
  obtain ⟨t, ht⟩ := Option.isSome_iff_exists.mp ((mem_iff h id).mp List.mem_cons_self)
  obtain ⟨-, hget⟩ := LawfulCorpusMap.remove_returns hrem
  refine ⟨t, m', ?_, hfifo, fun k hk => ?_, hlast⟩
  · show cs.remove id = _
    simp only [InMemoryStore.remove, Partitions.remove, hrem, ht, Option.bind_some,
      Option.map_some]
  · have hsome := (mem_iff hfifo k).mp hk
    rw [hget k] at hsome ⊢
    split at hsome
    · cases hsome
    · next hne => rw [if_neg hne]

/-- A cache with room for an entry has a free place after `evict`, which
drops the oldest entry at most. -/
theorem evict_spec (hfifo : Fifo cs.maps.enabledMap c.cachedIds.reverse)
    (hlen : c.cachedIds.length ≤ c.cacheMaxLen) (hpos : 0 < c.cacheMaxLen) :
    ∃ c' cs', c.evict cs = some (.ok (), c', cs') ∧
      c'.cacheMaxLen = c.cacheMaxLen ∧ c'.cachedIds.length < c.cacheMaxLen ∧
      Fifo cs'.maps.enabledMap c'.cachedIds.reverse ∧
      (∀ id ∈ c'.cachedIds, id ∈ c.cachedIds ∧ cs'.maps.find true id = cs.maps.find true id) ∧
      (2 ≤ c.cacheMaxLen → c'.cachedIds = [] → c.cachedIds = [] ∧ cs' = cs) ∧
      (reusable (M := M) = false → InMemoryCorpusMap.last cs'.maps.enabledMap =
        InMemoryCorpusMap.last cs.maps.enabledMap) := by
  unfold evict
  by_cases hfull : c.cachedIds.length = c.cacheMaxLen
  · rw [if_pos hfull]
    rcases List.eq_nil_or_concat c.cachedIds with hnil | ⟨newer, oldest, hids⟩
    · rw [hnil, List.length_nil] at hfull
      omega
    · rw [List.concat_eq_append] at hids
      have hlength : newer.length + 1 = c.cacheMaxLen := by
        rw [← hfull, hids, List.length_append, List.length_singleton]
      rw [hids, List.reverse_append, List.reverse_singleton, List.singleton_append] at hfifo
      obtain ⟨t, m', hrem, hfifo', hget, hlast⟩ := remove_oldest hfifo
      refine ⟨{ c with cachedIds := newer }, ⟨{ cs.maps with enabledMap := m' }⟩, ?_, rfl,
        by simp only; omega, hfifo', fun id hid => ?_, fun htwo hnil => ?_, hlast⟩
      · rw [hids, List.getLast?_concat, Option.bind_some, hrem, Option.map_some,
          List.dropLast_concat]
        rfl
      · exact ⟨by rw [hids]; exact List.mem_append_left _ hid,
          hget id (List.mem_reverse.mpr hid)⟩
      · simp only at hnil
        rw [hnil, List.length_nil] at hlength
        omega
  · rw [if_neg hfull]
    exact ⟨c, cs, rfl, rfl, by omega, hfifo, fun id hid => ⟨hid, rfl⟩, fun _ hnil => ⟨hnil, rfl⟩,
      fun _ => rfl⟩

end

/-! ## Lookups -/

section

variable [Scheduler SC] {U : Testcase I → Prop}
  {x x' : CombinedCorpus FifoCache (InMemoryStore I M) FS SC} {enabled : Bool} {id : TestcaseId}
  {c : FifoCache} {cs : InMemoryStore I M}

/-- What is cached is what the fallback store answers, with `ENABLED` or not. -/
theorem Cached.getFrom_hit (hU : ∀ t t', U t → U t' → t.id = t'.id → t = t') (h : Cached U x)
    (hid : id ∈ x.cache.cachedIds) :
    Corpus.getFrom enabled id x = some (Store.getFrom enabled id x.fallbackStore, x) := by
  obtain ⟨t, hfind, hget⟩ := h.answers id hid
  have hanswer : Store.getFrom enabled id x.fallbackStore = .ok t := by
    cases enabled with
    | true => exact hget
    | false =>
        obtain ⟨t', hget'⟩ := getFrom_enabled hget
        obtain ⟨hUt, hidt⟩ := getFrom_within h.within hget
        obtain ⟨hUt', hidt'⟩ := getFrom_within h.within hget'
        rw [hget', hU t t' hUt hUt' (hidt.trans hidt'.symm)]
  have hcache : x.cacheStore.getFrom true id = .ok t := InMemoryStore.getFrom_eq_ok.mpr hfind
  show (getFrom enabled id x.cache x.cacheStore x.fallbackStore).map _ = _
  rw [getFrom, if_pos hid, hanswer, ← hcache]
  rfl

omit [FifoCorpusMap M] in
/-- A miss, once there is room: the fallback store is asked, and a testcase
it has goes to the cache store and is looked up there. -/
theorem getFrom_miss (hid : id ∉ x.cache.cachedIds)
    (hevict : x.cache.evict x.cacheStore = some (.ok (), c, cs))
    (hroom : c.cachedIds.length < c.cacheMaxLen) :
    Corpus.getFrom enabled id x =
      match Store.getFrom enabled id x.fallbackStore with
      | .error err => some (.error err, { x with cache := c, cacheStore := cs })
      | .ok t => (cs.addShared enabled t).map fun (_, cs') =>
          (cs'.getFrom true t.id,
            { x with
              cache := { c with cachedIds := t.id :: c.cachedIds }
              cacheStore := cs' }) := by
  show (getFrom enabled id x.cache x.cacheStore x.fallbackStore).map _ = _
  rw [getFrom, if_neg hid, hevict]
  simp only [Option.bind_some, if_pos hroom]
  cases Store.getFrom enabled id x.fallbackStore with
  | error err => rfl
  | ok t =>
      show Option.map _ (Option.map _ (cs.addShared enabled t)) = (cs.addShared enabled t).map _
      rw [Option.map_map]
      cases hadd : cs.addShared enabled t with
      | none => rfl
      | some rs =>
          obtain ⟨r, cs'⟩ := rs
          obtain ⟨present, -, rfl⟩ := InMemoryStore.addShared_maps hadd
          rfl

/-- With `ENABLED` unset the testcase lands in the disabled map. -/
theorem getFrom_disabled_miss (h : Cached U x) (hid : id ∉ x.cache.cachedIds)
    (hpos : 0 < x.cache.cacheMaxLen) {t : Testcase I}
    (hget : Store.getFrom false id x.fallbackStore = .ok t) :
    ¬ Transparent x (.getFrom false id : CorpusOp I Env) := by
  rintro ⟨x', htrans⟩
  obtain ⟨c, cs, hevict, hmax, hlen, hfifo, hkept, -⟩ := evict_spec h.fifo h.length_le hpos
  rw [getFrom_miss hid hevict (hmax ▸ hlen), hget] at htrans
  obtain ⟨⟨r, cs'⟩, hadd, heq⟩ := Option.map_eq_some_iff.mp htrans
  obtain ⟨present, hmaps, -⟩ := InMemoryStore.addShared_maps hadd
  have hres : cs'.getFrom true t.id = .ok t := (Prod.mk.inj heq).1
  have hfind : cs'.maps.find true t.id = some t := InMemoryStore.getFrom_eq_ok.mp hres
  rw [(Partitions.add_returns hmaps).2 true t.id, if_neg (by simp)] at hfind
  have hmem : t.id ∈ c.cachedIds.reverse :=
    (mem_iff hfifo t.id).mpr (show (cs.maps.find true t.id).isSome by rw [hfind]; rfl)
  have htid : t.id = id := (getFrom_within h.within hget).2
  exact hid (htid ▸ (hkept t.id (List.mem_reverse.mp hmem)).1)

/-- With `ENABLED` set, the testcase becomes the newest entry. -/
theorem Cached.getFrom_enabled_miss (h : Cached U x) (hid : id ∉ x.cache.cachedIds)
    (hpos : 0 < x.cache.cacheMaxLen) {t : Testcase I}
    (hget : Store.getFrom true id x.fallbackStore = .ok t)
    (hmap : reusable (M := M) = true ∨ 2 ≤ x.cache.cacheMaxLen ∨
      InMemoryCorpusMap.last x.cacheStore.maps.enabledMap = none) :
    ∃ x', Corpus.getFrom true id x = some (.ok t, x') ∧ Cached U x' := by
  obtain ⟨c, cs, hevict, hmax, hlen, hfifo, hkept, hunused, hlast⟩ :=
    evict_spec h.fifo h.length_le hpos
  have htid : t.id = id := (getFrom_within h.within hget).2
  have hfresh : t.id ∉ c.cachedIds.reverse := fun hmem =>
    hid (htid ▸ (hkept t.id (List.mem_reverse.mp hmem)).1)
  have hcan : reusable (M := M) = true ∨ c.cachedIds.reverse ≠ [] ∨
      InMemoryCorpusMap.last cs.maps.enabledMap = none := by
    by_cases hnil : c.cachedIds = []
    · rcases hmap with hr | htwo | hnone
      · exact Or.inl hr
      · obtain ⟨hnil', rfl⟩ := hunused htwo hnil
        exact Or.inr (Or.inr (h.unused htwo hnil'))
      · cases hr : reusable (M := M) with
        | true => exact Or.inl rfl
        | false => exact Or.inr (Or.inr ((hlast hr).trans hnone))
    · exact Or.inr (Or.inl (by simpa using hnil))
  obtain ⟨m', hadd, hfifo'⟩ := fifo_add t hfifo hfresh hcan
  obtain ⟨-, hfind⟩ := LawfulCorpusMap.add_returns hadd
  obtain ⟨cs', hcs, hmaps⟩ : ∃ cs', cs.addShared true t = some (.ok (.stored t.id), cs') ∧
      cs'.maps.enabledMap = m' := by
    refine ⟨⟨{ cs.maps with enabledMap := m' }⟩, ?_, rfl⟩
    simp only [InMemoryStore.addShared, Partitions.add, hadd, if_true, Option.map_some]
    rfl
  have hnew : ∀ k, cs'.maps.find true k = if k = t.id then some t else cs.maps.find true k := by
    intro k
    rw [Partitions.find_true, hmaps, hfind k, Partitions.find_true]
  have hres : cs'.getFrom true t.id = .ok t :=
    InMemoryStore.getFrom_eq_ok.mpr ((hnew t.id).trans (if_pos rfl))
  refine ⟨{ x with cache := { c with cachedIds := t.id :: c.cachedIds }, cacheStore := cs' },
    ?_, ⟨h.within, ?_, ?_, fun k hk => ?_, fun _ hnil => nomatch hnil⟩⟩
  · rw [getFrom_miss hid hevict (hmax ▸ hlen), hget]
    show Option.map _ (cs.addShared true t) = _
    rw [hcs, ← hres]
    rfl
  · rw [hmaps, List.reverse_cons]
    exact hfifo'
  · show (t.id :: c.cachedIds).length ≤ c.cacheMaxLen
    rw [List.length_cons, hmax]
    omega
  · rw [hnew k]
    split
    · next heq => exact ⟨t, rfl, by rw [heq, htid]; exact hget⟩
    · next hne =>
        have hold := hkept k ((List.mem_cons.mp hk).resolve_left hne)
        obtain ⟨t', hfind', hget'⟩ := h.answers k hold.1
        exact ⟨t', hold.2.trans hfind', hget'⟩

/-- A hash map emptied by the eviction panics when the testcase is added. -/
theorem Cached.getFrom_stuck_miss (h : Cached U x) (hid : id ∉ x.cache.cachedIds)
    (hpos : 0 < x.cache.cacheMaxLen) {t : Testcase I}
    (hget : Store.getFrom true id x.fallbackStore = .ok t)
    (hmap : ¬ (reusable (M := M) = true ∨ 2 ≤ x.cache.cacheMaxLen ∨
      InMemoryCorpusMap.last x.cacheStore.maps.enabledMap = none)) :
    Corpus.getFrom true id x = none := by
  obtain ⟨c, cs, hevict, hmax, hlen, hfifo, -, -, hlast⟩ := evict_spec h.fifo h.length_le hpos
  obtain ⟨hr, htwo, hused⟩ : reusable (M := M) = false ∧ ¬ 2 ≤ x.cache.cacheMaxLen ∧
      InMemoryCorpusMap.last x.cacheStore.maps.enabledMap ≠ none := by
    simpa [not_or] using hmap
  have hnil : c.cachedIds = [] := List.length_eq_zero_iff.mp (by omega)
  rw [hnil, List.reverse_nil] at hfifo
  have hadd : InMemoryCorpusMap.add t.id t cs.maps.enabledMap = none :=
    LawfulCorpusMap.add_eq_none_iff.mpr (stuck_of_emptied hfifo (by rw [hlast hr]; exact hused))
  rw [getFrom_miss hid hevict (hmax ▸ hlen), hget]
  show Option.map _ (cs.addShared true t) = none
  simp only [InMemoryStore.addShared, Partitions.add, hadd, if_true, Option.map_none]

theorem Cached.getFrom_failed_miss (h : Cached U x) (hid : id ∉ x.cache.cachedIds)
    (hpos : 0 < x.cache.cacheMaxLen) {err : Error}
    (hget : Store.getFrom enabled id x.fallbackStore = .error err) :
    ∃ x', Corpus.getFrom enabled id x = some (.error err, x') ∧ Cached U x' := by
  obtain ⟨c, cs, hevict, hmax, hlen, hfifo, hkept, hunused, -⟩ :=
    evict_spec h.fifo h.length_le hpos
  refine ⟨{ x with cache := c, cacheStore := cs }, ?_, ⟨h.within, hfifo, ?_, fun k hk => ?_,
    fun htwo hnil => ?_⟩⟩
  · rw [getFrom_miss hid hevict (hmax ▸ hlen), hget]
  · show c.cachedIds.length ≤ c.cacheMaxLen
    omega
  · obtain ⟨hmem, hfind⟩ := hkept k hk
    obtain ⟨t, hold, hanswer⟩ := h.answers k hmem
    exact ⟨t, hfind.trans hold, hanswer⟩
  · obtain ⟨hnil', rfl⟩ := hunused (hmax ▸ htwo) hnil
    exact h.unused (hmax ▸ htwo) hnil'

/-- A cache of length zero has nothing to evict. -/
theorem Cached.getFrom_zero_miss (h : Cached U x) (hid : id ∉ x.cache.cachedIds)
    (hzero : x.cache.cacheMaxLen = 0) : Corpus.getFrom enabled id x = none := by
  have hnil : x.cache.cachedIds = [] :=
    List.length_eq_zero_iff.mp (Nat.le_zero.mp (hzero ▸ h.length_le))
  show (getFrom enabled id x.cache x.cacheStore x.fallbackStore).map _ = none
  rw [getFrom, if_neg hid, evict, if_pos (by rw [hnil, hzero]; rfl), hnil]
  rfl

/-! ## Adds -/

theorem Cached.add (hU : ∀ t t', U t → U t' → t.id = t'.id → t = t') (h : Cached U x)
    {testcase : Testcase I} (enabled : Bool) (env : Env) (htc : U testcase) :
    ∃ x', (CorpusOp.add enabled testcase env).exec x = some x' ∧ Cached U x' := by
  obtain ⟨r, fs, hadd, hwithin, hstill⟩ := add_within enabled env h.within htc
  refine ⟨{ x with fallbackStore := fs, scheduler := (notifyStored r x.scheduler).2 }, ?_,
    ⟨hwithin, h.fifo, h.length_le, fun k hk => ?_, h.unused⟩⟩
  · show Option.map _ (Option.map _ (Option.map _ (Store.addShared enabled testcase env
      x.fallbackStore))) = _
    rw [hadd]
    rfl
  · obtain ⟨t, hfind, hget⟩ := h.answers k hk
    obtain ⟨t', hget'⟩ := hstill k ⟨t, hget⟩
    obtain ⟨hUt, hidt⟩ := getFrom_within h.within hget
    obtain ⟨hUt', hidt'⟩ := getFrom_within hwithin hget'
    exact ⟨t, hfind, by rw [hU t t' hUt hUt' (hidt.trans hidt'.symm)]; exact hget'⟩

/-! ## Whole runs -/

/-- The operation adds testcases of `U` only. -/
def AddsFrom (U : Testcase I → Prop) : CorpusOp I Env → Prop
  | .add _ testcase _ => U testcase
  | .getFrom _ _ => True

/-- **The step lemma.** With the structures in step, an operation is
transparent exactly when it is served. -/
theorem Cached.transparent_iff (hU : ∀ t t', U t → U t' → t.id = t'.id → t = t')
    (h : Cached U x) {op : CorpusOp I Env} (hop : AddsFrom U op) :
    Transparent x op ↔ Served x op := by
  cases op with
  | add enabled testcase env =>
      obtain ⟨x', hexec, -⟩ := h.add hU enabled env hop
      exact iff_of_true ⟨x', hexec⟩ trivial
  | getFrom enabled id =>
      by_cases hid : id ∈ x.cache.cachedIds
      · exact iff_of_true ⟨x, h.getFrom_hit hU hid⟩ (Or.inl hid)
      · rw [Served, or_iff_right hid]
        rcases Nat.eq_zero_or_pos x.cache.cacheMaxLen with hzero | hpos
        · refine iff_of_false ?_ fun hserved => absurd hserved.1 (by omega)
          rintro ⟨x', htrans⟩
          cases (h.getFrom_zero_miss hid hzero).symm.trans htrans
        · cases hget : Store.getFrom enabled id x.fallbackStore with
          | error err =>
              obtain ⟨x', hfailed, -⟩ := h.getFrom_failed_miss hid hpos hget
              exact iff_of_true ⟨x', by rw [hget]; exact hfailed⟩ ⟨hpos, nofun⟩
          | ok t =>
              cases enabled with
              | false =>
                  refine iff_of_false (getFrom_disabled_miss h hid hpos hget) ?_
                  exact fun hserved => nomatch (hserved.2 rfl).1
              | true =>
                  by_cases hmap : reusable (M := M) = true ∨ 2 ≤ x.cache.cacheMaxLen ∨
                      InMemoryCorpusMap.last x.cacheStore.maps.enabledMap = none
                  · obtain ⟨x', hres, -⟩ := h.getFrom_enabled_miss hid hpos hget hmap
                    exact iff_of_true ⟨x', by rw [hget]; exact hres⟩
                      ⟨hpos, fun _ => ⟨rfl, hmap⟩⟩
                  · refine iff_of_false ?_ fun hserved => hmap (hserved.2 rfl).2
                    rintro ⟨x', htrans⟩
                    cases (h.getFrom_stuck_miss hid hpos hget hmap).symm.trans htrans

theorem Cached.exec (hU : ∀ t t', U t → U t' → t.id = t'.id → t = t')
    (h : Cached U x) {op : CorpusOp I Env} (hop : AddsFrom U op) (hserved : Served x op)
    (hexec : op.exec x = some x') : Cached U x' := by
  cases op with
  | add enabled testcase env =>
      obtain ⟨y, hexec', hy⟩ := h.add hU enabled env hop
      obtain rfl := Option.some.inj (hexec'.symm.trans hexec)
      exact hy
  | getFrom enabled id =>
      obtain ⟨⟨r, y⟩, hget, rfl⟩ := Option.map_eq_some_iff.mp hexec
      by_cases hid : id ∈ x.cache.cachedIds
      · obtain ⟨-, rfl⟩ := Prod.mk.inj (Option.some.inj ((h.getFrom_hit hU hid).symm.trans hget))
        exact h
      · obtain ⟨hpos, hmiss⟩ := hserved.resolve_left hid
        cases hfs : Store.getFrom enabled id x.fallbackStore with
        | error err =>
            obtain ⟨y', hfailed, hy'⟩ := h.getFrom_failed_miss hid hpos hfs
            obtain ⟨-, rfl⟩ := Prod.mk.inj (Option.some.inj (hfailed.symm.trans hget))
            exact hy'
        | ok t =>
            obtain ⟨rfl, hmap⟩ := hmiss (by rw [hfs]; rfl)
            obtain ⟨y', hres, hy'⟩ := h.getFrom_enabled_miss hid hpos hfs hmap
            obtain ⟨-, rfl⟩ := Prod.mk.inj (Option.some.inj (hres.symm.trans hget))
            exact hy'

/-- **The FIFO cache is transparent exactly as long as its misses are
served.** Over testcases that their ids identify, from an empty cache of any
length in front of a fallback store: along a run of adds and lookups every
operation is transparent if and only if every operation is served. -/
theorem transparent_iff_served (U : Testcase I → Prop)
    (hU : ∀ t t', U t → U t' → t.id = t'.id → t = t') (cacheMaxLen : Nat) (fallbackStore : FS)
    (hfs : Within U fallbackStore) (scheduler : SC) (ops : List (CorpusOp I Env))
    (hops : ∀ op ∈ ops, AddsFrom U op) :
    StepsMeet CorpusOp.exec
        (⟨.new, fallbackStore, .new cacheMaxLen, scheduler⟩ :
          CombinedCorpus FifoCache (InMemoryStore I M) FS SC) ops Transparent ↔
      StepsMeet CorpusOp.exec
        (⟨.new, fallbackStore, .new cacheMaxLen, scheduler⟩ :
          CombinedCorpus FifoCache (InMemoryStore I M) FS SC) ops Served := by
  refine stepsMeet_congr (Cached U) ⟨hfs, fifo_empty, Nat.zero_le _, nofun, fun _ _ => last_empty⟩
    (fun x op hmem h => h.transparent_iff hU (hops op hmem))
    fun x op x' hmem h hserved => h.exec hU (hops op hmem) hserved

end

theorem transparent_evicting :
    StepsMeet CorpusOp.exec
      (⟨.new, .new .id fun _ => none, .new 2, .new⟩ :
        CombinedCorpus FifoCache (InMemoryStore ValueInput HashCorpusMap)
          (OnDiskStore ValueInput HashCorpusMap) QueueScheduler)
      [.add true (.new ⟨1⟩) .completes, .add true (.new ⟨2⟩) .completes,
        .add true (.new ⟨3⟩) .completes, .getFrom true ⟨1⟩, .getFrom true ⟨2⟩,
        .getFrom true ⟨3⟩, .getFrom false ⟨2⟩, .getFrom true ⟨1⟩] Transparent :=
  (transparent_iff_served (fun _ : Testcase ValueInput => True)
    (fun _ _ _ _ => Testcase.ext_id) 2
    (.new .id fun _ => none : OnDiskStore ValueInput HashCorpusMap)
    (OnDiskStore.Within.mk .empty .empty fun _ _ ht => nomatch ht) QueueScheduler.new _
    (by simp [AddsFrom])).mpr (by decide)

/-- A disabled testcase is not found where the cache has just put it. -/
theorem disabled_lookup_fails :
    ¬ ∀ (cacheMaxLen : Nat) (ops : List (CorpusOp ValueInput Unit)), StepsMeet CorpusOp.exec
      (⟨.new, .new, .new cacheMaxLen, .new⟩ :
        CombinedCorpus FifoCache (InMemoryStore ValueInput HashCorpusMap)
          (InMemoryStore ValueInput HashCorpusMap) QueueScheduler) ops Transparent := by
  intro h
  obtain ⟨x, hrun, hfails, hfound⟩ : ∃ x, run CorpusOp.exec
      (⟨.new, .new, .new 2, .new⟩ :
        CombinedCorpus FifoCache (InMemoryStore ValueInput HashCorpusMap)
          (InMemoryStore ValueInput HashCorpusMap) QueueScheduler)
      [.add false (.new ⟨1⟩) ()] = some x ∧
      (Corpus.getFrom false ⟨1⟩ x).map (·.1.isOk) = some false ∧
      (Store.getFrom false ⟨1⟩ x.fallbackStore).isOk = true := ⟨_, rfl, by decide, by decide⟩
  obtain ⟨x', htrans⟩ := h 2 [.add false (.new ⟨1⟩) (), .getFrom false ⟨1⟩]
    [.add false (.new ⟨1⟩) ()] _ (List.prefix_refl _) x hrun
  rw [htrans, Option.map_some, hfound] at hfails
  cases hfails

end FifoCache

end Libaflmm
