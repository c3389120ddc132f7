import Libaflmm.HashTables
import Libaflmm.RangeMaps

/-!
# The modules of a process

Without a map of its own, `DrCovModule` takes the modules from the mappings of
the process, at the first execution. The mappings of a file are widened to one
range for its path, the ranges are put into a range map in the order of a hash
table, and what is left of them is cut at multiples of 4 GiB and numbered.

A range that is put in later overwrites what is mapped in the gaps of its file,
and the ids are of 16 bits.
-/

namespace Libaflmm

namespace DrCovModules

/-- A mapping of the process, which is not empty. -/
structure MapInfo where
  start : Nat
  stop : Nat
  path : Option Text
  start_lt : start < stop
  stop_lt : stop < 2 ^ 64

structure AddrRange where
  start : Nat
  stop : Nat
deriving DecidableEq

namespace MapInfo

/-- The path that is not empty. -/
def filePath (m : MapInfo) : Option Text := m.path.filter fun path => !path.isEmpty

def Has (m : MapInfo) (addr : Nat) : Prop := m.start ≤ addr ∧ addr < m.stop

end MapInfo

abbrev PathMap := HashMap Text (AddrRange × UInt16)

/-! ## The first execution -/

section

variable (debug : Bool)

/-- `i += 1` -/
def nextId (i : UInt16) : Option UInt16 := if debug ∧ i = 0xffff then none else some (i + 1)

/-- One turn of the loop over the mappings. -/
def widen (s : PathMap × UInt16) (m : MapInfo) : Option (PathMap × UInt16) :=
  match m.filePath with
  | none => some s
  | some path =>
    match s.1.lookup path with
    | some (range, id) =>
      some (s.1.replace path (⟨min range.start m.start, max range.stop m.stop⟩, id), s.2)
    | none => do
      let i ← nextId debug s.2
      return (AList.insert path (⟨m.start, m.stop⟩, s.2) s.1, i)

def modulePathMap (mappings : List MapInfo) : Option PathMap :=
  (mappings.foldlM (widen debug) (∅, 0)).map Prod.fst

variable {M : Type} [OverwritingRangeMap M]

/-- The table of the paths is iterated in the order `order`. -/
def moduleRangeMap (paths : PathMap) (order : List Text) : Option M :=
  order.foldlM (fun modules path =>
    match paths.lookup path with
    | some (range, id) => RangeMap.insert modules ⟨range.start, range.stop, id, path⟩
    | none => some modules) RangeMap.new

/-- A part of a range is inserted under the next id. -/
def insertPart (path : Text) (start stop : Nat) (s : UInt16 × M) : Option (UInt16 × M) := do
  let split ← RangeMap.insert s.2 ⟨start, stop, s.1, path⟩
  let i ← nextId debug s.1
  return (i, split)

/-- The end of the first part of a range that is too long: the mask clears the
low 32 bits. -/
def rangeEndShort (start : Nat) : Nat := (start + 0xffffffff + 1) / 2 ^ 32 * 2 ^ 32

theorem lt_rangeEndShort (start : Nat) : start < rangeEndShort start := by
  unfold rangeEndShort
  omega

/-- The loop over a range. It is not empty, so that nothing overflows. -/
def splitRange (path : Text) (stop start : Nat) (s : UInt16 × M) : Option (UInt16 × M) :=
  if stop - start - 1 > 0xffffffff then
    (insertPart debug path start (rangeEndShort start) s).bind
      (splitRange path stop (rangeEndShort start))
  else insertPart debug path start stop s
termination_by stop - start
decreasing_by
  have := lt_rangeEndShort start
  omega

def splitModules (modules : M) : Option M :=
  ((RangeMap.iter modules).foldlM (fun s r => splitRange debug r.path r.stop r.start s)
    (0, (RangeMap.new : M))).map Prod.snd

/-- `RangeMap::from_iter` -/
def fromIter (ranges : List ModuleRange) : Option M := ranges.foldlM RangeMap.insert RangeMap.new

/-- The module mapping after `first_exec`, if there was none. -/
def firstExec (mappings : List MapInfo) (order : List Text) : Option M := do
  let paths ← modulePathMap debug mappings
  let modules : M ← moduleRangeMap paths order
  let split ← splitModules debug modules
  fromIter (RangeMap.iter split)

end

/-! ## Numbering -/

/-- With overflow checks, no id is counted beyond the last one. -/
theorem nextId_cases {debug : Bool} {n : Nat} (h : debug = true → n < 2 ^ 16) :
    (debug = true ∧ 2 ^ 16 ≤ n + 1 ∧ nextId debug (.ofNat n) = none) ∨
      (debug = true → n + 1 < 2 ^ 16) ∧ nextId debug (.ofNat n) = some (.ofNat (n + 1)) := by
  rcases Decidable.em (debug ∧ UInt16.ofNat n = 0xffff) with hlast | hmore
  · have hval : n % 2 ^ 16 = 65535 :=
      UInt16.toNat_ofNat'.symm.trans (congrArg UInt16.toNat hlast.2)
    exact .inl ⟨hlast.1, by omega, if_pos hlast⟩
  · refine .inr ⟨fun hdebug => ?_, ?_⟩
    · have hne : n ≠ 65535 := by
        rintro rfl
        exact hmore ⟨hdebug, rfl⟩
      have := h hdebug
      omega
    · rw [nextId, if_neg hmore, UInt16.ofNat_add]
      rfl

/-! ## The parts of a range -/

/-- The parts a range is inserted in. -/
def cuts (stop start : Nat) : List AddrRange :=
  if stop - start - 1 > 0xffffffff then
    ⟨start, rangeEndShort start⟩ :: cuts stop (rangeEndShort start)
  else [⟨start, stop⟩]
termination_by stop - start
decreasing_by
  have := lt_rangeEndShort start
  omega

theorem splitRange_eq_foldlM {M : Type} [OverwritingRangeMap M] (debug : Bool) (path : Text)
    (stop start : Nat) (s : UInt16 × M) : splitRange debug path stop start s =
      (cuts stop start).foldlM (fun s c => insertPart debug path c.start c.stop s) s := by
  fun_induction splitRange debug path stop start s with
  | case1 start s h ih =>
      rw [cuts, if_pos h, List.foldlM_cons]
      exact congrArg _ (funext ih)
  | case2 start s h =>
      rw [cuts, if_neg h, List.foldlM_cons]
      exact (bind_pure _).symm

theorem rangeEndShort_le (start : Nat) : rangeEndShort start ≤ start + 2 ^ 32 := by
  unfold rangeEndShort
  omega

theorem mem_cuts {start stop : Nat} (h : start < stop) : ∀ c ∈ cuts stop start,
    start ≤ c.start ∧ c.start < c.stop ∧ c.stop ≤ stop ∧ c.stop - c.start ≤ 2 ^ 32 := by
  fun_induction cuts stop start with
  | case1 start hlong ih =>
      have hlt := lt_rangeEndShort start
      have hle := rangeEndShort_le start
      refine List.forall_mem_cons.mpr ⟨⟨le_rfl, hlt, by dsimp only; omega, by dsimp only; omega⟩,
        fun c hc => ?_⟩
      have := ih (by omega) c hc
      omega
  | case2 start hshort =>
      exact List.forall_mem_singleton.mpr ⟨le_rfl, h, le_rfl, by dsimp only; omega⟩

theorem cuts_sorted {start stop : Nat} (h : start < stop) :
    (cuts stop start).Pairwise fun c c' => c.stop ≤ c'.start := by
  fun_induction cuts stop start with
  | case1 start hlong ih =>
      have hle := rangeEndShort_le start
      exact List.pairwise_cons.mpr ⟨fun c hc => (mem_cuts (by omega) c hc).1, ih (by omega)⟩
  | case2 start hshort => exact List.pairwise_singleton _ _

/-- The parts cover the range. -/
theorem exists_mem_cuts {start stop addr : Nat} (hle : start ≤ addr) (hlt : addr < stop) :
    ∃ c ∈ cuts stop start, c.start ≤ addr ∧ addr < c.stop := by
  fun_induction cuts stop start with
  | case1 start hlong ih =>
      by_cases hfirst : addr < rangeEndShort start
      · exact ⟨_, List.mem_cons_self, hle, hfirst⟩
      · obtain ⟨c, hc, hin⟩ := ih (Nat.le_of_not_lt hfirst)
        exact ⟨c, List.mem_cons_of_mem _ hc, hin⟩
  | case2 start hshort => exact ⟨_, List.mem_singleton_self _, hle, hlt⟩

/-- A part begins where the range does, or at a multiple of 4 GiB in a range
that is longer. -/
theorem exists_mem_cuts_start_iff {start stop addr : Nat} (h : start < stop) :
    (∃ c ∈ cuts stop start, c.start = addr) ↔ start ≤ addr ∧ addr < stop ∧
      (addr = start ∨ 2 ^ 32 ∣ addr ∧ 2 ^ 32 < stop - start) := by
  fun_induction cuts stop start with
  | case1 start hlong ih =>
      have hlt := lt_rangeEndShort start
      have hle := rangeEndShort_le start
      rw [List.exists_mem_cons_iff, ih (by omega)]
      dsimp only
      unfold rangeEndShort at *
      omega
  | case2 start hshort =>
      simp only [List.mem_singleton, exists_eq_left]
      omega

/-! ## The parts of all ranges, and their numbers -/

open Ranges

variable {rs ps : List ModuleRange} {addr : Nat} {path : Text}

def parts (rs : List ModuleRange) : List ModuleRange :=
  rs.flatMap fun r => (cuts r.stop r.start).map fun c => { r with start := c.start, stop := c.stop }

def numbered (ps : List ModuleRange) : List ModuleRange :=
  ps.mapIdx fun k r => { r with id := .ofNat k }

theorem mem_parts {r : ModuleRange} (h : Ordered rs) (hr : r ∈ parts rs) :
    r.start < r.stop ∧ r.stop - r.start ≤ 2 ^ 32 ∧
      ∃ r' ∈ rs, r'.start ≤ r.start ∧ r.stop ≤ r'.stop ∧ r.path = r'.path := by
  obtain ⟨r', hr', hpart⟩ := List.mem_flatMap.mp hr
  obtain ⟨c, hc, rfl⟩ := List.mem_map.mp hpart
  obtain ⟨hstart, hlt, hstop, hshort⟩ := mem_cuts (h.bounds r' hr').1 c hc
  exact ⟨hlt, hshort, r', hr', hstart, hstop, rfl⟩

theorem ordered_parts (h : Ordered rs) : Ordered (parts rs) where
  bounds r hr := by
    obtain ⟨hlt, -, r', hr', -, hstop, -⟩ := mem_parts h hr
    exact ⟨hlt, hstop.trans_lt (h.bounds r' hr').2⟩
  sorted := by
    refine List.pairwise_flatMap.mpr ⟨fun r hr => ?_, h.sorted.imp_of_mem fun hr hr' hle => ?_⟩
    · exact List.pairwise_map.mpr (cuts_sorted (h.bounds r hr).1)
    · intro x hx y hy
      obtain ⟨c, hc, rfl⟩ := List.mem_map.mp hx
      obtain ⟨c', hc', rfl⟩ := List.mem_map.mp hy
      have := mem_cuts (h.bounds _ hr).1 c hc
      have := mem_cuts (h.bounds _ hr').1 c' hc'
      dsimp only
      omega

theorem exists_mem_parts_iff (h : Ordered rs) :
    (∃ r ∈ parts rs, r.contains addr ∧ r.path = path) ↔
      ∃ r ∈ rs, r.contains addr ∧ r.path = path := by
  constructor
  · rintro ⟨r, hr, hc, rfl⟩
    obtain ⟨-, -, r', hr', hstart, hstop, hpath⟩ := mem_parts h hr
    rw [ModuleRange.contains_iff] at hc
    exact ⟨r', hr', ModuleRange.contains_iff.mpr (by omega), hpath.symm⟩
  · rintro ⟨r, hr, hc, rfl⟩
    rw [ModuleRange.contains_iff] at hc
    obtain ⟨c, hcut, hin⟩ := exists_mem_cuts hc.1 hc.2
    exact ⟨_, List.mem_flatMap.mpr ⟨r, hr, List.mem_map.mpr ⟨c, hcut, rfl⟩⟩,
      ModuleRange.contains_iff.mpr hin, rfl⟩

/-- What does not depend on the ids is not changed by numbering. -/
theorem exists_mem_numbered_iff {P : ModuleRange → Prop}
    (hP : ∀ (r : ModuleRange) (id : UInt16), P { r with id } ↔ P r) :
    (∃ r ∈ numbered ps, P r) ↔ ∃ r ∈ ps, P r := by
  constructor
  · rintro ⟨r, hr, h⟩
    obtain ⟨k, hk, rfl⟩ := List.mem_mapIdx.mp hr
    exact ⟨ps[k], List.getElem_mem hk, (hP _ _).mp h⟩
  · rintro ⟨r, hr, h⟩
    obtain ⟨k, hk, rfl⟩ := List.mem_iff_getElem.mp hr
    exact ⟨_, List.mem_mapIdx.mpr ⟨k, hk, rfl⟩, (hP _ _).mpr h⟩

theorem ordered_numbered (h : Ordered ps) : Ordered (numbered ps) where
  bounds r hr := by
    obtain ⟨k, hk, rfl⟩ := List.mem_mapIdx.mp hr
    have hbounds := h.bounds ps[k] (List.getElem_mem hk)
    exact hbounds
  sorted := by
    refine List.pairwise_iff_getElem.mpr fun i j hi hj hij => ?_
    rw [numbered, List.length_mapIdx] at hi hj
    simpa [numbered] using List.pairwise_iff_getElem.mp h.sorted i j hi hj hij

theorem ofNat_succ_ne (k : Nat) : UInt16.ofNat (k + 1) ≠ UInt16.ofNat k := by
  intro heq
  have hval := congrArg UInt16.toNat heq
  rw [UInt16.toNat_ofNat', UInt16.toNat_ofNat'] at hval
  omega

/-- Ranges that touch are next to each other, and get different ids. -/
theorem coalesced_numbered (h : Ordered ps) : Coalesced (numbered ps) := by
  refine List.pairwise_iff_getElem.mpr fun i j hi hj hij htouch hvalue => ?_
  rw [numbered, List.length_mapIdx] at hi hj
  have hsorted := List.pairwise_iff_getElem.mp h.sorted
  have hnext : j = i + 1 := by
    by_contra hne
    have hi' : i + 1 < ps.length := by omega
    have := hsorted i (i + 1) hi hi' (by omega)
    have := hsorted (i + 1) j hi' hj (by omega)
    have := (h.bounds _ (List.getElem_mem hi')).1
    simp only [numbered, List.getElem_mapIdx] at htouch
    omega
  subst hnext
  simp only [numbered, List.getElem_mapIdx] at hvalue
  exact ofNat_succ_ne i hvalue.1.symm

theorem nodup_ids_numbered_iff :
    ((numbered ps).map ModuleRange.id).Nodup ↔ ps.length ≤ 2 ^ 16 := by
  have hids : (numbered ps).map ModuleRange.id = (List.range ps.length).map UInt16.ofNat :=
    List.ext_getElem (by simp [numbered]) fun i hi hi' => by simp [numbered]
  rw [hids, List.Nodup, List.pairwise_map, List.pairwise_iff_getElem]
  simp only [List.length_range, List.getElem_range]
  constructor
  · intro h
    by_contra hlong
    refine h 0 (2 ^ 16) (by omega) (by omega) (by omega) ?_
    rfl
  · intro h i j hi hj hij heq
    have hval := congrArg UInt16.toNat heq
    rw [UInt16.toNat_ofNat', UInt16.toNat_ofNat'] at hval
    omega

/-! ## The loops -/

variable {M : Type} [OverwritingRangeMap M]

/-- Ranges in order are inserted one behind the other. -/
theorem iter_insert_concat {m : M} {r : ModuleRange} (hm : RangeMap.iter m = rs)
    (h : Ordered (rs ++ [r])) (hc : Coalesced (rs ++ [r])) :
    ∃ m', RangeMap.insert m r = some m' ∧ RangeMap.iter m' = rs ++ [r] := by
  obtain ⟨hlt, hbound⟩ := h.bounds r (by simp)
  have hbefore := (List.pairwise_append.mp h.sorted).2.2
  have hdiffers := (List.pairwise_append.mp hc).2.2
  subst hm
  exact RangeMap.iter_insert m r hlt hbound fun r' hr' =>
    ⟨hbefore r' hr' r (List.mem_singleton_self r), hdiffers r' hr' r (List.mem_singleton_self r)⟩

theorem fromIter_of_ordered (h : Ordered rs) (hc : Coalesced rs) :
    ∃ m : M, fromIter rs = some m ∧ RangeMap.iter m = rs := by
  induction rs using List.reverseRecOn with
  | nil => exact ⟨_, rfl, RangeMap.iter_new⟩
  | append_singleton rs r ih =>
      obtain ⟨m, hrun, hm⟩ := ih h.of_append (List.pairwise_append.mp hc).1
      obtain ⟨m', hinsert, hm'⟩ := iter_insert_concat hm h hc
      refine ⟨m', ?_, hm'⟩
      rw [fromIter, List.foldlM_append]
      show (fromIter rs).bind _ = _
      rw [hrun, Option.bind_some, List.foldlM_cons, hinsert]
      rfl

/-- Parts in order are numbered as long as the ids suffice. -/
theorem foldlM_insertPart (debug : Bool) (h : Ordered ps) :
    (debug = true ∧ 2 ^ 16 ≤ ps.length ∧
      ps.foldlM (fun s r => insertPart debug r.path r.start r.stop s) (0, (RangeMap.new : M)) =
        none) ∨
    (debug = true → ps.length < 2 ^ 16) ∧ ∃ m : M,
      ps.foldlM (fun s r => insertPart debug r.path r.start r.stop s) (0, (RangeMap.new : M)) =
        some (.ofNat ps.length, m) ∧ RangeMap.iter m = numbered ps := by
  induction ps using List.reverseRecOn with
  | nil => exact .inr ⟨fun _ => by simp, _, rfl, RangeMap.iter_new⟩
  | append_singleton ps r ih =>
      rw [List.foldlM_append, List.length_append, List.length_singleton]
      rcases ih h.of_append with ⟨hdebug, hlong, hnone⟩ | ⟨hshort, m, hrun, hm⟩
      · exact .inl ⟨hdebug, by omega, by rw [hnone]; rfl⟩
      · have hnumbered :
            numbered (ps ++ [r]) = numbered ps ++ [{ r with id := .ofNat ps.length }] :=
          List.mapIdx_concat
        have hordered := ordered_numbered h
        have hcoalesced := coalesced_numbered h
        rw [hnumbered] at hordered hcoalesced ⊢
        obtain ⟨m', hinsert, hm'⟩ := iter_insert_concat hm hordered hcoalesced
        have hpart : insertPart debug r.path r.start r.stop (.ofNat ps.length, m) =
            (nextId debug (.ofNat ps.length)).map fun i => (i, m') := by
          rw [insertPart, hinsert]
          cases nextId debug (.ofNat ps.length) <;> rfl
        have hfold : [r].foldlM (fun s r => insertPart debug r.path r.start r.stop s)
            (UInt16.ofNat ps.length, m) =
              (nextId debug (.ofNat ps.length)).map fun i => (i, m') := by
          rw [List.foldlM_cons, hpart]
          exact bind_pure _
        rw [hrun]
        rcases nextId_cases hshort with ⟨hdebug, hlong, hnone⟩ | ⟨hshort, hnext⟩
        · rw [hnone] at hfold
          exact .inl ⟨hdebug, hlong, hfold⟩
        · rw [hnext] at hfold
          exact .inr ⟨hshort, m', hfold, hm'⟩

theorem foldlM_splitRange (debug : Bool) (s : UInt16 × M) :
    rs.foldlM (fun s r => splitRange debug r.path r.stop r.start s) s =
      (parts rs).foldlM (fun s r => insertPart debug r.path r.start r.stop s) s := by
  induction rs generalizing s with
  | nil => rfl
  | cons r rs ih =>
      rw [List.foldlM_cons, parts, List.flatMap_cons, List.foldlM_append, List.foldlM_map,
        splitRange_eq_foldlM]
      exact congrArg _ (funext ih)

/-- What is left after cutting, if the ids suffice. -/
theorem splitModules_cases (debug : Bool) (modules : M) (h : Ordered (RangeMap.iter modules)) :
    (debug = true ∧ 2 ^ 16 ≤ (parts (RangeMap.iter modules)).length ∧
      splitModules debug modules = none) ∨
    (debug = true → (parts (RangeMap.iter modules)).length < 2 ^ 16) ∧ ∃ m : M,
      splitModules debug modules = some m ∧
        RangeMap.iter m = numbered (parts (RangeMap.iter modules)) := by
  rw [splitModules, foldlM_splitRange]
  rcases foldlM_insertPart (M := M) debug (ordered_parts h) with
    ⟨hdebug, hlong, hnone⟩ | ⟨hshort, m, hm, hiter⟩
  · exact .inl ⟨hdebug, hlong, by rw [hnone]; rfl⟩
  · exact .inr ⟨hshort, m, by rw [hm]; rfl, hiter⟩

end DrCovModules

end Libaflmm
