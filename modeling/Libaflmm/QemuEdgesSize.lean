import Libaflmm.QemuEdges
import Mathlib.Data.Finset.Card
import Mathlib.Data.Finset.Dedup
import Mathlib.Data.Finset.Insert

/-!
# What the edge map size covers

A run of the emulator translates locations and executes those translated so
far, in any order. `Covers` is what the map observer relies on: the size never
shrinks, and every entry written is among those it reads.

The hashed generators keep the maximum of the ids, so that an entry is covered
once a larger id was seen (`hashed_covers_iff`). The unique ids are covered as
long as they do not wrap around (`unique_covers_iff`).
-/

namespace Libaflmm

namespace QemuEdges

/-! ## Runs -/

inductive MapOp (A : Type)
  /-- a location is translated -/
  | gen (a : A)
  /-- the location translated as number `loc` is executed -/
  | exec (hitcount : Bool) (loc : Nat)

/-- The edge map, and the id of each location translated so far; a location
without an id runs no tracer. -/
structure Translated where
  edges : QemuEdges
  ids : List (Option Nat)

section

variable {A : Type} (generate : A → QemuEdges → Option (Option Nat × QemuEdges))
  (trace : Bool → Nat → QemuEdges → QemuEdges)

def step (t : Translated) : MapOp A → Option Translated
  | .gen a => (generate a t.edges).map fun (id, edges) => { edges, ids := t.ids ++ [id] }
  | .exec hitcount loc =>
      match t.ids[loc]?.join with
      | some id => some { t with edges := trace hitcount id t.edges }
      | none => some t

end

def traceEdgePtr (hitcount : Bool) : Nat → QemuEdges → QemuEdges :=
  if hitcount then traceEdgeHitcountPtr else traceEdgeSinglePtr

def traceBlockTransition (hitcount : Bool) : Nat → QemuEdges → QemuEdges :=
  if hitcount then traceBlockTransitionHitcount else traceBlockTransitionSingle

/-- Every entry written lies in the map, and in the part that is read. -/
def Covered (s : QemuEdges) : Prop := ∀ i ∈ s.hits, i < s.edgesMap.length ∧ i < s.edgesMapSize

section

variable {A : Type} (step : Translated → MapOp A → Option Translated)

def Covers (t : Translated) (op : MapOp A) : Prop :=
  ∀ t', step t op = some t' → t.edges.edgesMapSize ≤ t'.edges.edgesMapSize ∧ Covered t'.edges

/-- The property of a whole run, from a map of entries `edgesMap` whose size
was `size`. -/
def RunCovers (edgesMap : List UInt8) (size : Nat) (ops : List (MapOp A)) : Prop :=
  StepsMeet step ⟨mapObserver edgesMap size, []⟩ ops (Covers step)

end

/-! ## The inputs of a run -/

section

variable {A : Type}

def gens (ops : List (MapOp A)) : List A :=
  ops.filterMap fun
    | .gen a => some a
    | .exec _ _ => none

@[simp] theorem gens_concat_gen (ops : List (MapOp A)) (a : A) :
    gens (ops ++ [.gen a]) = gens ops ++ [a] := by
  simp [gens]

@[simp] theorem gens_concat_exec (ops : List (MapOp A)) (hitcount : Bool) (loc : Nat) :
    gens (ops ++ [.exec hitcount loc]) = gens ops := by
  simp [gens]

end

/-! ## Hashed ids -/

section

variable {A : Type} (idOf : A → Option Nat) (next : Nat → Nat → Nat) (entry : Nat → Nat → Nat)

/-- The id with which location `loc` was translated. -/
def located (ops : List (MapOp A)) (loc : Nat) : Option Nat := (gens ops)[loc]?.bind idOf

/-- `PREV_LOC` after the operations, the latest first. -/
def prevLocOf : List (MapOp A) → Nat
  | [] => 0
  | .gen _ :: before => prevLocOf before
  | .exec _ loc :: before =>
      (located idOf before.reverse loc).elim (prevLocOf before) (next (prevLocOf before))

/-- The entry written when location `loc` runs after the operations. -/
def entryOf (ops : List (MapOp A)) (loc : Nat) : Option Nat :=
  (located idOf ops loc).map (entry (prevLocOf idOf next ops.reverse))

/-- Whenever a location runs, the entry it writes is below the size the map
had before the run, or below the id of a location translated so far. -/
def SeenAbove (size : Nat) (ops : List (MapOp A)) : Prop :=
  ∀ pre hitcount loc, pre ++ [.exec hitcount loc] <+: ops →
    ∀ i, entryOf idOf next entry pre loc = some i →
      i < size ∨ ∃ a ∈ gens pre, ∃ id, idOf a = some id ∧ i < id

theorem seenAbove_concat {size : Nat} {ops : List (MapOp A)} {op : MapOp A} :
    SeenAbove idOf next entry size (ops ++ [op]) ↔
      SeenAbove idOf next entry size ops ∧
        ∀ hitcount loc, op = .exec hitcount loc →
          ∀ i, entryOf idOf next entry ops loc = some i →
            i < size ∨ ∃ a ∈ gens ops, ∃ id, idOf a = some id ∧ i < id := by
  constructor
  · intro h
    constructor
    · intro pre hitcount loc hp
      exact h pre hitcount loc (hp.trans (List.prefix_append _ _))
    · rintro hitcount loc rfl
      exact h ops hitcount loc (List.prefix_refl _)
  · rintro ⟨hops, hlast⟩ pre hitcount loc hp
    rcases List.prefix_concat_iff.mp hp with heq | hp
    · obtain ⟨rfl, hop⟩ := List.append_inj' heq rfl
      have hop : op = .exec hitcount loc := by simpa using hop.symm
      exact hlast hitcount loc hop
    · exact hops pre hitcount loc hp

end

theorem covered_mapObserver (edgesMap : List UInt8) (size : Nat) :
    Covered (mapObserver edgesMap size) := by
  intro i hi
  simp [mapObserver] at hi

theorem RunCovers.covered {A : Type} {step : Translated → MapOp A → Option Translated}
    {edgesMap : List UInt8} {size : Nat} {ops : List (MapOp A)} {t : Translated}
    (h : RunCovers step edgesMap size ops)
    (hrun : run step ⟨mapObserver edgesMap size, []⟩ ops = some t) : Covered t.edges := by
  refine h.invariant (fun t => Covered t.edges) (covered_mapObserver edgesMap size) ?_ hrun
  intro t op t' _ _ hcovers hstep
  exact (hcovers t' hstep).2

/-- A generator that keeps the maximum of the ids `idOf` gives, with a tracer
that writes `entry` and moves `PREV_LOC` by `next`, under the mask `mask`. -/
structure Hashed {A : Type} (generate : A → QemuEdges → Option (Option Nat × QemuEdges))
    (trace : Bool → Nat → QemuEdges → QemuEdges) (mask : Nat) (idOf : A → Option Nat)
    (next entry : Nat → Nat → Nat) : Prop where
  generate_eq : ∀ a s, s.edgesMapMaskMax = mask → generate a s =
    some (idOf a, { s with edgesMapSize := max s.edgesMapSize ((idOf a).getD 0) })
  trace_eq : ∀ hitcount id s, s.edgesMapMaskMax = mask → ∃ f, trace hitcount id s =
    { s.write (entry s.prevLoc id) f with prevLoc := next s.prevLoc id }
  entry_le : ∀ prev a id, idOf a = some id → entry prev id ≤ mask

/-- What the state keeps of the operations that led to it. -/
structure Tracks {A : Type} (idOf : A → Option Nat) (next : Nat → Nat → Nat) (len size : Nat)
    (ops : List (MapOp A)) (t : Translated) : Prop where
  ids : t.ids = (gens ops).map idOf
  prevLoc : t.edges.prevLoc = prevLocOf idOf next ops.reverse
  maskMax : t.edges.edgesMapMaskMax = len - 1
  length : t.edges.edgesMap.length = len
  lt_size : ∀ i, i < t.edges.edgesMapSize ↔
    i < size ∨ ∃ a ∈ gens ops, ∃ id, idOf a = some id ∧ i < id

section

variable {A : Type} {generate : A → QemuEdges → Option (Option Nat × QemuEdges)}
  {trace : Bool → Nat → QemuEdges → QemuEdges} {idOf : A → Option Nat}
  {next entry : Nat → Nat → Nat} {edgesMap : List UInt8} {size : Nat}

theorem tracks_gen {len : Nat} {ops : List (MapOp A)} {t : Translated} (a : A)
    (h : Hashed generate trace (len - 1) idOf next entry) (ht : Tracks idOf next len size ops t) :
    ∃ t', step generate trace t (.gen a) = some t' ∧
      Tracks idOf next len size (ops ++ [.gen a]) t' ∧
      t.edges.edgesMapSize ≤ t'.edges.edgesMapSize ∧ t'.edges.hits = t.edges.hits := by
  have hstep := congrArg (Option.map fun (id, edges) => Translated.mk edges (t.ids ++ [id]))
    (h.generate_eq a t.edges ht.maskMax)
  refine ⟨_, hstep, ⟨?_, ?_, ht.maskMax, ht.length, ?_⟩, le_max_left _ _, rfl⟩
  · simp [ht.ids]
  · simpa [prevLocOf] using ht.prevLoc
  · intro i
    simp only [lt_max_iff, ht.lt_size, gens_concat_gen, List.mem_append, List.mem_singleton]
    constructor
    · rintro ((hi | ⟨b, hb, id, hid, hi⟩) | hi)
      · exact Or.inl hi
      · exact Or.inr ⟨b, Or.inl hb, id, hid, hi⟩
      · cases hid : idOf a with
        | none => simp [hid] at hi
        | some id => exact Or.inr ⟨a, Or.inr rfl, id, hid, by simpa [hid] using hi⟩
    · rintro (hi | ⟨b, hb | rfl, id, hid, hi⟩)
      · exact Or.inl (Or.inl hi)
      · exact Or.inl (Or.inr ⟨b, hb, id, hid, hi⟩)
      · exact Or.inr (by simpa [hid] using hi)

theorem located_of_tracks {len : Nat} {ops : List (MapOp A)} {t : Translated}
    (ht : Tracks idOf next len size ops t) (loc : Nat) :
    t.ids[loc]?.join = located idOf ops loc := by
  rw [ht.ids, List.getElem?_map, located]
  cases (gens ops)[loc]? <;> rfl

theorem tracks_exec {len : Nat} {ops : List (MapOp A)} {t : Translated} (hitcount : Bool)
    (loc : Nat) (h : Hashed generate trace (len - 1) idOf next entry)
    (ht : Tracks idOf next len size ops t) :
    ∃ t', step generate trace t (.exec hitcount loc) = some t' ∧
      Tracks idOf next len size (ops ++ [.exec hitcount loc]) t' ∧
      t'.edges.edgesMapSize = t.edges.edgesMapSize ∧
      t'.edges.hits = (entryOf idOf next entry ops loc).toList ++ t.edges.hits := by
  have hlast : prevLocOf idOf next (ops ++ [MapOp.exec hitcount loc]).reverse =
      (located idOf ops loc).elim t.edges.prevLoc (next t.edges.prevLoc) := by
    simp [prevLocOf, ht.prevLoc]
  simp only [step, located_of_tracks ht loc, entryOf, ← ht.prevLoc]
  cases hloc : located idOf ops loc with
  | none =>
      refine ⟨t, rfl, ⟨by simpa using ht.ids, ?_, ht.maskMax, ht.length, ?_⟩, rfl, rfl⟩
      · rw [hlast, hloc]
        rfl
      · simpa using ht.lt_size
  | some id =>
      obtain ⟨f, hf⟩ := h.trace_eq hitcount id t.edges ht.maskMax
      refine ⟨_, rfl, ⟨by simpa using ht.ids, ?_, ?_, ?_, ?_⟩, ?_, ?_⟩
      · rw [hlast, hloc, hf]
        rfl
      · rw [hf]
        exact ht.maskMax
      · rw [hf]
        simpa [write] using ht.length
      · rw [hf]
        simpa [write] using ht.lt_size
      · rw [hf]
        rfl
      · rw [hf]
        rfl

theorem run_tracks (size : Nat) (h : Hashed generate trace (edgesMap.length - 1) idOf next entry)
    (ops : List (MapOp A)) : ∃ t,
      run (step generate trace) ⟨mapObserver edgesMap size, []⟩ ops = some t ∧
      Tracks idOf next edgesMap.length size ops t := by
  induction ops using List.reverseRecOn with
  | nil => exact ⟨_, rfl, rfl, rfl, rfl, rfl, by simp [mapObserver, gens]⟩
  | append_singleton ops op ih =>
      obtain ⟨t, hrun, ht⟩ := ih
      rw [run_concat, hrun]
      cases op with
      | gen a =>
          obtain ⟨t', hstep, ht', -⟩ := tracks_gen a h ht
          exact ⟨t', hstep, ht'⟩
      | exec hitcount loc =>
          obtain ⟨t', hstep, ht', -⟩ := tracks_exec hitcount loc h ht
          exact ⟨t', hstep, ht'⟩

/-- The entry of a location that runs is always in the map. -/
theorem entryOf_lt (h : Hashed generate trace (edgesMap.length - 1) idOf next entry)
    (hlen : 0 < edgesMap.length) {ops : List (MapOp A)} {loc i : Nat}
    (hi : entryOf idOf next entry ops loc = some i) : i < edgesMap.length := by
  simp only [entryOf, located, Option.map_eq_some_iff, Option.bind_eq_some_iff] at hi
  obtain ⟨id, ⟨a, -, hid⟩, rfl⟩ := hi
  have := h.entry_le (prevLocOf idOf next ops.reverse) a id hid
  omega

theorem hashed_covers_iff (h : Hashed generate trace (edgesMap.length - 1) idOf next entry)
    (hlen : 0 < edgesMap.length) (ops : List (MapOp A)) :
    RunCovers (step generate trace) edgesMap size ops ↔
      SeenAbove idOf next entry size ops := by
  induction ops using List.reverseRecOn with
  | nil =>
      refine iff_of_true stepsMeet_nil ?_
      intro pre hitcount loc hp
      simp at hp
  | append_singleton ops op ih =>
      rw [seenAbove_concat, ← ih, RunCovers, stepsMeet_concat]
      refine and_congr_right fun hops => ?_
      obtain ⟨t, hrun, ht⟩ := run_tracks size h ops
      have hcov : Covered t.edges := RunCovers.covered hops hrun
      rw [hrun]
      simp only [Option.some.injEq, forall_eq']
      cases op with
      | gen a =>
          obtain ⟨t', hstep, ht', hsize, hhits⟩ := tracks_gen a h ht
          refine iff_of_true ?_ (by simp)
          intro u hu
          obtain rfl : t' = u := by simpa [hstep] using hu
          refine ⟨hsize, fun i hi => ?_⟩
          have := hcov i (hhits ▸ hi)
          rw [ht.length] at this
          rw [ht'.length]
          omega
      | exec hitcount loc =>
          obtain ⟨t', hstep, ht', hsize, hhits⟩ :=
            tracks_exec hitcount loc h ht
          constructor
          · rintro hcovers _ _ ⟨rfl, rfl⟩ i hi
            have hmem : i ∈ t'.edges.hits := by simp [hhits, hi]
            have := ((hcovers t' hstep).2 i hmem).2
            rwa [hsize, ht.lt_size] at this
          · intro hseen u hu
            obtain rfl : t' = u := by simpa [hstep] using hu
            refine ⟨hsize.ge, fun i hi => ?_⟩
            rw [ht'.length, hsize]
            rcases List.mem_append.mp (hhits ▸ hi) with hi | hi
            · have hentry := Option.mem_toList.mp hi
              exact ⟨entryOf_lt h hlen hentry,
                (ht.lt_size i).mpr (hseen hitcount loc rfl i hentry)⟩
            · exact ht.length ▸ hcov i hi

end

/-! ## Unique ids -/

def instruments (m : EdgeCoverageModule) (e : Edge) : Bool :=
  m.mustInstrumentWithPageId e.src e.pagingId || m.mustInstrumentWithPageId e.dest e.pagingId

theorem filtered_iff {m : EdgeCoverageModule} {e : Edge} :
    (!m.mustInstrumentWithPageId e.src e.pagingId &&
      !m.mustInstrumentWithPageId e.dest e.pagingId) = true ↔ instruments m e = false := by
  simp [instruments]

/-- The different edges among those instrumented. -/
def distinct (m : EdgeCoverageModule) (ops : List (MapOp Edge)) : Finset (GuestAddr × GuestAddr) :=
  (((gens ops).filter (instruments m)).map fun e => (e.src, e.dest)).toFinset

@[simp] theorem distinct_concat_exec (m : EdgeCoverageModule) (ops : List (MapOp Edge))
    (hitcount : Bool) (loc : Nat) :
    distinct m (ops ++ [.exec hitcount loc]) = distinct m ops := by
  simp [distinct]

theorem distinct_concat_gen (m : EdgeCoverageModule) (ops : List (MapOp Edge)) (e : Edge) :
    distinct m (ops ++ [.gen e]) =
      if instruments m e then insert (e.src, e.dest) (distinct m ops) else distinct m ops := by
  cases h : instruments m e <;> simp [distinct, h, List.toFinset_append, Finset.union_comm]

/-- The size after the edges `es` got their ids. -/
def uniqueSize (size : Nat) (es : Finset (GuestAddr × GuestAddr)) : Nat :=
  if es = ∅ then size else es.card

theorem uniqueSize_le_iff {size : Nat} {es es' : Finset (GuestAddr × GuestAddr)} (hsub : es ⊆ es')
    (hcard : es'.card ≤ es.card + 1) (h : size ≤ 1 ∨ es = ∅) :
    uniqueSize size es ≤ uniqueSize size es' ↔ size ≤ 1 ∨ es' = ∅ := by
  by_cases hes : es = ∅
  · subst hes
    by_cases hes' : es' = ∅
    · simp [uniqueSize, hes']
    · have hone : es'.card = 1 := by
        have := Finset.card_pos.mpr (Finset.nonempty_iff_ne_empty.mpr hes')
        simp at hcard
        omega
      simp [uniqueSize, hes', hone]
  · have hes' : es' ≠ ∅ := by
      rintro rfl
      exact hes (Finset.subset_empty.mp hsub)
    have hle := Finset.card_le_card hsub
    simpa [uniqueSize, hes, hes', hle] using h

/-- What the state keeps of the edges `es`, as long as their ids did not wrap around. -/
structure Numbered (len size : Nat) (es : Finset (GuestAddr × GuestAddr)) (t : Translated) :
    Prop where
  maskMax : t.edges.edgesMapMaskMax = len - 1
  length : t.edges.edgesMap.length = len
  known : ∀ e, e ∈ (t.edges.metadata.getD .new).map ↔ e ∈ es
  lookup_lt : ∀ e id, (t.edges.metadata.getD .new).map.lookup e = some id → id < es.card
  currentId : (t.edges.metadata.getD .new).currentId = es.card
  size : t.edges.edgesMapSize = uniqueSize size es
  ids_lt : ∀ id, some id ∈ t.ids → id < es.card
  hits_lt : ∀ i ∈ t.edges.hits, i < es.card

theorem Numbered.covered {len size : Nat} {es : Finset (GuestAddr × GuestAddr)} {t : Translated}
    (ht : Numbered len size es t) (hes : es.card < len) : Covered t.edges := by
  intro i hi
  have hlt := ht.hits_lt i hi
  have hne : es ≠ ∅ := by
    rintro rfl
    simp at hlt
  rw [ht.length, ht.size, uniqueSize, if_neg hne]
  omega

theorem Numbered.exec {len size : Nat} {es : Finset (GuestAddr × GuestAddr)} {t : Translated}
    (generate : Edge → QemuEdges → Option (Option Nat × QemuEdges))
    (ht : Numbered len size es t) (hitcount : Bool) (loc : Nat) :
    ∃ t', step generate traceEdgePtr t (.exec hitcount loc) = some t' ∧
      Numbered len size es t' := by
  simp only [step]
  cases hid : t.ids[loc]?.join with
  | none => exact ⟨t, rfl, ht⟩
  | some id =>
      have hlt : id < es.card :=
        ht.ids_lt id (List.mem_of_getElem? (Option.join_eq_some_iff.mp hid))
      refine ⟨_, rfl, ?_⟩
      cases hitcount <;>
      · refine ⟨ht.maskMax, ?_, ht.known, ht.lookup_lt, ht.currentId, ht.size, ht.ids_lt, ?_⟩
        · simpa [traceEdgePtr, traceEdgeHitcountPtr, traceEdgeSinglePtr, write] using ht.length
        · intro i hi
          rcases List.mem_cons.mp hi with rfl | hi
          · exact hlt
          · exact ht.hits_lt i hi

theorem distinct_subset_concat (m : EdgeCoverageModule) (ops : List (MapOp Edge)) (e : Edge) :
    distinct m ops ⊆ distinct m (ops ++ [.gen e]) := by
  rw [distinct_concat_gen]
  split
  · exact Finset.subset_insert _ _
  · exact Finset.Subset.refl _

theorem card_distinct_concat_le (m : EdgeCoverageModule) (ops : List (MapOp Edge)) (e : Edge) :
    (distinct m (ops ++ [.gen e])).card ≤ (distinct m ops).card + 1 := by
  rw [distinct_concat_gen]
  split
  · exact Finset.card_insert_le _ _
  · exact Nat.le_succ _

theorem genUniqueEdgeIds_filtered {m : EdgeCoverageModule} {e : Edge} {s : QemuEdges}
    (hmask : s.edgesMapMaskMax ≠ 0) (he : instruments m e = false) :
    genUniqueEdgeIds m e s = some (none, s) := by
  rw [genUniqueEdgeIds, if_neg hmask, if_pos (filtered_iff.mpr he)]

theorem genUniqueEdgeIds_known {m : EdgeCoverageModule} {e : Edge} {s : QemuEdges} {id : Nat}
    (hmask : s.edgesMapMaskMax ≠ 0) (he : instruments m e = true)
    (hid : (s.metadata.getD .new).map.lookup (e.src, e.dest) = some id) :
    genUniqueEdgeIds m e s = some (some id,
      { s with metadata := some (s.metadata.getD .new),
               edgesMapSize := max s.edgesMapSize ((id + 1) &&& s.edgesMapMaskMax) }) := by
  simp only [genUniqueEdgeIds, if_neg hmask, filtered_iff, he, hid, getMask, Bool.true_eq_false,
    if_false]

theorem genUniqueEdgeIds_new {m : EdgeCoverageModule} {e : Edge} {s : QemuEdges}
    (hmask : s.edgesMapMaskMax ≠ 0) (he : instruments m e = true)
    (hid : (s.metadata.getD .new).map.lookup (e.src, e.dest) = none) :
    genUniqueEdgeIds m e s =
      let md := s.metadata.getD .new
      let currentId := (md.currentId + 1) &&& s.edgesMapMaskMax
      some (some md.currentId,
        { s with metadata := some ⟨md.map.insert (e.src, e.dest) md.currentId, currentId⟩,
                 edgesMapSize := currentId }) := by
  simp only [genUniqueEdgeIds, if_neg hmask, filtered_iff, he, hid, getMask, Bool.true_eq_false,
    if_false]

theorem and_mask {k n : Nat} : n &&& (2 ^ k - 1) = n % 2 ^ k := Nat.and_two_pow_sub_one_eq_mod n k

/-- Translating an edge while the ids do not wrap around. -/
theorem Numbered.gen {m : EdgeCoverageModule} {k size : Nat} {ops : List (MapOp Edge)}
    {t : Translated} {e : Edge} (ht : Numbered (2 ^ k) size (distinct m ops) t) (hk : 1 < 2 ^ k)
    (hlt : (distinct m (ops ++ [.gen e])).card < 2 ^ k) :
    ∃ t', step (genUniqueEdgeIds m) traceEdgePtr t (.gen e) = some t' ∧
      Numbered (2 ^ k) size (distinct m (ops ++ [.gen e])) t' := by
  have hmask : t.edges.edgesMapMaskMax ≠ 0 := by
    rw [ht.maskMax]
    omega
  simp only [step]
  cases he : instruments m e with
  | false =>
      rw [genUniqueEdgeIds_filtered hmask he, distinct_concat_gen, he]
      refine ⟨_, rfl, ht.maskMax, ht.length, ht.known, ht.lookup_lt, ht.currentId, ht.size, ?_,
        ht.hits_lt⟩
      intro id hid
      exact ht.ids_lt id (by simpa using hid)
  | true =>
      rw [distinct_concat_gen, if_pos he] at hlt ⊢
      cases hid : (t.edges.metadata.getD .new).map.lookup (e.src, e.dest) with
      | some id =>
          have hmem : (e.src, e.dest) ∈ distinct m ops :=
            (ht.known _).mp (AList.lookup_isSome.mp (by simp [hid]))
          rw [Finset.insert_eq_of_mem hmem] at hlt ⊢
          have hidlt := ht.lookup_lt _ _ hid
          have hne : distinct m ops ≠ ∅ := Finset.ne_empty_of_mem hmem
          have hsize : max t.edges.edgesMapSize ((id + 1) &&& (2 ^ k - 1)) =
              t.edges.edgesMapSize := by
            rw [and_mask, Nat.mod_eq_of_lt (by omega), ht.size, uniqueSize, if_neg hne]
            omega
          rw [genUniqueEdgeIds_known hmask he hid, ht.maskMax, hsize]
          refine ⟨_, rfl, rfl, ht.length, ht.known, ht.lookup_lt, ht.currentId, ht.size, ?_,
            ht.hits_lt⟩
          intro id' hid'
          rcases List.mem_append.mp hid' with hid' | hid'
          · exact ht.ids_lt id' hid'
          · obtain rfl : id' = id := by simpa using hid'
            exact hidlt
      | none =>
          have hmem : (e.src, e.dest) ∉ distinct m ops := by
            rw [← ht.known, ← AList.lookup_eq_none]
            exact hid
          have hcard := Finset.card_insert_of_notMem hmem
          rw [hcard] at hlt
          have hnext : ((t.edges.metadata.getD .new).currentId + 1) &&& (2 ^ k - 1) =
              (distinct m ops).card + 1 := by
            rw [ht.currentId, and_mask, Nat.mod_eq_of_lt hlt]
          rw [genUniqueEdgeIds_new hmask he hid]
          simp only [ht.maskMax, hnext]
          refine ⟨_, rfl, rfl, ht.length, ?_, ?_, hcard.symm, ?_, ?_, ?_⟩
          · intro e'
            simp only [Option.getD_some, AList.mem_insert, Finset.mem_insert, ht.known]
          · intro e' id' hid'
            simp only [Option.getD_some, HashMap.lookup_insert, ht.currentId] at hid'
            split at hid'
            · simp only [Option.some.injEq] at hid'
              omega
            · have := ht.lookup_lt e' id' hid'
              omega
          · simp only [uniqueSize, if_neg (Finset.insert_ne_empty _ _), hcard]
          · intro id' hid'
            rw [hcard]
            rcases List.mem_append.mp hid' with hid' | hid'
            · have := ht.ids_lt id' hid'
              omega
            · simp only [List.mem_singleton, Option.some.injEq, ht.currentId] at hid'
              omega
          · intro i hi
            have := ht.hits_lt i hi
            rw [hcard]
            omega

/-- The edge that takes the last id sets the size to zero. -/
theorem Numbered.gen_last {m : EdgeCoverageModule} {k size : Nat} {ops : List (MapOp Edge)}
    {t : Translated} {e : Edge} (ht : Numbered (2 ^ k) size (distinct m ops) t) (hk : 1 < 2 ^ k)
    (hlt : (distinct m ops).card < 2 ^ k)
    (hge : 2 ^ k ≤ (distinct m (ops ++ [.gen e])).card) :
    ∃ t', step (genUniqueEdgeIds m) traceEdgePtr t (.gen e) = some t' ∧
      t'.edges.edgesMapSize < t.edges.edgesMapSize := by
  have hmask : t.edges.edgesMapMaskMax ≠ 0 := by
    rw [ht.maskMax]
    omega
  rw [distinct_concat_gen] at hge
  cases he : instruments m e with
  | false =>
      rw [he] at hge
      exact absurd hlt (by simpa using hge)
  | true =>
      rw [if_pos he] at hge
      have hmem : (e.src, e.dest) ∉ distinct m ops := by
        intro hmem
        rw [Finset.insert_eq_of_mem hmem] at hge
        omega
      have hcard : (distinct m ops).card + 1 = 2 ^ k := by
        rw [Finset.card_insert_of_notMem hmem] at hge
        omega
      have hid : (t.edges.metadata.getD .new).map.lookup (e.src, e.dest) = none := by
        rw [AList.lookup_eq_none, ht.known]
        exact hmem
      have hwrap : ((t.edges.metadata.getD .new).currentId + 1) &&& (2 ^ k - 1) = 0 := by
        rw [ht.currentId, and_mask, hcard, Nat.mod_self]
      have hne : distinct m ops ≠ ∅ := by
        intro hempty
        rw [hempty] at hcard
        simp at hcard
        omega
      simp only [step, genUniqueEdgeIds_new hmask he hid, ht.maskMax, hwrap]
      refine ⟨_, rfl, ?_⟩
      show 0 < t.edges.edgesMapSize
      rw [ht.size, uniqueSize, if_neg hne]
      omega

theorem run_numbered {m : EdgeCoverageModule} {k : Nat} (size : Nat) {edgesMap : List UInt8}
    (hlen : edgesMap.length = 2 ^ k) (hk : 1 < 2 ^ k) (ops : List (MapOp Edge))
    (hlt : (distinct m ops).card < 2 ^ k) : ∃ t,
      run (step (genUniqueEdgeIds m) traceEdgePtr) ⟨mapObserver edgesMap size, []⟩ ops = some t ∧
      Numbered (2 ^ k) size (distinct m ops) t := by
  induction ops using List.reverseRecOn with
  | nil =>
      refine ⟨_, rfl, by simp [mapObserver, hlen], hlen, ?_, ?_, rfl, rfl, ?_, ?_⟩ <;>
        simp [mapObserver, QemuEdgesMapMetadata.new, distinct, gens]
  | append_singleton ops op ih =>
      cases op with
      | gen e =>
          have hle := Finset.card_le_card (distinct_subset_concat m ops e)
          obtain ⟨t, hrun, ht⟩ := ih (by omega)
          rw [run_concat, hrun]
          exact ht.gen hk hlt
      | exec hitcount loc =>
          rw [distinct_concat_exec] at hlt ⊢
          obtain ⟨t, hrun, ht⟩ := ih hlt
          rw [run_concat, hrun]
          exact ht.exec (genUniqueEdgeIds m) hitcount loc

/-- Every edge has an id of its own, and the size starts where the ids do. -/
def Fits (m : EdgeCoverageModule) (len size : Nat) (ops : List (MapOp Edge)) : Prop :=
  (distinct m ops).card < len ∧ (size ≤ 1 ∨ distinct m ops = ∅)

theorem fits_of_fits_concat {m : EdgeCoverageModule} {len size : Nat} {ops : List (MapOp Edge)}
    {e : Edge} (h : Fits m len size (ops ++ [.gen e])) : Fits m len size ops := by
  obtain ⟨hcard, hsize⟩ := h
  have hsub := distinct_subset_concat m ops e
  have hle := Finset.card_le_card hsub
  refine ⟨by omega, ?_⟩
  rcases hsize with hsize | hempty
  · exact Or.inl hsize
  · exact Or.inr (Finset.subset_empty.mp (hempty ▸ hsub))

theorem unique_covers_iff {m : EdgeCoverageModule} {k size : Nat} {edgesMap : List UInt8}
    (hlen : edgesMap.length = 2 ^ k) (hk : 1 < 2 ^ k) (ops : List (MapOp Edge)) :
    RunCovers (step (genUniqueEdgeIds m) traceEdgePtr) edgesMap size ops ↔
      Fits m (2 ^ k) size ops := by
  induction ops using List.reverseRecOn with
  | nil => exact iff_of_true stepsMeet_nil ⟨Nat.two_pow_pos k, Or.inr rfl⟩
  | append_singleton ops op ih =>
      rw [RunCovers, stepsMeet_concat]
      cases op with
      | exec hitcount loc =>
          rw [Fits, distinct_concat_exec, ← Fits, ← ih]
          refine and_iff_left_of_imp fun hops t hrun => ?_
          obtain ⟨u, hu, ht⟩ := run_numbered size hlen hk ops (ih.mp hops).1
          obtain rfl : u = t := by simpa [hu] using hrun
          obtain ⟨t', hstep, ht'⟩ := ht.exec (genUniqueEdgeIds m) hitcount loc
          intro v hv
          obtain rfl : t' = v := by simpa [hstep] using hv
          exact ⟨by rw [ht.size, ht'.size], ht'.covered (ih.mp hops).1⟩
      | gen e =>
          rw [← RunCovers, ih]
          constructor
          · rintro ⟨hfits, hcovers⟩
            obtain ⟨t, hrun, ht⟩ := run_numbered size hlen hk ops hfits.1
            by_cases hlt : (distinct m (ops ++ [.gen e])).card < 2 ^ k
            · obtain ⟨t', hstep, ht'⟩ := ht.gen hk hlt
              refine ⟨hlt, (uniqueSize_le_iff (distinct_subset_concat m ops e)
                (card_distinct_concat_le m ops e) hfits.2).mp ?_⟩
              rw [← ht.size, ← ht'.size]
              exact (hcovers t hrun t' hstep).1
            · obtain ⟨t', hstep, hshrink⟩ := ht.gen_last hk hfits.1 (not_lt.mp hlt)
              have := (hcovers t hrun t' hstep).1
              omega
          · intro hfits
            have hops := fits_of_fits_concat hfits
            refine ⟨hops, fun t hrun t' hstep => ?_⟩
            obtain ⟨u, hu, ht⟩ := run_numbered size hlen hk ops hops.1
            obtain rfl : u = t := by simpa [hu] using hrun
            obtain ⟨v, hv, ht'⟩ := ht.gen hk hfits.1
            obtain rfl : v = t' := by simpa [hv] using hstep
            refine ⟨?_, ht'.covered hfits.1⟩
            rw [ht.size, ht'.size]
            exact (uniqueSize_le_iff (distinct_subset_concat m ops e)
              (card_distinct_concat_le m ops e) hops.2).mpr hfits.2

/-- With a single entry the assertion stops every generation. -/
theorem covers_of_length_one {m : EdgeCoverageModule} {size : Nat} {edgesMap : List UInt8}
    (hlen : edgesMap.length = 1) (ops : List (MapOp Edge)) :
    RunCovers (step (genUniqueEdgeIds m) traceEdgePtr) edgesMap size ops := by
  have hstep : ∀ op t', step (genUniqueEdgeIds m) traceEdgePtr ⟨mapObserver edgesMap size, []⟩ op =
      some t' → t' = ⟨mapObserver edgesMap size, []⟩ := by
    intro op t' h
    cases op with
    | gen e => simp [step, genUniqueEdgeIds, mapObserver, hlen] at h
    | exec hitcount loc => simpa [step] using h.symm
  intro pre op _ t hrun t' ht'
  have hstart : t = ⟨mapObserver edgesMap size, []⟩ := by
    refine run_invariant (· = _) ?_ rfl hrun
    rintro _ op' u rfl hu
    exact hstep op' u hu
  subst hstart
  obtain rfl := hstep op t' ht'
  exact ⟨le_refl _, covered_mapObserver edgesMap size⟩

/-! ## The three generators -/

def hashedEdgeId (m : EdgeCoverageModule) (mask : Nat) (e : Edge) : Option Nat :=
  if instruments m e then some ((hash64Fast e.src ^^^ hash64Fast e.dest).toNat &&& mask) else none

def hashedBlockId (m : EdgeCoverageModule) (mask : Nat) (b : Block) : Option Nat :=
  if m.mustInstrumentWithPageId b.pc b.pagingId then some ((hash64Fast b.pc).toNat &&& mask)
  else none

theorem genHashedEdgeIds_eq (m : EdgeCoverageModule) (e : Edge) (s : QemuEdges) :
    genHashedEdgeIds m e s = match hashedEdgeId m s.edgesMapMaskMax e with
      | some id => (some id, { s with edgesMapSize := max s.edgesMapSize id })
      | none => (none, s) := by
  simp only [genHashedEdgeIds, filtered_iff, hashedEdgeId, getMask]
  cases instruments m e with
  | false => rw [if_pos rfl, if_neg (by simp)]
  | true => rw [if_neg (by simp), if_pos rfl]

theorem genHashedBlockIds_eq (m : EdgeCoverageModule) (b : Block) (s : QemuEdges) :
    genHashedBlockIds m b s = match hashedBlockId m s.edgesMapMaskMax b with
      | some id => (some id, { s with edgesMapSize := max s.edgesMapSize id })
      | none => (none, s) := by
  simp only [genHashedBlockIds, hashedBlockId, getMask]
  cases m.mustInstrumentWithPageId b.pc b.pagingId with
  | false => rw [if_pos (by simp), if_neg (by simp)]
  | true => rw [if_neg (by simp), if_pos rfl]

theorem keep_max (o : Option Nat) (s : QemuEdges) :
    (match o with
      | some id => (some id, { s with edgesMapSize := max s.edgesMapSize id })
      | none => (none, s)) = (o, { s with edgesMapSize := max s.edgesMapSize (o.getD 0) }) := by
  cases o <;> simp

theorem hashed_edges (m : EdgeCoverageModule) (mask : Nat) :
    Hashed (fun e s => some (genHashedEdgeIds m e s)) traceEdgePtr mask (hashedEdgeId m mask)
      (fun prev _ => prev) (fun _ id => id) where
  generate_eq e s hs := by
    rw [genHashedEdgeIds_eq, keep_max, hs]
  trace_eq hitcount id s _ := by
    cases hitcount
    · exact ⟨_, rfl⟩
    · exact ⟨_, rfl⟩
  entry_le prev e id h := by
    simp only [hashedEdgeId, Option.ite_none_right_eq_some, Option.some.injEq] at h
    rw [← h.2]
    exact Nat.and_le_right

theorem hashed_blocks (m : EdgeCoverageModule) (mask : Nat) :
    Hashed (fun b s => some (genHashedBlockIds m b s)) traceBlockTransition mask
      (hashedBlockId m mask) (fun _ id => id >>> 1) (fun prev id => (prev ^^^ id) &&& mask) where
  generate_eq b s hs := by
    rw [genHashedBlockIds_eq, keep_max, hs]
  trace_eq hitcount id s hs := by
    subst hs
    cases hitcount
    · exact ⟨_, rfl⟩
    · exact ⟨_, rfl⟩
  entry_le _ _ _ _ := Nat.and_le_right

/-- **What each generator covers.** Unique ids: as long as the different edges
are fewer than the entries, from a size of at most one; with a single entry no
edge is ever generated. Hashed ids: when every entry a location writes is below
the initial size or below an id generated before. -/
theorem run_covers_iff (m : EdgeCoverageModule) {k : Nat} {edgesMap : List UInt8} (size : Nat)
    (hlen : edgesMap.length = 2 ^ k) :
    (∀ ops, RunCovers (step (genUniqueEdgeIds m) traceEdgePtr) edgesMap size ops ↔
      k = 0 ∨ Fits m (2 ^ k) size ops) ∧
    (∀ ops, RunCovers (step (fun e s => some (genHashedEdgeIds m e s)) traceEdgePtr)
        edgesMap size ops ↔
      SeenAbove (hashedEdgeId m (2 ^ k - 1)) (fun prev _ => prev) (fun _ id => id) size ops) ∧
    (∀ ops, RunCovers (step (fun b s => some (genHashedBlockIds m b s)) traceBlockTransition)
        edgesMap size ops ↔
      SeenAbove (hashedBlockId m (2 ^ k - 1)) (fun _ id => id >>> 1)
        (fun prev id => (prev ^^^ id) &&& (2 ^ k - 1)) size ops) := by
  have hpos : 0 < edgesMap.length := by
    rw [hlen]
    exact Nat.two_pow_pos k
  refine ⟨fun ops => ?_, fun ops => ?_, fun ops => ?_⟩
  · rcases Nat.eq_zero_or_pos k with rfl | hk
    · exact iff_of_true (covers_of_length_one hlen ops) (Or.inl rfl)
    · rw [unique_covers_iff hlen (Nat.one_lt_two_pow hk.ne') ops]
      simp [hk.ne']
  · rw [← hlen]
    exact hashed_covers_iff (hashed_edges m _) hpos ops
  · rw [← hlen]
    exact hashed_covers_iff (hashed_blocks m _) hpos ops

theorem run_covers_two_entries :
    [(0 : UInt8), 0].length = 2 ^ 1 ∧
    (∀ ops, RunCovers (step (genUniqueEdgeIds ⟨fun _ => true, fun _ => true⟩) traceEdgePtr)
        [0, 0] 0 ops ↔
      1 = 0 ∨ Fits ⟨fun _ => true, fun _ => true⟩ (2 ^ 1) 0 ops) :=
  ⟨rfl, (run_covers_iff ⟨fun _ => true, fun _ => true⟩ 0 rfl).1⟩

/-- The largest id so far is not below the size; the last unique id resets it. -/
theorem not_run_covers :
    (¬RunCovers (step (fun e s => some (genHashedEdgeIds ⟨fun _ => true, fun _ => true⟩ e s))
        traceEdgePtr) [0, 0] 0 [.gen ⟨0, 0, none⟩, .exec true 0]) ∧
    (¬RunCovers (step (fun b s => some (genHashedBlockIds ⟨fun _ => true, fun _ => true⟩ b s))
        traceBlockTransition) [0, 0] 0 [.gen ⟨0, none⟩, .exec true 0]) ∧
    ¬RunCovers (step (genUniqueEdgeIds ⟨fun _ => true, fun _ => true⟩) traceEdgePtr) [0, 0] 0
        [.gen ⟨0, 0, none⟩, .gen ⟨0, 1, none⟩] := by
  refine ⟨fun h => ?_, fun h => ?_, fun h => ?_⟩
  · have hseen := (h [.gen ⟨0, 0, none⟩] _ (List.prefix_refl _) _ rfl _ rfl).2
    exact absurd (hseen 0 (by decide)) (by decide)
  · have hseen := (h [.gen ⟨0, none⟩] _ (List.prefix_refl _) _ rfl _ rfl).2
    exact absurd (hseen 0 (by decide)) (by decide)
  · have hgrows := (h [.gen ⟨0, 0, none⟩] _ (List.prefix_refl _) _ rfl _ rfl).1
    exact absurd hgrows (by decide)

end QemuEdges

end Libaflmm
