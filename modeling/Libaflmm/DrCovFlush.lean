import Libaflmm.Collects
import Libaflmm.DrCovRoundTrip
import Libaflmm.HashTables

/-!
# Flushing the trace of QEMU to a DrCov file

Blocks get an id when they are translated, and a length; with a full trace the
ids of the blocks that run are kept in order. A flush writes the blocks that are
in a module: with a full trace once for each time they ran, otherwise all that
were translated. Without a full trace a block right behind a module passes for
one in it, and the writer panics.

Addresses of the guest have `w` bits. What panics is `none`.
-/

namespace Libaflmm

namespace DrCov

/-- `DRCOV_IDS`, `DRCOV_MAP` and `DRCOV_LENGTHS`, and the counter in the metadata. -/
structure BlockTrace where
  ids : List Nat
  map : HashMap Nat Nat
  lengths : HashMap Nat Nat
  currentId : Nat

structure DrCovModule (M : Type) where
  moduleMapping : M
  fullTrace : Bool
  cleanOnFlush : Bool
  drcovLen : Nat

namespace BlockTrace

def new : BlockTrace := ⟨[], ∅, ∅, 0⟩

/-- `gen_unique_block_ids` of a block that is instrumented. -/
def genUniqueBlockIds (t : BlockTrace) (pc : Nat) : BlockTrace :=
  match t.map.lookup pc with
  | some _ => t
  | none => { t with map := AList.insert pc t.currentId t.map, currentId := t.currentId + 1 }

def genBlockLengths (t : BlockTrace) (pc blockLength : Nat) : BlockTrace :=
  { t with lengths := AList.insert pc blockLength t.lengths }

def execTraceBlock (t : BlockTrace) (id : Nat) : BlockTrace := { t with ids := t.ids ++ [id] }

end BlockTrace

section

variable {M : Type} [RangeMap M]

/-- The block at a pc, if its length is known. -/
def knownBlock (t : BlockTrace) (pc : Nat) : Option (List DrCovBasicBlock) :=
  match t.lengths.lookup pc with
  | some blockLength => (checkedAdd pc blockLength).map fun stop => [⟨pc, stop⟩]
  | none => some []

def fullTraceBlocks (m : M) (t : BlockTrace) (id : Nat) (entry : Σ _ : Nat, Nat) :
    Option (List DrCovBasicBlock) :=
  if (RangeMap.iter m).any fun r => r.contains entry.1 then
    if entry.2 = id then knownBlock t entry.1 else some []
  else some []

/-- Whether one of the ranges has the pc, or ends there. -/
def findModule (w pc : Nat) : List ModuleRange → Option Bool
  | [] => some false
  | r :: ranges =>
    if 2 ^ w ≤ r.start then none
    else if r.start ≤ pc then
      if 2 ^ w ≤ r.stop then none else if pc ≤ r.stop then some true else findModule w pc ranges
    else findModule w pc ranges

def translatedBlocks (w : Nat) (m : M) (t : BlockTrace) (pc : Nat) :
    Option (List DrCovBasicBlock) :=
  (findModule w pc (RangeMap.iter m)).bind fun moduleFound =>
    if moduleFound then knownBlock t pc else some []

/-- The blocks that are written, if any are, and the state after it. -/
def flush (w : Nat) (self : DrCovModule M) (t : BlockTrace) :
    Option (Option (List DrCovBasicBlock) × DrCovModule M × BlockTrace) :=
  let m := self.moduleMapping
  if self.fullTrace then do
    let written ← if t.ids.length > self.drcovLen then do
        let blocks ← collectAll (fun id => collectAll (fullTraceBlocks m t id) t.map.entries) t.ids
        let _ ← write m blocks
        pure (some blocks)
      else pure none
    if self.cleanOnFlush then pure (written, self, { t with ids := [] })
    else pure (written, { self with drcovLen := t.ids.length }, t)
  else do
    let written ← if t.map.entries.length > self.drcovLen then do
        let blocks ← collectAll (translatedBlocks w m t) t.map.keys
        let _ ← write m blocks
        pure (some blocks)
      else pure none
    pure (written, { self with drcovLen := t.map.entries.length }, t)

/-! ## What was recorded -/

/-- The traces that come about, each with the pcs of the blocks that ran since
its ids were dropped. -/
inductive Recorded : BlockTrace → List Nat → Prop
  | new : Recorded .new []
  | translate {t : BlockTrace} {executed : List Nat} (pc : Nat) : Recorded t executed →
      Recorded (t.genUniqueBlockIds pc) executed
  | length {t : BlockTrace} {executed : List Nat} (pc blockLength : Nat) : Recorded t executed →
      Recorded (t.genBlockLengths pc blockLength) executed
  | exec {t : BlockTrace} {executed : List Nat} {pc id : Nat} : t.map.lookup pc = some id →
      Recorded t executed → Recorded (t.execTraceBlock id) (executed ++ [pc])
  | clean {t : BlockTrace} {executed : List Nat} : Recorded t executed →
      Recorded { t with ids := [] } []

/-- No two blocks have the same id, and the ids are those of the blocks that ran. -/
structure Identified (t : BlockTrace) (executed : List Nat) : Prop where
  lt : ∀ pc id, t.map.lookup pc = some id → id < t.currentId
  inj : ∀ pc pc' id, t.map.lookup pc = some id → t.map.lookup pc' = some id → pc = pc'
  ran : List.Forall₂ (fun pc id => t.map.lookup pc = some id) executed t.ids

theorem identified_of_recorded {t : BlockTrace} {executed : List Nat} (h : Recorded t executed) :
    Identified t executed := by
  induction h with
  | new => exact ⟨nofun, nofun, .nil⟩
  | @translate t executed pc _ ih =>
      unfold BlockTrace.genUniqueBlockIds
      split
      · exact ih
      · next hnew =>
          have hne : ∀ pc' id, t.map.lookup pc' = some id → pc' ≠ pc := by
            rintro pc' id hid rfl
            rw [hnew] at hid
            cases hid
          refine ⟨fun pc' id hid => ?_, fun pc' pc'' id hid hid' => ?_, ?_⟩
          · rw [HashMap.lookup_insert] at hid
            split at hid
            · cases hid
              exact Nat.lt_succ_self _
            · exact Nat.lt_succ_of_lt (ih.lt pc' id hid)
          · rw [HashMap.lookup_insert] at hid hid'
            split at hid <;> split at hid'
            · next h h' => rw [h, h']
            · cases hid
              exact absurd (ih.lt pc'' _ hid') (Nat.lt_irrefl _)
            · cases hid'
              exact absurd (ih.lt pc' _ hid) (Nat.lt_irrefl _)
            · exact ih.inj pc' pc'' id hid hid'
          · refine ih.ran.imp fun pc' id hid => ?_
            rw [HashMap.lookup_insert, if_neg (hne pc' id hid)]
            exact hid
  | length pc blockLength _ ih => exact ⟨ih.lt, ih.inj, ih.ran⟩
  | exec hid _ ih => exact ⟨ih.lt, ih.inj, List.rel_append ih.ran (.cons hid .nil)⟩
  | clean _ ih => exact ⟨ih.lt, ih.inj, .nil⟩

theorem Identified.exists_id {t : BlockTrace} {executed : List Nat} {pc : Nat}
    (ht : Identified t executed) (hpc : pc ∈ executed) :
    ∃ id ∈ t.ids, t.map.lookup pc = some id := by
  obtain ⟨i, hi, rfl⟩ := List.getElem_of_mem hpc
  have hids : i < t.ids.length := ht.ran.length_eq ▸ hi
  exact ⟨t.ids.get ⟨i, hids⟩, List.getElem_mem hids, ht.ran.get hi hids⟩

/-! ## What should be written -/

/-- A module has the pc, the end of its range not included. -/
def inModule (m : M) (pc : Nat) : Bool := (RangeMap.iter m).any fun r => r.contains pc

/-- The block of a pc, if it is in a module and its length is known. -/
def coveredBlock (m : M) (t : BlockTrace) (pc : Nat) : Option DrCovBasicBlock :=
  if inModule m pc then (t.lengths.lookup pc).map fun blockLength => ⟨pc, pc + blockLength⟩
  else none

/-- With a full trace a block for each time one ran, in order, and otherwise one
for each that was translated; nothing if nothing was recorded since. -/
def coveredBlocks (self : DrCovModule M) (t : BlockTrace) (executed : List Nat) :
    Option (List DrCovBasicBlock) :=
  if self.fullTrace then
    if t.ids.length > self.drcovLen then
      some (executed.filterMap (coveredBlock self.moduleMapping t))
    else none
  else if t.map.entries.length > self.drcovLen then
    some (t.map.keys.filterMap (coveredBlock self.moduleMapping t))
  else none

def FlushesCovered (w : Nat) (self : DrCovModule M) (t : BlockTrace) (executed : List Nat) : Prop :=
  ∃ self' t', flush w self t = some (coveredBlocks self t executed, self', t')

/-- The end of the block is no address. -/
def Overflows (t : BlockTrace) (pc : Nat) : Prop :=
  ∃ blockLength, t.lengths.lookup pc = some blockLength ∧ 2 ^ 64 ≤ pc + blockLength

/-- The bounds that the pc is compared with are addresses of the guest. -/
def BoundsFit (w pc : Nat) : List ModuleRange → Prop
  | [] => True
  | r :: ranges => r.start < 2 ^ w ∧ (r.start ≤ pc → r.stop < 2 ^ w) ∧
      (¬ (r.start ≤ pc ∧ pc ≤ r.stop) → BoundsFit w pc ranges)

/-- Not right behind a module, unless it is in the next one or has no length. -/
def NotBehind (m : M) (t : BlockTrace) (pc : Nat) : Prop :=
  (∃ r ∈ RangeMap.iter m, r.stop = pc) → inModule m pc = true ∨ t.lengths.lookup pc = none

/-- What a flush that writes needs of the blocks. -/
def FlushFits (w : Nat) (self : DrCovModule M) (t : BlockTrace) (executed : List Nat) : Prop :=
  if self.fullTrace then
    t.ids.length > self.drcovLen →
      ∀ pc ∈ executed, inModule self.moduleMapping pc = true → ¬ Overflows t pc
  else
    t.map.entries.length > self.drcovLen → ∀ pc ∈ t.map.keys,
      BoundsFit w pc (RangeMap.iter self.moduleMapping) ∧ NotBehind self.moduleMapping t pc ∧
        (inModule self.moduleMapping pc = true → ¬ Overflows t pc)

/-! ## Blocks -/

theorem findModule_eq_some {w pc : Nat} {ranges : List ModuleRange} {b : Bool} :
    findModule w pc ranges = some b ↔
      BoundsFit w pc ranges ∧ b = ranges.any fun r => decide (r.start ≤ pc ∧ pc ≤ r.stop) := by
  induction ranges with
  | nil => simp [findModule, BoundsFit, eq_comm]
  | cons r ranges ih =>
      have hnone : ¬ none = some b := (Option.some_ne_none b).symm
      rw [findModule, BoundsFit, List.any_cons]
      by_cases hstart : 2 ^ w ≤ r.start
      · rw [if_pos hstart]
        exact iff_of_false hnone fun h => Nat.not_lt.mpr hstart h.1.1
      · rw [if_neg hstart]
        by_cases hle : r.start ≤ pc
        · rw [if_pos hle]
          by_cases hstop : 2 ^ w ≤ r.stop
          · rw [if_pos hstop]
            exact iff_of_false hnone fun h => Nat.not_lt.mpr hstop (h.1.2.1 hle)
          · rw [if_neg hstop]
            by_cases hend : pc ≤ r.stop
            · simp [hle, hend, Nat.not_le.mp hstart, Nat.not_le.mp hstop, eq_comm]
            · simp [hle, hend, Nat.not_le.mp hstart, Nat.not_le.mp hstop, ih]
        · simp [hle, Nat.not_le.mp hstart, ih]

theorem knownBlock_eq_none {t : BlockTrace} {pc : Nat} :
    knownBlock t pc = none ↔ Overflows t pc := by
  unfold knownBlock Overflows checkedAdd
  cases t.lengths.lookup pc with
  | none => simp
  | some blockLength => simp

theorem knownBlock_of_not_overflows {t : BlockTrace} {pc : Nat} (h : ¬ Overflows t pc) :
    knownBlock t pc =
      some ((t.lengths.lookup pc).map fun blockLength => ⟨pc, pc + blockLength⟩).toList := by
  cases hlen : t.lengths.lookup pc with
  | none =>
      rw [knownBlock, hlen]
      rfl
  | some blockLength =>
      have hlt : pc + blockLength < 2 ^ 64 := by
        by_contra hge
        exact h ⟨blockLength, hlen, Nat.not_lt.mp hge⟩
      rw [knownBlock, hlen]
      simp only [checkedAdd, if_pos hlt, Option.map_some, Option.toList_some]

/-- The writer finds the module of each block. -/
theorem write_ne_none {m : M} {blocks : List DrCovBasicBlock} :
    write m blocks ≠ none ↔ ∀ b ∈ blocks, inModule m b.start = true ∧ b.start ≤ b.stop := by
  have hentry : ∀ b, basicBlockEntry m b ≠ none ↔ inModule m b.start = true ∧ b.start ≤ b.stop := by
    intro b
    rw [basicBlockEntry, RangeMap.getKeyValue_eq]
    unfold inModule
    cases hfind : (RangeMap.iter m).find? fun r => r.contains b.start with
    | none =>
        have hany : ¬ ((RangeMap.iter m).any fun r => r.contains b.start) = true := by
          rw [List.any_eq_true]
          rintro ⟨r, hr, hcontains⟩
          exact List.find?_eq_none.mp hfind r hr hcontains
        exact iff_of_false (fun h => h rfl) fun h => hany h.1
    | some r =>
        have hcontains := List.find?_some hfind
        have hany : ((RangeMap.iter m).any fun r => r.contains b.start) = true :=
          List.any_eq_true.mpr ⟨r, List.mem_of_find?_eq_some hfind, hcontains⟩
        have hle : r.start ≤ b.start := (of_decide_eq_true hcontains).1
        rw [and_iff_right hany]
        by_cases hstop : b.start ≤ b.stop
        · simp [checkedSub, hle, hstop]
        · simp [checkedSub, hstop]
  have hentries : basicBlockEntries m blocks ≠ none ↔ ∀ b ∈ blocks, basicBlockEntry m b ≠ none := by
    induction blocks with
    | nil => simp [basicBlockEntries]
    | cons b blocks ih =>
        rw [List.forall_mem_cons, ← ih, basicBlockEntries, List.mapM_cons, ← basicBlockEntries]
        cases basicBlockEntry m b <;> cases basicBlockEntries m blocks <;> simp
  simp only [← hentry, ← hentries]
  rw [write]
  cases basicBlockEntries m blocks <;> simp

/-- What should be written can be. -/
theorem write_coveredBlock (m : M) (t : BlockTrace) (pcs : List Nat) :
    write m (pcs.filterMap (coveredBlock m t)) ≠ none := by
  rw [write_ne_none]
  intro b hb
  obtain ⟨pc, -, hcovered⟩ := List.mem_filterMap.mp hb
  unfold coveredBlock at hcovered
  split at hcovered
  · next hmodule =>
      obtain ⟨blockLength, -, rfl⟩ := Option.map_eq_some_iff.mp hcovered
      exact ⟨hmodule, Nat.le_add_right pc blockLength⟩
  · cases hcovered

theorem inModule_iff {m : M} {pc : Nat} :
    inModule m pc = true ↔ ∃ r ∈ RangeMap.iter m, r.start ≤ pc ∧ pc < r.stop := by
  unfold inModule ModuleRange.contains
  simp only [List.any_eq_true, decide_eq_true_eq]

/-- What is looked for is in a module, or right behind one. -/
theorem any_closed_iff {m : M} {pc : Nat} :
    ((RangeMap.iter m).any fun r => decide (r.start ≤ pc ∧ pc ≤ r.stop)) = true ↔
      inModule m pc = true ∨ ∃ r ∈ RangeMap.iter m, r.stop = pc := by
  rw [inModule_iff, List.any_eq_true]
  simp only [decide_eq_true_eq]
  constructor
  · rintro ⟨r, hr, hle, hstop⟩
    rcases Nat.lt_or_eq_of_le hstop with hlt | heq
    · exact .inl ⟨r, hr, hle, hlt⟩
    · exact .inr ⟨r, hr, heq.symm⟩
  · rintro (⟨r, hr, hle, hlt⟩ | ⟨r, hr, rfl⟩)
    · exact ⟨r, hr, hle, Nat.le_of_lt hlt⟩
    · exact ⟨r, hr, Nat.le_of_lt (RangeMap.start_lt m r hr), Nat.le_refl _⟩

/-! ## Without a full trace -/

theorem translatedBlocks_of_fits {w pc : Nat} {m : M} {t : BlockTrace}
    (hfit : BoundsFit w pc (RangeMap.iter m)) (hbehind : NotBehind m t pc)
    (hover : inModule m pc = true → ¬ Overflows t pc) :
    translatedBlocks w m t pc = some (coveredBlock m t pc).toList := by
  have hfind := (findModule_eq_some (b := _)).mpr ⟨hfit, rfl⟩
  rw [translatedBlocks, hfind, Option.bind_some, coveredBlock]
  by_cases hmodule : inModule m pc = true
  · rw [if_pos (any_closed_iff.mpr (.inl hmodule)), if_pos hmodule,
      knownBlock_of_not_overflows (hover hmodule)]
  · rw [if_neg hmodule]
    split
    · next hclosed =>
        have hend := (any_closed_iff.mp hclosed).resolve_left hmodule
        have hlen := (hbehind hend).resolve_left hmodule
        rw [knownBlock, hlen]
        rfl
    · rfl

theorem collectAll_translatedBlocks_iff {w : Nat} {m : M} {t : BlockTrace} :
    collectAll (translatedBlocks w m t) t.map.keys =
        some (t.map.keys.filterMap (coveredBlock m t)) ↔
      ∀ pc ∈ t.map.keys, BoundsFit w pc (RangeMap.iter m) ∧ NotBehind m t pc ∧
        (inModule m pc = true → ¬ Overflows t pc) := by
  constructor
  · intro h pc hpc
    cases hown : translatedBlocks w m t pc with
    | none =>
        rw [collectAll_eq_none.mpr ⟨pc, hpc, hown⟩] at h
        cases h
    | some own =>
        obtain ⟨found, hfind, hblocks⟩ := Option.bind_eq_some_iff.mp hown
        obtain ⟨hfit, hfound⟩ := findModule_eq_some.mp hfind
        refine ⟨hfit, fun hend => ?_, fun hmodule hover => ?_⟩
        · rw [any_closed_iff.mpr (.inr hend)] at hfound
          rw [if_pos hfound] at hblocks
          by_contra hnot
          rw [not_or] at hnot
          obtain ⟨blockLength, hlen⟩ := Option.ne_none_iff_exists'.mp hnot.2
          -- The block is written, but it is in no module.
          rw [knownBlock, hlen] at hblocks
          obtain ⟨stop, -, rfl⟩ := Option.map_eq_some_iff.mp hblocks
          have hmem := (mem_collectAll h).mpr ⟨pc, hpc, _, hown, List.mem_singleton.mpr rfl⟩
          have hwritten := write_ne_none.mp (write_coveredBlock m t t.map.keys) _ hmem
          exact hnot.1 hwritten.1
        · rw [any_closed_iff.mpr (.inl hmodule)] at hfound
          rw [if_pos hfound, knownBlock_eq_none.mpr hover] at hblocks
          cases hblocks
  · intro h
    rw [List.filterMap_eq_flatMap_toList]
    exact collectAll_of_forall fun pc hpc =>
      translatedBlocks_of_fits (h pc hpc).1 (h pc hpc).2.1 (h pc hpc).2.2

/-! ## With a full trace -/

theorem fullTraceBlocks_of_ne {m : M} {t : BlockTrace} {id : Nat} {entry : Σ _ : Nat, Nat}
    (h : entry.2 ≠ id) : fullTraceBlocks m t id entry = some [] := by
  unfold fullTraceBlocks
  rw [if_neg h]
  exact ite_self _

theorem fullTraceBlocks_of_eq {m : M} {t : BlockTrace} {pc id : Nat}
    (hover : inModule m pc = true → ¬ Overflows t pc) :
    fullTraceBlocks m t id ⟨pc, id⟩ = some (coveredBlock m t pc).toList := by
  unfold fullTraceBlocks coveredBlock
  rw [← inModule]
  by_cases hmodule : inModule m pc = true
  · rw [if_pos hmodule, if_pos rfl, if_pos hmodule, knownBlock_of_not_overflows (hover hmodule)]
  · rw [if_neg hmodule, if_neg hmodule]
    rfl

/-- Only one of the entries has the pc. -/
theorem flatMap_entries {β : Type} {map : HashMap Nat Nat} {pc id : Nat} (bs : List β)
    (h : map.lookup pc = some id) :
    (map.entries.flatMap fun entry => if entry.1 = pc then bs else []) = bs := by
  have hmem : (⟨pc, id⟩ : Σ _ : Nat, Nat) ∈ map.entries := AList.mem_lookup_iff.mp h
  have hnodup := map.nodupKeys
  generalize map.entries = entries at hmem hnodup ⊢
  induction entries with
  | nil => exact absurd hmem List.not_mem_nil
  | cons entry entries ih =>
      rw [List.nodupKeys_cons] at hnodup
      rw [List.flatMap_cons]
      rcases List.mem_cons.mp hmem with rfl | hmem
      · have hnone : (entries.flatMap fun entry => if entry.1 = pc then bs else []) = [] := by
          refine List.flatMap_eq_nil_iff.mpr fun entry hentry => if_neg ?_
          rintro rfl
          have hkey : entry.1 ∈ entries.keys := List.mem_keys_of_mem hentry
          exact hnodup.1 hkey
        rw [if_pos rfl, hnone, List.append_nil]
      · have hne : entry.1 ≠ pc := by
          intro heq
          have hkey : pc ∈ entries.keys := List.mem_keys_of_mem hmem
          exact hnodup.1 (heq ▸ hkey)
        rw [if_neg hne, List.nil_append, ih hmem hnodup.2]

theorem collectAll_entries {m : M} {t : BlockTrace} {executed : List Nat} {pc id : Nat}
    (ht : Identified t executed) (h : t.map.lookup pc = some id)
    (hover : inModule m pc = true → ¬ Overflows t pc) :
    collectAll (fullTraceBlocks m t id) t.map.entries = some (coveredBlock m t pc).toList := by
  have hblocks : ∀ entry ∈ t.map.entries, fullTraceBlocks m t id entry =
      some (if entry.1 = pc then (coveredBlock m t pc).toList else []) := by
    rintro ⟨pc', id'⟩ hentry
    have hlookup : t.map.lookup pc' = some id' := AList.mem_lookup_iff.mpr hentry
    by_cases hpc : pc' = pc
    · subst hpc
      cases h.symm.trans hlookup
      rw [if_pos rfl, fullTraceBlocks_of_eq hover]
    · rw [if_neg hpc]
      refine fullTraceBlocks_of_ne ?_
      rintro rfl
      exact hpc (ht.inj pc' pc id' hlookup h)
  rw [collectAll_of_forall hblocks, flatMap_entries _ h]

theorem collectAll_fullTraceBlocks_iff {m : M} {t : BlockTrace} {executed : List Nat}
    (ht : Identified t executed) :
    collectAll (fun id => collectAll (fullTraceBlocks m t id) t.map.entries) t.ids =
        some (executed.filterMap (coveredBlock m t)) ↔
      ∀ pc ∈ executed, inModule m pc = true → ¬ Overflows t pc := by
  constructor
  · intro h pc hpc hmodule hover
    obtain ⟨id, hid, hlookup⟩ := ht.exists_id hpc
    have hblock : fullTraceBlocks m t id ⟨pc, id⟩ = none := by
      unfold fullTraceBlocks
      rw [← inModule, if_pos hmodule, if_pos rfl, knownBlock_eq_none.mpr hover]
    have hentries : collectAll (fullTraceBlocks m t id) t.map.entries = none :=
      collectAll_eq_none.mpr ⟨_, AList.mem_lookup_iff.mp hlookup, hblock⟩
    rw [collectAll_eq_none.mpr ⟨id, hid, hentries⟩] at h
    cases h
  · intro h
    rw [List.filterMap_eq_flatMap_toList]
    have hone : ∀ pc ∈ executed, ∀ id, t.map.lookup pc = some id →
        collectAll (fullTraceBlocks m t id) t.map.entries = some (coveredBlock m t pc).toList :=
      fun pc hpc id hlookup => collectAll_entries ht hlookup (h pc hpc)
    have hran := ht.ran
    clear ht h
    generalize t.ids = ids at hran
    induction hran with
    | nil => rfl
    | @cons pc id executed ids hlookup _ ih =>
        rw [List.forall_mem_cons] at hone
        simp only [collectAll, hone.1 id hlookup, ih hone.2, List.flatMap_cons]

/-! ## A flush -/

/-- What is collected is what is written, if the writer does not panic. -/
theorem exists_written_iff {S T : Type} {m : M} {collected : Option (List DrCovBasicBlock)}
    {blocks : List DrCovBasicBlock} {rest : Option (List DrCovBasicBlock) → S × T}
    (hwrite : write m blocks ≠ none) :
    (∃ s t, (do
        let written ← do
          let blocks ← collected
          let _ ← write m blocks
          pure (some blocks)
        pure (written, rest written)) = some (some blocks, s, t)) ↔ collected = some blocks := by
  constructor
  · rintro ⟨s, t, h⟩
    obtain ⟨collectedBlocks, hcollected, hrest⟩ := Option.bind_eq_some_iff.mp h
    obtain ⟨_, -, heq⟩ := Option.bind_eq_some_iff.mp hrest
    have hblocks : some collectedBlocks = some blocks := (Prod.mk.inj (Option.some.inj heq)).1
    exact hcollected.trans hblocks
  · rintro rfl
    obtain ⟨file, hfile⟩ := Option.ne_none_iff_exists'.mp hwrite
    exact ⟨(rest (some blocks)).1, (rest (some blocks)).2, by simp [hfile]⟩

/-- The blocks of a full trace are those that were translated and ran. -/
theorem mem_executed_iff {m : M} {t : BlockTrace} {executed : List Nat} (ht : Identified t executed)
    {b : DrCovBasicBlock} : b ∈ executed.filterMap (coveredBlock m t) ↔
      b ∈ t.map.keys.filterMap (coveredBlock m t) ∧ b.start ∈ executed := by
  have hstart : ∀ pc, coveredBlock m t pc = some b → b.start = pc := by
    intro pc hpc
    unfold coveredBlock at hpc
    split at hpc
    · obtain ⟨blockLength, -, rfl⟩ := Option.map_eq_some_iff.mp hpc
      rfl
    · cases hpc
  have htranslated : ∀ pc ∈ executed, pc ∈ t.map.keys := by
    intro pc hpc
    obtain ⟨id, -, hlookup⟩ := ht.exists_id hpc
    exact AList.mem_keys.mpr (AList.lookup_isSome.mp (Option.isSome_of_eq_some hlookup))
  simp only [List.mem_filterMap]
  constructor
  · rintro ⟨pc, hpc, hblock⟩
    exact ⟨⟨pc, htranslated pc hpc, hblock⟩, (hstart pc hblock).symm ▸ hpc⟩
  · rintro ⟨⟨pc, -, hblock⟩, hran⟩
    exact ⟨pc, hstart pc hblock ▸ hran, hblock⟩

/-- **What a flush writes**: the covered blocks if and only if no block is right
behind a module, with the end of each block that is written and the bounds of
the modules that are looked at being addresses. What is covered is the same in
both modes. -/
theorem flushesCovered_iff {w : Nat} {self : DrCovModule M} {t : BlockTrace} {executed : List Nat}
    (h : Recorded t executed) :
    (FlushesCovered w self t executed ↔ FlushFits w self t executed) ∧
      ∀ b, b ∈ executed.filterMap (coveredBlock self.moduleMapping t) ↔
        b ∈ t.map.keys.filterMap (coveredBlock self.moduleMapping t) ∧ b.start ∈ executed := by
  have ht := identified_of_recorded h
  refine ⟨?_, fun b => mem_executed_iff ht⟩
  unfold FlushesCovered FlushFits coveredBlocks flush
  by_cases hfull : self.fullTrace = true
  · simp only [if_pos hfull]
    by_cases hlen : t.ids.length > self.drcovLen
    · simp only [hlen, if_true, forall_const]
      rw [← collectAll_fullTraceBlocks_iff ht]
      by_cases hclean : self.cleanOnFlush = true
      · simp only [if_pos hclean]
        exact exists_written_iff (write_coveredBlock _ t executed)
      · simp only [if_neg hclean]
        exact exists_written_iff (write_coveredBlock _ t executed)
    · simp only [hlen, if_false, false_implies, iff_true]
      by_cases hclean : self.cleanOnFlush = true
      · simp [hclean]
      · simp [hclean]
  · simp only [if_neg hfull]
    by_cases hlen : t.map.entries.length > self.drcovLen
    · simp only [hlen, if_true, forall_const]
      rw [← collectAll_translatedBlocks_iff]
      exact exists_written_iff (write_coveredBlock _ t t.map.keys)
    · simp [hlen]

/-- Where the guest has the addresses of the host the bounds always fit. -/
theorem boundsFit_of_lt {pc : Nat} {ranges : List ModuleRange} (h : InMemory ranges) :
    BoundsFit 64 pc ranges := by
  induction ranges with
  | nil => trivial
  | cons r ranges ih =>
      rw [InMemory, List.forall_mem_cons] at h
      exact ⟨h.1.1, fun _ => h.1.2, fun _ => ih h.2⟩

end

/-! ## A block right behind a module -/

def oneModule (fullTrace : Bool) : DrCovModule OrderedRanges where
  moduleMapping := ⟨[⟨0x10, 0x20, 0, "fuzzer".toList⟩], by decide, by decide, by decide⟩
  fullTrace := fullTrace
  cleanOnFlush := false
  drcovLen := 0

/-- A block that was translated, and ran. -/
def oneBlock (pc : Nat) : BlockTrace :=
  ((BlockTrace.new.genUniqueBlockIds pc).genBlockLengths pc 4).execTraceBlock 0

theorem recorded_oneBlock (pc : Nat) : Recorded (oneBlock pc) [pc] := by
  have hknown : Recorded ((BlockTrace.new.genUniqueBlockIds pc).genBlockLengths pc 4) [] :=
    .length pc 4 (.translate pc .new)
  exact .exec ((HashMap.lookup_insert).trans (if_pos rfl)) hknown

theorem flushesCovered_oneModule : FlushesCovered 64 (oneModule true) (oneBlock 0x1c) [0x1c] := by
  refine (flushesCovered_iff (recorded_oneBlock 0x1c)).1.mpr ?_
  rintro - pc hpc - ⟨blockLength, hlen, hover⟩
  obtain rfl := List.mem_singleton.mp hpc
  have hfour : (oneBlock 0x1c).lengths.lookup 0x1c = some 4 :=
    (HashMap.lookup_insert).trans (if_pos rfl)
  rw [hfour] at hlen
  cases hlen
  omega

theorem not_flushesCovered_behind :
    ¬ FlushesCovered 64 (oneModule false) (oneBlock 0x20) [0x20] := by
  rintro ⟨self', t', h⟩
  have hpanics : flush 64 (oneModule false) (oneBlock 0x20) = none := by decide
  rw [hpanics] at h
  cases h

end DrCov

end Libaflmm
