import Libaflmm.DrCov

/-!
# Merging DrCov files

`merge` joins the modules of the other file to the own ones by their id, and
then adds the blocks that are new. A block names its module by its id only: it
keeps its addresses because a module of the other file is either new, and then
comes behind the own ones, or has the base and the end of the own one with its
id.
-/

namespace Libaflmm

/-! ## First occurrences -/

section

variable {α : Type} [DecidableEq α]

/-- The elements that are not in the set, each one once: the set grows by
every element that is kept. -/
def keepNew (seen : List α) : List α → List α
  | [] => []
  | x :: xs => if x ∈ seen then keepNew seen xs else x :: keepNew (x :: seen) xs

/-- `kept` has every element of `all` once, in the order in which they first
occur there. -/
structure FirstOccurrences (all kept : List α) : Prop where
  nodup : kept.Nodup
  mem_iff : ∀ x, x ∈ kept ↔ x ∈ all
  ordered : kept.Pairwise fun x y => all.idxOf x < all.idxOf y

theorem mem_keepNew {xs : List α} {x : α} : ∀ {seen : List α},
    x ∈ keepNew seen xs ↔ x ∈ xs ∧ x ∉ seen := by
  induction xs with
  | nil => simp [keepNew]
  | cons y xs ih =>
      intro seen
      rw [keepNew]
      split
      · next hy =>
          rw [ih, List.mem_cons]
          constructor
          · rintro ⟨hx, hseen⟩
            exact ⟨.inr hx, hseen⟩
          · rintro ⟨rfl | hx, hseen⟩
            · exact absurd hy hseen
            · exact ⟨hx, hseen⟩
      · next hy =>
          rw [List.mem_cons, ih, List.mem_cons, List.mem_cons, not_or]
          by_cases hxy : x = y
          · subst hxy
            simp [hy]
          · simp [hxy]

theorem keepNew_congr {xs : List α} : ∀ {seen seen' : List α}, (∀ x, x ∈ seen ↔ x ∈ seen') →
    keepNew seen xs = keepNew seen' xs := by
  induction xs with
  | nil => exact fun _ => rfl
  | cons x xs ih =>
      intro seen seen' h
      rw [keepNew, keepNew, ih h,
        ih (show ∀ y, y ∈ x :: seen ↔ y ∈ x :: seen' by simp [h])]
      simp only [h x]

/-- To go on behind `xs` is to know its elements, too. -/
theorem keepNew_append (ys : List α) {xs : List α} : ∀ {seen : List α},
    keepNew seen (xs ++ ys) = keepNew seen xs ++ keepNew (seen ++ keepNew seen xs) ys := by
  induction xs with
  | nil => simp [keepNew]
  | cons x xs ih =>
      intro seen
      rw [List.cons_append, keepNew, keepNew]
      split
      · exact ih
      · rw [ih, List.cons_append]
        refine congrArg _ (congrArg _ (keepNew_congr fun z => ?_))
        simp only [List.mem_append, List.mem_cons]
        tauto

theorem keepNew_eq_nil {seen xs : List α} (h : ∀ x ∈ xs, x ∈ seen) : keepNew seen xs = [] :=
  List.eq_nil_iff_forall_not_mem.mpr fun x hx => (mem_keepNew.mp hx).2 (h x (mem_keepNew.mp hx).1)

theorem nodup_keepNew {xs : List α} : ∀ {seen : List α}, (keepNew seen xs).Nodup := by
  induction xs with
  | nil => exact List.nodup_nil
  | cons x xs ih =>
      intro seen
      rw [keepNew]
      split
      · exact ih
      · refine List.nodup_cons.mpr ⟨fun hx => ?_, ih⟩
        exact (mem_keepNew.mp hx).2 List.mem_cons_self

theorem keepNew_of_nodup {xs : List α} : ∀ {seen : List α}, xs.Nodup → (∀ x ∈ xs, x ∉ seen) →
    keepNew seen xs = xs := by
  induction xs with
  | nil => exact fun _ _ => rfl
  | cons x xs ih =>
      intro seen hnodup hnew
      obtain ⟨hx, hnodup⟩ := List.nodup_cons.mp hnodup
      rw [keepNew, if_neg (hnew x List.mem_cons_self), ih hnodup]
      intro y hy hseen
      rcases List.mem_cons.mp hseen with rfl | hseen
      · exact hx hy
      · exact hnew y (List.mem_cons_of_mem _ hy) hseen

/-- Behind a part `pre` whose elements are all known. -/
theorem pairwise_keepNew {xs : List α} : ∀ {pre seen : List α}, (∀ x, x ∈ seen ↔ x ∈ pre) →
    (keepNew seen xs).Pairwise fun x y => (pre ++ xs).idxOf x < (pre ++ xs).idxOf y := by
  induction xs with
  | nil => exact fun _ => List.Pairwise.nil
  | cons x xs ih =>
      intro pre seen h
      have happend : pre ++ x :: xs = (pre ++ [x]) ++ xs := by simp
      rw [keepNew, happend]
      split
      · next hx =>
          refine ih fun z => ?_
          rw [List.mem_append, List.mem_singleton, h]
          constructor
          · exact .inl
          · rintro (hz | rfl)
            · exact hz
            · exact (h z).mp hx
      · next hx =>
          have hknown : ∀ z, z ∈ x :: seen ↔ z ∈ pre ++ [x] := fun z => by
            rw [List.mem_cons, List.mem_append, List.mem_singleton, h, or_comm]
          refine List.pairwise_cons.mpr ⟨fun y hy => ?_, ih hknown⟩
          have hy' : y ∉ pre ++ [x] := fun hmem => (mem_keepNew.mp hy).2 ((hknown y).mpr hmem)
          have hxpre : x ∉ pre := fun hmem => hx ((h x).mpr hmem)
          rw [List.idxOf_append_of_mem (by simp), List.idxOf_append_of_notMem hxpre,
            List.idxOf_append_of_notMem hy', List.length_append, List.idxOf_cons_self,
            List.length_singleton]
          omega

theorem firstOccurrences_keepNew (all : List α) : FirstOccurrences all (keepNew [] all) :=
  ⟨nodup_keepNew, fun x => by simp [mem_keepNew], @pairwise_keepNew _ _ _ [] _ fun _ => Iff.rfl⟩

end

namespace DrCov

/-- What the message of `illegal_argument!` shows. -/
structure ModulesDiffer where
  own : List DrCovModuleEntry
  other : List DrCovModuleEntry
deriving DecidableEq

/-- The loop over the modules of the other file. The own ones may have changed
when it fails. -/
def mergeModules (others : List DrCovModuleEntry) : List DrCovModuleEntry →
    List DrCovModuleEntry → Except ModulesDiffer Unit × List DrCovModuleEntry
  | [], own => (.ok (), own)
  | module :: rest, own =>
    match moduleById own module.id with
    | some ownModule =>
      if ownModule.base ≠ module.base ∨ ownModule.stop ≠ module.stop then
        (.error ⟨own, others⟩, own)
      else
        mergeModules others rest own
    | none => mergeModules others rest (own ++ [module])

def makeUnique (r : DrCovReader) : DrCovReader :=
  { r with basicBlockEntries := keepNew [] r.basicBlockEntries }

/-- The loop over the blocks of the other file. -/
def mergeBlocks (r : DrCovReader) (blocks : List DrCovBasicBlockEntry) : DrCovReader :=
  { r with
    basicBlockEntries := r.basicBlockEntries ++ keepNew r.basicBlockEntries blocks }

def merge (r other : DrCovReader) (unique : Bool) : Except ModulesDiffer Unit × DrCovReader :=
  match mergeModules other.moduleEntries other.moduleEntries r.moduleEntries with
  | (.error err, own) => (.error err, { r with moduleEntries := own })
  | (.ok (), own) =>
    let r := { r with moduleEntries := own }
    let r := if unique then makeUnique r else r
    (.ok (), mergeBlocks r other.basicBlockEntries)

/-! ## The modules -/

variable {others ms own own' : List DrCovModuleEntry}

/-- Both have the same addresses. -/
def SameRange (m m' : DrCovModuleEntry) : Prop := m.base = m'.base ∧ m.stop = m'.stop

theorem moduleById_append (own ms : List DrCovModuleEntry) (id : UInt16) :
    moduleById (own ++ ms) id = (moduleById own id).or (moduleById ms id) :=
  List.find?_append

theorem moduleById_cons (m : DrCovModuleEntry) (ms : List DrCovModuleEntry) (id : UInt16) :
    moduleById (m :: ms) id = if m.id = id then some m else moduleById ms id := by
  rw [moduleById, moduleById, List.find?_cons]
  by_cases h : m.id = id <;> simp [h]

/-- The own module of an id comes first, and then the one of the other file. -/
theorem mergeModules_lookup (h : mergeModules others ms own = (.ok (), own')) (id : UInt16) :
    moduleById own' id = (moduleById own id).or (moduleById ms id) := by
  induction ms generalizing own with
  | nil =>
      cases h
      exact (Option.or_none).symm
  | cons m ms ih =>
      rw [mergeModules] at h
      rw [moduleById_cons]
      cases hown : moduleById own m.id with
      | some o =>
          simp only [hown] at h
          split at h
          · cases h
          · rw [ih h]
            by_cases hid : m.id = id
            · rw [← hid, hown, Option.some_or, Option.some_or]
            · rw [if_neg hid]
      | none =>
          simp only [hown] at h
          rw [ih h, moduleById_append, moduleById_cons, Option.or_assoc]
          by_cases hid : m.id = id <;> simp [hid, moduleById]

/-- Every module of the other file has the addresses of the one its id leads to. -/
theorem mergeModules_agree (h : mergeModules others ms own = (.ok (), own')) :
    ∀ m ∈ ms, ∃ o, moduleById own' m.id = some o ∧ SameRange o m := by
  induction ms generalizing own with
  | nil => simp
  | cons m ms ih =>
      have hlookup := mergeModules_lookup h m.id
      rw [moduleById_cons, if_pos rfl] at hlookup
      rw [mergeModules] at h
      cases hown : moduleById own m.id with
      | some o =>
          simp only [hown] at h hlookup
          split at h
          · cases h
          · next hsame =>
              refine List.forall_mem_cons.mpr ⟨⟨o, hlookup, ?_⟩, ih h⟩
              rwa [not_or, not_not, not_not] at hsame
      | none =>
          simp only [hown] at h hlookup
          exact List.forall_mem_cons.mpr ⟨⟨m, hlookup, rfl, rfl⟩, ih h⟩

/-- Modules that agree with the own ones add nothing. -/
theorem mergeModules_again (h : ∀ m ∈ ms, ∃ o, moduleById own m.id = some o ∧ SameRange o m) :
    mergeModules others ms own = (.ok (), own) := by
  induction ms with
  | nil => rfl
  | cons m ms ih =>
      obtain ⟨⟨o, hown, hbase, hstop⟩, hms⟩ := List.forall_mem_cons.mp h
      rw [mergeModules, hown]
      exact (if_neg (by simp [hbase, hstop])).trans (ih hms)

/-! ## The merged file -/

variable {r other merged : DrCovReader}

/-- What a successful merge leaves. -/
theorem merge_eq_ok (h : merge r other true = (.ok (), merged)) :
    mergeModules other.moduleEntries other.moduleEntries r.moduleEntries =
        (.ok (), merged.moduleEntries) ∧
      merged.basicBlockEntries =
        keepNew [] (r.basicBlockEntries ++ other.basicBlockEntries) := by
  rw [merge] at h
  split at h
  · cases h
  · next own hown =>
      cases h
      refine ⟨hown, ?_⟩
      rw [keepNew_append, List.nil_append]
      rfl

/-- A block has the addresses its own module gives it, and without one those of
the module of the other file. -/
theorem merge_basicBlock (h : merge r other true = (.ok (), merged)) (e : DrCovBasicBlockEntry) :
    basicBlock merged.moduleEntries e =
      if (moduleById r.moduleEntries e.modId).isSome then basicBlock r.moduleEntries e
      else basicBlock other.moduleEntries e := by
  have hlookup := mergeModules_lookup (merge_eq_ok h).1 e.modId
  rw [basicBlock, hlookup]
  cases hown : moduleById r.moduleEntries e.modId with
  | some o => simp [basicBlock, hown]
  | none => simp [basicBlock]

/-- The merged file is the union of the two. -/
structure IsUnion (r other merged : DrCovReader) : Prop where
  blocks : FirstOccurrences (r.basicBlockEntries ++ other.basicBlockEntries)
    merged.basicBlockEntries
  keeps_own : ∀ e ∈ r.basicBlockEntries, ∀ block,
    basicBlock r.moduleEntries e = some (some block) →
      basicBlock merged.moduleEntries e = some (some block)
  keeps_other : ∀ e ∈ other.basicBlockEntries, ∀ block,
    basicBlock other.moduleEntries e = some (some block) →
      basicBlock merged.moduleEntries e = some (some block)
  absorbs : merge merged other true = (.ok (), merged)

theorem basicBlock_eq_some {ms : List DrCovModuleEntry} {e : DrCovBasicBlockEntry}
    {block : DrCovBasicBlock} (h : basicBlock ms e = some (some block)) :
    ∃ m, moduleById ms e.modId = some m := by
  rw [basicBlock] at h
  split at h
  · cases h
  · next m hm => exact ⟨m, hm⟩

/-- **A merge is a union.** -/
theorem merge_isUnion (h : merge r other true = (.ok (), merged)) : IsUnion r other merged := by
  obtain ⟨hmodules, hblocks⟩ := merge_eq_ok h
  have hunion := firstOccurrences_keepNew (r.basicBlockEntries ++ other.basicBlockEntries)
  have hagree := mergeModules_agree hmodules
  refine ⟨hblocks ▸ hunion, fun e _ block he => ?_, fun e _ block he => ?_, ?_⟩
  · obtain ⟨m, hm⟩ := basicBlock_eq_some he
    rw [merge_basicBlock h, hm]
    exact (if_pos rfl).trans he
  · obtain ⟨m, hm⟩ := basicBlock_eq_some he
    have hid : m.id = e.modId := by simpa using List.find?_some hm
    obtain ⟨o, ho, hbase, -⟩ := hagree m (List.mem_of_find?_eq_some hm)
    rw [hid] at ho
    rw [← he, basicBlock, basicBlock, ho, hm]
    simp only [hbase]
  · have hnodup : keepNew [] merged.basicBlockEntries = merged.basicBlockEntries :=
      keepNew_of_nodup (hblocks ▸ hunion.nodup) (by simp)
    have hnone : keepNew merged.basicBlockEntries other.basicBlockEntries = [] :=
      keepNew_eq_nil fun x hx =>
        hblocks ▸ (hunion.mem_iff x).mpr (List.mem_append_right _ hx)
    rw [merge, mergeModules_again hagree]
    simp [makeUnique, mergeBlocks, hnodup, hnone]

/-- Both files have the module 1, the other one has the module 2 as well, and a
block of the first one is there twice. -/
theorem merge_isUnion_shared_module :
    IsUnion
      ⟨[⟨1, 0x1000, 0x2000, 0, 0, 0, []⟩], [⟨4, 2, 1⟩, ⟨4, 2, 1⟩]⟩
      ⟨[⟨2, 0x3000, 0x4000, 0, 0, 0, []⟩, ⟨1, 0x1000, 0x2000, 0, 0, 0, []⟩],
        [⟨8, 2, 2⟩, ⟨4, 2, 1⟩]⟩
      ⟨[⟨1, 0x1000, 0x2000, 0, 0, 0, []⟩, ⟨2, 0x3000, 0x4000, 0, 0, 0, []⟩],
        [⟨4, 2, 1⟩, ⟨8, 2, 2⟩]⟩ :=
  merge_isUnion (by decide)

end DrCov

end Libaflmm
