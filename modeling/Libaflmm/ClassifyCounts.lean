import Mathlib.Data.List.Perm.Basic
import Mathlib.Data.List.Range
import Libaflmm.Hitcounts
import Libaflmm.Slices

/-!
# Classifying in place

`classify_counts` as it goes over the memory of a map: first the bytes before
and after the words, then the words, each through a table of its own. Beside
the map it keeps which bytes were written, in order.
-/

namespace Libaflmm

/-! ## The table of words -/

/-- The order in which the loops fill the table, as the pairs of the low and
the high byte. -/
def lookup16Order : List (Fin 256 × Fin 256) :=
  (List.finRange 256).flatMap fun lo => (List.finRange 256).map fun hi => (lo, hi)

def lookup16Index (lo hi : Fin 256) : Nat := hi.val <<< 8 ||| lo.val

theorem lookup16Index_eq (lo hi : Fin 256) : lookup16Index lo hi = 256 * hi.val + lo.val := by
  rw [lookup16Index, ← Nat.shiftLeft_add_eq_or_of_lt lo.isLt, Nat.shiftLeft_eq, Nat.mul_comm]

theorem lookup16Index_lt (lo hi : Fin 256) : lookup16Index lo hi < 256 * 256 := by
  rw [lookup16Index_eq]
  omega

def setLookup16 (seq : Vector UInt16 (256 * 256)) (e : Fin 256 × Fin 256) :
    Vector UInt16 (256 * 256) :=
  seq.set (lookup16Index e.1 e.2)
    (joinBytes (countClassLookup.get e.2) (countClassLookup.get e.1)) (lookup16Index_lt e.1 e.2)

def initCountClass16 : Vector UInt16 (256 * 256) :=
  lookup16Order.foldl setLookup16 (Vector.replicate _ 0)

theorem getElem_countClassLookup16 {i : Nat} (hi : i < 256 * 256) :
    countClassLookup16[i] = joinBytes (countClassLookup.get ⟨i / 256, by omega⟩)
      (countClassLookup.get ⟨i % 256, by omega⟩) :=
  Vector.getElem_ofFn hi

/-- What the loops write is right, so that only what they leave out matters. -/
theorem getElem_foldl_setLookup16 (order : List (Fin 256 × Fin 256))
    (seq : Vector UInt16 (256 * 256)) {i : Nat} (hi : i < 256 * 256)
    (h : (⟨i % 256, by omega⟩, ⟨i / 256, by omega⟩) ∈ order ∨ seq[i] = countClassLookup16[i]) :
    (order.foldl setLookup16 seq)[i] = countClassLookup16[i] := by
  induction order generalizing seq with
  | nil => exact h.resolve_left List.not_mem_nil
  | cons e order ih =>
      rw [List.foldl_cons]
      refine ih (setLookup16 seq e) ?_
      by_cases he : lookup16Index e.1 e.2 = i
      · subst he
        have hindex := lookup16Index_eq e.1 e.2
        have hdiv : lookup16Index e.1 e.2 / 256 = e.2.val := by omega
        have hmod : lookup16Index e.1 e.2 % 256 = e.1.val := by omega
        refine .inr ?_
        rw [setLookup16, Vector.getElem_set_self, getElem_countClassLookup16]
        exact congrArg₂ joinBytes (congrArg _ (Fin.ext hdiv.symm)) (congrArg _ (Fin.ext hmod.symm))
      · refine h.imp (fun hmem => ?_) fun hseq => ?_
        · refine (List.mem_cons.mp hmem).resolve_left ?_
          rintro rfl
          exact he (by rw [lookup16Index_eq]; exact Nat.div_add_mod i 256)
        · rw [setLookup16, Vector.getElem_set_ne _ _ he, hseq]

theorem initCountClass16_eq : initCountClass16 = countClassLookup16 := by
  refine Vector.ext fun i hi => getElem_foldl_setLookup16 _ _ hi (.inl ?_)
  simp [lookup16Order]

/-! ## The map in memory -/

structure Classified where
  map : List UInt8
  touched : List Nat

def classifyByte (s : Classified) (i : Nat) : Option Classified :=
  if i < s.map.length then some ⟨s.map.modify i countClass, s.touched ++ [i]⟩ else none

/-- The word whose first byte is at `i`. -/
def classifyWord (e : Endian) (s : Classified) (i : Nat) : Option Classified :=
  match s.map[i]?, s.map[i + 1]? with
  | some first, some second =>
    let item := initCountClass16.get (e.load first second).toFin
    some ⟨Slice.writeAt s.map i (e.store item), s.touched ++ [i, i + 1]⟩
  | _, _ => none

/-- A slice of a map, and how it is split by the address it is at. -/
structure AlignedMap where
  map : List UInt8
  align : AlignTo
  fits : align.pre + 2 * align.words ≤ map.length

def AlignedMap.classify (m : AlignedMap) : Option Classified := do
  let ⟨pre, words, e⟩ := m.align
  let suffix := pre + 2 * words
  let s ← (List.range pre ++ List.range' suffix (m.map.length - suffix)).foldlM classifyByte
    ⟨m.map, []⟩
  (List.range words).foldlM (fun s w => classifyWord e s (pre + 2 * w)) s

/-- The chunks of a map that is not one slice, each at its own address. -/
def HitcountsIterableMapObserver.classify (chunks : List AlignedMap) : Option (List Classified) :=
  chunks.mapM AlignedMap.classify

/-! ### What has been touched is classified -/

/-- The bytes touched so far are classified, the others as they were. -/
structure Progress (map : List UInt8) (s : Classified) : Prop where
  length_eq : s.map.length = map.length
  getElem?_eq : ∀ i : Nat, s.map[i]? = if i ∈ s.touched then map[i]?.map countClass else map[i]?

section

variable {map : List UInt8} {s : Classified}

theorem Progress.classifyByte (h : Progress map s) {i : Nat} (hi : i < map.length)
    (hnew : i ∉ s.touched) :
    ∃ t, classifyByte s i = some t ∧ Progress map t ∧ t.touched = s.touched ++ [i] := by
  refine ⟨_, if_pos (h.length_eq ▸ hi), ⟨?_, fun j => ?_⟩, rfl⟩
  · exact (List.length_modify ..).trans h.length_eq
  · have hj := h.getElem?_eq j
    simp only [List.getElem?_modify, List.mem_append, List.mem_singleton, hj]
    by_cases hij : i = j
    · subst hij
      simp [hnew]
    · have hne : j ≠ i := fun h => hij h.symm
      simp [hij, hne]

/-- Both bytes of a word come out of the table of words as they do out of the
table of bytes. -/
theorem Progress.classifyWord (h : Progress map s) (e : Endian) {i : Nat}
    (hi : i + 1 < map.length) (hfirst : i ∉ s.touched) (hsecond : i + 1 ∉ s.touched) :
    ∃ t, classifyWord e s i = some t ∧ Progress map t ∧ t.touched = s.touched ++ [i, i + 1] := by
  have hi' : i < map.length := Nat.lt_of_succ_lt hi
  have hlen := h.length_eq
  have h1 : s.map[i]? = some map[i] := by
    rw [h.getElem?_eq, if_neg hfirst, List.getElem?_eq_getElem hi']
  have h2 : s.map[i + 1]? = some map[i + 1] := by
    rw [h.getElem?_eq, if_neg hsecond, List.getElem?_eq_getElem hi]
  have hstore : e.store (initCountClass16.get (e.load map[i] map[i + 1]).toFin) =
      [countClass map[i], countClass map[i + 1]] := by
    rw [initCountClass16_eq]
    exact e.store_countClass16 ..
  refine ⟨⟨Slice.writeAt s.map i [countClass map[i], countClass map[i + 1]],
    s.touched ++ [i, i + 1]⟩, ?_, ⟨?_, fun j => ?_⟩, rfl⟩
  · rw [Libaflmm.classifyWord, h1, h2]
    dsimp only
    rw [hstore]
  · rw [← hlen]
    exact Slice.length_writeAt (by rw [hlen]; exact hi)
  · have hj := h.getElem?_eq j
    have htake : (s.map.take i).length = i := List.length_take_of_le (by omega)
    rw [Slice.writeAt, List.append_assoc, List.getElem?_append, htake]
    simp only [List.mem_append, List.mem_cons, List.not_mem_nil, or_false]
    rcases Nat.lt_trichotomy j i with hlt | rfl | hgt
    · rw [if_pos hlt, List.getElem?_take_of_lt hlt, hj]
      have hne : ¬(j = i ∨ j = i + 1) := by omega
      simp only [hne, or_false]
    · rw [if_neg (lt_irrefl j), if_pos (.inr (.inl rfl)), List.getElem?_eq_getElem hi']
      simp
    · obtain ⟨k, rfl⟩ : ∃ k, j = i + (k + 1) := ⟨j - (i + 1), by omega⟩
      rw [if_neg (by omega), Nat.add_sub_cancel_left, List.cons_append, List.getElem?_cons_succ]
      cases k with
      | zero =>
          rw [if_pos (.inr (.inr rfl)), List.getElem?_eq_getElem hi]
          rfl
      | succ k =>
          have hne : ¬(i + (k + 1 + 1) = i ∨ i + (k + 1 + 1) = i + 1) := by omega
          have hadd : i + 2 + k = i + (k + 1 + 1) := by omega
          rw [List.cons_append, List.getElem?_cons_succ, List.nil_append, List.getElem?_drop]
          simp only [hne, or_false, List.length_cons, List.length_nil, Nat.zero_add, hadd, hj]

/-- **The rule for a loop over the map.** Each step touches positions of its
own, none of them for the second time. -/
theorem Progress.foldlM {α : Type} (h : Progress map s)
    (step : Classified → α → Option Classified) (positions : α → List Nat) {as : List α}
    (hstep : ∀ a ∈ as, ∀ s, Progress map s → (∀ i ∈ positions a, i ∉ s.touched) →
      ∃ t, step s a = some t ∧ Progress map t ∧ t.touched = s.touched ++ positions a)
    (hnew : (s.touched ++ as.flatMap positions).Nodup) :
    ∃ t, as.foldlM step s = some t ∧ Progress map t ∧
      t.touched = s.touched ++ as.flatMap positions := by
  induction as generalizing s with
  | nil => exact ⟨s, rfl, h, (List.append_nil _).symm⟩
  | cons a as ih =>
      rw [List.flatMap_cons, ← List.append_assoc] at hnew
      have ha : ∀ i ∈ positions a, i ∉ s.touched := by
        intro i hi hmem
        have hdisjoint := (List.nodup_append.mp (List.nodup_append.mp hnew).1).2.2
        exact hdisjoint i hmem i hi rfl
      obtain ⟨t, ht, hprogress, htouched⟩ := hstep a (List.mem_cons_self ..) s h ha
      obtain ⟨u, hu, hprogress', htouched'⟩ := ih hprogress
        (fun b hb => hstep b (List.mem_cons_of_mem _ hb)) (by rwa [htouched])
      refine ⟨u, ?_, hprogress', ?_⟩
      · rw [List.foldlM_cons, ht]
        exact hu
      · rw [htouched', htouched, List.append_assoc, ← List.flatMap_cons]

end

/-- The words, one after the other, are the positions of the body. -/
theorem flatMap_words (pre words : Nat) :
    ((List.range words).flatMap fun w => [pre + 2 * w, pre + 2 * w + 1]) =
      List.range' pre (2 * words) := by
  induction words with
  | zero => rfl
  | succ words ih =>
      rw [List.range_succ, List.flatMap_append, ih, Nat.mul_succ, ← List.range'_append_1]
      simp [List.range'_succ]

/-- Prefix and suffix, then the body, are all positions. -/
theorem positions_perm {pre words len : Nat} (h : pre + 2 * words ≤ len) :
    ((List.range pre ++ List.range' (pre + 2 * words) (len - (pre + 2 * words))) ++
      List.range' pre (2 * words)).Perm (List.range len) := by
  have hall : List.range len = List.range pre ++
      (List.range' pre (2 * words) ++
        List.range' (pre + 2 * words) (len - (pre + 2 * words))) := by
    have hlen : len = pre + (2 * words + (len - (pre + 2 * words))) := by omega
    rw [List.range'_append_1, List.range_eq_range', List.range_eq_range']
    conv_lhs => rw [hlen, ← List.range'_append_1, Nat.zero_add]
  rw [hall, List.append_assoc]
  exact List.perm_append_comm.append_left _

/-- A slice is classified: each byte is looked up in the table of bytes, and
touched once. -/
structure Classifies (m : AlignedMap) (s : Classified) : Prop where
  lookup : ∀ i : Nat, s.map[i]? = m.map[i]?.map fun item => countClassLookup.get item.toFin
  touched : s.touched.Perm (List.range m.map.length)

theorem AlignedMap.classify_classifies (m : AlignedMap) :
    ∃ s, m.classify = some s ∧ Classifies m s := by
  obtain ⟨map, ⟨pre, words, e⟩, fits⟩ := m
  have hperm := positions_perm fits
  set outer := List.range pre ++ List.range' (pre + 2 * words) (map.length - (pre + 2 * words))
    with houter
  have hlt : ∀ i ∈ outer ++ List.range' pre (2 * words), i < map.length := fun i hi =>
    List.mem_range.mp (hperm.mem_iff.mp hi)
  have hnodup : (outer ++ List.range' pre (2 * words)).Nodup :=
    hperm.nodup_iff.mpr List.nodup_range
  have hstart : Progress map ⟨map, []⟩ := ⟨rfl, fun i => rfl⟩
  have houterNodup : outer.Nodup := (List.nodup_append.mp hnodup).1
  obtain ⟨s, hs, hprogress, htouched⟩ := hstart.foldlM classifyByte (fun i => [i])
    (fun i hi s h hnew => h.classifyByte (hlt i (List.mem_append_left _ hi))
      (hnew i (List.mem_singleton_self i)))
    (by simpa using houterNodup)
  replace htouched : s.touched = outer := by simpa using htouched
  have hwords := flatMap_words pre words
  have hword : ∀ w ∈ List.range words, ∀ s, Progress map s →
      (∀ i ∈ [pre + 2 * w, pre + 2 * w + 1], i ∉ s.touched) →
      ∃ t, classifyWord e s (pre + 2 * w) = some t ∧ Progress map t ∧
        t.touched = s.touched ++ [pre + 2 * w, pre + 2 * w + 1] := by
    intro w hw s h hnew
    have hlast : pre + 2 * w + 1 < map.length := by
      have := List.mem_range.mp hw
      simp only at fits
      omega
    exact h.classifyWord e hlast (hnew _ (by simp)) (hnew _ (by simp))
  obtain ⟨t, ht, hprogress', htouched'⟩ := hprogress.foldlM
    (fun s w => classifyWord e s (pre + 2 * w)) (fun w => [pre + 2 * w, pre + 2 * w + 1]) hword
    (by rw [hwords, htouched]; exact hnodup)
  rw [hwords, htouched] at htouched'
  refine ⟨t, ?_, fun i => ?_, htouched' ▸ hperm⟩
  · rw [classify]
    show Option.bind (outer.foldlM classifyByte ⟨map, []⟩) _ = _
    rw [hs]
    exact ht
  · rw [hprogress'.getElem?_eq, htouched']
    split
    · rfl
    · next hi =>
        have hle : map.length ≤ i := by
          by_contra hlt'
          exact hi (hperm.mem_iff.mpr (List.mem_range.mpr (not_le.mp hlt')))
        rw [List.getElem?_eq_none hle]
        rfl

/-- The map as it is computed without the memory. -/
theorem Classifies.map_eq {m : AlignedMap} {s : Classified} (h : Classifies m s) :
    s.map = classifyCounts m.align m.map := by
  rw [classifyCounts_eq_map]
  refine List.ext_getElem? fun i => ?_
  rw [h.lookup, List.getElem?_map]
  rfl

/-- **Every byte is looked up once**, however the map is cut into chunks and
whatever their addresses. -/
theorem classify_chunks (chunks : List AlignedMap) :
    ∃ done, HitcountsIterableMapObserver.classify chunks = some done ∧
      List.Forall₂ Classifies chunks done := by
  induction chunks with
  | nil => exact ⟨[], rfl, .nil⟩
  | cons chunk chunks ih =>
      obtain ⟨s, hs, hclassifies⟩ := chunk.classify_classifies
      obtain ⟨done, hdone, hall⟩ := ih
      refine ⟨s :: done, ?_, .cons hclassifies hall⟩
      rw [HitcountsIterableMapObserver.classify] at hdone ⊢
      rw [List.mapM_cons, hs, hdone]
      rfl

end Libaflmm
