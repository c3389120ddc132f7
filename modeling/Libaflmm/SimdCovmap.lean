import Libaflmm.SimdFeedback
import Libaflmm.Slices

/-!
# Coverage maps, a vector at a time

The functions over whole maps that come in a vectorised and a naive version:
the question whether a map is interesting, and the one that simplifies a map
to what was hit at all.
-/

namespace Libaflmm

/-! ## What is interesting -/

/-- Entries of zero are passed over. -/
def covmapIsInterestingNaive (reduce : UInt8 → UInt8 → UInt8) (hist map : List UInt8) : Bool :=
  let initial := 0
  ((map.zip hist).filter fun e => e.1 ≠ initial).any fun (item, existing) =>
    let reduced := reduce existing item
    existing ≠ reduced

/-- The loop that collects what is novel. No function asks for it. -/
def pushNovelties (hist map : List UInt8) (indices novelties : List Nat) : List Nat :=
  indices.foldl (fun novelties j =>
    let item := map.getD j 0
    if item > hist.getD j 0 then novelties ++ [j] else novelties) novelties

def U8x16.novelties (hist map : List UInt8) (base : Nat) (novelties : List Nat) : List Nat :=
  pushNovelties hist map (List.range' base 16) novelties

/-- In two loops, which the compiler vectorises. -/
def U8x32.novelties (hist map : List UInt8) (base : Nat) (novelties : List Nat) : List Nat :=
  pushNovelties hist map (List.range' (base + 32 / 2) (32 / 2))
    (pushNovelties hist map (List.range' base (32 / 2)) novelties)

/-- Reducing the entry of the map at `i` into that of the history changes it. -/
def ChangesAt (R : SimdReducer) (hist map : List UInt8) (i : Nat) : Prop :=
  ∃ item history, map[i]? = some item ∧ hist[i]? = some history ∧
    R.primitiveReducer history item ≠ history

/-- Wherever the map has a zero the history stays as it is, or some other
entry changes it as well. -/
def ZerosDoNotDecide (R : SimdReducer) (hist map : List UInt8) : Prop :=
  (∃ i, ChangesAt R hist map i ∧ map[i]? = some 0) →
    ∃ i, ChangesAt R hist map i ∧ map[i]? ≠ some 0

section

variable {R : SimdReducer} {hist map : List UInt8}

theorem mem_zip_iff {e : UInt8 × UInt8} :
    e ∈ map.zip hist ↔ ∃ i : Nat, map[i]? = some e.1 ∧ hist[i]? = some e.2 := by
  simp only [List.mem_iff_getElem?, List.getElem?_zip_eq_some]

theorem exists_changes_iff :
    (∃ e ∈ map.zip hist, R.Changes e) ↔ ∃ i, ChangesAt R hist map i := by
  simp only [mem_zip_iff]
  constructor
  · rintro ⟨⟨item, history⟩, ⟨i, hitem, hhistory⟩, hchanges⟩
    exact ⟨i, item, history, hitem, hhistory, hchanges⟩
  · rintro ⟨i, item, history, hitem, hhistory, hchanges⟩
    exact ⟨(item, history), ⟨i, hitem, hhistory⟩, hchanges⟩

theorem covmapIsInterestingNaive_iff :
    covmapIsInterestingNaive R.primitiveReducer hist map = true ↔
      ∃ i, ChangesAt R hist map i ∧ map[i]? ≠ some 0 := by
  simp only [covmapIsInterestingNaive, List.any_eq_true, List.mem_filter, decide_eq_true_eq,
    mem_zip_iff]
  constructor
  · rintro ⟨⟨item, history⟩, ⟨⟨i, hitem, hhistory⟩, hne⟩, hchanges⟩
    refine ⟨i, ⟨item, history, hitem, hhistory, hchanges.symm⟩, ?_⟩
    rw [hitem]
    exact fun h => hne (Option.some.inj h)
  · rintro ⟨i, ⟨item, history, hitem, hhistory, hchanges⟩, hne⟩
    refine ⟨(item, history), ⟨⟨i, hitem, hhistory⟩, ?_⟩, hchanges.symm⟩
    rintro rfl
    exact hne hitem

/-- Neither the maximum nor the union with zero changes an entry. -/
theorem not_changesAt_zero (hR : R = .max ∨ R = .or) {i : Nat} (h : map[i]? = some 0) :
    ¬ChangesAt R hist map i := by
  rintro ⟨item, history, hitem, -, hchanges⟩
  obtain rfl := Option.some.inj (h.symm.trans hitem)
  refine hchanges ?_
  rcases hR with rfl | rfl
  · simp only [SimdReducer.primitiveReducer, MaxReducer.reduce, gt_iff_lt, UInt8.lt_iff_toNat_lt]
    split
    · rfl
    · next hle => exact UInt8.toNat_inj.mp (Nat.eq_zero_of_not_pos hle).symm
  · exact UInt8.or_zero

theorem pushNovelties_eq (indices novelties : List Nat) :
    pushNovelties hist map indices novelties =
      novelties ++ indices.filter fun j => map.getD j 0 > hist.getD j 0 := by
  induction indices generalizing novelties with
  | nil => exact (List.append_nil novelties).symm
  | cons j indices ih =>
      rw [pushNovelties, List.foldl_cons, ← pushNovelties, ih, List.filter_cons]
      dsimp only
      split
      · next h => rw [if_pos (decide_eq_true h), List.append_assoc, List.singleton_append]
      · next h => rw [if_neg (by simpa using h)]

theorem mem_pushNovelties {indices : List Nat} {i : Nat} :
    i ∈ pushNovelties hist map indices [] ↔ i ∈ indices ∧ map.getD i 0 > hist.getD i 0 := by
  rw [pushNovelties_eq, List.nil_append, List.mem_filter, decide_eq_true_eq]

theorem U8x32.novelties_eq (base : Nat) :
    U8x32.novelties hist map base [] = pushNovelties hist map (List.range' base 32) [] := by
  rw [U8x32.novelties, pushNovelties_eq, pushNovelties_eq, pushNovelties_eq, List.nil_append,
    List.nil_append, ← List.filter_append]
  rfl

theorem changesAt_max_iff {i : Nat} (hm : i < map.length) (hh : i < hist.length) :
    ChangesAt .max hist map i ↔ map.getD i 0 > hist.getD i 0 := by
  simp only [ChangesAt, List.getElem?_eq_getElem hm, List.getElem?_eq_getElem hh,
    List.getD_eq_getElem?_getD, Option.getD_some, Option.some.injEq, SimdReducer.primitiveReducer,
    MaxReducer.reduce]
  constructor
  · rintro ⟨_, _, rfl, rfl, hne⟩
    split at hne
    · exact absurd rfl hne
    · next hle => exact UInt8.lt_of_le_of_ne (UInt8.not_lt.mp hle) hne.symm
  · intro hlt
    refine ⟨_, _, rfl, rfl, ?_⟩
    rw [if_neg (UInt8.not_lt.mpr (UInt8.le_of_lt hlt))]
    exact (UInt8.ne_of_lt hlt).symm

theorem mem_pushNovelties_range (h : map.length ≤ hist.length) {base n : Nat}
    (hbase : base + n ≤ map.length) {i : Nat} :
    i ∈ pushNovelties hist map (List.range' base n) [] ↔
      (base ≤ i ∧ i < base + n) ∧ ChangesAt .max hist map i := by
  rw [mem_pushNovelties, List.mem_range'_1]
  exact and_congr_right fun hi => (changesAt_max_iff (by omega) (by omega)).symm

/-- The two versions differ where zeros alone change their entries. -/
theorem naive_iff_changesAt :
    (covmapIsInterestingNaive R.primitiveReducer hist map = true ↔
        ∃ i, ChangesAt R hist map i) ↔ ZerosDoNotDecide R hist map := by
  rw [covmapIsInterestingNaive_iff]
  constructor
  · rintro h ⟨i, hi, -⟩
    exact h.mpr ⟨i, hi⟩
  · refine fun hzero => ⟨fun ⟨i, hi, _⟩ => ⟨i, hi⟩, ?_⟩
    rintro ⟨i, hi⟩
    by_cases hmap : map[i]? = some 0
    · exact hzero ⟨i, hi, hmap⟩
    · exact ⟨i, hi, hmap⟩

end

section

variable {V : Type} [DecidableEq V] [VectorType V] [LawfulVectorType V] {R : SimdReducer}
  {hist map : List UInt8}

theorem covmapIsInterestingSimd_iff_changesAt (h : map.length ≤ hist.length)
    (hR : R ≠ .nop ∨ VectorType.N V ∣ map.length) :
    covmapIsInterestingSimd V R hist map = true ↔ ∃ i, ChangesAt R hist map i := by
  rw [← exists_changes_iff]
  by_cases hnop : R = .nop
  · have hwhole := Nat.div_mul_cancel (hR.resolve_left (not_not_intro hnop))
    subst hnop
    rw [covmapIsInterestingSimd_nop h, hwhole, List.take_length]
    rfl
  · exact covmapIsInterestingSimd_reduces hnop h

end

/-- Vectors as they are simplified. A comparison makes a mask, which selects
between two vectors byte by byte. -/
class SelectVectorType (V : Type) extends VectorType V where
  zero : V
  one : V
  eighty : V
  select : V → V → V → V
  simdEq : V → V → V

/-- The bytes of a mask are all ones or all zeros. -/
def maskByte (b : Bool) : UInt8 := if b then 0xff else 0

class LawfulSelectVectorType (V : Type) [SelectVectorType V] : Prop
    extends LawfulVectorType V where
  asSlice_zero : VectorType.asSlice (SelectVectorType.zero : V) =
    List.replicate (VectorType.N V) 0
  asSlice_one : VectorType.asSlice (SelectVectorType.one : V) =
    List.replicate (VectorType.N V) 1
  asSlice_eighty : VectorType.asSlice (SelectVectorType.eighty : V) =
    List.replicate (VectorType.N V) 0x80
  asSlice_simdEq : ∀ v w : V, VectorType.asSlice (SelectVectorType.simdEq v w) =
    (VectorType.asSlice v).zipWith (fun a b => maskByte (a = b)) (VectorType.asSlice w)
  asSlice_select : ∀ (bits : List Bool) (mask ifTrue ifFalse : V),
    VectorType.asSlice mask = bits.map maskByte →
    VectorType.asSlice (SelectVectorType.select mask ifTrue ifFalse) =
      bits.zipWith (fun bit (e : UInt8 × UInt8) => if bit then e.1 else e.2)
        ((VectorType.asSlice ifTrue).zip (VectorType.asSlice ifFalse))

def simplifyByte (it : UInt8) : UInt8 := if it = 0 then 0x1 else 0x80

def simplifyMapNaive (map : List UInt8) : List UInt8 := map.map simplifyByte

section

variable (V : Type) [SelectVectorType V]

/-- One vector of the map is read and written back; `from_slice` and
`copy_from_slice` check the lengths. -/
def simplifyStep (map : List UInt8) (step : Nat) : Option (List UInt8) :=
  let i := step * VectorType.N V
  let mp : V := VectorType.fromSlice (map.drop i)
  let mask := SelectVectorType.simdEq mp SelectVectorType.zero
  let out := VectorType.asSlice
    (SelectVectorType.select mask SelectVectorType.one SelectVectorType.eighty)
  if i + VectorType.N V ≤ map.length ∧ out.length = VectorType.N V then
    some (Slice.writeAt map i out)
  else none

def simplifyMapSimd (map : List UInt8) : Option (List UInt8) := do
  let size := map.length
  let steps := size / VectorType.N V
  let left := size % VectorType.N V
  let map ← (List.range steps).foldlM (simplifyStep V) map
  return (List.range' (size - left) left).foldl (fun map j => map.modify j simplifyByte) map

end

section

variable {V : Type} [SelectVectorType V] [LawfulSelectVectorType V]

/-- What is written back of one vector. -/
theorem asSlice_select_simdEq {arr : List UInt8} (h : VectorType.N V ≤ arr.length) :
    VectorType.asSlice (SelectVectorType.select
        (SelectVectorType.simdEq (VectorType.fromSlice arr) SelectVectorType.zero)
        (SelectVectorType.one : V) SelectVectorType.eighty) =
      (arr.take (VectorType.N V)).map simplifyByte := by
  have hlen : (arr.take (VectorType.N V)).length = VectorType.N V := List.length_take_of_le h
  have hmask : VectorType.asSlice
      (SelectVectorType.simdEq (VectorType.fromSlice arr : V) SelectVectorType.zero) =
      ((arr.take (VectorType.N V)).map fun a => decide (a = 0)).map maskByte := by
    rw [LawfulSelectVectorType.asSlice_simdEq, LawfulVectorType.asSlice_fromSlice arr h,
      LawfulSelectVectorType.asSlice_zero]
    refine List.ext_getElem (by simp) fun i hi hi' => ?_
    simp
  rw [LawfulSelectVectorType.asSlice_select _ _ _ _ hmask, LawfulSelectVectorType.asSlice_one,
    LawfulSelectVectorType.asSlice_eighty]
  refine List.ext_getElem (by simp) fun i hi hi' => ?_
  simp [simplifyByte]

theorem simplifyStep_eq {map : List UInt8} {step : Nat}
    (h : step * VectorType.N V + VectorType.N V ≤ map.length) :
    simplifyStep V map step =
      some (Slice.writeAt map (step * VectorType.N V)
        ((Slice.sub map (step * VectorType.N V) (VectorType.N V)).map simplifyByte)) := by
  have hrest : VectorType.N V ≤ (map.drop (step * VectorType.N V)).length := by
    rw [List.length_drop]
    omega
  have hout := asSlice_select_simdEq hrest
  have hlen := congrArg List.length hout
  rw [List.length_map, List.length_take, List.length_drop] at hlen
  rw [simplifyStep, if_pos ⟨h, hlen.trans (by omega)⟩, hout, Slice.sub]

/-- The vectors, one after the other, cover the bytes up to the last full one. -/
theorem foldlM_simplifyStep {map : List UInt8} {steps : Nat}
    (h : steps * VectorType.N V ≤ map.length) :
    (List.range steps).foldlM (simplifyStep V) map =
      some ((map.take (steps * VectorType.N V)).map simplifyByte ++
        map.drop (steps * VectorType.N V)) := by
  induction steps with
  | zero => simp
  | succ steps ih =>
      have hsum : (steps + 1) * VectorType.N V = steps * VectorType.N V + VectorType.N V :=
        Nat.succ_mul ..
      rw [hsum] at h ⊢
      set n := steps * VectorType.N V with hn
      have hpre : ((map.take n).map simplifyByte).length = n := by
        rw [List.length_map, List.length_take]
        omega
      have hfits : steps * VectorType.N V + VectorType.N V ≤
          ((map.take n).map simplifyByte ++ map.drop n).length := by
        rw [List.length_append, hpre, List.length_drop]
        omega
      have hstep := simplifyStep_eq hfits
      have hsub : Slice.sub ((map.take n).map simplifyByte ++ map.drop n) n (VectorType.N V) =
          (map.drop n).take (VectorType.N V) := by
        rw [Slice.sub, List.drop_left' hpre]
      have hlen : (((map.drop n).take (VectorType.N V)).map simplifyByte).length =
          VectorType.N V := by
        rw [List.length_map, List.length_take, List.length_drop]
        omega
      have hwrite : Slice.writeAt ((map.take n).map simplifyByte ++ map.drop n) n
          (((map.drop n).take (VectorType.N V)).map simplifyByte) =
          (map.take (n + VectorType.N V)).map simplifyByte ++ map.drop (n + VectorType.N V) := by
        rw [Slice.writeAt, hlen, List.take_left' hpre, ← List.map_append, ← List.take_add,
          ← List.drop_drop, List.drop_left' hpre, List.drop_drop]
      rw [hsub, hwrite] at hstep
      rw [List.range_succ, List.foldlM_append, ih (by omega)]
      exact (List.foldlM_cons ..).trans (congrArg (· >>= _) hstep)

/-- **The two versions of simplifying a map agree**, wherever the last full
vector ends. -/
theorem simplifyMapSimd_eq_naive (map : List UInt8) :
    simplifyMapSimd V map = some (simplifyMapNaive map) := by
  have hdiv := Nat.div_add_mod' map.length (VectorType.N V)
  set n := map.length / VectorType.N V * VectorType.N V with hn
  have hpre : ((map.take n).map simplifyByte).length = n := by
    rw [List.length_map, List.length_take]
    omega
  have hleft : map.length % VectorType.N V = (map.drop n).length := by
    rw [List.length_drop]
    omega
  have hstart : map.length - (map.drop n).length = ((map.take n).map simplifyByte).length := by
    rw [hpre, List.length_drop]
    omega
  have hfits : map.length / VectorType.N V * VectorType.N V ≤ map.length := by omega
  have hvectors := foldlM_simplifyStep hfits
  rw [← hn] at hvectors
  rw [simplifyMapSimd, hvectors, hleft, hstart]
  refine congrArg some ((Slice.foldl_modify_range' ..).trans ?_)
  rw [← List.map_append, List.take_append_drop, simplifyMapNaive]

end

/-! ### The vectors of sixteen and of thirty-two bytes -/

instance {n : Nat} : SelectVectorType (List.Vector UInt8 n) where
  zero := .replicate n 0
  one := .replicate n 1
  eighty := .replicate n 0x80
  select mask ifTrue ifFalse := .ofFn fun i =>
    if mask.get i = 0 then ifFalse.get i else ifTrue.get i
  simdEq := List.Vector.zipWith fun a b => maskByte (a = b)

instance {n : Nat} [NeZero n] : LawfulSelectVectorType (List.Vector UInt8 n) where
  asSlice_zero := rfl
  asSlice_one := rfl
  asSlice_eighty := rfl
  asSlice_simdEq _ _ := rfl
  asSlice_select bits mask ifTrue ifFalse h := by
    have hbits : bits.length = n := by
      have hlen := congrArg List.length h
      rw [List.length_map] at hlen
      exact hlen.symm.trans mask.toList_length
    refine (List.Vector.toList_ofFn _).trans (List.ext_getElem ?_ fun i hi hi' => ?_)
    · simp [VectorType.asSlice, hbits]
    · have hn : i < bits.length := by
        rw [List.length_ofFn] at hi
        exact hbits ▸ hi
      have hmask (hm : i < mask.toList.length) : mask.toList[i] = maskByte bits[i] :=
        (List.getElem_of_eq h hm).trans (List.getElem_map ..)
      have hzero : maskByte bits[i] = 0 ↔ ¬bits[i] = true := by
        cases bits[i] <;> decide
      simp only [VectorType.asSlice, List.getElem_ofFn, List.getElem_zipWith, List.getElem_zip,
        List.Vector.get_eq_get_toList, List.get_eq_getElem, Fin.val_cast, hmask, hzero, ite_not]

theorem simplifyMapSimd_u8x16 :
    simplifyMapSimd (List.Vector UInt8 16) [0, 7] = some (simplifyMapNaive [0, 7]) :=
  simplifyMapSimd_eq_naive [0, 7]

end Libaflmm
