import Libaflmm.DrCov

/-!
# Range maps that overwrite

A range that is inserted replaces the portions of the ranges it overlaps, and
is coalesced with those of its value it touches. What a map is for is the value
of an address: `valueAt_insert` says all there is to know of an insertion, as
the ranges of a map are the longest ones with one value.

`CoalescedRanges` is such a map, kept as the list of its ranges.
-/

namespace Libaflmm

theorem ModuleRange.contains_iff {r : ModuleRange} {addr : Nat} :
    r.contains addr = true ↔ r.start ≤ addr ∧ addr < r.stop :=
  decide_eq_true_iff

namespace Ranges

variable {r : ModuleRange} {rs rs' : List ModuleRange} {addr : Nat}

/-- The value of an address in a list of ranges. -/
def valueAt (ranges : List ModuleRange) (addr : Nat) : Option (UInt16 × Text) :=
  (ranges.find? fun r => r.contains addr).map fun r => (r.id, r.path)

theorem valueAt_cons : valueAt (r :: rs) addr =
    if r.contains addr then some (r.id, r.path) else valueAt rs addr := by
  rw [valueAt, List.find?_cons]
  cases r.contains addr <;> rfl

theorem valueAt_append : valueAt (rs ++ rs') addr = (valueAt rs addr).or (valueAt rs' addr) := by
  rw [valueAt, List.find?_append, Option.map_or]
  rfl

/-- Ranges from the lowest to the highest. -/
structure Ordered (rs : List ModuleRange) : Prop where
  bounds : ∀ r ∈ rs, r.start < r.stop ∧ r.stop < 2 ^ 64
  sorted : rs.Pairwise fun r r' => r.stop ≤ r'.start

/-- Of two that touch, the values differ. -/
def Coalesced (rs : List ModuleRange) : Prop :=
  rs.Pairwise fun r r' => r.stop = r'.start → ¬ (r.id = r'.id ∧ r.path = r'.path)

theorem ordered_nil : Ordered [] :=
  ⟨fun _ h => absurd h List.not_mem_nil, .nil⟩

theorem coalesced_nil : Coalesced [] := .nil

theorem ordered_cons : Ordered (r :: rs) ↔
    (r.start < r.stop ∧ r.stop < 2 ^ 64) ∧ (∀ r' ∈ rs, r.stop ≤ r'.start) ∧ Ordered rs := by
  constructor
  · intro h
    obtain ⟨hhead, htail⟩ := List.forall_mem_cons.mp h.bounds
    obtain ⟨hbefore, hsorted⟩ := List.pairwise_cons.mp h.sorted
    exact ⟨hhead, hbefore, htail, hsorted⟩
  · rintro ⟨hhead, hbefore, htail⟩
    exact ⟨List.forall_mem_cons.mpr ⟨hhead, htail.bounds⟩,
      List.pairwise_cons.mpr ⟨hbefore, htail.sorted⟩⟩

theorem Ordered.of_append (h : Ordered (rs ++ rs')) : Ordered rs :=
  ⟨fun r hr => h.bounds r (List.mem_append_left _ hr), (List.pairwise_append.mp h.sorted).1⟩

/-- Two ranges are apart, or the same. -/
theorem Ordered.apart (h : Ordered rs) {r' : ModuleRange} (hr : r ∈ rs) (hr' : r' ∈ rs) :
    r = r' ∨ r.stop ≤ r'.start ∨ r'.stop ≤ r.start := by
  obtain ⟨i, hi, rfl⟩ := List.mem_iff_getElem.mp hr
  obtain ⟨j, hj, rfl⟩ := List.mem_iff_getElem.mp hr'
  have hsorted := List.pairwise_iff_getElem.mp h.sorted
  rcases Nat.lt_trichotomy i j with hlt | rfl | hgt
  · exact .inr (.inl (hsorted i j hi hj hlt))
  · exact .inl rfl
  · exact .inr (.inr (hsorted j i hj hi hgt))

/-- The value of an address is that of the range it is in. -/
theorem Ordered.valueAt_eq_some_iff (h : Ordered rs) {value : UInt16 × Text} :
    valueAt rs addr = some value ↔ ∃ r ∈ rs, r.contains addr ∧ (r.id, r.path) = value := by
  induction rs with
  | nil => simp [valueAt]
  | cons r rs ih =>
      obtain ⟨-, hbefore, hrs⟩ := ordered_cons.mp h
      rw [valueAt_cons, List.exists_mem_cons_iff, ← ih hrs]
      split
      · next hc =>
          have hnone : ¬ valueAt rs addr = some value := by
            rw [ih hrs]
            rintro ⟨r', hr', hc', -⟩
            have hle := hbefore r' hr'
            rw [ModuleRange.contains_iff] at hc hc'
            omega
          simp [hc, hnone]
      · next hc => simp [hc]

/-! ## Coalescing -/

/-- A range in front of others. -/
def push (r : ModuleRange) : List ModuleRange → List ModuleRange
  | [] => [r]
  | r' :: rs =>
    if r.stop = r'.start ∧ r.id = r'.id ∧ r.path = r'.path then { r' with start := r.start } :: rs
    else r :: r' :: rs

def coalesce (rs : List ModuleRange) : List ModuleRange := rs.foldr push []

theorem valueAt_push (hr : r.start ≤ r.stop) (hrs : Ordered rs) : valueAt (push r rs) addr =
    if r.contains addr then some (r.id, r.path) else valueAt rs addr := by
  cases rs with
  | nil => exact valueAt_cons
  | cons r' rs =>
      rw [push]
      split
      · next h =>
          obtain ⟨htouch, hid, hpath⟩ := h
          have hr' := (ordered_cons.mp hrs).1
          have hmerged : ({ r' with start := r.start } : ModuleRange).contains addr =
              (r.contains addr || r'.contains addr) := by
            simp only [ModuleRange.contains, ← Bool.decide_or]
            refine decide_eq_decide.mpr ?_
            omega
          rw [valueAt_cons, valueAt_cons, hmerged, hid, hpath]
          cases r.contains addr <;> rfl
      · exact valueAt_cons

theorem ordered_push (hr : r.start < r.stop ∧ r.stop < 2 ^ 64)
    (hbefore : ∀ r' ∈ rs, r.stop ≤ r'.start) (hrs : Ordered rs) : Ordered (push r rs) := by
  cases rs with
  | nil => exact ordered_cons.mpr ⟨hr, nofun, hrs⟩
  | cons r' rs =>
      obtain ⟨hr', hbefore', hrs'⟩ := ordered_cons.mp hrs
      rw [push]
      split
      · next h => exact ordered_cons.mpr ⟨⟨by dsimp only; omega, hr'.2⟩, hbefore', hrs'⟩
      · exact ordered_cons.mpr ⟨hr, hbefore, hrs⟩

theorem le_start_of_mem_push {n : Nat} (hr : n ≤ r.start) (hrs : ∀ r' ∈ rs, n ≤ r'.start) :
    ∀ r' ∈ push r rs, n ≤ r'.start := by
  cases rs with
  | nil => exact List.forall_mem_cons.mpr ⟨hr, nofun⟩
  | cons r' rs =>
      rw [push]
      split
      · exact List.forall_mem_cons.mpr ⟨hr, (List.forall_mem_cons.mp hrs).2⟩
      · exact List.forall_mem_cons.mpr ⟨hr, hrs⟩

theorem coalesced_push (hbefore : ∀ r' ∈ rs, r.stop ≤ r'.start) (hordered : Ordered rs)
    (hrs : Coalesced rs) : Coalesced (push r rs) := by
  cases rs with
  | nil => exact List.pairwise_singleton _ _
  | cons r' rs =>
      obtain ⟨hr', hbefore', -⟩ := ordered_cons.mp hordered
      obtain ⟨hhead, htail⟩ := List.pairwise_cons.mp hrs
      rw [push]
      split
      · exact List.pairwise_cons.mpr ⟨hhead, htail⟩
      · next h =>
          refine List.pairwise_cons.mpr
            ⟨List.forall_mem_cons.mpr ⟨fun ht hv => h ⟨ht, hv⟩, ?_⟩, hrs⟩
          intro r'' hr'' htouch
          have := hbefore r' List.mem_cons_self
          have := hbefore' r'' hr''
          omega

theorem le_start_of_mem_coalesce {n : Nat} (hrs : ∀ r ∈ rs, n ≤ r.start) :
    ∀ r ∈ coalesce rs, n ≤ r.start := by
  induction rs with
  | nil => exact hrs
  | cons r rs ih =>
      obtain ⟨hr, hrs⟩ := List.forall_mem_cons.mp hrs
      exact le_start_of_mem_push hr (ih hrs)

theorem ordered_coalesce (h : Ordered rs) : Ordered (coalesce rs) := by
  induction rs with
  | nil => exact h
  | cons r rs ih =>
      obtain ⟨hr, hbefore, hrs⟩ := ordered_cons.mp h
      exact ordered_push hr (le_start_of_mem_coalesce hbefore) (ih hrs)

theorem coalesced_coalesce (h : Ordered rs) : Coalesced (coalesce rs) := by
  induction rs with
  | nil => exact coalesced_nil
  | cons r rs ih =>
      obtain ⟨-, hbefore, hrs⟩ := ordered_cons.mp h
      exact coalesced_push (le_start_of_mem_coalesce hbefore) (ordered_coalesce hrs) (ih hrs)

theorem valueAt_coalesce (h : Ordered rs) : valueAt (coalesce rs) addr = valueAt rs addr := by
  induction rs with
  | nil => rfl
  | cons r rs ih =>
      obtain ⟨hr, -, hrs⟩ := ordered_cons.mp h
      rw [valueAt_cons, ← ih hrs]
      exact valueAt_push (Nat.le_of_lt hr.1) (ordered_coalesce hrs)

theorem coalesce_of_coalesced (h : Coalesced rs) : coalesce rs = rs := by
  induction rs with
  | nil => rfl
  | cons r rs ih =>
      obtain ⟨hhead, htail⟩ := List.pairwise_cons.mp h
      show push r (coalesce rs) = _
      rw [ih htail]
      cases rs with
      | nil => rfl
      | cons r' rs => exact if_neg fun ht => hhead r' List.mem_cons_self ht.1 ht.2

/-! ## Overwriting -/

/-- What is left of a range below an address, and from an address on. -/
def below (stop : Nat) (r : ModuleRange) : Option ModuleRange :=
  if r.start < stop then some { r with stop := min r.stop stop } else none

def above (start : Nat) (r : ModuleRange) : Option ModuleRange :=
  if start < r.stop then some { r with start := max r.start start } else none

def overwrite (rs : List ModuleRange) (r : ModuleRange) : List ModuleRange :=
  rs.filterMap (below r.start) ++ r :: rs.filterMap (above r.stop)

theorem valueAt_singleton :
    valueAt [r] addr = if r.start ≤ addr ∧ addr < r.stop then some (r.id, r.path) else none :=
  valueAt_cons.trans (if_congr ModuleRange.contains_iff rfl rfl)

/-- What is left of every range is what is left of all. -/
theorem valueAt_filterMap {f : ModuleRange → Option ModuleRange} {p : Prop} [Decidable p]
    (hf : ∀ r, valueAt (f r).toList addr = if p then valueAt [r] addr else none) :
    valueAt (rs.filterMap f) addr = if p then valueAt rs addr else none := by
  induction rs with
  | nil => exact (ite_self _).symm
  | cons r rs ih =>
      have hcons : (r :: rs).filterMap f = (f r).toList ++ rs.filterMap f := by
        rw [List.filterMap_cons]
        cases f r <;> rfl
      have hvalue : valueAt (r :: rs) addr = (valueAt [r] addr).or (valueAt rs addr) :=
        (valueAt_append : valueAt ([r] ++ rs) addr = _)
      rw [hcons, valueAt_append, hf, ih, hvalue]
      split
      · rfl
      · rfl

theorem valueAt_below (stop : Nat) : valueAt (rs.filterMap (below stop)) addr =
    if addr < stop then valueAt rs addr else none := by
  refine valueAt_filterMap fun r => ?_
  rw [below, valueAt_singleton, ← ite_and]
  split
  · show valueAt [_] addr = _
    rw [valueAt_singleton]
    refine if_congr ?_ rfl rfl
    dsimp only
    omega
  · exact (if_neg (by omega)).symm

theorem valueAt_above (start : Nat) : valueAt (rs.filterMap (above start)) addr =
    if start ≤ addr then valueAt rs addr else none := by
  refine valueAt_filterMap fun r => ?_
  rw [above, valueAt_singleton, ← ite_and]
  split
  · show valueAt [_] addr = _
    rw [valueAt_singleton]
    refine if_congr ?_ rfl rfl
    dsimp only
    omega
  · exact (if_neg (by omega)).symm

theorem valueAt_overwrite (hr : r.start ≤ r.stop) : valueAt (overwrite rs r) addr =
    if r.contains addr then some (r.id, r.path) else valueAt rs addr := by
  rw [overwrite, valueAt_append, valueAt_below, valueAt_cons, valueAt_above]
  split
  · next hlt =>
      have hc : ¬ r.contains addr := by
        rw [ModuleRange.contains_iff]
        omega
      rw [if_neg hc, if_neg hc, if_neg (by omega), Option.or_none]
  · next hge =>
      rw [Option.none_or]
      split
      · rfl
      · next hc =>
          rw [ModuleRange.contains_iff] at hc
          exact if_pos (by omega)

theorem mem_below {stop : Nat} {r' : ModuleRange} (h : below stop r = some r') :
    r'.start = r.start ∧ r.start < stop ∧ r'.stop = min r.stop stop := by
  rw [below] at h
  split at h
  · next hlt =>
      obtain rfl := Option.some.inj h
      exact ⟨rfl, hlt, rfl⟩
  · cases h

theorem mem_above {start : Nat} {r' : ModuleRange} (h : above start r = some r') :
    r'.start = max r.start start ∧ start < r.stop ∧ r'.stop = r.stop := by
  rw [above] at h
  split at h
  · next hlt =>
      obtain rfl := Option.some.inj h
      exact ⟨rfl, hlt, rfl⟩
  · cases h

theorem ordered_overwrite (hr : r.start < r.stop ∧ r.stop < 2 ^ 64) (h : Ordered rs) :
    Ordered (overwrite rs r) where
  bounds r' hr' := by
    rcases List.mem_append.mp hr' with hr' | hr'
    · obtain ⟨x, hx, hbelow⟩ := List.mem_filterMap.mp hr'
      have := h.bounds x hx
      have := mem_below hbelow
      omega
    · rcases List.mem_cons.mp hr' with rfl | hr'
      · exact hr
      · obtain ⟨x, hx, habove⟩ := List.mem_filterMap.mp hr'
        have := h.bounds x hx
        have := mem_above habove
        omega
  sorted := by
    refine List.pairwise_append.mpr ⟨?_, List.pairwise_cons.mpr ⟨fun r' hr' => ?_, ?_⟩, ?_⟩
    · refine h.sorted.filterMap _ fun x x' hle y hy y' hy' => ?_
      have := mem_below hy
      have := mem_below hy'
      omega
    · obtain ⟨x, hx, habove⟩ := List.mem_filterMap.mp hr'
      have := mem_above habove
      omega
    · refine h.sorted.filterMap _ fun x x' hle y hy y' hy' => ?_
      have := mem_above hy
      have := mem_above hy'
      omega
    · intro y hy y' hy'
      obtain ⟨x, hx, hbelow⟩ := List.mem_filterMap.mp hy
      have := mem_below hbelow
      rcases List.mem_cons.mp hy' with rfl | hy'
      · omega
      · obtain ⟨x', hx', habove⟩ := List.mem_filterMap.mp hy'
        have := mem_above habove
        omega

/-- Behind all others there is nothing to overwrite. -/
theorem overwrite_of_behind (hr : r.start < r.stop) (hbounds : ∀ r' ∈ rs, r'.start < r'.stop)
    (hbefore : ∀ r' ∈ rs, r'.stop ≤ r.start) : overwrite rs r = rs ++ [r] := by
  have hbelow : rs.filterMap (below r.start) = rs := by
    refine (List.filterMap_congr fun r' hr' => ?_).trans List.filterMap_some
    have := hbounds r' hr'
    have := hbefore r' hr'
    rw [below, if_pos (by omega), Nat.min_eq_left (by omega)]
  have habove : rs.filterMap (above r.stop) = [] := by
    refine List.filterMap_eq_nil_iff.mpr fun r' hr' => ?_
    have := hbefore r' hr'
    exact if_neg (by omega)
  rw [overwrite, hbelow, habove]

end Ranges

/-- `RangeMap::insert` overwrites. -/
class OverwritingRangeMap (M : Type) extends RangeMap M where
  valueAt_insert : ∀ m r, r.start < r.stop → r.stop < 2 ^ 64 → ∃ m', insert m r = some m' ∧
    ∀ addr, Ranges.valueAt (iter m') addr =
      if r.contains addr then some (r.id, r.path) else Ranges.valueAt (iter m) addr

/-! ## Maps that are lists of ranges -/

structure CoalescedRanges where
  ranges : List ModuleRange
  ordered : Ranges.Ordered ranges
  coalesced : Ranges.Coalesced ranges

namespace CoalescedRanges

def new : CoalescedRanges := ⟨[], Ranges.ordered_nil, Ranges.coalesced_nil⟩

def insert (m : CoalescedRanges) (r : ModuleRange) : Option CoalescedRanges :=
  if h : r.start < r.stop ∧ r.stop < 2 ^ 64 then
    some {
      ranges := Ranges.coalesce (Ranges.overwrite m.ranges r)
      ordered := Ranges.ordered_coalesce (Ranges.ordered_overwrite h m.ordered)
      coalesced := Ranges.coalesced_coalesce (Ranges.ordered_overwrite h m.ordered) }
  else none

instance : OverwritingRangeMap CoalescedRanges where
  new := new
  insert := insert
  iter m := m.ranges
  getKeyValue m addr := m.ranges.find? fun r => r.contains addr
  iter_new := rfl
  start_lt m r hr := (m.ordered.bounds r hr).1
  stop_lt m r hr := (m.ordered.bounds r hr).2
  sorted m := m.ordered.sorted
  coalesced m := m.coalesced
  getKeyValue_eq _ _ := rfl
  iter_insert m r hstart hstop hbefore := by
    refine ⟨_, dif_pos ⟨hstart, hstop⟩, ?_⟩
    show Ranges.coalesce (Ranges.overwrite m.ranges r) = m.ranges ++ [r]
    rw [Ranges.overwrite_of_behind hstart (fun r' hr' => (m.ordered.bounds r' hr').1)
      fun r' hr' => (hbefore r' hr').1]
    refine Ranges.coalesce_of_coalesced (List.pairwise_append.mpr
      ⟨m.coalesced, List.pairwise_singleton _ _, fun r' hr' r'' hr'' => ?_⟩)
    obtain rfl := List.mem_singleton.mp hr''
    exact (hbefore r' hr').2
  valueAt_insert m r hstart hstop := by
    refine ⟨_, dif_pos ⟨hstart, hstop⟩, fun addr => ?_⟩
    have hordered := Ranges.ordered_overwrite ⟨hstart, hstop⟩ m.ordered
    exact (Ranges.valueAt_coalesce hordered).trans (Ranges.valueAt_overwrite (Nat.le_of_lt hstart))

end CoalescedRanges

end Libaflmm
