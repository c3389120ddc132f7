import Mathlib.Logic.Basic

/-!
# Filters of addresses

A module of the emulator looks only at the addresses its filter allows. A filter
is a list of ranges, to which any module and any tuple of modules can add one,
and says which addresses are allowed: those in the list or those outside of it.
-/

namespace Libaflmm

/-- `Range<GuestAddr>` -/
structure AddressRange where
  start : Nat
  stop : Nat
deriving DecidableEq

def AddressRange.contains (r : AddressRange) (address : Nat) : Prop :=
  r.start ≤ address ∧ address < r.stop

instance (r : AddressRange) (address : Nat) : Decidable (r.contains address) :=
  inferInstanceAs (Decidable (_ ∧ _))

class AddressFilter (F : Type) where
  register : AddressRange → F → F
  allowed : F → Nat → Bool

inductive FilterList (T : Type)
  | allowList (list : T)
  | denyList (list : T)
  | none

instance {T : Type} [AddressFilter T] : AddressFilter (FilterList T) where
  register range
    | .allowList list => .allowList (AddressFilter.register range list)
    | .denyList list => .denyList (AddressFilter.register range list)
    | .none => .none
  allowed
    | .allowList list, address => AddressFilter.allowed list address
    | .denyList list, address => !AddressFilter.allowed list address
    | .none, _ => true

structure AddressFilterVec where
  registeredAddresses : List AddressRange

instance : AddressFilter AddressFilterVec where
  register range self := ⟨self.registeredAddresses ++ [range]⟩
  allowed self address :=
    if self.registeredAddresses.isEmpty then true
    else self.registeredAddresses.any fun range => range.contains address

/-- A filter that is made as an allow list or as a deny list. -/
structure StdAddressFilter where
  list : FilterList AddressFilterVec
  isList : list ≠ .none

namespace StdAddressFilter

def allowList (registeredAddresses : List AddressRange) : StdAddressFilter :=
  ⟨.allowList ⟨registeredAddresses⟩, nofun⟩

def denyList (registeredAddresses : List AddressRange) : StdAddressFilter :=
  ⟨.denyList ⟨registeredAddresses⟩, nofun⟩

def default : StdAddressFilter := allowList []

theorem register_ne_none {list : FilterList AddressFilterVec} (h : list ≠ .none)
    (range : AddressRange) : AddressFilter.register range list ≠ .none := by
  intro hnone
  cases list with
  | allowList list => cases hnone
  | denyList list => cases hnone
  | none => exact h rfl

instance : AddressFilter StdAddressFilter where
  register range self :=
    ⟨AddressFilter.register range self.list, register_ne_none self.isList range⟩
  allowed self address := AddressFilter.allowed self.list address

end StdAddressFilter

/-! ## Modules -/

/-- The two accessors of a module are of the same filter. -/
class HasAddressFilter (M : Type) (F : outParam Type) where
  addressFilter : M → F
  setAddressFilter : F → M → M
  addressFilter_set : ∀ filter m, addressFilter (setAddressFilter filter m) = filter

section

variable {M F : Type} [AddressFilter F] [HasAddressFilter M F]

def allowAddressRange (range : AddressRange) (m : M) : M :=
  HasAddressFilter.setAddressFilter
    (AddressFilter.register range (HasAddressFilter.addressFilter m : F)) m

def allowedAddress (m : M) (address : Nat) : Bool :=
  AddressFilter.allowed (HasAddressFilter.addressFilter m : F) address

end

class HasAddressFilterTuple (T : Type) where
  allowAddressRangeAll : AddressRange → T → T
  allowedAddressAll : T → Nat → Bool

instance : HasAddressFilterTuple Unit where
  allowAddressRangeAll _ self := self
  allowedAddressAll _ _ := true

instance {Head Tail F : Type} [AddressFilter F] [HasAddressFilter Head F]
    [HasAddressFilterTuple Tail] : HasAddressFilterTuple (Head × Tail) where
  allowAddressRangeAll range self :=
    (allowAddressRange range self.1, HasAddressFilterTuple.allowAddressRangeAll range self.2)
  allowedAddressAll self address :=
    allowedAddress self.1 address && HasAddressFilterTuple.allowedAddressAll self.2 address

instance {Head Tail F : Type} [AddressFilter F] [HasAddressFilter Head F]
    [HasAddressFilterTuple Tail] : HasAddressFilterTuple (Option Head × Tail) where
  allowAddressRangeAll range self :=
    (self.1.map (allowAddressRange range), HasAddressFilterTuple.allowAddressRangeAll range self.2)
  allowedAddressAll self address :=
    (self.1.all fun h => allowedAddress h address) &&
      HasAddressFilterTuple.allowedAddressAll self.2 address

/-! ## What a filter says -/

namespace StdAddressFilter

/-- The ranges of a list, and which of its two kinds it is. -/
def ranges (self : StdAddressFilter) : List AddressRange :=
  match self.list with
  | .allowList list | .denyList list => list.registeredAddresses
  | .none => []

def IsAllowList (self : StdAddressFilter) : Prop := ∃ list, self.list = .allowList list

/-- The address is allowed by a filter of the kind of this one with the ranges. -/
def Admits (self : StdAddressFilter) (ranges : List AddressRange) (address : Nat) : Prop :=
  match self.list with
  | .allowList _ => ranges = [] ∨ ∃ range ∈ ranges, range.contains address
  | .denyList _ => ∀ range ∈ ranges, ¬ range.contains address
  | .none => True

variable {self : StdAddressFilter}

theorem allowed_vec {list : AddressFilterVec} {address : Nat} :
    AddressFilter.allowed list address = true ↔
      list.registeredAddresses = [] ∨
        ∃ range ∈ list.registeredAddresses, range.contains address := by
  show (if list.registeredAddresses.isEmpty then true else _) = true ↔ _
  by_cases hempty : list.registeredAddresses = []
  · rw [hempty]
    exact iff_of_true rfl (.inl rfl)
  · rw [if_neg (mt List.isEmpty_iff.mp hempty), List.any_eq_true, or_iff_right hempty]
    simp only [decide_eq_true_eq]

theorem allowed_of_isAllowList {address : Nat} (h : self.IsAllowList) :
    AddressFilter.allowed self address = true ↔ self.Admits self.ranges address := by
  obtain ⟨list, hlist⟩ := self
  obtain ⟨list, rfl⟩ := h
  exact allowed_vec

/-- A deny list is negated, and so does not allow anything as long as it is empty. -/
theorem allowed_of_not_isAllowList {address : Nat} (h : ¬ self.IsAllowList) :
    AddressFilter.allowed self address = true ↔
      self.ranges ≠ [] ∧ self.Admits self.ranges address := by
  obtain ⟨list, hlist⟩ := self
  cases list with
  | allowList list => exact absurd ⟨list, rfl⟩ h
  | denyList list =>
      show (!AddressFilter.allowed list address) = true ↔ _
      rw [Bool.not_eq_true', ← Bool.not_eq_true, allowed_vec, not_or, not_exists]
      simp only [not_and]
      rfl
  | none => exact absurd rfl hlist

theorem ranges_register (range : AddressRange) :
    (AddressFilter.register range self).ranges = self.ranges ++ [range] := by
  obtain ⟨list, hlist⟩ := self
  cases list with
  | allowList list => rfl
  | denyList list => rfl
  | none => exact absurd rfl hlist

theorem isAllowList_register (range : AddressRange) :
    (AddressFilter.register range self).IsAllowList ↔ self.IsAllowList := by
  obtain ⟨list, hlist⟩ := self
  cases list with
  | allowList list => exact iff_of_true ⟨_, rfl⟩ ⟨_, rfl⟩
  | denyList list =>
      constructor
      · rintro ⟨list', h⟩
        cases h
      · rintro ⟨list', h⟩
        cases h
  | none => exact absurd rfl hlist

theorem admits_of_not_isAllowList (h : ¬ self.IsAllowList) {ranges : List AddressRange}
    {address : Nat} :
    self.Admits ranges address ↔ ∀ range ∈ ranges, ¬ range.contains address := by
  obtain ⟨list, hlist⟩ := self
  cases list with
  | allowList list => exact absurd ⟨list, rfl⟩ h
  | denyList list => rfl
  | none => exact absurd rfl hlist

theorem admits_congr {other : StdAddressFilter} (h : other.IsAllowList ↔ self.IsAllowList)
    (ranges : List AddressRange) (address : Nat) :
    other.Admits ranges address ↔ self.Admits ranges address := by
  obtain ⟨list, hlist⟩ := self
  obtain ⟨list', hlist'⟩ := other
  cases list with
  | allowList list =>
      obtain ⟨list'', rfl⟩ := h.mpr ⟨list, rfl⟩
      rfl
  | denyList list =>
      cases list' with
      | allowList list' =>
          obtain ⟨list'', hlist''⟩ := h.mp ⟨list', rfl⟩
          cases hlist''
      | denyList list' => rfl
      | none => exact absurd rfl hlist'
  | none => exact absurd rfl hlist

end StdAddressFilter

/-! ## Registrations -/

section

variable {M : Type} [HasAddressFilter M StdAddressFilter]

theorem addressFilter_allowAddressRange (range : AddressRange) (m : M) :
    HasAddressFilter.addressFilter (allowAddressRange range m) =
      AddressFilter.register range (HasAddressFilter.addressFilter m) :=
  HasAddressFilter.addressFilter_set _ m

/-- The ranges are added, one after the other. -/
def allowAddressRanges (added : List AddressRange) (m : M) : M :=
  added.foldl (fun m range => allowAddressRange range m) m

/-- What is registered with a module is there in its filter, of the same kind. -/
theorem registered_allowAddressRanges (added : List AddressRange) (m : M) :
    (HasAddressFilter.addressFilter (allowAddressRanges added m)).ranges =
        (HasAddressFilter.addressFilter m).ranges ++ added ∧
      ((HasAddressFilter.addressFilter (allowAddressRanges added m)).IsAllowList ↔
        (HasAddressFilter.addressFilter m).IsAllowList) := by
  induction added generalizing m with
  | nil => exact ⟨(List.append_nil _).symm, Iff.rfl⟩
  | cons range added ih =>
      obtain ⟨hranges, hkind⟩ := ih (allowAddressRange range m)
      rw [addressFilter_allowAddressRange] at hranges hkind
      rw [StdAddressFilter.ranges_register, List.append_assoc] at hranges
      exact ⟨hranges, hkind.trans (StdAddressFilter.isAllowList_register range)⟩

/-- A tuple of modules registers the ranges with every module in it. -/
def allowAddressRangesAll {T : Type} [HasAddressFilterTuple T] (added : List AddressRange)
    (modules : T) : T :=
  added.foldl (fun modules range => HasAddressFilterTuple.allowAddressRangeAll range modules)
    modules

theorem allowAddressRangesAll_cons {Tail : Type} [HasAddressFilterTuple Tail]
    (added : List AddressRange) (m : M) (modules : Tail) :
    allowAddressRangesAll added (m, modules) =
      (allowAddressRanges added m, allowAddressRangesAll added modules) := by
  induction added generalizing m modules with
  | nil => rfl
  | cons range added ih =>
      exact ih (allowAddressRange range m)
        (HasAddressFilterTuple.allowAddressRangeAll range modules)

theorem allowAddressRangesAll_option {Tail : Type} [HasAddressFilterTuple Tail]
    (added : List AddressRange) (m : Option M) (modules : Tail) :
    allowAddressRangesAll added (m, modules) =
      (m.map (allowAddressRanges added), allowAddressRangesAll added modules) := by
  induction added generalizing m modules with
  | nil =>
      rw [show allowAddressRanges (M := M) [] = id from rfl, Option.map_id]
      rfl
  | cons range added ih =>
      refine (ih (m.map (allowAddressRange range))
        (HasAddressFilterTuple.allowAddressRangeAll range modules)).trans ?_
      rw [Option.map_map]
      rfl

/-- The filter of the module says what it is named after once the ranges `added`
are registered, and allows the addresses of the next range that is. -/
structure MeansWhatItSays (m : M) (added : List AddressRange) (range : AddressRange) : Prop where
  allowed : ∀ address, allowedAddress (allowAddressRanges added m) address = true ↔
    (HasAddressFilter.addressFilter m).Admits
      ((HasAddressFilter.addressFilter m).ranges ++ added) address
  next : ∀ address, range.contains address →
    allowedAddress (allowAddressRange range (allowAddressRanges added m)) address = true

theorem meansWhatItSays_of_isAllowList {m : M}
    (h : (HasAddressFilter.addressFilter m).IsAllowList) (added : List AddressRange)
    (range : AddressRange) : MeansWhatItSays m added range := by
  obtain ⟨hranges, hkind⟩ := registered_allowAddressRanges added m
  constructor
  · intro address
    rw [allowedAddress, StdAddressFilter.allowed_of_isAllowList (hkind.mpr h), hranges]
    exact StdAddressFilter.admits_congr hkind _ _
  · intro address hcontains
    rw [allowedAddress, addressFilter_allowAddressRange]
    have hlist := (StdAddressFilter.isAllowList_register range).mpr (hkind.mpr h)
    rw [StdAddressFilter.allowed_of_isAllowList hlist, StdAddressFilter.ranges_register]
    obtain ⟨list, hlist⟩ := hlist
    rw [StdAddressFilter.Admits, hlist]
    exact .inr ⟨range, List.mem_append_right _ List.mem_cons_self, hcontains⟩

/-- A deny list that has any ranges denies them, and the next one as well. -/
theorem meansWhatItSays_of_denyList {m : M}
    (h : ¬ (HasAddressFilter.addressFilter m).IsAllowList) (added : List AddressRange)
    (range : AddressRange) :
    MeansWhatItSays m added range ↔
      (HasAddressFilter.addressFilter m).ranges ++ added ≠ [] ∧ range.stop ≤ range.start := by
  obtain ⟨hranges, hkind⟩ := registered_allowAddressRanges added m
  have hdeny := mt hkind.mp h
  have hnext := mt (StdAddressFilter.isAllowList_register range).mp hdeny
  constructor
  · rintro ⟨hallowed, hrange⟩
    constructor
    · intro hempty
      have hfirst := (hallowed 0).mpr
        ((StdAddressFilter.admits_of_not_isAllowList h).mpr (by simp [hempty]))
      rw [allowedAddress, StdAddressFilter.allowed_of_not_isAllowList hdeny, hranges] at hfirst
      exact hfirst.1 hempty
    · refine Nat.le_of_not_lt fun hlt => ?_
      have hstart : range.contains range.start := ⟨Nat.le_refl _, hlt⟩
      have hallow := hrange range.start hstart
      rw [allowedAddress, addressFilter_allowAddressRange,
        StdAddressFilter.allowed_of_not_isAllowList hnext, StdAddressFilter.ranges_register,
        StdAddressFilter.admits_of_not_isAllowList hnext] at hallow
      exact hallow.2 range (List.mem_append_right _ List.mem_cons_self) hstart
  · rintro ⟨hne, hempty⟩
    constructor
    · intro address
      rw [allowedAddress, StdAddressFilter.allowed_of_not_isAllowList hdeny, hranges,
        and_iff_right hne]
      exact StdAddressFilter.admits_congr hkind _ _
    · rintro address ⟨hle, hlt⟩
      exact absurd (Nat.lt_of_le_of_lt hle hlt) (Nat.not_lt.mpr hempty)

/-- **A filter means what it says** exactly when it is an allow list, or the deny
list has some range and the next one is empty. -/
theorem meansWhatItSays_iff (m : M) (added : List AddressRange) (range : AddressRange) :
    MeansWhatItSays m added range ↔
      (HasAddressFilter.addressFilter m).IsAllowList ∨
        ((HasAddressFilter.addressFilter m).ranges ++ added ≠ [] ∧ range.stop ≤ range.start) := by
  by_cases h : (HasAddressFilter.addressFilter m).IsAllowList
  · exact iff_of_true (meansWhatItSays_of_isAllowList h added range) (.inl h)
  · rw [meansWhatItSays_of_denyList h, or_iff_right h]

end

/-- A filter alone. -/
instance : HasAddressFilter StdAddressFilter StdAddressFilter where
  addressFilter m := m
  setAddressFilter filter _ := filter
  addressFilter_set _ _ := rfl

/-- The empty deny list allows nothing, and the range that is then allowed is denied. -/
theorem not_meansWhatItSays_denyList :
    ¬ MeansWhatItSays (StdAddressFilter.denyList []) [] ⟨0x1000, 0x2000⟩ := by
  intro h
  have hdeny : ¬ (StdAddressFilter.denyList []).IsAllowList := by
    rintro ⟨list, hlist⟩
    cases hlist
  exact ((meansWhatItSays_of_denyList hdeny [] ⟨0x1000, 0x2000⟩).mp h).1 rfl

end Libaflmm
