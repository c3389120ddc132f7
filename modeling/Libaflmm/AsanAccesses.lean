import Libaflmm.AsanHost

/-!
# The access checks of the host-side sanitizer

A byte is poisoned when its granule is marked, and it does not lie below the mark.
The check of a range looks at every granule the range touches; the check of an
access of 1, 2, 4 or 8 bytes looks at the first one only.

The guest's address 0 is aligned in the host, so that guest and host granules are
the same.
-/

namespace Libaflmm

namespace AsanGiovese

variable {guestBase : Nat} {self : AsanGiovese}

/-- The mark of the granule of an address. -/
def mark (guestBase : Nat) (self : AsanGiovese) (a : Nat) : Int :=
  (self.shadow (shadowAddr guestBase a)).toInt

def Poisoned (guestBase : Nat) (self : AsanGiovese) (a : Nat) : Prop :=
  self.mark guestBase a ≠ 0 ∧ self.mark guestBase a < (a % 8 + 1 : Nat)

/-- Some byte is poisoned. -/
def SomePoisoned (guestBase : Nat) (self : AsanGiovese) (start stop : Nat) : Prop :=
  ∃ a, start ≤ a ∧ a < stop ∧ self.Poisoned guestBase a

/-- A granule in the range has a mark that no address exceeds. -/
def SomeHigh (guestBase : Nat) (self : AsanGiovese) (start stop : Nat) : Prop :=
  ∃ g, g % 8 = 0 ∧ start ≤ g ∧ g + 8 ≤ stop ∧ 8 ≤ self.mark guestBase g

theorem ne_zero_iff {k : Int8} : k ≠ 0 ↔ k.toInt ≠ 0 := by
  rw [← Int8.toInt_zero, Ne, Ne, Int8.toInt_inj]

theorem somePoisoned_append {start mid stop : Nat} (hle : start ≤ mid) (hle' : mid ≤ stop) :
    self.SomePoisoned guestBase start stop ↔
      self.SomePoisoned guestBase start mid ∨ self.SomePoisoned guestBase mid stop := by
  constructor
  · rintro ⟨a, hge, hlt, ha⟩
    by_cases hmid : a < mid
    · exact .inl ⟨a, hge, hmid, ha⟩
    · exact .inr ⟨a, by omega, hlt, ha⟩
  · rintro (⟨a, hge, hlt, ha⟩ | ⟨a, hge, hlt, ha⟩)
    · exact ⟨a, hge, by omega, ha⟩
    · exact ⟨a, by omega, hlt, ha⟩

/-- Only the whole granules of a range count. -/
theorem someHigh_congr {start stop start' stop' : Nat}
    (h : ∀ g, g % 8 = 0 → (start ≤ g ∧ g + 8 ≤ stop ↔ start' ≤ g ∧ g + 8 ≤ stop')) :
    self.SomeHigh guestBase start stop ↔ self.SomeHigh guestBase start' stop' := by
  refine exists_congr fun g => and_congr_right fun hmod => ?_
  rw [← and_assoc, ← and_assoc, h g hmod]

section

variable (hbase : 8 ∣ guestBase)

include hbase

theorem shadowAddr_eq (a : Nat) : shadowAddr guestBase a = a / 8 + guestBase / 8 := by
  obtain ⟨c, rfl⟩ := hbase
  rw [shadowAddr, g2h, Nat.shiftRight_eq_div_pow]
  omega

theorem mark_eq {a b : Nat} (h : a / 8 = b / 8) :
    self.mark guestBase a = self.mark guestBase b := by
  rw [mark, mark, shadowAddr_eq hbase, shadowAddr_eq hbase, h]

theorem g2h_mod (a : Nat) : g2h guestBase a % 8 = a % 8 := by
  obtain ⟨c, rfl⟩ := hbase
  rw [g2h, Nat.add_mul_mod_self_left]

variable (self) in
/-- In a part of a granule the last byte is the first to be poisoned. -/
theorem somePoisoned_part {start size : Nat} (hsize : 0 < size) (hpart : start % 8 + size ≤ 8) :
    self.SomePoisoned guestBase start (start + size) ↔
      self.mark guestBase start ≠ 0 ∧ self.mark guestBase start < (start % 8 + size : Nat) := by
  constructor
  · rintro ⟨a, hle, hlt, hne, hmark⟩
    rw [mark_eq hbase (show a / 8 = start / 8 by omega)] at hne hmark
    exact ⟨hne, by omega⟩
  · rintro ⟨hne, hlt⟩
    refine ⟨start + size - 1, by omega, by omega, ?_⟩
    rw [Poisoned, mark_eq hbase (show (start + size - 1) / 8 = start / 8 by omega)]
    exact ⟨hne, by omega⟩

variable (self) in
/-- The test of a part of a granule is exact. -/
theorem invalidPart_iff {start size : Nat} (hsize : 0 < size) (hpart : start % 8 + size ≤ 8) :
    self.invalidPart guestBase start size = true ↔
      self.SomePoisoned guestBase start (start + size) := by
  rw [invalidPart, decide_eq_true_iff, ne_zero_iff, g2h_mod hbase, somePoisoned_part self hbase
    hsize hpart]
  rfl

theorem someHigh_or_somePoisoned {g : Nat} (hg : g % 8 = 0) : self.mark guestBase g ≠ 0 ↔
    self.SomePoisoned guestBase g (g + 8) ∨ 8 ≤ self.mark guestBase g := by
  constructor
  · intro hne
    by_cases hhigh : 8 ≤ self.mark guestBase g
    · exact .inr hhigh
    · refine .inl ⟨g + 7, by omega, by omega, ?_⟩
      rw [Poisoned, mark_eq hbase (show (g + 7) / 8 = g / 8 by omega)]
      exact ⟨hne, by omega⟩
  · rintro (⟨a, hle, hlt, hne, -⟩ | hhigh)
    · rw [mark_eq hbase (show a / 8 = g / 8 by omega)] at hne
      exact hne
    · omega

variable (self) in
/-- The loop over whole granules. -/
theorem any_granule_iff {start stop : Nat} (hstart : start % 8 = 0) (hstop : stop % 8 = 0) :
    ((strided 8 start stop).any fun g => self.shadow (shadowAddr guestBase g) ≠ 0) = true ↔
      self.SomePoisoned guestBase start stop ∨ self.SomeHigh guestBase start stop := by
  rw [List.any_eq_true]
  constructor
  · rintro ⟨g, hg, hne⟩
    obtain ⟨i, rfl, hlt⟩ := (mem_strided (Nat.succ_pos 7)).mp hg
    rw [decide_eq_true_iff, ne_zero_iff] at hne
    have hmod : (start + 8 * i) % 8 = 0 := by omega
    rcases (someHigh_or_somePoisoned hbase hmod).mp hne with ⟨a, hle, hlt', hpoisoned⟩ | hhigh
    · exact .inl ⟨a, by omega, by omega, hpoisoned⟩
    · exact .inr ⟨start + 8 * i, hmod, by omega, by omega, hhigh⟩
  · intro h
    obtain ⟨g, hmod, hle, hlt, hne⟩ : ∃ g, g % 8 = 0 ∧ start ≤ g ∧ g < stop ∧
        self.mark guestBase g ≠ 0 := by
      rcases h with ⟨a, hle, hlt, hne, -⟩ | ⟨g, hmod, hle, hlt, hhigh⟩
      · refine ⟨a - a % 8, by omega, by omega, by omega, ?_⟩
        rw [mark_eq hbase (show (a - a % 8) / 8 = a / 8 by omega)]
        exact hne
      · exact ⟨g, hmod, hle, by omega, by omega⟩
    refine ⟨g, (mem_strided (Nat.succ_pos 7)).mpr ⟨(g - start) / 8, by omega, hlt⟩, ?_⟩
    exact decide_eq_true (ne_zero_iff.mpr hne)

variable (self) in
/-- **From a granule on**, the check is exact but for marks that are too high. -/
theorem invalidFrom_iff {start stop : Nat} (hstart : start % 8 = 0) (hle : start ≤ stop) :
    self.invalidFrom guestBase start stop = true ↔
      self.SomePoisoned guestBase start stop ∨ self.SomeHigh guestBase start stop := by
  have hany := any_granule_iff self hbase hstart (show (stop - stop % 8) % 8 = 0 by omega)
  rw [somePoisoned_append (show start ≤ stop - stop % 8 by omega) (Nat.sub_le _ _),
    someHigh_congr (fun g hmod => show start ≤ g ∧ g + 8 ≤ stop ↔
      start ≤ g ∧ g + 8 ≤ stop - stop % 8 by omega)]
  rw [or_right_comm, ← hany, invalidFrom]
  split
  · next h => exact iff_of_true rfl (.inl h)
  · next h =>
      rw [or_iff_right h]
      split
      · rw [invalidPart_iff self hbase (by omega) (by omega)]
        rw [show stop - stop % 8 + (stop - (stop - stop % 8)) = stop by omega]
      · next heq =>
          refine iff_of_false Bool.false_ne_true ?_
          rintro ⟨a, hge, hlt, -⟩
          omega

/-- **The check of a range.** -/
theorem isInvalidAccessN_iff (addr n : Nat) : self.isInvalidAccessN guestBase addr n = true ↔
    self.SomePoisoned guestBase addr (addr + n) ∨ self.SomeHigh guestBase addr (addr + n) := by
  rw [isInvalidAccessN]
  by_cases hn : n = 0
  · rw [if_pos hn]
    refine iff_of_false Bool.false_ne_true ?_
    rintro (⟨a, hge, hlt, -⟩ | ⟨g, -, hge, hlt, -⟩)
    · omega
    · omega
  rw [if_neg hn]
  by_cases haligned : addr % 8 = 0
  · rw [if_neg (not_not.mpr haligned)]
    exact invalidFrom_iff self hbase haligned (Nat.le_add_right _ _)
  rw [if_pos haligned]
  dsimp only
  split
  · next hshort =>
      rw [invalidPart_iff self hbase (by omega) (by omega)]
      refine (or_iff_left ?_).symm
      rintro ⟨g, hmod, hge, hlt, -⟩
      omega
  · next hlong =>
      have hhead := invalidPart_iff self hbase (show 0 < addr - addr % 8 + 8 - addr by omega)
        (show addr % 8 + (addr - addr % 8 + 8 - addr) ≤ 8 by omega)
      have hrest := invalidFrom_iff self hbase (show (addr - addr % 8 + 8) % 8 = 0 by omega)
        (show addr - addr % 8 + 8 ≤ addr + n by omega)
      rw [show addr + (addr - addr % 8 + 8 - addr) = addr - addr % 8 + 8 by omega] at hhead
      rw [somePoisoned_append (show addr ≤ addr - addr % 8 + 8 by omega)
        (show addr - addr % 8 + 8 ≤ addr + n by omega), or_assoc,
        someHigh_congr (fun g hmod => show addr ≤ g ∧ g + 8 ≤ addr + n ↔
          addr - addr % 8 + 8 ≤ g ∧ g + 8 ≤ addr + n by omega), ← hhead, ← hrest]
      split
      · next h => exact iff_of_true rfl (.inl h)
      · next h => exact (or_iff_right h).symm

/-- The check of an access looks at the first granule. -/
theorem isInvalidAccess_iff {size addr : Nat} (hsize : size ≤ 8) :
    self.isInvalidAccess guestBase size addr = true ↔ self.mark guestBase addr ≠ 0 ∧
      (size = 8 ∨ self.mark guestBase addr < (addr % 8 + size : Nat)) := by
  rw [isInvalidAccess]
  split
  · next hlt =>
      rw [invalidPart, decide_eq_true_iff, ne_zero_iff, g2h_mod hbase,
        or_iff_right (Nat.ne_of_lt hlt)]
      rfl
  · next hge =>
      rw [decide_eq_true_iff, ne_zero_iff]
      exact (and_iff_left (.inl (Nat.le_antisymm hsize (Nat.le_of_not_lt hge)))).symm

/-- **An access within a granule**: the two checks are the same. -/
theorem isInvalidAccess_of_part {size addr : Nat} (hsize : 0 < size) (hpart : addr % 8 + size ≤ 8) :
    self.isInvalidAccess guestBase size addr = self.isInvalidAccessN guestBase addr size := by
  rw [Bool.eq_iff_iff, isInvalidAccess_iff hbase (by omega), isInvalidAccessN_iff hbase]
  by_cases h8 : size = 8
  · subst h8
    have hmod : addr % 8 = 0 := by omega
    have hhigh : self.SomeHigh guestBase addr (addr + 8) ↔ 8 ≤ self.mark guestBase addr := by
      constructor
      · rintro ⟨g, -, hge, hlt, hmark⟩
        rw [show addr = g by omega]
        exact hmark
      · intro hmark
        exact ⟨addr, hmod, Nat.le_refl _, Nat.le_refl _, hmark⟩
    rw [hhigh, ← someHigh_or_somePoisoned hbase hmod]
    exact and_iff_left (.inl rfl)
  · have hnone : ¬ self.SomeHigh guestBase addr (addr + size) := by
      rintro ⟨g, hmod, hge, hlt, -⟩
      omega
    rw [or_iff_left hnone, somePoisoned_part self hbase hsize hpart, or_iff_right h8]

/-- An access that spans two granules. -/
theorem isInvalidAccessN_of_span {size addr : Nat} (hsize : size ≤ 8)
    (hspan : 8 < addr % 8 + size) : self.isInvalidAccessN guestBase addr size = true ↔
      (self.mark guestBase addr ≠ 0 ∧ self.mark guestBase addr < 8) ∨
        self.SomePoisoned guestBase (addr - addr % 8 + 8) (addr + size) := by
  have hnone : ¬ self.SomeHigh guestBase addr (addr + size) := by
    rintro ⟨g, hmod, hge, hlt, -⟩
    omega
  have hhead := somePoisoned_part self hbase (show 0 < 8 - addr % 8 by omega)
    (show addr % 8 + (8 - addr % 8) ≤ 8 by omega)
  rw [show addr % 8 + (8 - addr % 8) = 8 by omega,
    show addr + (8 - addr % 8) = addr - addr % 8 + 8 by omega] at hhead
  rw [isInvalidAccessN_iff hbase, or_iff_left hnone,
    somePoisoned_append (show addr ≤ addr - addr % 8 + 8 by omega) (by omega), hhead]
  rfl

/-- **Exactly when the two checks agree** on an access. -/
theorem isInvalidAccess_eq_iff {size addr : Nat} (hpos : 0 < size) (hsize : size ≤ 8) :
    self.isInvalidAccess guestBase size addr = self.isInvalidAccessN guestBase addr size ↔
      addr % 8 + size ≤ 8 ∨
      (self.mark guestBase addr ≠ 0 ∧ self.mark guestBase addr < 8) ∨
      ((8 ≤ self.mark guestBase addr ∧
          (size = 8 ∨ self.mark guestBase addr < (addr % 8 + size : Nat))) ↔
        self.SomePoisoned guestBase (addr - addr % 8 + 8) (addr + size)) := by
  by_cases hpart : addr % 8 + size ≤ 8
  · exact iff_of_true (isInvalidAccess_of_part hbase hpos hpart) (.inl hpart)
  rw [or_iff_right hpart, Bool.eq_iff_iff, isInvalidAccess_iff hbase hsize,
    isInvalidAccessN_of_span hbase hsize (Nat.lt_of_not_le hpart)]
  by_cases hlow : self.mark guestBase addr ≠ 0 ∧ self.mark guestBase addr < 8
  · refine iff_of_true (iff_of_true ⟨hlow.1, .inr ?_⟩ (.inl hlow)) (.inl hlow)
    have := hlow.2
    omega
  · rw [or_iff_right hlow, or_iff_right hlow]
    refine iff_congr ?_ Iff.rfl
    constructor
    · rintro ⟨hne, h⟩
      exact ⟨Int.not_lt.mp fun hlt => hlow ⟨hne, hlt⟩, h⟩
    · rintro ⟨hhigh, h⟩
      exact ⟨by omega, h⟩

/-- **Exactly when the check of a range is exact.** -/
theorem isInvalidAccessN_exact_iff (addr n : Nat) :
    (self.isInvalidAccessN guestBase addr n = true ↔
        self.SomePoisoned guestBase addr (addr + n)) ↔
      (self.SomePoisoned guestBase addr (addr + n) ∨
        ¬ self.SomeHigh guestBase addr (addr + n)) := by
  rw [isInvalidAccessN_iff hbase]
  by_cases hp : self.SomePoisoned guestBase addr (addr + n)
  · exact iff_of_true (iff_of_true (.inl hp) hp) (.inl hp)
  · rw [or_iff_right hp, or_iff_right hp]
    exact ⟨fun h hhigh => hp (h.mp hhigh), fun h => iff_of_false h hp⟩

end

/-- A poisoned granule behind a valid one. -/
def redZone : AsanGiovese :=
  { new with shadow := Function.update (fun _ => 0) (shadowAddr 0x10000 0x1008) (-1) }

end AsanGiovese

end Libaflmm
