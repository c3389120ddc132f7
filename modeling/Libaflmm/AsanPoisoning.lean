import Libaflmm.AsanAccesses
import Libaflmm.AsanRollback

/-!
# What poisoning and unpoisoning do to the bytes

Both walk granules, from the start of the range in steps of 8. `unpoison` clears
every granule it comes to, and does not come to the last one of some ranges that
start within a granule. `poison` marks the first granule with the part before the
range, and the granules that lie in the range.
-/

namespace Libaflmm

namespace AsanGiovese

/-- The bytes of the range are valid, and the others are as before. -/
structure UnpoisonsRange (guestBase addr n : Nat) (before : AsanGiovese) : Prop where
  inside : ∀ a, addr ≤ a → a < addr + n →
    ¬ (before.unpoison guestBase addr n).2.Poisoned guestBase a
  outside : ∀ a, ¬ (addr ≤ a ∧ a < addr + n) →
    ((before.unpoison guestBase addr n).2.Poisoned guestBase a ↔ before.Poisoned guestBase a)

/-- Nothing outside of the range is poisoned, every byte of the granules in it is,
and no byte becomes valid. -/
structure PoisonsRange (guestBase addr n : Nat) (k : Int8) (before : AsanGiovese) : Prop where
  outside : ∀ a, ¬ (addr ≤ a ∧ a < addr + n) →
    (before.poison guestBase addr n k).2.Poisoned guestBase a → before.Poisoned guestBase a
  granules : ∀ g, g % 8 = 0 → addr ≤ g → g + 8 ≤ addr + n → ∀ a, g ≤ a → a < g + 8 →
    (before.poison guestBase addr n k).2.Poisoned guestBase a
  keeps : ∀ a, before.Poisoned guestBase a →
    (before.poison guestBase addr n k).2.Poisoned guestBase a

/-- A granule lies in the range. -/
def SomeGranule (start stop : Nat) : Prop := ∃ g, g % 8 = 0 ∧ start ≤ g ∧ g + 8 ≤ stop

variable {guestBase : Nat} (hbase : 8 ∣ guestBase)

include hbase

theorem mem_cells {start stop a : Nat} :
    shadowAddr guestBase a ∈ (strided 8 start stop).map (shadowAddr guestBase) ↔
      start / 8 ≤ a / 8 ∧ start % 8 + 8 * (a / 8) < stop := by
  rw [List.mem_map]
  constructor
  · rintro ⟨g, hg, heq⟩
    obtain ⟨i, rfl, hlt⟩ := (mem_strided (Nat.succ_pos 7)).mp hg
    rw [shadowAddr_eq hbase, shadowAddr_eq hbase] at heq
    omega
  · rintro ⟨hle, hlt⟩
    refine ⟨start % 8 + 8 * (a / 8), (mem_strided (Nat.succ_pos 7)).mpr ?_, ?_⟩
    · exact ⟨a / 8 - start / 8, by omega, hlt⟩
    · rw [shadowAddr_eq hbase, shadowAddr_eq hbase]
      omega

/-! ## Unpoisoning -/

theorem mark_unpoison (before : AsanGiovese) (addr n a : Nat) :
    (before.unpoison guestBase addr n).2.mark guestBase a =
      if addr / 8 ≤ a / 8 ∧ addr % 8 + 8 * (a / 8) < addr + n then 0
      else before.mark guestBase a := by
  show (fill _ (0 : Int8) _ (shadowAddr guestBase a)).toInt = _
  simp only [fill_apply, mem_cells hbase]
  split
  · rfl
  · rfl

/-- **Exactly when `unpoison` does what it should**; the last granule of the range is
cleared when the walk comes to it. -/
theorem unpoisonsRange_iff (before : AsanGiovese) (addr n : Nat) :
    UnpoisonsRange guestBase addr n before ↔ n = 0 ∨
      (¬ before.SomePoisoned guestBase (addr - addr % 8) addr ∧
        if addr % 8 + 8 * ((addr + n - 1) / 8) < addr + n then
          ¬ before.SomePoisoned guestBase (addr + n) (8 * ((addr + n - 1) / 8) + 8)
        else ¬ before.SomePoisoned guestBase (8 * ((addr + n - 1) / 8)) (addr + n)) := by
  have hmark := mark_unpoison hbase before addr n
  constructor
  · intro h
    by_cases hn : n = 0
    · exact .inl hn
    refine .inr ⟨?_, ?_⟩
    · rintro ⟨a, hge, hlt, hpoisoned⟩
      have hafter := (h.outside a (by omega)).mpr hpoisoned
      rw [Poisoned, hmark, if_pos (by omega)] at hafter
      exact hafter.1 rfl
    · split
      · rintro ⟨a, hge, hlt, hpoisoned⟩
        have hafter := (h.outside a (by omega)).mpr hpoisoned
        rw [Poisoned, hmark, if_pos (by omega)] at hafter
        exact hafter.1 rfl
      · rintro ⟨a, hge, hlt, hpoisoned⟩
        refine h.inside a (by omega) hlt ?_
        rw [Poisoned, hmark, if_neg (by omega)]
        exact hpoisoned
  · intro h
    refine ⟨fun a hge hlt hpoisoned => ?_, fun a hout => ?_⟩
    · rw [Poisoned, hmark] at hpoisoned
      split at hpoisoned
      · exact hpoisoned.1 rfl
      · rcases h with rfl | ⟨-, htail⟩
        · omega
        rw [if_neg (by omega)] at htail
        exact htail ⟨a, by omega, hlt, hpoisoned⟩
    · rw [Poisoned, hmark]
      split
      · refine iff_of_false (fun hafter => hafter.1 rfl) fun hpoisoned => ?_
        rcases h with rfl | ⟨hhead, htail⟩
        · omega
        by_cases hlt : a < addr
        · exact hhead ⟨a, by omega, hlt, hpoisoned⟩
        · rw [if_pos (by omega)] at htail
          exact htail ⟨a, by omega, by omega, hpoisoned⟩
      · rfl

/-! ## Poisoning -/

omit hbase in
theorem poison_of_short {before : AsanGiovese} {addr n : Nat} {k : Int8}
    (h : n = 0 ∨ n + addr % 8 < 8 ∧ addr % 8 ≠ 0) :
    (before.poison guestBase addr n k).2.shadow = before.shadow := by
  by_cases hn : n = 0
  · rw [poison, if_pos hn]
  obtain ⟨dirty, hdirty, -⟩ := foldl_record (touched addr n) before
  obtain ⟨hshort, haddr⟩ := h.resolve_left hn
  simp only [poison, if_neg hn, hdirty, if_pos haddr]
  rw [if_pos (by omega)]
  split
  · rfl
  · rfl

omit hbase in
/-- Recording the dirty pages leaves the shadow alone. -/
theorem shadow_recorded (before : AsanGiovese) (addr n : Nat) :
    (if before.snapshotShadow then
      (touched addr n).foldl (fun s page => { s with dirtyShadow := s.dirtyShadow.insert page () })
        before else before).shadow = before.shadow := by
  obtain ⟨dirty, hdirty, -⟩ := foldl_record (touched addr n) before
  split
  · rw [hdirty]
  · rfl

omit hbase in
theorem shadow_poison_of_aligned (before : AsanGiovese) {addr n : Nat} (k : Int8) (hn : n ≠ 0)
    (haddr : addr % 8 = 0) : (before.poison guestBase addr n k).2.shadow =
      fill ((strided 8 addr (addr + n - (addr + n) % 8)).map (shadowAddr guestBase)) k
        before.shadow := by
  rw [poison, if_neg hn]
  simp only [if_neg (not_not.mpr haddr), shadow_recorded]

omit hbase in
/-- The first granule is marked by itself. -/
theorem shadow_poison_of_unaligned (before : AsanGiovese) {addr n : Nat} (k : Int8) (hn : n ≠ 0)
    (haddr : addr % 8 ≠ 0) (hlong : 8 ≤ n + addr % 8) :
    (before.poison guestBase addr n k).2.shadow =
      fill ((strided 8 (addr - addr % 8 + 8) (addr + n - (addr + n) % 8)).map
        (shadowAddr guestBase)) k (Function.update before.shadow (shadowAddr guestBase addr)
          (Int8.ofNat (addr % 8))) := by
  have hpart : 8 - (addr - addr % 8 + 8 - addr) = addr % 8 := by omega
  rw [poison, if_neg hn]
  simp only [if_pos haddr]
  rw [if_neg (by omega)]
  simp only [shadow_recorded, hpart]

theorem mark_poison (before : AsanGiovese) {addr n : Nat} (k : Int8) (a : Nat) (hn : n ≠ 0)
    (hlong : addr % 8 = 0 ∨ 8 ≤ n + addr % 8) :
    (before.poison guestBase addr n k).2.mark guestBase a =
      if addr ≤ 8 * (a / 8) ∧ 8 * (a / 8) + 8 ≤ addr + n then k.toInt
      else if a / 8 = addr / 8 ∧ addr % 8 ≠ 0 then (addr % 8 : Nat)
      else before.mark guestBase a := by
  by_cases haddr : addr % 8 = 0
  · rw [mark, shadow_poison_of_aligned before k hn haddr, fill_apply]
    by_cases hin : addr ≤ 8 * (a / 8) ∧ 8 * (a / 8) + 8 ≤ addr + n
    · rw [if_pos hin, if_pos ((mem_cells hbase).mpr (by omega))]
    · rw [if_neg hin, if_neg (fun h => hin ?_), if_neg fun h => h.2 haddr]
      · rfl
      · have := (mem_cells hbase).mp h
        omega
  · rw [mark, shadow_poison_of_unaligned before k hn haddr (hlong.resolve_left haddr), fill_apply]
    by_cases hin : addr ≤ 8 * (a / 8) ∧ 8 * (a / 8) + 8 ≤ addr + n
    · rw [if_pos hin, if_pos ((mem_cells hbase).mpr (by omega))]
    · rw [if_neg hin, if_neg (fun h => hin ?_)]
      · by_cases hfirst : a / 8 = addr / 8
        · rw [if_pos ⟨hfirst, haddr⟩, shadowAddr_eq hbase, shadowAddr_eq hbase, hfirst,
            Function.update_self]
          exact Int8.toInt_ofNat_of_lt (by omega)
        · rw [if_neg fun h => hfirst h.1, Function.update_of_ne]
          · rfl
          · rw [shadowAddr_eq hbase, shadowAddr_eq hbase]
            omega
      · have := (mem_cells hbase).mp h
        omega

/-- A byte that is poisoned although it is outside of the range, or in its first
granule, was so before. -/
theorem poisoned_poison_iff (before : AsanGiovese) {addr n : Nat} (k : Int8) (a : Nat) (hn : n ≠ 0)
    (hlong : addr % 8 = 0 ∨ 8 ≤ n + addr % 8) :
    (before.poison guestBase addr n k).2.Poisoned guestBase a ↔
      if addr ≤ 8 * (a / 8) ∧ 8 * (a / 8) + 8 ≤ addr + n then
        k.toInt ≠ 0 ∧ k.toInt < (a % 8 + 1 : Nat)
      else if a / 8 = addr / 8 ∧ addr % 8 ≠ 0 then addr ≤ a
      else before.Poisoned guestBase a := by
  rw [Poisoned, mark_poison hbase before k a hn hlong]
  split
  · rfl
  · split
    · omega
    · rfl

omit hbase in
/-- A range within a granule, and not up to its end, is left as it is. -/
theorem poisonsRange_of_short {before : AsanGiovese} {addr n : Nat} {k : Int8}
    (h : n = 0 ∨ n + addr % 8 < 8 ∧ addr % 8 ≠ 0) : PoisonsRange guestBase addr n k before := by
  have hsame : ∀ a, (before.poison guestBase addr n k).2.Poisoned guestBase a ↔
      before.Poisoned guestBase a := by
    intro a
    rw [Poisoned, Poisoned, mark, mark, poison_of_short h]
  constructor
  · intro a _
    exact (hsame a).mp
  · intro g hmod hge hlt
    omega
  · intro a
    exact (hsame a).mpr

/-- **Exactly when `poison` does what it should.** -/
theorem poisonsRange_iff (before : AsanGiovese) (addr n : Nat) (k : Int8) :
    PoisonsRange guestBase addr n k before ↔
      (¬ SomeGranule addr (addr + n) ∨ k.toInt < 0) ∧
      (addr % 8 = 0 ∨ n + addr % 8 < 8 ∨
        ¬ before.SomePoisoned guestBase (addr - addr % 8) addr) := by
  by_cases hshort : n = 0 ∨ n + addr % 8 < 8 ∧ addr % 8 ≠ 0
  · refine iff_of_true (poisonsRange_of_short hshort) ⟨.inl ?_, by omega⟩
    rintro ⟨g, hmod, hge, hlt⟩
    omega
  · have hn : n ≠ 0 := fun hn => hshort (.inl hn)
    have hlong : addr % 8 = 0 ∨ 8 ≤ n + addr % 8 := by omega
    have hafter := fun a => poisoned_poison_iff hbase before k a hn hlong
    constructor
    · intro h
      refine ⟨?_, ?_⟩
      · by_cases hsome : SomeGranule addr (addr + n)
        · obtain ⟨g, hmod, hge, hlt⟩ := hsome
          have hg := (hafter g).mp (h.granules g hmod hge hlt g (Nat.le_refl g) (by omega))
          rw [if_pos (by omega)] at hg
          exact .inr (by omega)
        · exact .inl hsome
      · by_cases hmod : addr % 8 = 0
        · exact .inl hmod
        refine .inr (.inr ?_)
        rintro ⟨a, hge, hlt, hpoisoned⟩
        have ha := (hafter a).mp (h.keeps a hpoisoned)
        rw [if_neg (by omega), if_pos (by omega)] at ha
        omega
    · rintro ⟨hneg, hhead⟩
      refine ⟨fun a hout hpoisoned => ?_, fun g hmod hge hlt a hga hag => ?_, fun a hpoisoned => ?_⟩
      · rw [hafter] at hpoisoned
        rw [if_neg (by omega)] at hpoisoned
        split at hpoisoned
        · omega
        · exact hpoisoned
      · rw [hafter, if_pos (by omega)]
        have hk := hneg.resolve_left (not_not.mpr ⟨g, hmod, hge, hlt⟩)
        omega
      · rw [hafter]
        split
        · next hin =>
            have hk := hneg.resolve_left (not_not.mpr ⟨8 * (a / 8), by omega, hin.1, hin.2⟩)
            omega
        · split
          · next hfirst =>
              refine Nat.le_of_not_lt fun hlt => ?_
              rcases hhead with hmod | hfew | hvalid
              · exact hfirst.2 hmod
              · omega
              · exact hvalid ⟨a, by omega, hlt, hpoisoned⟩
          · exact hpoisoned

end AsanGiovese

end Libaflmm
