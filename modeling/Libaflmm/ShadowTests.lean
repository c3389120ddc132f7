import Libaflmm.ShadowMaps

/-!
# What the shadow tests find

A byte is poisoned when the shadow value of its 8 bytes is negative, or
positive and not above its offset. Among 8 bytes the poisoned ones are the
last, so a test of the last byte of a range stands for all of them.
-/

namespace Libaflmm

/-- The byte with the offset among 8 is poisoned under the shadow value `k`. -/
def BytePoisoned (k : UInt8) (offset : Nat) : Prop :=
  k.toInt8 < 0 ∨ 0 < k.toInt8 ∧ k.toInt8.toInt ≤ offset

instance (k : UInt8) (offset : Nat) : Decidable (BytePoisoned k offset) :=
  inferInstanceAs (Decidable (_ ∨ _))

theorem bytePoisoned_iff {k : UInt8} {offset : Nat} :
    BytePoisoned k offset ↔ k.toInt8.toInt ≠ 0 ∧ k.toInt8.toInt ≤ offset := by
  have hzero : (0 : Int8).toInt = 0 := rfl
  rw [BytePoisoned, Int8.lt_iff_toInt_lt, Int8.lt_iff_toInt_lt, hzero]
  omega

theorem BytePoisoned.mono {k : UInt8} {offset offset' : Nat} (h : BytePoisoned k offset)
    (hle : offset ≤ offset') : BytePoisoned k offset' := by
  rw [bytePoisoned_iff] at h ⊢
  omega

/-- The test of the code, for a range that ends behind the offset. -/
theorem bytePoisoned_iff_test {k : UInt8} {n : Nat} (hn : 0 < n) (hn8 : n ≤ 8) :
    BytePoisoned k (n - 1) ↔ k.toInt8 ≠ 0 ∧ k.toInt8 < n.toInt8 := by
  have hzero : (0 : Int8).toInt = 0 := rfl
  have hn' : n.toInt8.toInt = n := Int8.toInt_ofNat_of_lt (by omega)
  rw [bytePoisoned_iff, Int8.lt_iff_toInt_lt, hn', ne_eq, ne_eq, ← Int8.toInt_inj, hzero]
  omega

theorem toInt_toInt8_eq_zero {k : UInt8} : k.toInt8.toInt = 0 ↔ k = 0 := by
  have hzero : (0 : Int8).toInt = 0 := rfl
  rw [← hzero, Int8.toInt_inj]
  constructor
  · intro h
    exact congrArg Int8.toUInt8 h
  · rintro rfl
    rfl

/-- The values the shadow has: negative ones, and counts below 8. -/
def CellValue (k : UInt8) : Prop := k.toInt8.toInt < 8

theorem CellValue.bytePoisoned_last {k : UInt8} (h : CellValue k) : BytePoisoned k 7 ↔ k ≠ 0 := by
  rw [bytePoisoned_iff, ne_eq, ne_eq, toInt_toInt8_eq_zero]
  refine and_iff_left ?_
  rw [CellValue] at h
  omega

namespace ShadowMaps

open GuestShadow (ALLOC_ALIGN_SIZE remainder alignDown isStartAligned endRemainder isEndAligned)

variable {L : ShadowLayout} {s : ShadowMaps L} {start len : Nat}

/-- The byte at `a` is poisoned. -/
def Poisoned (s : ShadowMaps L) (a : Nat) : Prop := BytePoisoned (s.cell (a / 8)) (a % 8)

/-- Some byte from `a` on, and below `b`, is poisoned. -/
def PoisonedIn (s : ShadowMaps L) (a b : Nat) : Prop := ∃ x, a ≤ x ∧ x < b ∧ s.Poisoned x

theorem poisonedIn_split {a b c : Nat} (hab : a ≤ b) (hbc : b ≤ c) :
    s.PoisonedIn a c ↔ s.PoisonedIn a b ∨ s.PoisonedIn b c := by
  constructor
  · rintro ⟨x, hax, hxc, hx⟩
    rcases Nat.lt_or_ge x b with hxb | hbx
    · exact .inl ⟨x, hax, hxb, hx⟩
    · exact .inr ⟨x, hbx, hxc, hx⟩
  · rintro (⟨x, hax, hxb, hx⟩ | ⟨x, hbx, hxc, hx⟩)
    · exact ⟨x, hax, by omega, hx⟩
    · exact ⟨x, by omega, hxc, hx⟩

/-- Among bytes of the same 8, the last one decides. -/
theorem poisonedIn_iff_last {a b : Nat} (hab : a < b) (hsame : (b - 1) / 8 = a / 8) :
    s.PoisonedIn a b ↔ BytePoisoned (s.cell (a / 8)) ((b - 1) % 8) := by
  constructor
  · rintro ⟨x, hax, hxb, hx⟩
    have hcell : x / 8 = a / 8 := by omega
    rw [Poisoned, hcell] at hx
    exact hx.mono (by omega)
  · intro h
    refine ⟨b - 1, by omega, by omega, ?_⟩
    rwa [Poisoned, hsame]

/-- All values of the shadow are such as it has. -/
def CellValues (s : ShadowMaps L) : Prop := ∀ g, CellValue (s.cell g)

theorem CellValues.poisonedIn_iff (h : s.CellValues) {a b : Nat} (ha : a % 8 = 0) (hb : b % 8 = 0) :
    s.PoisonedIn a b ↔ ∃ g, a ≤ 8 * g ∧ 8 * g < b ∧ s.cell g ≠ 0 := by
  constructor
  · rintro ⟨x, hax, hxb, hx⟩
    refine ⟨x / 8, by omega, by omega, (h _).bytePoisoned_last.mp ?_⟩
    exact BytePoisoned.mono hx (by omega)
  · rintro ⟨g, hag, hgb, hg⟩
    refine ⟨8 * g + 7, by omega, by omega, ?_⟩
    have hcell : (8 * g + 7) / 8 = g := by omega
    have hoffset : (8 * g + 7) % 8 = 7 := by omega
    rw [Poisoned, hcell, hoffset]
    exact (h g).bytePoisoned_last.mpr hg

theorem run_isPoisonMiddle (hcells : s.CellValues) (start remaining : Nat)
    (hrest : remaining % 8 = 0)
    (hmem : L.isMemory start (remaining + (8 - start % 8) % 8) = true) :
    ∃ b, (isPoisonMiddle start remaining).run s = some (.ok b, s) ∧
      (b = true ↔ s.PoisonedIn (start + (8 - start % 8) % 8)
        (start + (8 - start % 8) % 8 + remaining)) := by
  by_cases hne : remaining = 0
  · refine ⟨false, by rw [isPoisonMiddle, if_pos hne]; rfl, ?_⟩
    refine iff_of_false Bool.false_ne_true ?_
    rintro ⟨x, hle, hlt, -⟩
    omega
  have hfits := L.fits
  have horder := L.low_high
  have hmem' := ShadowLayout.isMemory_iff.mp hmem
  obtain ⟨m, hrun, hm, hle, hlt⟩ := run_alignUp (s := s) (n := start) (by omega)
  obtain rfl : start + (8 - start % 8) % 8 = m := by omega
  have hmid : L.isMemory (start + (8 - start % 8) % 8) remaining = true :=
    ShadowLayout.isMemory_granules hmem hm hrest (by omega) (by omega) (by omega)
  rw [isPoisonMiddle, if_neg hne, Call.run_bind_of_ok hrun,
    Call.run_bind_of_ok (run_getShadow hm hrest hmid)]
  refine ⟨_, Call.run_read _ _, ?_⟩
  rw [readSlice_sliceOf hm hrest hmid, hcells.poisonedIn_iff hm (by omega), List.any_map,
    List.any_eq_true]
  refine exists_congr fun g => ?_
  simp only [List.mem_range'_1, Function.comp_apply, bne_iff_ne, PoisonType.toUInt8]
  constructor
  · rintro ⟨hg, hne⟩
    exact ⟨by omega, by omega, hne⟩
  · rintro ⟨hle, hlt, hne⟩
    exact ⟨by omega, hne⟩

theorem run_isPoisonEnd (hcells : s.CellValues) (start : Nat) (hmem : L.isMemory start len = true)
    (hlen : (8 - start % 8) % 8 ≤ len) (hne : len ≠ 0) :
    ∃ b, (isPoisonEnd start len (len - (8 - start % 8) % 8)).run s = some (.ok b, s) ∧
      (b = true ↔ s.PoisonedIn (start + (8 - start % 8) % 8) (start + len)) := by
  by_cases hend : isEndAligned start len = true
  · have hend' := GuestShadow.isEndAligned_iff.mp hend
    have hsum : len - (8 - start % 8) % 8 + (8 - start % 8) % 8 = len := by omega
    rw [isPoisonEnd, if_pos hend]
    obtain ⟨b, hrun, hb⟩ := run_isPoisonMiddle (s := s) hcells start
      (len - (8 - start % 8) % 8) (by omega) (by rwa [hsum])
    refine ⟨b, hrun, hb.trans (iff_of_eq ?_)⟩
    congr 1
    omega
  · have hend' : (start + len) % 8 ≠ 0 := fun h => hend (GuestShadow.isEndAligned_iff.mpr h)
    have hdown := alignDown_add (n := start + len)
    have hlast : L.isMemory (alignDown (start + len)) 8 = true :=
      ShadowLayout.isMemory_granules hmem (by omega) rfl (by omega) (by omega) (by omega)
    have hbound : start + len < 2 ^ L.bits := by
      have hfits := L.fits
      have horder := L.low_high
      have hlast' := ShadowLayout.isMemory_iff.mp hlast
      omega
    have hremainder : endRemainder start len = (start + len) % 8 := by
      simp only [endRemainder, remainder, ALLOC_ALIGN_SIZE]
      omega
    rw [isPoisonEnd, if_neg hend, hremainder, ALLOC_ALIGN_SIZE]
    dsimp only
    rw [Call.run_bind_of_ok (run_checkedSub (by omega)),
      Call.run_bind_of_ok (run_checkedAdd hbound),
      Call.run_bind_of_ok (run_getShadow (by omega) rfl hlast),
      Call.run_bind_of_ok (run_first (by omega) hlast)]
    have htail := poisonedIn_iff_last (s := s) (a := alignDown (start + len)) (b := start + len)
      (by omega) (by omega)
    have hoffset : (start + len - 1) % 8 = (start + len) % 8 - 1 := by omega
    rw [hoffset, bytePoisoned_iff_test (by omega) (by omega)] at htail
    have hsplit := poisonedIn_split (s := s) (a := start + (8 - start % 8) % 8)
      (b := alignDown (start + len)) (c := start + len) (by omega) (by omega)
    split
    · next htest => exact ⟨true, rfl, iff_of_true rfl (hsplit.mpr (.inr (htail.mpr htest)))⟩
    · next htest =>
        have hsum : len - (8 - start % 8) % 8 - (start + len) % 8 + (8 - start % 8) % 8 =
            len - (start + len) % 8 := by omega
        have hmid : L.isMemory start (len - (start + len) % 8) = true :=
          ShadowLayout.isMemory_of_le hmem (Nat.sub_le _ _)
        obtain ⟨b, hrun, hb⟩ := run_isPoisonMiddle (s := s) hcells start
          (len - (8 - start % 8) % 8 - (start + len) % 8) (by omega) (by rwa [hsum])
        refine ⟨b, hrun, ?_⟩
        have hstop : start + (8 - start % 8) % 8 + (len - (8 - start % 8) % 8 -
            (start + len) % 8) = alignDown (start + len) := by omega
        rw [hb, hsplit, hstop]
        exact (or_iff_left fun h => htest (htail.mp h)).symm

/-- **The test of a range** is refused, or tells whether a byte of it is poisoned. -/
theorem run_isPoison (hcells : s.CellValues) (start len : Nat) :
    (∃ e, (isPoison start len).run s = some (.error e, s)) ∨
      ∃ b, (isPoison start len).run s = some (.ok b, s) ∧
        (b = true ↔ s.PoisonedIn start (start + len)) := by
  unfold isPoison
  rcases refused_or_isMemory (s := s) start len _ with ⟨herr, -⟩ | ⟨heq, hmem⟩
  · exact .inl herr
  rw [heq]
  right
  by_cases hlen : len = 0
  · refine ⟨false, by rw [if_pos hlen]; rfl, iff_of_false Bool.false_ne_true ?_⟩
    rintro ⟨x, hle, hlt, -⟩
    omega
  rw [if_neg hlen]
  by_cases hstart : isStartAligned start = true
  · have hstart' := GuestShadow.isStartAligned_iff.mp hstart
    have hend := run_isPoisonEnd (s := s) hcells start hmem (by omega) hlen
    rw [hstart'] at hend
    rw [if_pos hstart]
    exact hend
  have hstart' : start % 8 ≠ 0 := fun h => hstart (GuestShadow.isStartAligned_iff.mpr h)
  have hdown := alignDown_add (n := start)
  have hhead : L.isMemory (alignDown start) 8 = true :=
    ShadowLayout.isMemory_granules hmem (by omega) rfl (by omega) (by omega) (by omega)
  have hcell : alignDown start / 8 = start / 8 := by omega
  rw [if_neg hstart]
  dsimp only [remainder, ALLOC_ALIGN_SIZE]
  rw [Call.run_bind_of_ok (run_getShadow (by omega) rfl hhead),
    Call.run_bind_of_ok (run_first (by omega) hhead), hcell]
  by_cases hinside : len ≤ 8 - start % 8
  · rw [if_pos hinside]
    refine ⟨_, rfl, ?_⟩
    have hoffset : (start + len - 1) % 8 = len + start % 8 - 1 := by omega
    rw [decide_eq_true_eq, poisonedIn_iff_last (by omega) (by omega), hoffset,
      bytePoisoned_iff_test (by omega) (by omega)]
  · have hup : (8 - start % 8) % 8 = 8 - start % 8 := Nat.mod_eq_of_lt (by omega)
    have hfirst : s.PoisonedIn start (start + (8 - start % 8)) ↔ s.cell (start / 8) ≠ 0 := by
      rw [poisonedIn_iff_last (by omega) (by omega), ← (hcells _).bytePoisoned_last]
      refine iff_of_eq (congrArg _ ?_)
      omega
    have hsplit := poisonedIn_split (s := s) (a := start) (b := start + (8 - start % 8))
      (c := start + len) (by omega) (by omega)
    rw [if_neg hinside, Call.run_bind_of_ok (run_checkedSub (by omega))]
    split
    · next hne =>
        refine ⟨true, rfl, iff_of_true rfl (hsplit.mpr (.inl (hfirst.mpr fun hzero => hne ?_)))⟩
        rw [hzero]
        rfl
    · next hzero =>
        have hend := run_isPoisonEnd (s := s) hcells start hmem (by omega) hlen
        rw [hup] at hend
        obtain ⟨b, hrun, hb⟩ := hend
        refine ⟨b, hrun, ?_⟩
        rw [hb, hsplit]
        refine (or_iff_right fun h => hfirst.mp h ?_).symm
        exact toInt_toInt8_eq_zero.mp (congrArg Int8.toInt (not_not.mp hzero))

/-! ## The values of the shadow -/

theorem cellValue_toUInt8 {n : Nat} (h : n < 8) : CellValue n.toUInt8 := by
  have hn : n.toUInt8.toInt8.toInt = n := by
    rw [show n.toUInt8.toInt8 = n.toInt8 from rfl]
    exact Int8.toInt_ofNat_of_lt (by omega)
  rw [CellValue, hn]
  omega

theorem cellValue_poisonType (p : PoisonType) : CellValue p.toUInt8 := by
  unfold CellValue
  cases p <;> decide

theorem cellValues_new : (new L).CellValues := by
  intro g
  have hzero : (new L).cell g = 0 := by simp [cell, new]
  rw [hzero]
  exact cellValue_toUInt8 (by omega : 0 < 8)

theorem CellValues.step {s' : ShadowMaps L} (h : s.CellValues) {op : Op}
    (hstep : ShadowMaps.step s op = some s') : s'.CellValues := by
  obtain ⟨⟨r, t⟩, hrun, rfl⟩ := Option.map_eq_some_iff.mp hstep
  intro g
  cases op with
  | poison start len p =>
      rcases run_poison start len p s with ⟨⟨e, hpoison⟩, -⟩ | ⟨⟨s', hpoison, hview⟩, -⟩
      · obtain ⟨-, rfl⟩ := Prod.mk.inj (Option.some.inj (hpoison.symm.trans hrun))
        exact h g
      · obtain ⟨-, rfl⟩ := Prod.mk.inj (Option.some.inj (hpoison.symm.trans hrun))
        have hcell : s'.cell g = _ := congrFun (congrArg GuestShadow.cells hview) g
        rw [hcell]
        dsimp only [GuestShadow.poisoned]
        split
        · exact cellValue_poisonType p
        · split
          · exact cellValue_toUInt8 (Nat.mod_lt _ (by omega))
          · exact h g
  | unpoison start len =>
      rcases run_unpoison start len s with ⟨⟨e, hunpoison⟩, -⟩ | ⟨⟨s', hunpoison, hview⟩, -⟩
      · obtain ⟨-, rfl⟩ := Prod.mk.inj (Option.some.inj (hunpoison.symm.trans hrun))
        exact h g
      · obtain ⟨-, rfl⟩ := Prod.mk.inj (Option.some.inj (hunpoison.symm.trans hrun))
        have hcell : s'.cell g = _ := congrFun (congrArg GuestShadow.cells hview) g
        rw [hcell]
        dsimp only [GuestShadow.unpoisoned]
        split
        · exact cellValue_poisonType .asanValid
        · split
          · exact cellValue_toUInt8 (Nat.mod_lt _ (by omega))
          · exact h g

theorem cellValues_of_run {ops : List Op} (h : Libaflmm.run ShadowMaps.step (new L) ops = some s) :
    s.CellValues :=
  run_invariant CellValues (fun _ _ _ hs hstep => hs.step hstep) cellValues_new h

/-- **`is_poison` is exact** in every shadow that calls of `poison` and
`unpoison` leave, and none of the calls panics. -/
theorem isPoison_iff_exists_poisoned (L : ShadowLayout) (ops : List Op) :
    ∃ s, Libaflmm.run ShadowMaps.step (new L) ops = some s ∧ ∀ start len,
      (∃ e, (isPoison start len).run s = some (.error e, s)) ∨
      ∃ b, (isPoison start len).run s = some (.ok b, s) ∧
        (b = true ↔ ∃ a, start ≤ a ∧ a < start + len ∧ s.Poisoned a) := by
  obtain ⟨s, hrun⟩ := run_steps ops (new L)
  exact ⟨s, hrun, run_isPoison (cellValues_of_run hrun)⟩

end ShadowMaps

end Libaflmm
