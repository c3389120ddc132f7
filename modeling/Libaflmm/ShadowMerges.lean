import Libaflmm.ShadowTests

/-!
# When poisoning leaves the other bytes alone

The first 8 bytes of a range that is poisoned, and the last of one that is
unpoisoned, are shared with bytes outside. Their shadow value is written as if
the bytes outside were valid and poisoned, respectively, whatever it was
before. What both should leave has a shadow value in every case, so nothing is
rounded.
-/

namespace Libaflmm

/-- Some shadow value marks exactly these bytes of 8 as poisoned. -/
def Encodable (P : Nat → Prop) : Prop := ∃ k : UInt8, ∀ o < 8, BytePoisoned k o ↔ P o

theorem bytePoisoned_count {n : Nat} (hn : 0 < n) (hn8 : n < 8) (o : Nat) :
    BytePoisoned n.toUInt8 o ↔ n ≤ o := by
  have hvalue : n.toUInt8.toInt8.toInt = n := by
    rw [show n.toUInt8.toInt8 = n.toInt8 from rfl]
    exact Int8.toInt_ofNat_of_lt (by omega)
  rw [bytePoisoned_iff, hvalue]
  omega

/-- Making the first bytes valid never needs rounding. -/
theorem encodable_unpoisoned (k : UInt8) {n : Nat} (hn : n < 8) :
    Encodable fun o => ¬o < n ∧ BytePoisoned k o := by
  by_cases hkeep : n = 0 ∨ k.toInt8.toInt = 0 ∨ (n : Int) ≤ k.toInt8.toInt
  · refine ⟨k, fun o _ => ?_⟩
    show BytePoisoned k o ↔ ¬o < n ∧ BytePoisoned k o
    rw [bytePoisoned_iff]
    omega
  · refine ⟨n.toUInt8, fun o _ => ?_⟩
    show BytePoisoned n.toUInt8 o ↔ ¬o < n ∧ BytePoisoned k o
    rw [bytePoisoned_count (by omega) hn, bytePoisoned_iff]
    omega

namespace ShadowMaps

variable {L : ShadowLayout} {s s' : ShadowMaps L} {start len : Nat}

/-- After poisoning a range its bytes are poisoned, and the others are as before. -/
structure PoisonsExactly (start len : Nat) (s s' : ShadowMaps L) : Prop where
  range : ∀ a, start ≤ a → a < start + len → s'.Poisoned a
  frame : ∀ a, ¬(start ≤ a ∧ a < start + len) → (s'.Poisoned a ↔ s.Poisoned a)

/-- After unpoisoning a range its bytes are valid, and the others are as before,
unless the last 8 bytes cannot be marked so. -/
structure UnpoisonsExactly (start len : Nat) (s s' : ShadowMaps L) : Prop where
  range : ∀ a, start ≤ a → a < start + len → ¬s'.Poisoned a
  frame : ∀ a, ¬(start ≤ a ∧ a < start + len) → (s'.Poisoned a ↔ s.Poisoned a) ∨
    a / 8 = (start + len) / 8 ∧ ¬Encodable fun o =>
      ¬(8 * (a / 8) + o < start + len) ∧ BytePoisoned (s.cell (a / 8)) o

def Op.ActsExactly : Op → ShadowMaps L → ShadowMaps L → Prop
  | .poison start len _ => PoisonsExactly start len
  | .unpoison start len => UnpoisonsExactly start len

/-- What the shared 8 bytes must be for their value to be written over: before
poisoning, poisoned at most from the start on; before unpoisoning, poisoned at
least from the end on. -/
def Op.Mergeable : Op → ShadowMaps L → Prop
  | .poison start len p, s =>
    (start % 8 = 0 ∨ s.cell (start / 8) = 0 ∨
      ((start % 8 : Nat) : Int) ≤ (s.cell (start / 8)).toInt8.toInt) ∧
    (p.toUInt8.toInt8 < 0 ∨ len ≤ (8 - start % 8) % 8)
  | .unpoison start len, s =>
    len % 8 = 0 ∨ s.cell ((start + len) / 8) ≠ 0 ∧
      (s.cell ((start + len) / 8)).toInt8.toInt ≤ (len % 8 : Nat)

section

theorem cell_poisoned {p : PoisonType} (hview : s'.view = s.view.poisoned start len p.toUInt8)
    (hend : (start + len) % 8 = 0) (a : Nat) :
    s'.cell (a / 8) = if start ≤ 8 * (a / 8) ∧ 8 * (a / 8) < start + len then p.toUInt8
      else if start % 8 ≠ 0 ∧ a / 8 = start / 8 then (start % 8).toUInt8
      else s.cell (a / 8) := by
  have hcell : s'.cell (a / 8) = _ := congrFun (congrArg GuestShadow.cells hview) (a / 8)
  rw [hcell]
  dsimp only [GuestShadow.poisoned]
  refine if_congr Iff.rfl rfl ?_
  exact if_congr (by omega) rfl rfl

/-- **Poisoning** acts on its range exactly when the first value can be written over. -/
theorem poisonsExactly_iff {p : PoisonType}
    (hview : s'.view = s.view.poisoned start len p.toUInt8) (hend : (start + len) % 8 = 0) :
    PoisonsExactly start len s s' ↔ (Op.poison start len p).Mergeable s := by
  have hcell := cell_poisoned hview hend
  constructor
  · rintro ⟨hrange, hframe⟩
    refine ⟨?_, ?_⟩
    · by_cases hstart : start % 8 = 0
      · exact .inl hstart
      -- the byte before the range is valid afterwards
      have hbefore := hframe (start - 1) (by omega)
      have hsame : (start - 1) / 8 = start / 8 := by omega
      have hoffset : (start - 1) % 8 = start % 8 - 1 := by omega
      rw [Poisoned, Poisoned, hcell, hsame, if_neg (by omega), if_pos ⟨hstart, rfl⟩,
        bytePoisoned_count (by omega) (by omega), hoffset, bytePoisoned_iff] at hbefore
      right
      rw [← toInt_toInt8_eq_zero]
      omega
    · by_cases hinside : len ≤ (8 - start % 8) % 8
      · exact .inr hinside
      left
      have hfirst := hrange (start + (8 - start % 8) % 8) (by omega) (by omega)
      have hoffset : (start + (8 - start % 8) % 8) % 8 = 0 := by omega
      rw [Poisoned, hcell, if_pos (by omega), hoffset] at hfirst
      rcases hfirst with hneg | ⟨hpos, hle⟩
      · exact hneg
      · rw [Int8.lt_iff_toInt_lt] at hpos
        have hzero : (0 : Int8).toInt = 0 := rfl
        omega
  · rintro ⟨hhead, hmark⟩
    refine ⟨fun a hle hlt => ?_, fun a hout => ?_⟩
    · rw [Poisoned, hcell]
      by_cases hwhole : start ≤ 8 * (a / 8)
      · rw [if_pos (by omega)]
        exact .inl (hmark.resolve_right (by omega))
      · rw [if_neg (by omega), if_pos (by omega), bytePoisoned_count (by omega) (by omega)]
        omega
    · rw [Poisoned, Poisoned, hcell, if_neg (by omega)]
      split
      · next hin =>
          obtain ⟨hne, hsame⟩ := hin
          rw [bytePoisoned_count (by omega) (by omega), hsame, bytePoisoned_iff]
          rw [← toInt_toInt8_eq_zero] at hhead
          omega
      · exact Iff.rfl

theorem cell_unpoisoned (hview : s'.view = s.view.unpoisoned start len) (hstart : start % 8 = 0)
    (a : Nat) :
    s'.cell (a / 8) = if start ≤ 8 * (a / 8) ∧ 8 * (a / 8) + 8 ≤ start + len then 0
      else if len % 8 ≠ 0 ∧ a / 8 = (start + len) / 8 then (len % 8).toUInt8
      else s.cell (a / 8) := by
  have hcell : s'.cell (a / 8) = _ := congrFun (congrArg GuestShadow.cells hview) (a / 8)
  rw [hcell]
  dsimp only [GuestShadow.unpoisoned]
  by_cases hwhole : start ≤ 8 * (a / 8) ∧ 8 * (a / 8) + 8 ≤ start + len
  · rw [if_pos hwhole, if_pos hwhole]
  · rw [if_neg hwhole, if_neg hwhole]
    exact if_congr (by omega) rfl rfl

theorem not_bytePoisoned_zero (o : Nat) : ¬BytePoisoned 0 o := by
  rw [bytePoisoned_iff]
  exact fun h => h.1 rfl

/-- **Unpoisoning** acts on its range exactly when the last value can be written over. -/
theorem unpoisonsExactly_iff (hview : s'.view = s.view.unpoisoned start len)
    (hstart : start % 8 = 0) :
    UnpoisonsExactly start len s s' ↔ (Op.unpoison start len).Mergeable s := by
  have hcell := cell_unpoisoned hview hstart
  constructor
  · rintro ⟨-, hframe⟩
    by_cases hlen : len % 8 = 0
    · exact .inl hlen
    right
    -- the byte behind the range is poisoned afterwards
    rcases hframe (start + len) (by omega) with hbehind | ⟨-, hforced⟩
    · have hoffset : (start + len) % 8 = len % 8 := by omega
      rw [Poisoned, Poisoned, hcell, if_neg (by omega), if_pos ⟨hlen, rfl⟩,
        bytePoisoned_count (by omega) (by omega), hoffset, bytePoisoned_iff, ne_eq,
        toInt_toInt8_eq_zero] at hbehind
      exact hbehind.mp (Nat.le_refl _)
    · refine absurd ?_ hforced
      obtain ⟨k, hk⟩ := encodable_unpoisoned (s.cell ((start + len) / 8))
        (Nat.mod_lt (start + len) (by omega : 8 > 0))
      refine ⟨k, fun o ho => (hk o ho).trans (and_congr_left fun _ => ?_)⟩
      omega
  · intro hlast
    refine ⟨fun a hle hlt => ?_, fun a hout => .inl ?_⟩
    · rw [Poisoned, hcell]
      split
      · exact not_bytePoisoned_zero _
      · rw [if_pos (by omega), bytePoisoned_count (by omega) (by omega)]
        omega
    · rw [Poisoned, Poisoned, hcell, if_neg (by omega)]
      split
      · next hin =>
          obtain ⟨hne, hsame⟩ := hin
          have hlast := hlast.resolve_left hne
          rw [bytePoisoned_count (by omega) (by omega), hsame, bytePoisoned_iff, ne_eq,
            toInt_toInt8_eq_zero]
          exact iff_of_true (by omega) ⟨hlast.1, by omega⟩
      · exact Iff.rfl

/-- **When `poison` and `unpoison` act on their range only**, in every shadow that
calls of them leave. -/
theorem actsExactly_iff_mergeable (L : ShadowLayout) (ops : List Op) (op : Op) :
    ∃ s, Libaflmm.run step (new L) ops = some s ∧
      ((∃ e, op.call.run s = some (.error e, s)) ∨
        ∃ s', op.call.run s = some (.ok (), s') ∧ (op.ActsExactly s s' ↔ op.Mergeable s)) := by
  obtain ⟨s, hrun⟩ := run_steps ops (new L)
  refine ⟨s, hrun, ?_⟩
  cases op with
  | poison start len p =>
      rcases run_poison start len p s with ⟨herr, -⟩ | ⟨⟨s', hok, hview⟩, -, hend⟩
      · exact .inl herr
      · exact .inr ⟨s', hok, poisonsExactly_iff hview (GuestShadow.isEndAligned_iff.mp hend)⟩
  | unpoison start len =>
      rcases run_unpoison start len s with ⟨herr, -⟩ | ⟨⟨s', hok, hview⟩, -, hstart⟩
      · exact .inl herr
      · exact .inr ⟨s', hok, unpoisonsExactly_iff hview (GuestShadow.isStartAligned_iff.mp hstart)⟩

/-- The first 4 bytes become valid when the last 4 of a poisoned 8 are poisoned again. -/
theorem not_actsExactly_poison_again : ∃ s s',
    Libaflmm.run step (new ShadowLayout.default64) [.poison 0 8 .asanHeapLeftRz] = some s ∧
    (Op.poison 4 4 .asanUser).call.run s = some (.ok (), s') ∧ s.Poisoned 0 ∧ ¬s'.Poisoned 0 ∧
    ¬(Op.poison 4 4 .asanUser).ActsExactly s s' := by
  refine ⟨_, _, rfl, rfl, ?_⟩
  have hvalid : ¬BytePoisoned 4 0 := by decide
  have hpoisoned : BytePoisoned 0xfa 0 := by decide
  exact ⟨hpoisoned, hvalid, fun h => hvalid ((h.frame 0 (by omega)).mpr hpoisoned)⟩

end

end ShadowMaps

end Libaflmm
