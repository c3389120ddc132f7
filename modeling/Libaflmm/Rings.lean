import Mathlib.Data.Int.ModEq
import Mathlib.Data.List.Rotate

/-!
# Ring buffers

The element that comes as the `i`-th is put at place `i % h`, so that the last
`h` ones are kept. Which elements the places hold is a relation, since a place
may be a piece of a larger memory.

What the places hold, read from the first one on, are the last elements up to a
rotation.
-/

namespace Libaflmm

namespace Ring

variable {α β : Type*} {h : Nat} {as : List α}

/-- The last `h` elements are where they have been put. -/
def Holds (h : Nat) (has : Nat → α → Prop) (as : List α) : Prop :=
  ∀ i (hi : i < as.length), as.length ≤ i + h → has (i % h) as[i]

variable {has has' : Nat → α → Prop}

theorem holds_nil : Holds h has [] := fun _ hi => absurd hi (Nat.not_lt_zero _)

theorem holds_singleton {a : α} (ha : has 0 a) : Holds h has [a] := by
  intro i hi _
  obtain rfl : i = 0 := Nat.lt_one_iff.mp hi
  rwa [Nat.zero_mod]

/-- One more element takes the place of the oldest one. -/
theorem Holds.concat {a : α} (hold : Holds h has as) (ha : has' (as.length % h) a)
    (hother : ∀ j, ∀ b ∈ as, j ≠ as.length % h → has j b → has' j b) :
    Holds h has' (as ++ [a]) := by
  intro i hi hlast
  rw [List.length_append, List.length_singleton] at hi hlast
  by_cases hnew : i = as.length
  · subst hnew
    rw [List.getElem_concat_length rfl]
    exact ha
  · have hi' : i < as.length := by omega
    rw [List.getElem_append_left hi']
    refine hother _ _ (List.getElem_mem hi') ?_ (hold i hi' (by omega))
    -- The two are less than `h` apart, so they are not at one place.
    intro hmod
    have hdvd : h ∣ as.length - i := (Nat.modEq_iff_dvd' hi'.le).mp hmod
    have := Nat.le_of_dvd (by omega) hdvd
    omega

/-- **What is read from the places**: the last elements up to a rotation. -/
theorem Holds.isRotated {f : Nat → β} {g : α → β} (hh : 0 < h) (hold : Holds h has as)
    (hread : ∀ j < h, ∀ a ∈ as.drop (as.length - h), has j a → f j = g a) :
    ((List.range (min as.length h)).map f).IsRotated ((as.drop (as.length - h)).map g) := by
  by_cases hle : as.length ≤ h
  · rw [Nat.min_eq_left hle, Nat.sub_eq_zero_of_le hle, List.drop_zero]
    rw [Nat.sub_eq_zero_of_le hle, List.drop_zero] at hread
    refine ⟨0, ?_⟩
    rw [List.rotate_zero]
    refine List.ext_getElem (by simp) fun i hi _ => ?_
    rw [List.length_map, List.length_range] at hi
    have hplace := hold i hi (by omega)
    rw [Nat.mod_eq_of_lt (by omega)] at hplace
    rw [List.getElem_map, List.getElem_map, List.getElem_range]
    exact hread i (by omega) _ (List.getElem_mem _) hplace
  · rw [Nat.min_eq_right (by omega)]
    refine ⟨as.length, List.ext_getElem (by simp; omega) fun i hi hi' => ?_⟩
    rw [List.length_map, List.length_drop] at hi'
    rw [List.getElem_rotate, List.getElem_map, List.getElem_map, List.getElem_range,
      List.getElem_drop, List.length_map, List.length_range]
    refine hread _ (Nat.mod_lt _ hh) _ ?_ ?_
    · refine List.mem_iff_getElem.mpr ⟨i, ?_, List.getElem_drop⟩
      rwa [List.length_drop]
    · have hplace : (i + as.length) % h = (as.length - h + i) % h := by
        rw [← Nat.add_mod_right (as.length - h + i) h]
        congr 1
        omega
      rw [hplace]
      exact hold _ (by omega) (by omega)

end Ring

end Libaflmm
