import Mathlib.Data.List.Basic

/-!
# Loops that collect

`collectAll f as` puts one behind the other what `f` has for the elements of a list,
and fails if `f` fails for one of them.
-/

namespace Libaflmm

variable {α β : Type} {f : α → Option (List β)} {as : List α}

def collectAll (f : α → Option (List β)) : List α → Option (List β)
  | [] => some []
  | a :: as =>
    match f a, collectAll f as with
    | some bs, some more => some (bs ++ more)
    | _, _ => none

theorem collectAll_eq_none : collectAll f as = none ↔ ∃ a ∈ as, f a = none := by
  induction as with
  | nil => simp [collectAll]
  | cons a as ih =>
      rw [List.exists_mem_cons_iff, ← ih, collectAll]
      cases f a <;> cases collectAll f as <;> simp

theorem collectAll_of_forall {g : α → List β} (h : ∀ a ∈ as, f a = some (g a)) :
    collectAll f as = some (as.flatMap g) := by
  induction as with
  | nil => rfl
  | cons a as ih =>
      rw [List.forall_mem_cons] at h
      simp only [collectAll, h.1, ih h.2, List.flatMap_cons]

theorem exists_of_collectAll_cons {a : α} {bs : List β} (h : collectAll f (a :: as) = some bs) :
    ∃ own more, f a = some own ∧ collectAll f as = some more ∧ bs = own ++ more := by
  unfold collectAll at h
  split at h
  · next own more hown hmore => exact ⟨own, more, hown, hmore, (Option.some.inj h).symm⟩
  · cases h

/-- What is collected is what `f` has for one of the elements. -/
theorem mem_collectAll {bs : List β} (h : collectAll f as = some bs) {b : β} :
    b ∈ bs ↔ ∃ a ∈ as, ∃ own, f a = some own ∧ b ∈ own := by
  induction as generalizing bs with
  | nil =>
      cases h
      simp
  | cons a as ih =>
      obtain ⟨own, more, hown, hmore, rfl⟩ := exists_of_collectAll_cons h
      rw [List.mem_append, ih hmore, List.exists_mem_cons_iff, hown]
      simp only [Option.some.injEq, exists_eq_left']

end Libaflmm
