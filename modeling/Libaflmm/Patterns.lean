import Mathlib.Data.List.Basic
import Mathlib.Data.List.Infix

/-!
# Patterns and their captures

A backtracking matcher for regular expressions. `rests r xs` has the matches of
`r` at the front of `xs`, each as what it leaves of `xs`, in the order in which
a backtracking search comes to them: the left alternative before the right one,
and one more repetition before none. The search takes the first of them.

Every pattern takes at least one element, so a repetition is unrolled at most
once for every element.
-/

namespace Libaflmm

inductive Pattern (α : Type) where
  | one (p : α → Bool)
  | seq (r s : Pattern α)
  | alt (r s : Pattern α)
  | plus (r : Pattern α)

namespace Pattern

variable {α γ : Type}

def repeatRests (f : List α → List (List α)) : Nat → List α → List (List α)
  | 0, _ => []
  | fuel + 1, xs => (f xs).flatMap fun ys => repeatRests f fuel ys ++ [ys]

def rests : Pattern α → List α → List (List α)
  | one _, [] => []
  | one p, x :: xs => if p x then [xs] else []
  | seq r s, xs => (r.rests xs).flatMap s.rests
  | alt r s, xs => r.rests xs ++ s.rests xs
  | plus r, xs => repeatRests r.rests xs.length xs

/-- The first of the groups that matches at the front, with what it takes and
what it leaves. -/
def capture? (groups : List (γ × Pattern α)) (xs : List α) : Option (γ × List α × List α) :=
  groups.findSome? fun g =>
    (g.2.rests xs).head?.map fun ys => (g.1, xs.take (xs.length - ys.length), ys)

/-- An element at which no group matches is passed over. -/
def captures (groups : List (γ × Pattern α)) : Nat → List α → List (γ × List α)
  | 0, _ => []
  | _ + 1, [] => []
  | fuel + 1, x :: xs =>
    match capture? groups (x :: xs) with
    | some (g, taken, rest) => (g, taken) :: captures groups fuel rest
    | none => captures groups fuel xs

def capturesIter (groups : List (γ × Pattern α)) (xs : List α) : List (γ × List α) :=
  captures groups xs.length xs

/-! ## A match is taken from the front, and is not empty -/

def Shortens (f : List α → List (List α)) : Prop :=
  ∀ ⦃xs ys⦄, ys ∈ f xs → ∃ taken, taken ≠ [] ∧ xs = taken ++ ys

theorem Shortens.length_lt {f : List α → List (List α)} (hf : Shortens f) {xs ys : List α}
    (h : ys ∈ f xs) : ys.length < xs.length := by
  obtain ⟨taken, hne, rfl⟩ := hf h
  have hpos := List.length_pos_of_ne_nil hne
  rw [List.length_append]
  omega

theorem Shortens.repeatRests {f : List α → List (List α)} (hf : Shortens f) (fuel : Nat) :
    Shortens (repeatRests f fuel) := by
  induction fuel with
  | zero =>
      intro xs ys h
      simp [Pattern.repeatRests] at h
  | succ fuel ih =>
      intro xs ys h
      simp only [Pattern.repeatRests, List.mem_flatMap, List.mem_append, List.mem_singleton] at h
      obtain ⟨zs, hzs, hys | rfl⟩ := h
      · obtain ⟨taken, hne, rfl⟩ := hf hzs
        obtain ⟨more, -, rfl⟩ := ih hys
        exact ⟨taken ++ more, by simp [hne], (List.append_assoc ..).symm⟩
      · exact hf hzs

theorem shortens_rests (r : Pattern α) : Shortens r.rests := by
  induction r with
  | one p =>
      intro xs ys h
      cases xs with
      | nil => simp [rests] at h
      | cons x xs =>
          simp only [rests] at h
          split at h
          · rw [List.mem_singleton] at h
            exact ⟨[x], List.cons_ne_nil x [], by rw [h]; rfl⟩
          · simp at h
  | seq r s ihr ihs =>
      intro xs ys h
      simp only [rests, List.mem_flatMap] at h
      obtain ⟨zs, hzs, hys⟩ := h
      obtain ⟨taken, hne, rfl⟩ := ihr hzs
      obtain ⟨more, -, rfl⟩ := ihs hys
      exact ⟨taken ++ more, by simp [hne], (List.append_assoc ..).symm⟩
  | alt r s ihr ihs =>
      intro xs ys h
      simp only [rests, List.mem_append] at h
      exact h.elim (fun h => ihr h) (fun h => ihs h)
  | plus r ih => exact fun xs ys h => ih.repeatRests xs.length h

/-! ## Repetitions -/

theorem repeatRests_eq_repeatRests {f : List α → List (List α)} (hf : Shortens f) :
    ∀ {m n : Nat} {xs : List α}, xs.length ≤ m → xs.length ≤ n →
      repeatRests f m xs = repeatRests f n xs := by
  intro m
  induction m with
  | zero =>
      intro n xs hm hn
      have hnil : f xs = [] := by
        refine List.eq_nil_iff_forall_not_mem.mpr fun ys hys => ?_
        have := hf.length_lt hys
        omega
      cases n with
      | zero => rfl
      | succ n => simp only [repeatRests, hnil, List.flatMap_nil]
  | succ m ih =>
      intro n xs hm hn
      cases n with
      | zero =>
          have hnil : f xs = [] := by
            refine List.eq_nil_iff_forall_not_mem.mpr fun ys hys => ?_
            have := hf.length_lt hys
            omega
          simp only [repeatRests, hnil, List.flatMap_nil]
      | succ n =>
          refine List.flatMap_congr fun ys hys => ?_
          have hlt := hf.length_lt hys
          rw [ih (n := n) (by omega) (by omega)]

theorem rests_plus (r : Pattern α) (xs : List α) :
    (plus r).rests xs = (r.rests xs).flatMap fun ys => (plus r).rests ys ++ [ys] := by
  have hr := shortens_rests r
  rw [rests, repeatRests_eq_repeatRests hr le_rfl (Nat.le_succ xs.length)]
  refine List.flatMap_congr fun ys hys => ?_
  have hlt := hr.length_lt hys
  rw [rests, repeatRests_eq_repeatRests hr (n := ys.length) hlt.le le_rfl]

/-- The search repeats as long as it can, each time with the first match. -/
theorem head?_rests_plus (r : Pattern α) (xs : List α) :
    ((plus r).rests xs).head? =
      (r.rests xs).head?.map fun ys => ((plus r).rests ys).head?.getD ys := by
  rw [rests_plus]
  cases r.rests xs with
  | nil => rfl
  | cons ys rest =>
      rw [List.flatMap_cons, List.append_assoc, List.head?_append, List.head?_append]
      simp

/-- A run of elements with `p`, closed by an element with `q`, has one match. -/
theorem head?_rests_closed {p q : α → Bool} (hpq : ∀ x, p x → q x = false) (x : α)
    (xs : List α) :
    ((seq (plus (one p)) (one q)).rests (x :: xs)).head? =
      if p x then
        match xs.dropWhile p with
        | c :: rest => if q c then some rest else none
        | [] => none
      else none := by
  have hstep : ∀ (x : α) (xs : List α), (seq (plus (one p)) (one q)).rests (x :: xs) =
      if p x then (seq (plus (one p)) (one q)).rests xs ++ (one q).rests xs else [] := by
    intro x xs
    rw [rests, rests_plus, rests]
    split
    · rw [List.flatMap_singleton, List.flatMap_append, List.flatMap_singleton, rests]
    · rfl
  induction xs generalizing x with
  | nil =>
      rw [hstep]
      split <;> rfl
  | cons y ys ih =>
      rw [hstep]
      split
      · rw [List.head?_append, ih]
        by_cases hy : p y
        · -- the run goes on, so it is not closed here
          simp only [hy, if_true, List.dropWhile_cons_of_pos, rests, hpq y hy]
          simp
        · rw [if_neg hy, List.dropWhile_cons_of_neg hy, rests]
          cases hq : q y <;> simp [hq]
      · rfl

/-! ## Captures -/

theorem capture?_eq_some {groups : List (γ × Pattern α)} {xs taken rest : List α} {g : γ}
    (h : capture? groups xs = some (g, taken, rest)) : taken ≠ [] ∧ xs = taken ++ rest := by
  obtain ⟨⟨g', r⟩, -, h⟩ := List.exists_of_findSome?_eq_some h
  obtain ⟨ys, hys, heq⟩ := Option.map_eq_some_iff.mp h
  cases heq
  obtain ⟨taken, hne, rfl⟩ := shortens_rests r (List.mem_of_head? hys)
  simp [hne]

theorem captures_eq_captures {groups : List (γ × Pattern α)} :
    ∀ {m n : Nat} {xs : List α}, xs.length ≤ m → xs.length ≤ n →
      captures groups m xs = captures groups n xs := by
  intro m
  induction m with
  | zero =>
      intro n xs hm hn
      rw [List.eq_nil_of_length_eq_zero (Nat.le_zero.mp hm)]
      cases n <;> rfl
  | succ m ih =>
      intro n xs hm hn
      cases xs with
      | nil => cases n <;> rfl
      | cons x xs =>
          cases n with
          | zero => simp at hn
          | succ n =>
              rw [List.length_cons] at hm hn
              simp only [captures]
              split
              · next g taken rest h =>
                  obtain ⟨hne, heq⟩ := capture?_eq_some h
                  have hpos := List.length_pos_of_ne_nil hne
                  have hlen := congrArg List.length heq
                  rw [List.length_append, List.length_cons] at hlen
                  rw [ih (n := n) (by omega) (by omega)]
              · rw [ih (n := n) (by omega) (by omega)]

theorem capturesIter_nil (groups : List (γ × Pattern α)) : capturesIter groups [] = [] := rfl

theorem capturesIter_of_some {groups : List (γ × Pattern α)} {xs taken rest : List α} {g : γ}
    (h : capture? groups xs = some (g, taken, rest)) :
    capturesIter groups xs = (g, taken) :: capturesIter groups rest := by
  obtain ⟨hne, rfl⟩ := capture?_eq_some h
  cases taken with
  | nil => exact absurd rfl hne
  | cons x taken =>
      simp only [capturesIter, List.cons_append, List.length_cons, captures] at h ⊢
      rw [h]
      exact congrArg _ (captures_eq_captures (by simp) le_rfl)

theorem capturesIter_of_none {groups : List (γ × Pattern α)} {x : α} {xs : List α}
    (h : capture? groups (x :: xs) = none) :
    capturesIter groups (x :: xs) = capturesIter groups xs := by
  simp only [capturesIter, List.length_cons, captures, h]

end Pattern

end Libaflmm
