import Libaflmm.Patterns
import Mathlib.Data.List.Forall2

/-!
# Searching for a sequence of patterns

`splits rs xs` has the ways in which the patterns `rs` match one behind the other
at the front of `xs`, each with what every pattern takes and with what is left,
in the order of a backtracking search. A search takes the first of them at the
first place that has one.

What is found does not depend on the order where the elements at the borders of
the patterns tell them apart: a run of elements ends in one place only.
-/

namespace Libaflmm

namespace Pattern

variable {α β : Type}

/-! ## What a pattern matches -/

def Matches : Pattern α → List α → Prop
  | one p, taken => ∃ x, p x = true ∧ taken = [x]
  | seq r s, taken => ∃ a b, r.Matches a ∧ s.Matches b ∧ taken = a ++ b
  | alt r s, taken => r.Matches taken ∨ s.Matches taken
  | plus r, taken => ∃ pieces, pieces ≠ [] ∧ (∀ a ∈ pieces, r.Matches a) ∧ taken = pieces.flatten

theorem mem_rests_plus {r : Pattern α}
    (hr : ∀ {xs ys}, ys ∈ r.rests xs ↔ ∃ taken, r.Matches taken ∧ xs = taken ++ ys)
    {xs ys : List α} :
    ys ∈ (plus r).rests xs ↔ ∃ taken, (plus r).Matches taken ∧ xs = taken ++ ys := by
  constructor
  · intro h
    induction hn : xs.length using Nat.strongRecOn generalizing xs with
    | ind n ih =>
        rw [rests_plus, List.mem_flatMap] at h
        obtain ⟨zs, hzs, hys⟩ := h
        have hlt := (shortens_rests r).length_lt hzs
        obtain ⟨a, ha, rfl⟩ := hr.mp hzs
        rcases List.mem_append.mp hys with hys | hys
        · obtain ⟨_, ⟨pieces, -, hpieces, rfl⟩, rfl⟩ := ih _ (hn ▸ hlt) hys rfl
          refine ⟨a ++ pieces.flatten, ⟨a :: pieces, List.cons_ne_nil _ _, ?_, rfl⟩, ?_⟩
          · exact List.forall_mem_cons.mpr ⟨ha, hpieces⟩
          · rw [List.append_assoc]
        · rw [List.mem_singleton.mp hys]
          refine ⟨a, ⟨[a], List.cons_ne_nil _ _, ?_, (List.flatten_singleton).symm⟩, rfl⟩
          exact fun b hb => List.mem_singleton.mp hb ▸ ha
  · rintro ⟨_, ⟨pieces, hne, hpieces, rfl⟩, rfl⟩
    induction pieces with
    | nil => exact absurd rfl hne
    | cons a pieces ih =>
        rw [List.forall_mem_cons] at hpieces
        rw [rests_plus, List.mem_flatMap]
        refine ⟨pieces.flatten ++ ys, hr.mpr ⟨a, hpieces.1, ?_⟩, ?_⟩
        · rw [List.flatten_cons, List.append_assoc]
        · cases pieces with
          | nil => exact List.mem_append_right _ (List.mem_singleton.mpr rfl)
          | cons b pieces =>
              exact List.mem_append_left _ (ih (List.cons_ne_nil _ _) hpieces.2)

theorem mem_rests {r : Pattern α} {xs ys : List α} :
    ys ∈ r.rests xs ↔ ∃ taken, r.Matches taken ∧ xs = taken ++ ys := by
  induction r generalizing xs ys with
  | one p =>
      cases xs with
      | nil => simp [rests, Matches]
      | cons x xs =>
          rw [rests]
          split
          · next hx =>
              rw [List.mem_singleton]
              constructor
              · rintro rfl
                exact ⟨[x], ⟨x, hx, rfl⟩, rfl⟩
              · rintro ⟨_, ⟨y, -, rfl⟩, heq⟩
                exact (List.cons.inj heq).2.symm
          · next hx =>
              refine iff_of_false List.not_mem_nil ?_
              rintro ⟨_, ⟨y, hy, rfl⟩, heq⟩
              exact hx ((List.cons.inj heq).1 ▸ hy)
  | seq r s ihr ihs =>
      simp only [rests, List.mem_flatMap, ihr, ihs]
      constructor
      · rintro ⟨_, ⟨a, ha, rfl⟩, b, hb, rfl⟩
        exact ⟨a ++ b, ⟨a, b, ha, hb, rfl⟩, (List.append_assoc a b ys).symm⟩
      · rintro ⟨_, ⟨a, b, ha, hb, rfl⟩, rfl⟩
        exact ⟨b ++ ys, ⟨a, ha, List.append_assoc a b ys⟩, b, hb, rfl⟩
  | alt r s ihr ihs =>
      simp only [rests, List.mem_append, ihr, ihs, Matches]
      constructor
      · rintro (⟨a, ha, rfl⟩ | ⟨a, ha, rfl⟩)
        · exact ⟨a, .inl ha, rfl⟩
        · exact ⟨a, .inr ha, rfl⟩
      · rintro ⟨a, ha | ha, rfl⟩
        · exact .inl ⟨a, ha, rfl⟩
        · exact .inr ⟨a, ha, rfl⟩
  | plus r ih => exact mem_rests_plus ih

/-- A run of elements with `p`. -/
theorem matches_run {p : α → Bool} {taken : List α} :
    (plus (one p)).Matches taken ↔ taken ≠ [] ∧ ∀ x ∈ taken, p x = true := by
  constructor
  · rintro ⟨pieces, hne, hpieces, rfl⟩
    constructor
    · obtain ⟨a, pieces, rfl⟩ := List.exists_cons_of_ne_nil hne
      obtain ⟨x, -, rfl⟩ := hpieces a List.mem_cons_self
      simp
    · intro x hx
      obtain ⟨a, ha, hx⟩ := List.mem_flatten.mp hx
      obtain ⟨y, hy, rfl⟩ := hpieces a ha
      exact List.mem_singleton.mp hx ▸ hy
  · rintro ⟨hne, htaken⟩
    refine ⟨taken.map fun x => [x], by simpa using hne, fun a ha => ?_, ?_⟩
    · obtain ⟨x, hx, rfl⟩ := List.mem_map.mp ha
      exact ⟨x, htaken x hx, rfl⟩
    · rw [← List.flatMap_def, List.flatMap_singleton']

def verbatim [BEq α] (x : α) : List α → Pattern α
  | [] => one (· == x)
  | y :: ys => seq (one (· == x)) (verbatim y ys)

theorem matches_verbatim [BEq α] [LawfulBEq α] {x : α} {xs taken : List α} :
    (verbatim x xs).Matches taken ↔ taken = x :: xs := by
  induction xs generalizing x taken with
  | nil => simp [verbatim, Matches]
  | cons y ys ih =>
      rw [verbatim, Matches]
      simp only [ih]
      constructor
      · rintro ⟨_, _, ⟨z, hz, rfl⟩, rfl, rfl⟩
        rw [beq_iff_eq.mp hz]
        rfl
      · rintro rfl
        exact ⟨[x], y :: ys, ⟨x, beq_self_eq_true x, rfl⟩, rfl, rfl⟩

/-! ## One pattern behind the other -/

def splits : List (Pattern α) → List α → List (List (List α) × List α)
  | [], xs => [([], xs)]
  | r :: rs, xs => (r.rests xs).flatMap fun ys =>
      (splits rs ys).map fun s => (xs.take (xs.length - ys.length) :: s.1, s.2)

theorem mem_splits {rs : List (Pattern α)} {xs ys : List α} {taken : List (List α)} :
    (taken, ys) ∈ splits rs xs ↔ List.Forall₂ Matches rs taken ∧ xs = taken.flatten ++ ys := by
  induction rs generalizing xs taken with
  | nil =>
      rw [splits, List.mem_singleton, Prod.mk.injEq, List.forall₂_nil_left_iff]
      constructor
      · rintro ⟨rfl, rfl⟩
        exact ⟨rfl, rfl⟩
      · rintro ⟨rfl, rfl⟩
        exact ⟨rfl, rfl⟩
  | cons r rs ih =>
      rw [splits, List.mem_flatMap]
      constructor
      · rintro ⟨zs, hzs, hsplit⟩
        obtain ⟨⟨more, ws⟩, hmore, heq⟩ := List.mem_map.mp hsplit
        obtain rfl : ws = ys := (Prod.mk.inj heq).2
        obtain ⟨a, ha, rfl⟩ := mem_rests.mp hzs
        obtain ⟨hmatch, rfl⟩ := ih.mp hmore
        have htake : (a ++ (more.flatten ++ ws)).take
            ((a ++ (more.flatten ++ ws)).length - (more.flatten ++ ws).length) = a := by
          rw [List.length_append, Nat.add_sub_cancel, List.take_left]
        rw [htake] at heq
        cases heq
        exact ⟨.cons ha hmatch, by rw [List.flatten_cons, List.append_assoc]⟩
      · rintro ⟨hmatch, rfl⟩
        obtain ⟨a, more, ha, hmore, rfl⟩ := List.forall₂_cons_left_iff.mp hmatch
        refine ⟨more.flatten ++ ys, mem_rests.mpr ⟨a, ha, ?_⟩, List.mem_map.mpr
          ⟨(more, ys), ih.mpr ⟨hmore, rfl⟩, ?_⟩⟩
        · rw [List.flatten_cons, List.append_assoc]
        · rw [List.flatten_cons, List.append_assoc, List.length_append, Nat.add_sub_cancel,
            List.take_left]

theorem not_run_of_head?_rests {p : α → Bool} {xs ys : List α}
    (h : ((plus (one p)).rests xs).head? = some ys) : ∀ y ∈ ys.head?, p y = false := by
  induction xs with
  | nil => cases h
  | cons x xs ih =>
      rw [head?_rests_plus, rests] at h
      split at h
      · rw [List.head?_singleton, Option.map_some] at h
        cases hmore : ((plus (one p)).rests xs).head? with
        | some zs =>
            rw [hmore] at h
            cases h
            exact ih hmore
        | none =>
            rw [hmore] at h
            cases h
            intro y hy
            by_contra hp
            obtain ⟨ys, rfl⟩ := List.head?_eq_some_iff.mp hy
            have hmem : ys ∈ (plus (one p)).rests (y :: ys) :=
              mem_rests.mpr ⟨[y], matches_run.mpr ⟨List.cons_ne_nil _ _, by simpa using hp⟩, rfl⟩
            rw [List.head?_eq_none_iff.mp hmore] at hmem
            cases hmem
      · cases h

/-- A run at the end of the patterns is as long as it can be. -/
theorem not_run_of_head? {p : α → Bool} {rs : List (Pattern α)} {xs ys : List α}
    {taken : List (List α)} (h : (splits (rs ++ [plus (one p)]) xs).head? = some (taken, ys)) :
    ∀ y ∈ ys.head?, p y = false := by
  induction rs generalizing xs taken with
  | nil =>
      rw [List.nil_append, splits, List.head?_flatMap] at h
      simp only [splits, List.map_cons, List.map_nil, List.head?_cons] at h
      cases hrests : (plus (one p)).rests xs with
      | nil =>
          rw [hrests] at h
          cases h
      | cons zs more =>
          rw [hrests] at h
          cases h
          exact not_run_of_head?_rests (hrests ▸ List.head?_cons)
  | cons r rs ih =>
      rw [List.cons_append, splits, List.head?_flatMap] at h
      obtain ⟨zs, -, hsplit⟩ := List.exists_of_findSome?_eq_some h
      rw [List.head?_map] at hsplit
      obtain ⟨⟨more, ys⟩, hmore, heq⟩ := Option.map_eq_some_iff.mp hsplit
      cases heq
      exact ih hmore

/-! ## The first place -/

def search (f : List α → List β) : List α → Option β
  | [] => (f []).head?
  | x :: xs => (f (x :: xs)).head? <|> search f xs

theorem search_eq_some {f : List α → List β} {xs : List α} {b : β} :
    search f xs = some b ↔ ∃ pre ys, xs = pre ++ ys ∧ (f ys).head? = some b ∧
      ∀ pre₁ pre₂, pre = pre₁ ++ pre₂ → pre₂ ≠ [] → f (pre₂ ++ ys) = [] := by
  induction xs with
  | nil =>
      constructor
      · exact fun h => ⟨[], [], rfl, h, fun pre₁ pre₂ heq hne =>
          absurd (List.append_eq_nil_iff.mp heq.symm).2 hne⟩
      · rintro ⟨pre, ys, heq, h, -⟩
        obtain ⟨rfl, rfl⟩ := List.append_eq_nil_iff.mp heq.symm
        exact h
  | cons x xs ih =>
      rw [search]
      cases hhead : (f (x :: xs)).head? with
      | some c =>
          constructor
          · intro h
            cases h
            exact ⟨[], x :: xs, rfl, hhead, fun pre₁ pre₂ heq hne =>
              absurd (List.append_eq_nil_iff.mp heq.symm).2 hne⟩
          · rintro ⟨pre, ys, heq, h, hbefore⟩
            by_cases hpre : pre = []
            · subst hpre
              rw [List.nil_append] at heq
              rw [heq, h] at hhead
              exact hhead.symm ▸ rfl
            · have hnil := hbefore [] pre rfl hpre
              rw [← heq] at hnil
              rw [hnil] at hhead
              cases hhead
      | none =>
          refine (show search f xs = some b ↔ _ from ih).trans ?_
          constructor
          · rintro ⟨pre, ys, rfl, h, hbefore⟩
            refine ⟨x :: pre, ys, rfl, h, fun pre₁ pre₂ heq hne => ?_⟩
            cases pre₁ with
            | nil =>
                rw [← (show x :: pre = pre₂ from heq)]
                exact List.head?_eq_none_iff.mp hhead
            | cons y pre₁ => exact hbefore pre₁ pre₂ (List.cons.inj heq).2 hne
          · rintro ⟨pre, ys, heq, h, hbefore⟩
            cases pre with
            | nil =>
                rw [List.nil_append] at heq
                rw [heq, h] at hhead
                cases hhead
            | cons y pre =>
                obtain ⟨rfl, rfl⟩ := List.cons.inj heq
                exact ⟨pre, ys, rfl, h, fun pre₁ pre₂ heq hne =>
                  hbefore (x :: pre₁) pre₂ (congrArg (x :: ·) heq) hne⟩

/-- A run ends where an element that has not `p` comes. -/
theorem run_append_inj {p : α → Bool} {a a' b b' : List α} (ha : ∀ x ∈ a, p x = true)
    (ha' : ∀ x ∈ a', p x = true) (hb : ∀ x ∈ b.head?, p x = false)
    (hb' : ∀ x ∈ b'.head?, p x = false) (h : a ++ b = a' ++ b') : a = a' ∧ b = b' := by
  induction a generalizing a' with
  | nil =>
      cases a' with
      | nil => exact ⟨rfl, h⟩
      | cons x a' =>
          have hx := hb x (by rw [← List.nil_append b, h]; rfl)
          rw [ha' x List.mem_cons_self] at hx
          cases hx
  | cons x a ih =>
      rw [List.forall_mem_cons] at ha
      cases a' with
      | nil =>
          have hx := hb' x (by rw [← List.nil_append b', ← h]; rfl)
          rw [ha.1] at hx
          cases hx
      | cons y a' =>
          rw [List.forall_mem_cons] at ha'
          obtain ⟨rfl, htail⟩ := List.cons.inj h
          obtain ⟨rfl, rfl⟩ := ih ha.2 ha'.2 htail
          exact ⟨rfl, rfl⟩

end Pattern

end Libaflmm
