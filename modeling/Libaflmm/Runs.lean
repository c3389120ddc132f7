import Mathlib.Data.List.Infix
import Mathlib.Logic.Basic

/-!
# Runs of a step function that may panic

A component is a step function `step : σ → α → Option σ`: from a state and
an operation to the next state, or `none` where the code panics. A run is
the monadic fold of `step` over the operations, so nothing happens after a
panic.

Two ways of quantifying over a run:

- `Survives step s as Q`: after every prefix of `as` the run has not
  panicked and `Q` holds of the operations performed and the state reached;
- `StepsMeet step s as C`: every operation of `as` whose prefix is survived
  meets the condition `C` in the state it starts from.

`survives_iff_stepsMeet` is the induction every exact characterisation below
rests on: when, from a state where `Q` holds, one step re-establishes `Q`
exactly under `C`, then `Q` holds along a run exactly when `C` does.
-/

namespace Libaflmm

variable {σ α : Type*}

/-- The state after a run, `none` once a step has panicked. -/
def run (step : σ → α → Option σ) (s : σ) (as : List α) : Option σ :=
  as.foldlM step s

def Survives (step : σ → α → Option σ) (s : σ) (as : List α)
    (Q : List α → σ → Prop) : Prop :=
  ∀ pre, pre <+: as → ∃ t, run step s pre = some t ∧ Q pre t

def StepsMeet (step : σ → α → Option σ) (s : σ) (as : List α)
    (C : σ → α → Prop) : Prop :=
  ∀ pre a, pre ++ [a] <+: as → ∀ t, run step s pre = some t → C t a

section

variable {step : σ → α → Option σ} {s t : σ} {a : α} {as : List α}

theorem run_cons : run step s (a :: as) = (step s a).bind (run step · as) := by
  simp [run, List.foldlM_cons, bind]

theorem run_concat : run step s (as ++ [a]) = (run step s as).bind (step · a) := by
  simp only [run, List.foldlM_append]
  cases as.foldlM step s with
  | none => rfl
  | some t => cases h : step t a <;> simp [h]

/-- **Invariants of a run.** What holds at the start and is preserved by
every step that returns holds in every state reached. -/
theorem run_invariant (Inv : σ → Prop) (hstep : ∀ s a t, Inv s → step s a = some t → Inv t)
    (hs : Inv s) (h : run step s as = some t) : Inv t := by
  induction as generalizing s with
  | nil =>
      obtain rfl := Option.some.inj h
      exact hs
  | cons a as ih =>
      rw [run_cons] at h
      obtain ⟨u, hu, hrest⟩ := Option.bind_eq_some_iff.mp h
      exact ih (hstep s a u hs hu) hrest

/-! ## Properties of every state reached -/

theorem Survives.of_prefix {Q : List α → σ → Prop} {pre : List α}
    (h : Survives step s as Q) (hp : pre <+: as) : Survives step s pre Q :=
  fun _ hq => h _ (hq.trans hp)

theorem StepsMeet.of_prefix {C : σ → α → Prop} {pre : List α}
    (h : StepsMeet step s as C) (hp : pre <+: as) : StepsMeet step s pre C :=
  fun _ _ hq => h _ _ (hq.trans hp)

theorem survives_concat {Q : List α → σ → Prop} :
    Survives step s (as ++ [a]) Q ↔
      Survives step s as Q ∧ ∃ t, run step s (as ++ [a]) = some t ∧ Q (as ++ [a]) t := by
  constructor
  · exact fun h => ⟨h.of_prefix (List.prefix_append _ _), h _ (List.prefix_refl _)⟩
  · rintro ⟨hpre, hlast⟩ pre hp
    rcases List.prefix_concat_iff.mp hp with rfl | hp
    · exact hlast
    · exact hpre pre hp

theorem stepsMeet_concat {C : σ → α → Prop} :
    StepsMeet step s (as ++ [a]) C ↔
      StepsMeet step s as C ∧ ∀ t, run step s as = some t → C t a := by
  constructor
  · exact fun h => ⟨h.of_prefix (List.prefix_append _ _), h as a (List.prefix_refl _)⟩
  · rintro ⟨hpre, hlast⟩ pre b hp
    rcases List.prefix_concat_iff.mp hp with heq | hp
    · obtain ⟨rfl, hb⟩ := List.append_inj' heq rfl
      obtain rfl : b = a := by simpa using hb
      exact hlast
    · exact hpre pre b hp

theorem stepsMeet_nil {C : σ → α → Prop} : StepsMeet step s [] C := by
  intro pre a hp
  have := List.prefix_nil.mp hp
  simp at this

theorem stepsMeet_cons {C : σ → α → Prop} :
    StepsMeet step s (a :: as) C ↔
      C s a ∧ ∀ t, step s a = some t → StepsMeet step t as C := by
  constructor
  · intro h
    refine ⟨h [] a (by simp) s rfl, fun t ht pre b hp u hu => ?_⟩
    exact h (a :: pre) b (by simpa using hp) u (by rw [run_cons, ht]; exact hu)
  · rintro ⟨hhead, htail⟩ pre b hp u hu
    cases pre with
    | nil =>
        obtain rfl := Option.some.inj hu
        obtain rfl : b = a := by simpa using hp
        exact hhead
    | cons c pre =>
        obtain ⟨rfl, hpre⟩ := List.cons_prefix_cons.mp hp
        rw [run_cons] at hu
        obtain ⟨t, ht, hu⟩ := Option.bind_eq_some_iff.mp hu
        exact htail t ht pre b hpre u hu

instance decidableStepsMeet {C : σ → α → Prop} [∀ t a, Decidable (C t a)] :
    ∀ (s : σ) (as : List α), Decidable (StepsMeet step s as C)
  | _, [] => isTrue stepsMeet_nil
  | s, a :: as =>
    match h : step s a with
    | none => decidable_of_iff (C s a) (by simp [stepsMeet_cons, h])
    | some t =>
      have := decidableStepsMeet (C := C) t as
      decidable_of_iff (C s a ∧ StepsMeet step t as C) (by simp [stepsMeet_cons, h])

/-- The run lemma for runs whose steps meet an assumption `A`. -/
theorem survives_iff_stepsMeet_of {A C : σ → α → Prop} {Q : List α → σ → Prop}
    (hA : StepsMeet step s as A) (h0 : Q [] s)
    (hstep : ∀ pre t a, StepsMeet step s pre A → run step s pre = some t → Q pre t → A t a →
      ((∃ t', step t a = some t' ∧ Q (pre ++ [a]) t') ↔ C t a)) :
    Survives step s as Q ↔ StepsMeet step s as C := by
  induction as using List.reverseRecOn with
  | nil =>
      refine iff_of_true (fun pre hp => ?_) stepsMeet_nil
      obtain rfl := List.prefix_nil.mp hp
      exact ⟨s, rfl, h0⟩
  | append_singleton as a ih =>
      obtain ⟨hpre, hlast⟩ := stepsMeet_concat.mp hA
      rw [survives_concat, stepsMeet_concat, ← ih hpre]
      refine and_congr_right fun hs => ?_
      obtain ⟨t, ht, hq⟩ := hs as (List.prefix_refl _)
      simp only [run_concat, ht, Option.bind_some, Option.some.injEq, forall_eq']
      exact hstep as t a hpre ht hq (hlast t ht)

/-- **The run lemma.** Suppose `Q` holds at the start, and from a state the
run reaches with `Q`, a step survives with `Q` exactly when `C` allows it.
Then `Q` holds along the whole run exactly when every step meets `C`. -/
theorem survives_iff_stepsMeet {Q : List α → σ → Prop} {C : σ → α → Prop}
    (h0 : Q [] s)
    (hstep : ∀ pre t a, run step s pre = some t → Q pre t →
      ((∃ t', step t a = some t' ∧ Q (pre ++ [a]) t') ↔ C t a)) :
    Survives step s as Q ↔ StepsMeet step s as C := by
  have hA : StepsMeet step s as fun _ _ => True := fun _ _ _ _ _ => trivial
  exact survives_iff_stepsMeet_of hA h0 fun pre t a _ ht hq _ => hstep pre t a ht hq

/-- The run lemma for steps that return, and keep an invariant besides: what
they may break is `Q` only. -/
theorem survives_iff_of_returning {A C : σ → α → Prop} (Inv : σ → Prop) {Q : σ → Prop}
    (hA : StepsMeet step s as A) (h0 : Inv s) (hq0 : Q s)
    (hstep : ∀ t a, Inv t → Q t → A t a →
      ∃ t', step t a = some t' ∧ Inv t' ∧ (Q t' ↔ C t a)) :
    Survives step s as (fun _ t => Q t) ↔ StepsMeet step s as C := by
  have hboth : Survives step s as (fun _ t => Q t) ↔
      Survives step s as (fun _ t => Inv t ∧ Q t) := by
    induction as using List.reverseRecOn with
    | nil =>
        refine iff_of_true (fun pre hp => ?_) (fun pre hp => ?_) <;>
          obtain rfl := List.prefix_nil.mp hp
        · exact ⟨s, rfl, hq0⟩
        · exact ⟨s, rfl, h0, hq0⟩
    | append_singleton as a ih =>
        obtain ⟨hpre, hlast⟩ := stepsMeet_concat.mp hA
        rw [survives_concat, survives_concat, ih hpre]
        refine and_congr_right fun hs => ?_
        obtain ⟨t, ht, hinv, hq⟩ := hs as (List.prefix_refl _)
        obtain ⟨t', ht', hinv', -⟩ := hstep t a hinv hq (hlast t ht)
        simp [run_concat, ht, ht', hinv']
  rw [hboth]
  refine survives_iff_stepsMeet_of hA ⟨h0, hq0⟩ fun pre t a _ _ hq ha => ?_
  obtain ⟨t', ht', hinv', hiff⟩ := hstep t a hq.1 hq.2 ha
  simp [ht', hinv', hiff]

/-! ## Properties of every step -/

/-- What holds at the start and is preserved by every step that meets `C`
and returns, holds in the state reached by a run whose steps meet `C`. -/
theorem StepsMeet.invariant {C : σ → α → Prop} (Inv : σ → Prop) (h : StepsMeet step s as C)
    (h0 : Inv s) (hpres : ∀ t a t', a ∈ as → Inv t → C t a → step t a = some t' → Inv t')
    (hrun : run step s as = some t) : Inv t := by
  induction as using List.reverseRecOn generalizing t with
  | nil =>
      obtain rfl := Option.some.inj hrun
      exact h0
  | append_singleton as a ih =>
      obtain ⟨hpre, hlast⟩ := stepsMeet_concat.mp h
      rw [run_concat] at hrun
      obtain ⟨u, hu, hstep⟩ := Option.bind_eq_some_iff.mp hrun
      have hinv : Inv u :=
        ih hpre (fun t b t' hb => hpres t b t' (List.mem_append_left _ hb)) hu
      exact hpres u a t (by simp) hinv (hlast u hu) hstep

/-- Where a step that meets `C` returns and keeps the invariant, a run whose
steps meet `C` returns, and what follows from the invariant holds along it. -/
theorem StepsMeet.survives {C : σ → α → Prop} {Q : σ → Prop} (Inv : σ → Prop)
    (h : StepsMeet step s as C) (h0 : Inv s)
    (hstep : ∀ t a, Inv t → C t a → ∃ t', step t a = some t' ∧ Inv t')
    (hq : ∀ t, Inv t → Q t) : Survives step s as (fun _ t => Q t) := by
  intro pre hp
  suffices hrun : ∃ t, run step s pre = some t ∧ Inv t by
    obtain ⟨t, ht, hinv⟩ := hrun
    exact ⟨t, ht, hq t hinv⟩
  have hpre := h.of_prefix hp
  clear h hp
  induction pre using List.reverseRecOn with
  | nil => exact ⟨s, rfl, h0⟩
  | append_singleton pre a ih =>
      obtain ⟨hpre, hlast⟩ := stepsMeet_concat.mp hpre
      obtain ⟨t, ht, hinv⟩ := ih hpre
      obtain ⟨t', ht', hinv'⟩ := hstep t a hinv (hlast t ht)
      exact ⟨t', by rw [run_concat, ht, Option.bind_some, ht'], hinv'⟩

/-- The run lemma for what holds in the states that are reached: a step that
panics reaches none, so `C` has to fail only for steps that return. -/
theorem forall_reached_iff_stepsMeet {Q : σ → Prop} {C : σ → α → Prop} (Inv : σ → Prop)
    (h0 : Inv s) (hq : ∀ t, Inv t → Q t)
    (hkeep : ∀ t a t', Inv t → C t a → step t a = some t' → Inv t')
    (hbreak : ∀ t a, Inv t → ¬ C t a → ∃ t', step t a = some t' ∧ ¬ Q t') :
    (∀ pre, pre <+: as → ∀ t, run step s pre = some t → Q t) ↔ StepsMeet step s as C := by
  constructor
  · intro h
    induction as using List.reverseRecOn with
    | nil => exact stepsMeet_nil
    | append_singleton as a ih =>
        have hpre := ih fun pre hp => h pre (hp.trans (List.prefix_append as [a]))
        refine stepsMeet_concat.mpr ⟨hpre, fun t ht => ?_⟩
        have hinv := hpre.invariant Inv h0 (fun t a t' _ => hkeep t a t') ht
        by_contra hnot
        obtain ⟨t', hstep, hbad⟩ := hbreak t a hinv hnot
        refine hbad (h _ (List.prefix_refl _) t' ?_)
        rw [run_concat, ht, Option.bind_some, hstep]
  · intro h pre hp t ht
    exact hq t ((h.of_prefix hp).invariant Inv h0 (fun t a t' _ => hkeep t a t') ht)

/-- Two step conditions agree along a run whose steps meet an assumption `A`
when they agree in every state satisfying an invariant that the steps meeting
the second one preserve. -/
theorem stepsMeet_congr_of {A P C : σ → α → Prop} (Inv : σ → Prop) (hA : StepsMeet step s as A)
    (h0 : Inv s) (hiff : ∀ t a, a ∈ as → Inv t → A t a → (P t a ↔ C t a))
    (hpres : ∀ t a t', a ∈ as → Inv t → A t a → C t a → step t a = some t' → Inv t') :
    StepsMeet step s as P ↔ StepsMeet step s as C := by
  induction as using List.reverseRecOn with
  | nil => exact iff_of_true stepsMeet_nil stepsMeet_nil
  | append_singleton as a ih =>
      obtain ⟨hA, hlast⟩ := stepsMeet_concat.mp hA
      have hpres' : ∀ t b t', b ∈ as → Inv t → A t b → C t b → step t b = some t' → Inv t' :=
        fun t b t' hb => hpres t b t' (List.mem_append_left _ hb)
      rw [stepsMeet_concat, stepsMeet_concat,
        ih hA (fun t b hb => hiff t b (List.mem_append_left _ hb)) hpres']
      refine and_congr_right fun hpre => forall₂_congr fun t ht => ?_
      have hboth : StepsMeet step s as fun t b => A t b ∧ C t b :=
        fun pre b hp u hu => ⟨hA pre b hp u hu, hpre pre b hp u hu⟩
      refine hiff t a (by simp) (hboth.invariant Inv h0 ?_ ht) (hlast t ht)
      exact fun u b u' hb hinv hmeet => hpres' u b u' hb hinv hmeet.1 hmeet.2

/-- Two step conditions agree along a run when they agree in every state
satisfying an invariant that the steps meeting the second one preserve. -/
theorem stepsMeet_congr {P C : σ → α → Prop} (Inv : σ → Prop) (h0 : Inv s)
    (hiff : ∀ t a, a ∈ as → Inv t → (P t a ↔ C t a))
    (hpres : ∀ t a t', a ∈ as → Inv t → C t a → step t a = some t' → Inv t') :
    StepsMeet step s as P ↔ StepsMeet step s as C := by
  have hA : StepsMeet step s as fun _ _ => True := fun _ _ _ _ _ => trivial
  exact stepsMeet_congr_of Inv hA h0 (fun t a ha ht _ => hiff t a ha ht)
    fun t a t' ha ht _ => hpres t a t' ha ht

end

end Libaflmm
