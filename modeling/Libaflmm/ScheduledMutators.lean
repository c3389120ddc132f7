import Libaflmm.MutationsBounds

/-!
# Stacks of mutations

A scheduled mutator draws how many mutations to stack, and then one after the other
which mutator of its tuple to apply. Each mutator of the tuple keeps a buffer of its
own. The first error ends the stack, and what was applied before it stays in the input.
-/

namespace Libaflmm

/-- What a stack of mutations writes. The buffers are by the place in the tuple. -/
structure Stacked (R : Type) where
  input : List UInt8
  tmpBufs : Nat → List UInt8
  rand : R

namespace Stacked

variable {R : Type}

/-- What the mutator at a place writes. -/
def slot (index : Nat) (s : Stacked R) : Mutation R := ⟨s.input, s.tmpBufs index, s.rand⟩

def setSlot (index : Nat) (t : Mutation R) (s : Stacked R) : Stacked R :=
  ⟨t.input, Function.update s.tmpBufs index t.tmpBuf, t.rand⟩

def draw {α : Type} (f : R → α × R) : Call Error (Stacked R) α :=
  .ofFn fun s => some (.ok (f s.rand).1, { s with rand := (f s.rand).2 })

def unwrap {α : Type} (o : Option α) : Call Error (Stacked R) α :=
  .ofFn fun s => o.map fun a => (.ok a, s)

end Stacked

/-- `SingleChoiceScheduledMutator` and `HavocScheduledMutator` -/
inductive ScheduledMutator (I : Type) where
  | singleChoice (mutations : List (Mutator I))
  | havoc (mutations : List (Mutator I)) (maxStackPow : Nat)

/-- `MutatorsTuple::get_and_mutate`: behind the last mutator there is the empty tuple. -/
def getAndMutate {R I : Type} [Rand R] [HasMutatorBytes I] (debug : Bool) (endian : Endian)
    (state : MutatorState I) (mutations : List (Mutator I)) (index : Nat) :
    Call Error (Stacked R) MutationResult :=
  match mutations[index]? with
  | none => pure .skipped
  | some m => .on (Stacked.slot index) (Stacked.setSlot index) (m.mutate debug endian state).run

namespace ScheduledMutator

variable {R I : Type} [Rand R] [HasMutatorBytes I] (debug : Bool) (endian : Endian)
  (state : MutatorState I)

/-- `HavocScheduledMutator::new` -/
def havocNew (mutations : List (Mutator I)) : ScheduledMutator I := havoc mutations 7

def mutations : ScheduledMutator I → List (Mutator I)
  | singleChoice mutations => mutations
  | havoc mutations _ => mutations

/-- `1 << pow` of a `u64`: a release build cuts the power off. -/
def shiftedOne (pow : Nat) : Option Nat :=
  if pow < 64 then some (2 ^ pow)
  else if debug then none
  else some (2 ^ (pow % 64))

def iterations : ScheduledMutator I → Call Error (Stacked R) Nat
  | singleChoice _ => pure 1
  | havoc _ maxStackPow => do
    let pow := 1 + (← Stacked.draw (Rand.belowOrZero maxStackPow))
    Stacked.unwrap (shiftedOne debug pow)

/-- In a release build the bound of an empty tuple is undefined behaviour. -/
def schedule (self : ScheduledMutator I) : Call Error (Stacked R) Nat :=
  if h : 0 < self.mutations.length then Stacked.draw (Rand.below ⟨self.mutations.length, h⟩)
  else .ofFn fun _ => none

/-- One round of the loop. -/
def mutateOnce (self : ScheduledMutator I) : Call Error (Stacked R) MutationResult := do
  let idx ← self.schedule
  getAndMutate debug endian state self.mutations idx

def mutateTimes (self : ScheduledMutator I) :
    Nat → MutationResult → Call Error (Stacked R) MutationResult
  | 0, r => pure r
  | num + 1, r => do
    let outcome ← self.mutateOnce debug endian state
    mutateTimes self num (if outcome = .mutated then .mutated else r)

/-- `scheduled_mutate` -/
def mutate (self : ScheduledMutator I) : Call Error (Stacked R) MutationResult := do
  let num ← self.iterations debug
  self.mutateTimes debug endian state num .skipped

end ScheduledMutator

/-! ## What a stack does -/

/-- No token is empty. -/
def MutatorState.HasTokens {I : Type} (state : MutatorState I) : Prop :=
  ∀ tokens, state.tokens = some tokens → [] ∉ tokens

theorem Mutator.not_drawsEmpty {R I : Type} [Rand R] {state : MutatorState I}
    (h : state.HasTokens) (m : Mutator I) (s : Mutation R) : ¬m.DrawsEmpty state s := by
  have hchoose : ∀ tokens, state.tokens = some tokens → ∀ r : R,
      (Rand.choose tokens r).1 ≠ some [] := by
    intro tokens htokens r hdrawn
    have hne : tokens ≠ [] := by
      rintro rfl
      cases hdrawn
    obtain ⟨token, hmem, r', heq⟩ := Rand.choose_mem hne r
    rw [heq] at hdrawn
    obtain rfl := Option.some.inj hdrawn
    exact h tokens htokens hmem
  cases m with
  | tokenInsert =>
      rintro ⟨-, tokens, htokens, hdrawn⟩
      exact hchoose tokens htokens _ hdrawn
  | tokenReplace =>
      rintro ⟨-, tokens, htokens, hdrawn⟩
      exact hchoose tokens htokens _ hdrawn
  | _ => exact id

namespace ScheduledMutator

/-- The rounds of a stack, with what each mutator reported. -/
inductive Rounds {σ : Type} (once : Call Error σ MutationResult) :
    σ → List MutationResult → σ → Prop
  | nil (s : σ) : Rounds once s [] s
  | cons {s t u : σ} {outcome : MutationResult} {outcomes : List MutationResult}
      (h : once.run s = some (.ok outcome, t)) (rest : Rounds once t outcomes u) :
      Rounds once s (outcome :: outcomes) u

variable {R I : Type} [Rand R] [HasMutatorBytes I] {debug : Bool} {endian : Endian}
  {state : MutatorState I} {self : ScheduledMutator I} {s : Stacked R}

/-- The input stays within the size limit, or does not grow, and what is skipped is left
alone. -/
def Bounded (maxSize : Nat) (s : Stacked R) (r : Except Error MutationResult) (t : Stacked R) :
    Prop :=
  t.input.length ≤ max s.input.length maxSize ∧ (r = .ok .skipped → t.input = s.input)

theorem getAndMutate_run {mutations : List (Mutator I)} {idx : Nat} {m : Mutator I}
    (hm : mutations[idx]? = some m) {r : Except Error MutationResult} {t : Mutation R}
    (hrun : (m.mutate debug endian state).run (s.slot idx) = some (r, t)) :
    (getAndMutate debug endian state mutations idx).run s = some (r, s.setSlot idx t) := by
  unfold getAndMutate
  rw [hm]
  show (Call.on _ _ _).run s = _
  rw [Call.run_on, hrun]
  rfl

theorem getAndMutate_bounded {mutations : List (Mutator I)} {idx : Nat}
    (hidx : idx < mutations.length)
    (hdraws : debug = true → ∀ m ∈ mutations, ∀ s : Mutation R, ¬m.DrawsEmpty state s)
    (s : Stacked R) :
    (getAndMutate debug endian state mutations idx).Yields s (Bounded state.maxSize s) := by
  have hguarantees : (mutations[idx].mutate debug endian state).Yields (s.slot idx)
      (mutations[idx].Guarantees state.maxSize (s.slot idx)) :=
    Mutator.mutate_guarantees _ fun hd => hdraws hd _ (List.getElem_mem hidx) _
  obtain ⟨r, t, hrun, ⟨hle, hsame⟩, -⟩ := hguarantees
  refine ⟨r, s.setSlot idx t, getAndMutate_run (List.getElem?_eq_getElem hidx) hrun, hle, ?_⟩
  rintro rfl
  exact hsame fun hm => by cases hm

/-- One round returns. -/
theorem mutateOnce_bounded (hne : self.mutations ≠ [])
    (hdraws : debug = true → ∀ m ∈ self.mutations, ∀ s : Mutation R, ¬m.DrawsEmpty state s)
    (s : Stacked R) :
    (self.mutateOnce debug endian state).Yields s (Bounded state.maxSize s) := by
  have hlen : 0 < self.mutations.length := List.length_pos_iff.mpr hne
  unfold mutateOnce schedule
  rw [dif_pos hlen]
  refine (Call.yields_bind_of_ok rfl).mpr ?_
  exact getAndMutate_bounded (Rand.below_lt ⟨self.mutations.length, hlen⟩ s.rand) hdraws _

/-- What the rounds of a stack leave: they all went through, or one ended with an error. -/
def Ends (once : Call Error (Stacked R) MutationResult) (num : Nat) (s : Stacked R)
    (r : Except Error MutationResult) (t : Stacked R) : Prop :=
  ∃ outcomes u, Rounds once s outcomes u ∧
    match r with
    | .ok result => u = t ∧ outcomes.length = num ∧ (result = .mutated ↔ .mutated ∈ outcomes)
    | .error e => outcomes.length < num ∧ once.run u = some (.error e, t)

/-- The loop, from what the rounds before it reported. -/
theorem mutateTimes_ends {maxSize : Nat}
    (honce : ∀ s : Stacked R, (self.mutateOnce debug endian state).Yields s (Bounded maxSize s))
    (num : Nat) (reported : MutationResult) (s : Stacked R) :
    (self.mutateTimes debug endian state num reported).Yields s fun r t =>
      (t.input.length ≤ max s.input.length maxSize ∧
        (r = .ok .skipped → reported = .skipped ∧ t.input = s.input)) ∧
      ∃ outcomes u, Rounds (self.mutateOnce debug endian state) s outcomes u ∧
        match r with
        | .ok result => u = t ∧ outcomes.length = num ∧
            (result = .mutated ↔ reported = .mutated ∨ .mutated ∈ outcomes)
        | .error e => outcomes.length < num ∧
            (self.mutateOnce debug endian state).run u = some (.error e, t) := by
  induction num generalizing reported s with
  | zero =>
      refine Call.yields_pure.mpr ⟨⟨le_max_left _ _, fun hr => ⟨Except.ok.inj hr, rfl⟩⟩,
        [], s, .nil s, rfl, rfl, ?_⟩
      simp
  | succ num ih =>
      unfold mutateTimes
      obtain ⟨r, t, hrun, hle, hsame⟩ := honce s
      cases r with
      | error e =>
          refine (Call.yields_bind_of_error hrun).mpr ⟨⟨hle, fun hr => by cases hr⟩,
            [], s, .nil s, Nat.succ_pos num, hrun⟩
      | ok outcome =>
          refine (Call.yields_bind_of_ok hrun).mpr ((ih _ t).mono fun r u h => ?_)
          obtain ⟨⟨hle', hsame'⟩, outcomes, v, hrounds, hends⟩ := h
          refine ⟨⟨hle'.trans (max_le hle (le_max_right _ _)), fun hr => ?_⟩,
            outcome :: outcomes, v, .cons hrun hrounds, ?_⟩
          · obtain ⟨hreported, hinput⟩ := hsame' hr
            cases outcome with
            | mutated => cases hreported
            | skipped => exact ⟨hreported, hinput.trans (hsame rfl)⟩
          · cases r with
            | error e => exact ⟨Nat.succ_lt_succ hends.1, hends.2⟩
            | ok result =>
                obtain ⟨hv, hlen, hiff⟩ := hends
                refine ⟨hv, congrArg (· + 1) hlen, hiff.trans ?_⟩
                cases outcome with
                | mutated => simp
                | skipped => simp

variable (self) in
/-- The numbers of rounds that may be drawn. -/
def MayIterate (num : Nat) : Prop :=
  match self with
  | singleChoice _ => num = 1
  | havoc _ maxStackPow => ∃ pow, 1 ≤ pow ∧ pow ≤ max 1 maxStackPow ∧ num = 2 ^ (pow % 64)

variable (self) in
/-- The shift does not overflow. -/
def Shifts : Prop :=
  match self with
  | singleChoice _ => True
  | havoc _ maxStackPow => maxStackPow < 64

omit [HasMutatorBytes I] in
theorem iterations_run (hshifts : debug = true → self.Shifts) (s : Stacked R) :
    ∃ num rand, (self.iterations debug).run s = some (.ok num, { s with rand }) ∧
      self.MayIterate num := by
  cases self with
  | singleChoice mutations => exact ⟨1, s.rand, rfl, rfl⟩
  | havoc mutations maxStackPow =>
      have hle := Rand.belowOrZero_le maxStackPow s.rand
      set k := (Rand.belowOrZero maxStackPow s.rand).1 with hk
      have hshift : shiftedOne debug (1 + k) = some (2 ^ ((1 + k) % 64)) := by
        unfold shiftedOne
        by_cases hlt : 1 + k < 64
        · rw [if_pos hlt, Nat.mod_eq_of_lt hlt]
        · rw [if_neg hlt, if_neg fun hd => hlt ?_]
          have hmax : maxStackPow < 64 := hshifts hd
          omega
      refine ⟨2 ^ ((1 + k) % 64), (Rand.belowOrZero maxStackPow s.rand).2, ?_,
        1 + k, by omega, by omega, rfl⟩
      show Option.map _ (shiftedOne debug (1 + k)) = _
      rw [hshift]
      rfl

theorem mutate_ends_of (hne : self.mutations ≠ [])
    (hdraws : debug = true → ∀ m ∈ self.mutations, ∀ s : Mutation R, ¬m.DrawsEmpty state s)
    (hshifts : debug = true → self.Shifts) (s : Stacked R) :
    (self.mutate debug endian state).Yields s fun r t =>
      Bounded state.maxSize s r t ∧ ∃ num rand, self.MayIterate num ∧
        Ends (self.mutateOnce debug endian state) num { s with rand } r t := by
  obtain ⟨num, rand, hrun, hnum⟩ := iterations_run hshifts s
  refine (Call.yields_bind_of_ok hrun).mpr ?_
  refine (mutateTimes_ends (mutateOnce_bounded hne hdraws) num .skipped _).mono fun r t h => ?_
  obtain ⟨⟨hle, hsame⟩, outcomes, u, hrounds, hends⟩ := h
  refine ⟨⟨hle, fun hr => (hsame hr).2⟩, num, rand, hnum, outcomes, u, hrounds, ?_⟩
  cases r with
  | error e => exact hends
  | ok result =>
      obtain ⟨hu, hlen, hiff⟩ := hends
      refine ⟨hu, hlen, hiff.trans (or_iff_right fun h => ?_)⟩
      cases h

/-- **What a stack of mutations does.** It draws how many rounds there are, and goes
through them, up to the first error; it has mutated the input exactly if one of the
mutators says so, and otherwise the input is as it was. -/
theorem mutate_ends (hne : self.mutations ≠ []) (htokens : debug = true → state.HasTokens)
    (hshifts : debug = true → self.Shifts) (s : Stacked R) :
    (self.mutate debug endian state).Yields s fun r t =>
      Bounded state.maxSize s r t ∧ ∃ num rand, self.MayIterate num ∧
        Ends (self.mutateOnce debug endian state) num { s with rand } r t :=
  mutate_ends_of hne (fun hd m _ s => m.not_drawsEmpty (htokens hd) s) hshifts s

/-- The standard mutator. -/
theorem mutate_ends_std :
    ((havocNew Mutator.havocMutations).mutate true .little (Mutator.oneToken [7])).Yields
      (⟨[1, 2], fun _ => [], ⟨3, 5⟩⟩ : Stacked RomuDuoJrRand) fun r t =>
        Bounded 4 (⟨[1, 2], fun _ => [], ⟨3, 5⟩⟩ : Stacked RomuDuoJrRand) r t ∧
          ∃ num rand, (havocNew (I := List UInt8) Mutator.havocMutations).MayIterate num ∧
            Ends ((havocNew Mutator.havocMutations).mutateOnce true .little
              (Mutator.oneToken [7])) num ⟨[1, 2], fun _ => [], rand⟩ r t := by
  have hne : (havocNew (Mutator.havocMutations (I := List UInt8))).mutations ≠ [] :=
    List.cons_ne_nil _ _
  refine mutate_ends hne (fun _ tokens h => ?_) (fun _ => show 7 < 64 by decide) _
  obtain rfl := Option.some.inj h
  decide

end ScheduledMutator

end Libaflmm
