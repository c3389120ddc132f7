import Libaflmm.MutationsSafe

/-!
# What the mutators of the lists guarantee

The token mutators are the only ones that may be handed an empty buffer to
copy from: a token. Everything else stays within its bounds whatever is
drawn, grows the input up to the maximal size at most, and says so when it
has left it alone.
-/

namespace Libaflmm

open Mutate

section

variable {R I : Type} [Rand R] {state : MutatorState I} {s : Mutation R}

/-! ## Tokens -/

/-- The token drawn is empty, and the input not too large to take it. -/
def TokenInsert.DrawsEmpty (state : MutatorState I) (s : Mutation R) : Prop :=
  s.input.length ≤ state.maxSize ∧
    ∃ tokens, state.tokens = some tokens ∧ (Rand.choose tokens s.rand).1 = some []

/-- The first draw is for the place. -/
def TokenReplace.DrawsEmpty (state : MutatorState I) (s : Mutation R) : Prop :=
  s.input ≠ [] ∧
    ∃ tokens, state.tokens = some tokens ∧
      (Rand.choose tokens (Rand.next s.rand).2).1 = some []

omit [Rand R] in
theorem newUnchecked_run {n : Nat} (hn : 0 < n) :
    (newUnchecked n).run s = some (.ok ⟨n, hn⟩, s) := by
  rw [newUnchecked, dif_pos hn]
  rfl

omit [Rand R] in
theorem unwrap_run {α : Type} {o : Option α} {a : α} (h : o = some a) :
    (unwrap o).run s = some (.ok a, s) := by
  subst h
  rfl

theorem Rand.choose_fst {α : Type} {l : List α} (h : 0 < l.length) (r : R) :
    (Rand.choose l r).1 = l[(Rand.below ⟨l.length, h⟩ r).1]? := by
  rw [Rand.choose, dif_pos h]

theorem tokenInsert_resized {debug : Bool}
    (h : debug = true → ¬TokenInsert.DrawsEmpty state s) :
    (TokenInsert.mutate debug state).Yields s (Resized state.maxSize s) := by
  rw [TokenInsert.mutate]
  split
  · exact resized_skipped rfl
  · next tokens htokens =>
      split
      · next hpos =>
          have hidx := Rand.below_lt ⟨tokens.length, hpos⟩ s.rand
          have hdrawn := Rand.choose_fst hpos s.rand
          refine draw_bind fun rand => ?_
          refine bytes_bind ?_
          dsimp only
          refine newUnchecked_bind (by omega) ?_
          refine below_bind fun off hoff rand => ?_
          simp only at hoff
          refine unwrap_bind (List.getElem?_eq_getElem hidx) ?_
          rw [List.getElem?_eq_getElem hidx] at hdrawn
          set token := tokens[(Rand.below ⟨tokens.length, hpos⟩ s.rand).1]
          split
          · exact resized_skipped rfl
          · next len hcap =>
              obtain ⟨hle, hfit, hlen⟩ := capAmount_eq_some hcap
              refine resize_bind fun input hinput => ?_
              have hmax : s.input.length + len ≤ state.maxSize := by
                rw [capAmount] at hcap
                grind
              have htoken : debug = true → token ≠ [] := fun hd hempty =>
                h hd ⟨by omega, tokens, htokens, hdrawn.trans (congrArg some hempty)⟩
              have hgrown : debug = true → 0 < input.length := fun hd => by
                have := List.length_pos_iff.mpr (htoken hd)
                rw [capAmount] at hcap
                grind
              refine selfCopy_bind ?_ ?_ ?_ fun input' hinput' => ?_
              · exact fun hd => List.length_pos_iff.mp (hgrown hd)
              · simp only; omega
              · simp only; omega
              · simp only at hinput'
                refine copyFrom_bind ?_ ?_ ?_ fun input'' hinput'' => ?_
                · exact fun hd => ⟨List.length_pos_iff.mp (hinput' ▸ hgrown hd), htoken hd⟩
                · omega
                · simp only; omega
                · refine resized_mutated ?_
                  simp only at hinput'' ⊢
                  omega
      · exact resized_skipped rfl

omit [Rand R] in
/-- Copying from an empty token panics. -/
theorem copyFrom_nil {start dest len : Nat} : (copyFrom true [] start dest len).run s = none := by
  have hcopy : bufferCopy true s.input [] start dest len = none :=
    if_pos ⟨rfl, fun h => h.2.1 rfl⟩
  show Option.map _ (bufferCopy true s.input [] start dest len) = none
  rw [hcopy]
  rfl

omit [Rand R] in
/-- Writing the input does not fail with an error. -/
theorem edit_then_none {β : Type} {g : List UInt8 → Option (List UInt8)}
    {f : Unit → Mutate R β} (h : ∀ t, (f ()).run t = none) : (edit g >>= f).run s = none := by
  have hrun : (edit g).run s = (g s.input).map fun input => (.ok (), { s with input }) := rfl
  rw [Call.run_bind, hrun]
  cases g s.input with
  | none => rfl
  | some input => exact h _

omit [Rand R] in
theorem copyFrom_nil_bind {β : Type} {start dest len : Nat} {f : Unit → Mutate R β} :
    (copyFrom true [] start dest len >>= f).run s = none := by
  rw [Call.run_bind, copyFrom_nil]
  rfl

theorem tokenInsert_panics (h : TokenInsert.DrawsEmpty state s) :
    (TokenInsert.mutate true state).run s = none := by
  obtain ⟨hmax, tokens, htokens, hdrawn⟩ := h
  have hpos : 0 < tokens.length := by
    by_contra hzero
    rw [Rand.choose, dif_neg hzero] at hdrawn
    cases hdrawn
  rw [Rand.choose_fst hpos] at hdrawn
  have hcap : capAmount s.input.length 0 state.maxSize = some 0 := if_neg (not_lt.mpr hmax)
  rw [TokenInsert.mutate]
  simp only [htokens, dif_pos hpos]
  rw [Call.run_bind_of_ok rfl, Call.run_bind_of_ok rfl,
    Call.run_bind_of_ok (newUnchecked_run (Nat.succ_pos _)), Call.run_bind_of_ok rfl,
    Call.run_bind_of_ok (unwrap_run hdrawn)]
  simp only [List.length_nil, hcap]
  exact edit_then_none fun t => edit_then_none fun t => copyFrom_nil_bind

theorem tokenReplace_kept {debug : Bool}
    (h : debug = true → ¬TokenReplace.DrawsEmpty state s) :
    (TokenReplace.mutate debug state).Yields s (Kept s) := by
  refine bytes_bind ?_
  dsimp only
  split
  · next hsize =>
      have hoff := Rand.below_lt ⟨s.input.length, hsize⟩ s.rand
      -- what the second draw finds depends on the first one
      refine Call.yields_bind.mpr ((Call.yields_of_run rfl).mpr ?_)
      set off := (Rand.below ⟨s.input.length, hsize⟩ s.rand).1
      simp only at hoff ⊢
      split
      · exact kept_skipped rfl
      · next tokens htokens =>
          split
          · next hpos =>
              have hidx := Rand.below_lt ⟨tokens.length, hpos⟩ (Rand.next s.rand).2
              have hdrawn := Rand.choose_fst hpos (Rand.next s.rand).2
              rw [List.getElem?_eq_getElem hidx] at hdrawn
              refine draw_bind fun rand => ?_
              refine unwrap_bind (List.getElem?_eq_getElem hidx) ?_
              set token := tokens[(Rand.below ⟨tokens.length, hpos⟩ (Rand.next s.rand).2).1]
              refine copyFrom_bind ?_ ?_ ?_ fun input hinput => ?_
              · refine fun hd => ⟨List.length_pos_iff.mp hsize, fun hempty => ?_⟩
                exact h hd ⟨List.length_pos_iff.mp hsize, tokens, htokens,
                  hdrawn.trans (congrArg some hempty)⟩
              · split <;> omega
              · split <;> simp only <;> omega
              · exact kept_mutated hinput
          · exact kept_skipped rfl
  · exact kept_skipped rfl

theorem tokenReplace_panics (h : TokenReplace.DrawsEmpty state s) :
    (TokenReplace.mutate true state).run s = none := by
  obtain ⟨hne, tokens, htokens, hdrawn⟩ := h
  have hsize : 0 < s.input.length := List.length_pos_iff.mpr hne
  have hpos : 0 < tokens.length := by
    by_contra hzero
    rw [Rand.choose, dif_neg hzero] at hdrawn
    cases hdrawn
  rw [Rand.choose_fst hpos] at hdrawn
  rw [TokenReplace.mutate, Call.run_bind_of_ok rfl]
  simp only [dif_pos hsize, htokens, dif_pos hpos]
  rw [Call.run_bind_of_ok rfl, Call.run_bind_of_ok rfl]
  exact (Call.run_bind_of_ok (unwrap_run hdrawn)).trans copyFrom_nil_bind

/-! ## The lists -/

namespace Mutator

def DrawsEmpty (state : MutatorState I) (s : Mutation R) : Mutator I → Prop
  | tokenInsert => TokenInsert.DrawsEmpty state s
  | tokenReplace => TokenReplace.DrawsEmpty state s
  | _ => False

/-- The mutators that do not resize the input. -/
def keepsLength : Mutator I → Bool
  | bitFlip | byteFlip | byteInc | byteDec | byteNeg | byteRand => true
  | byteAdd | wordAdd | dwordAdd | qwordAdd => true
  | byteInteresting | wordInteresting | dwordInteresting => true
  | bytesSet | bytesRandSet | bytesCopy | bytesSwap => true
  | crossoverReplace | mappedCrossoverReplace _ | tokenReplace => true
  | _ => false

def Guarantees (m : Mutator I) (maxSize : Nat) (s : Mutation R)
    (r : Except Error MutationResult) (t : Mutation R) : Prop :=
  Resized maxSize s r t ∧ (m.keepsLength = true → t.input.length = s.input.length)

variable {debug : Bool} {endian : Endian} {m : Mutator I}

omit [Rand R] in
theorem guarantees_of_kept {x : Mutate R MutationResult} {maxSize : Nat}
    (h : x.Yields s (Kept s)) : x.Yields s (m.Guarantees maxSize s) :=
  h.mono fun _ _ hk => ⟨hk.resized, fun _ => hk.1⟩

omit [Rand R] in
theorem guarantees_of_resized {x : Mutate R MutationResult} {maxSize : Nat}
    (h : x.Yields s (Resized maxSize s)) (hm : m.keepsLength = false) :
    x.Yields s (m.Guarantees maxSize s) :=
  h.mono fun _ _ hr => ⟨hr, fun hk => absurd (hm.symm.trans hk) Bool.false_ne_true⟩

variable [HasMutatorBytes I]

/-- Every mutator gives its guarantees, unless a debug build draws an empty
token. -/
theorem mutate_guarantees (m : Mutator I) (h : debug = true → ¬m.DrawsEmpty state s) :
    (m.mutate debug endian state).Yields s (m.Guarantees state.maxSize s) := by
  cases m with
  | bitFlip => exact guarantees_of_kept (bitFlip_kept s)
  | byteFlip => exact guarantees_of_kept (byteFlip_kept s)
  | byteInc => exact guarantees_of_kept (byteInc_kept s)
  | byteDec => exact guarantees_of_kept (byteDec_kept s)
  | byteNeg => exact guarantees_of_kept (byteNeg_kept s)
  | byteRand => exact guarantees_of_kept (byteRand_kept s)
  | byteAdd | wordAdd | dwordAdd | qwordAdd =>
      exact guarantees_of_kept (addMutator_kept s endian)
  | byteInteresting | wordInteresting | dwordInteresting =>
      exact guarantees_of_kept (interestingMutator_kept s (by decide))
  | bytesDelete => exact guarantees_of_resized (bytesDelete_resized s state.maxSize) rfl
  | bytesExpand => exact guarantees_of_resized (bytesExpand_resized s debug state.maxSize) rfl
  | bytesInsert => exact guarantees_of_resized (bytesInsert_resized s debug state.maxSize) rfl
  | bytesRandInsert =>
      exact guarantees_of_resized (bytesRandInsert_resized s debug state.maxSize) rfl
  | bytesSet => exact guarantees_of_kept (bytesSet_kept s)
  | bytesRandSet => exact guarantees_of_kept (bytesRandSet_kept s)
  | bytesCopy => exact guarantees_of_kept (bytesCopy_kept s debug)
  | bytesInsertCopy =>
      exact guarantees_of_resized (bytesInsertCopy_resized s debug state.maxSize) rfl
  | bytesSwap => exact guarantees_of_kept (bytesSwap_kept s debug)
  | crossoverInsert =>
      exact guarantees_of_resized (crossoverInsertMutator_resized s debug state) rfl
  | crossoverReplace => exact guarantees_of_kept (crossoverReplaceMutator_kept s debug state)
  | mappedCrossoverInsert inputMapper =>
      exact guarantees_of_resized
        (mappedCrossoverInsertMutator_resized s debug state inputMapper) rfl
  | mappedCrossoverReplace inputMapper =>
      exact guarantees_of_kept (mappedCrossoverReplaceMutator_kept s debug state inputMapper)
  | tokenInsert => exact guarantees_of_resized (tokenInsert_resized h) rfl
  | tokenReplace => exact guarantees_of_kept (tokenReplace_kept h)

theorem mutate_panics (m : Mutator I) (h : m.DrawsEmpty state s) :
    (m.mutate true endian state).run s = none := by
  cases m with
  | tokenInsert => exact tokenInsert_panics h
  | tokenReplace => exact tokenReplace_panics h
  | _ => exact absurd h id

/-- All the mutators of the lists. -/
def all (inputMapper : I → Option (List UInt8)) : List (Mutator I) :=
  havocMutations ++ havocCrossoverWithCorpusMapper inputMapper ++ tokensMutations

variable (endian) (state) (inputMapper : I → Option (List UInt8)) (s)

/-- **Every bound is kept** exactly when no empty token is drawn: a debug
build, which checks them all, does not panic. -/
theorem bounds_iff_not_drawsEmpty :
    ∀ m ∈ all inputMapper,
      (m.mutate true endian state).run s ≠ none ↔ ¬m.DrawsEmpty state s := by
  intro m _
  constructor
  · exact fun h hempty => h (mutate_panics m hempty)
  · exact fun h => (mutate_guarantees m fun _ => h).ne_none

/-- **The size limit is kept, and what is reported is true.** A release build
always returns. -/
theorem keeps_limit_and_reports (debug : Bool) (hs : s.input.length ≤ state.maxSize) :
    ∀ m ∈ all inputMapper,
      (debug = false → (m.mutate debug endian state).run s ≠ none) ∧
      ∀ r t, (m.mutate debug endian state).run s = some (r, t) →
        t.input.length ≤ state.maxSize ∧ (r ≠ .ok .mutated → t.input = s.input) ∧
        (m.keepsLength = true → t.input.length = s.input.length) := by
  intro m _
  have hguarantees : ∀ r t, (m.mutate debug endian state).run s = some (r, t) →
      m.Guarantees state.maxSize s r t := by
    intro r t hrun
    by_cases hempty : debug = true ∧ m.DrawsEmpty state s
    · obtain ⟨rfl, hempty⟩ := hempty
      rw [mutate_panics m hempty] at hrun
      cases hrun
    · exact (mutate_guarantees m fun hd h => hempty ⟨hd, h⟩).leaves r t hrun
  constructor
  · intro hd
    exact (mutate_guarantees m fun hd' => absurd (hd.symm.trans hd') Bool.false_ne_true).ne_none
  · intro r t hrun
    obtain ⟨⟨hle, hsame⟩, hkeep⟩ := hguarantees r t hrun
    exact ⟨hle.trans (max_le hs le_rfl), hsame, hkeep⟩

end Mutator

end

namespace Mutator

/-- No corpus, and one token. -/
def oneToken (token : List UInt8) : MutatorState (List UInt8) where
  maxSize := 4
  ids := []
  current := none
  get _ := .error (.illegalState "empty")
  getFromAll _ := .error (.illegalState "empty")
  tokens := some [token]
  getFromAll_of_get _ _ h := h

theorem bounds_iff_oneToken :
    (tokenInsert.mutate true .little (oneToken [7])).run
        (⟨[1, 2], [], ⟨3, 5⟩⟩ : Mutation RomuDuoJrRand) ≠ none ↔
      ¬tokenInsert.DrawsEmpty (oneToken [7]) (⟨[1, 2], [], ⟨3, 5⟩⟩ : Mutation RomuDuoJrRand) :=
  bounds_iff_not_drawsEmpty (oneToken [7]) (⟨[1, 2], [], ⟨3, 5⟩⟩ : Mutation RomuDuoJrRand)
    .little some tokenInsert (by simp [all, tokensMutations])

/-- An empty token is copied from an empty buffer. -/
theorem empty_token_panics :
    ¬∀ m ∈ all some, (m.mutate true .little (oneToken [])).run
        (⟨[1, 2], [], ⟨3, 5⟩⟩ : Mutation RomuDuoJrRand) ≠ none := by
  intro h
  refine h tokenReplace (by simp [all, tokensMutations]) (mutate_panics tokenReplace ?_)
  exact ⟨by decide, [[]], rfl, rfl⟩

theorem keeps_limit_oneToken :
    (false = false → (tokenInsert.mutate false .little (oneToken [7])).run
        (⟨[1, 2], [], ⟨3, 5⟩⟩ : Mutation RomuDuoJrRand) ≠ none) ∧
      ∀ r t, (tokenInsert.mutate false .little (oneToken [7])).run
          (⟨[1, 2], [], ⟨3, 5⟩⟩ : Mutation RomuDuoJrRand) = some (r, t) →
        t.input.length ≤ 4 ∧ (r ≠ .ok .mutated → t.input = [1, 2]) ∧
        ((tokenInsert : Mutator (List UInt8)).keepsLength = true → t.input.length = 2) :=
  keeps_limit_and_reports (oneToken [7]) (⟨[1, 2], [], ⟨3, 5⟩⟩ : Mutation RomuDuoJrRand)
    .little some false (by decide) tokenInsert (by simp [all, tokensMutations])

end Mutator

end Libaflmm
