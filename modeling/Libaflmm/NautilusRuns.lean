import Libaflmm.GrammarPumps
import Libaflmm.Mutations

/-!
# The grammar fuzzer

The inputs of the fuzzer are trees. They are generated from the start symbol,
taken from the corpus, mutated by the three mutators, and written out for the
target. What is added to the corpus is cut into chunks.
-/

namespace Libaflmm

open RoseTree

/-! ## Mutators -/

/-- The closure that the mutators hand to the grammar mutator. -/
def collectRules : RuleTester (List RuleIdOrCustom) Empty :=
  fun t tmp => (.ok (), tmp ++ t.pre ++ t.repl ++ t.post)

section

variable {R : Type} [Rand R] (ctx : Context)

/-- What all mutators do with the rules they have collected. -/
def replaceTree (input : Tree) (tmp : List RuleIdOrCustom) : Option (MutationResult × Tree) :=
  if tmp = [] then some (.skipped, input)
  else do
    let tree ← Tree.fromRuleVec tmp ctx
    some (.mutated, tree)

def NautilusRandomMutator.mutate (input scratchpad : Tree) (r : R) :
    Option ((MutationResult × Tree) × Tree × R) := do
  let (res, tmp, scratchpad, r) ← GrammarMutator.mutRandom input ctx collectRules [] scratchpad r
  match res with
  | .ok () => do
    let out ← replaceTree ctx input tmp
    some (out, scratchpad, r)
  | .error _ => none

def NautilusRecursionMutator.mutate (sample : List Nat → R → Nat × R) (input : Tree) (r : R) :
    Option ((MutationResult × Tree) × R) := do
  match ← input.calcRecursions ctx with
  | some recursions => do
    let (res, tmp, r) ←
      GrammarMutator.mutRandomRecursion sample input recursions collectRules [] r
    match res with
    | .ok () => do
      let out ← replaceTree ctx input tmp
      some (out, r)
    | .error _ => none
  | none => some ((.skipped, input), r)

/-- The generator of the splice is seeded by the other one. -/
def NautilusSpliceMutator.mutate (cks : ChunkStore) (input : Tree) (r : R) :
    Option ((MutationResult × Tree) × R) := do
  let (seed, r) := Rand.next r
  let randCpy := RomuDuoJrRand.withSeed seed
  let (res, tmp, _) ← GrammarMutator.mutSplice input ctx cks collectRules [] randCpy
  match res with
  | .ok () => do
    let out ← replaceTree ctx input tmp
    some (out, r)
  | .error _ => none

end

/-! ## The fuzzer -/

structure NautilusFuzzer (R : Type) where
  input : Tree
  corpus : List Tree
  cks : ChunkStore
  files : ChunkFiles
  scratchpad : Tree
  executed : List (List UInt8)
  rand : R

inductive NautilusAction where
  | generate
  | pick (i : Nat)
  | random
  | recursion
  | splice
  | execute
  | add

namespace NautilusFuzzer

section

variable {R : Type} [Rand R] (ctx : Context) (start : NTermId) (scripts : Scripts)
  (creates : Nat → List UInt8 → Bool) (sample : List Nat → R → Nat × R) (fuel : Nat)

/-- `NautilusGenerator::generate` -/
def generate (r : R) : Option (Tree × R) :=
  let len := ctx.getRandomLenForNt start
  Tree.truncate.generateFromNt ctx len start len r

/-- A scheduler picks what is in the corpus only. -/
def step (s : NautilusFuzzer R) : NautilusAction → Option (NautilusFuzzer R)
  | .generate => do
    let (input, rand) ← generate ctx start s.rand
    some { s with input, rand }
  | .pick i => some { s with input := (s.corpus[i]?).getD s.input }
  | .random => do
    let ((_, input), scratchpad, rand) ←
      NautilusRandomMutator.mutate ctx s.input s.scratchpad s.rand
    some { s with input, scratchpad, rand }
  | .recursion => do
    let ((_, input), rand) ← NautilusRecursionMutator.mutate ctx sample s.input s.rand
    some { s with input, rand }
  | .splice => do
    let ((_, input), rand) ← NautilusSpliceMutator.mutate ctx s.cks s.input s.rand
    some { s with input, rand }
  | .execute => do
    let (bytes, _) ← Unparser.unparse s.input ctx scripts fuel 0
    some { s with executed := s.executed ++ [bytes] }
  | .add => do
    let (cks, files) ← ChunkStore.addTree ctx scripts creates fuel (s.cks, s.files) s.input
    some { s with corpus := s.corpus ++ [s.input], cks, files }

/-- The first input is generated. -/
def run (r : R) (actions : List NautilusAction) : Option (NautilusFuzzer R) := do
  let (input, rand) ← generate ctx start r
  actions.foldlM (step ctx start scripts creates sample fuel)
    ⟨input, [], .new, ∅, .truncate, [], rand⟩

end

end NautilusFuzzer

/-! ## What the mutators leave -/

section

variable {R : Type} [Rand R] {ctx : Context} {tree : RoseTree RuleIdOrCustom} {root : NTermId}

/-- The rules that are collected are those of a derivation, or there are none. -/
theorem replaceTree_derives (htree : Derives ctx root tree) (offered : TreeMutation → Prop)
    (hoffered : ∀ mutation, offered mutation → ∃ n sub new, mutation.Replaces ctx tree n sub new)
    {res : Except (MutError Empty) Unit} {tmp : List RuleIdOrCustom}
    (h : GrammarMutator.Asks collectRules [] offered (res, tmp)) :
    res = .ok () ∧ ∃ result tree', replaceTree ctx (Tree.layOut tree) tmp =
      some (result, Tree.layOut tree') ∧ Derives ctx root tree' := by
  rcases h with h | ⟨mutation, hmutation, h⟩
  · obtain ⟨rfl, rfl⟩ := Prod.mk.inj h
    exact ⟨rfl, _, tree, if_pos rfl, htree⟩
  · obtain ⟨rfl, rfl⟩ := Prod.mk.inj h
    obtain ⟨n, sub, new, hreplaces⟩ := hoffered mutation hmutation
    have hmutated := hreplaces.derives htree
    have hrules : (collectRules mutation []).2 = (graft new tree n).labels := by
      rw [← hreplaces.rules]
      rfl
    have hne : (graft new tree n).labels ≠ [] := by
      have hpos := size_pos (graft new tree n)
      rw [← length_labels] at hpos
      exact List.ne_nil_of_length_pos hpos
    refine ⟨rfl, .mutated, graft new tree n, ?_, hmutated⟩
    rw [hrules, replaceTree, if_neg hne, Tree.fromRuleVec_labels hmutated]
    rfl

theorem NautilusRandomMutator.mutate_derives (h : ctx.Exact) (hdraws : ctx.DrawsSound)
    (hroomy : ctx.Roomy) (hmax : ctx.maxLen < 2 ^ 64) (htree : Derives ctx root tree)
    (scratchpad : Tree) (r : R) :
    ∃ result tree' scratchpad' r',
      NautilusRandomMutator.mutate ctx (Tree.layOut tree) scratchpad r =
        some ((result, Tree.layOut tree'), scratchpad', r') ∧ Derives ctx root tree' := by
  obtain ⟨hasks, hreturns⟩ := GrammarMutator.mutRandom_asks h htree collectRules [] scratchpad r
  obtain ⟨⟨res, tmp, scratchpad', r'⟩, hrun⟩ := hreturns hdraws hroomy hmax
  obtain ⟨rfl, result, tree', hreplace, hderives⟩ := replaceTree_derives htree _
    (fun mutation ⟨n, sub, new, hreplaces, _⟩ => ⟨n, sub, new, hreplaces⟩) (hasks _ hrun)
  refine ⟨result, tree', scratchpad', r', ?_, hderives⟩
  simp only [mutate, hrun, hreplace, Option.bind_eq_bind, Option.bind_some]

theorem NautilusRecursionMutator.mutate_derives (htree : Derives ctx root tree)
    {sample : List Nat → R → Nat × R}
    (hsample : ∀ weights r, weights ≠ [] → (sample weights r).1 < weights.length) (r : R) :
    ∃ result tree' r', NautilusRecursionMutator.mutate ctx sample (Tree.layOut tree) r =
      some ((result, Tree.layOut tree'), r') ∧ Derives ctx root tree' := by
  obtain ⟨infos, hfound, hinfos, -⟩ := Tree.calcRecursions_layOut htree
  by_cases hne : infos = []
  · rw [if_pos hne] at hfound
    refine ⟨.skipped, tree, r, ?_, htree⟩
    simp only [mutate, hfound, Option.bind_eq_bind, Option.bind_some]
  · rw [if_neg hne] at hfound
    obtain ⟨mutation, r', a, k, above, sub, exponent, hrun, -, -, hpumps⟩ :=
      GrammarMutator.mutRandomRecursion_pumps collectRules htree hsample hinfos hne [] r
    obtain ⟨hres, result, tree', hreplace, hderives⟩ := replaceTree_derives htree
      (· = mutation) (by
        rintro _ rfl
        exact ⟨_, _, _, hpumps.replaces⟩) (.inr ⟨mutation, rfl, rfl⟩)
    refine ⟨result, tree', r', ?_, hderives⟩
    simp only [mutate, hfound, hrun, hres, hreplace, Option.bind_eq_bind, Option.bind_some]

theorem NautilusSpliceMutator.mutate_derives (htree : Derives ctx root tree) {scripts : Scripts}
    {trees : List (RoseTree RuleIdOrCustom)} {log : List ChunkStore.Chunk} {cks : ChunkStore}
    {files : ChunkFiles} (hrecords : ChunkStore.Records ctx scripts trees log cks files)
    (hkept : cks.trees = trees.map Tree.layOut) (r : R) :
    ∃ result tree' r', NautilusSpliceMutator.mutate ctx cks (Tree.layOut tree) r =
      some ((result, Tree.layOut tree'), r') ∧ Derives ctx root tree' := by
  obtain ⟨res, tmp, r', hrun, hasks⟩ := GrammarMutator.mutSplice_asks htree hrecords hkept
    collectRules [] (RomuDuoJrRand.withSeed (Rand.next r).1)
  obtain ⟨rfl, result, tree', hreplace, hderives⟩ := replaceTree_derives htree _
    (fun mutation ⟨n, sub, new, hreplaces, _⟩ => ⟨n, sub, new, hreplaces⟩) hasks
  refine ⟨result, tree', (Rand.next r).2, ?_, hderives⟩
  simp only [mutate, hrun, hreplace, Option.bind_eq_bind, Option.bind_some]

end

/-! ## Runs -/

namespace NautilusFuzzer

variable {R : Type} [Rand R] {ctx : Context} {start : NTermId} {scripts : Scripts}
  {creates : Nat → List UInt8 → Bool} {sample : List Nat → R → Nat × R}

/-- All trees are derivations of the start symbol, what has been executed is the text of one, and
the chunk store holds the corpus. -/
structure Sound (ctx : Context) (start : NTermId) (scripts : Scripts) (s : NautilusFuzzer R) :
    Prop where
  input : ∃ tree, s.input = Tree.layOut tree ∧ Derives ctx start tree
  corpus : ∃ added trees log, s.corpus = added.map Tree.layOut ∧
    (∀ tree ∈ added, Derives ctx start tree) ∧
    ChunkStore.Stores ctx scripts added trees log (s.cks, s.files)
  executed : ∀ bytes ∈ s.executed, ∃ tree, Derives ctx start tree ∧
    tree.text ctx scripts = some bytes

/-- What is assumed of the grammar and of what is not modelled. -/
structure Works (ctx : Context) (start : NTermId) (creates : Nat → List UInt8 → Bool)
    (sample : List Nat → R → Nat × R) : Prop where
  exact : ctx.Exact
  drawsSound : ctx.DrawsSound
  roomy : ctx.Roomy
  maxLen : ctx.maxLen < 2 ^ 64
  scriptless : ctx.Scriptless
  start : ∃ v, ctx.getMinLenForNt start = some v
  creates : ∀ k text, creates k text = true
  sample : ∀ weights r, weights ≠ [] → (sample weights r).1 < weights.length

theorem generate_derives (h : Works ctx start creates sample) (r : R) :
    ∃ tree r', generate ctx start r = some (Tree.layOut tree, r') ∧ Derives ctx start tree := by
  obtain ⟨v, hv⟩ := h.start
  obtain ⟨tree, r', hrun, hderives, -⟩ := Context.generateFromNt_spec h.exact h.drawsSound hv
    (h.roomy start v hv) h.maxLen .truncate r
  exact ⟨tree, r', hrun, hderives⟩

/-- No action panics, and all keep the trees derivations. -/
theorem step_sound (h : Works ctx start creates sample) {s : NautilusFuzzer R}
    (hs : s.Sound ctx start scripts) (action : NautilusAction) :
    ∃ s' enough, s'.Sound ctx start scripts ∧ ∀ fuel, enough ≤ fuel →
      s.step ctx start scripts creates sample fuel action = some s' := by
  obtain ⟨⟨tree, hinput, htree⟩, ⟨added, trees, log, hcorpus, hadded, hstores⟩, hexecuted⟩ := hs
  cases action with
  | generate =>
      obtain ⟨tree', r', hrun, htree'⟩ := generate_derives h s.rand
      refine ⟨{ s with input := Tree.layOut tree', rand := r' }, 0, ⟨⟨tree', rfl, htree'⟩,
        ⟨added, trees, log, hcorpus, hadded, hstores⟩, hexecuted⟩, fun fuel _ => ?_⟩
      simp only [step, hrun, Option.bind_eq_bind, Option.bind_some]
  | pick i =>
      refine ⟨{ s with input := (s.corpus[i]?).getD s.input }, 0,
        ⟨?_, ⟨added, trees, log, hcorpus, hadded, hstores⟩, hexecuted⟩, fun fuel _ => rfl⟩
      show ∃ tree, (s.corpus[i]?).getD s.input = Tree.layOut tree ∧ Derives ctx start tree
      rw [hcorpus, List.getElem?_map]
      cases hi : added[i]? with
      | none => exact ⟨tree, hinput, htree⟩
      | some picked => exact ⟨picked, rfl, hadded picked (List.mem_of_getElem? hi)⟩
  | random =>
      obtain ⟨result, tree', scratchpad', r', hrun, htree'⟩ :=
        NautilusRandomMutator.mutate_derives h.exact h.drawsSound h.roomy h.maxLen htree
          s.scratchpad s.rand
      refine ⟨{ s with input := Tree.layOut tree', scratchpad := scratchpad', rand := r' }, 0,
        ⟨⟨tree', rfl, htree'⟩, ⟨added, trees, log, hcorpus, hadded, hstores⟩, hexecuted⟩,
        fun fuel _ => ?_⟩
      simp only [step, hinput, hrun, Option.bind_eq_bind, Option.bind_some]
  | recursion =>
      obtain ⟨result, tree', r', hrun, htree'⟩ :=
        NautilusRecursionMutator.mutate_derives htree h.sample s.rand
      refine ⟨{ s with input := Tree.layOut tree', rand := r' }, 0, ⟨⟨tree', rfl, htree'⟩,
        ⟨added, trees, log, hcorpus, hadded, hstores⟩, hexecuted⟩, fun fuel _ => ?_⟩
      simp only [step, hinput, hrun, Option.bind_eq_bind, Option.bind_some]
  | splice =>
      obtain ⟨result, tree', r', hrun, htree'⟩ :=
        NautilusSpliceMutator.mutate_derives htree hstores.records hstores.kept s.rand
      refine ⟨{ s with input := Tree.layOut tree', rand := r' }, 0, ⟨⟨tree', rfl, htree'⟩,
        ⟨added, trees, log, hcorpus, hadded, hstores⟩, hexecuted⟩, fun fuel _ => ?_⟩
      simp only [step, hinput, hrun, Option.bind_eq_bind, Option.bind_some]
  | execute =>
      obtain ⟨text, htext⟩ := Derives.exists_text scripts h.scriptless htree
      have hwritten := Unparser.unparse_of_hasLabels scripts htree
        (Unparser.hasLabels_layOut (subtree?_zero tree))
      rw [htext] at hwritten
      obtain ⟨enough, henough⟩ := hwritten
      refine ⟨{ s with executed := s.executed ++ [text] }, enough, ⟨⟨tree, hinput, htree⟩,
        ⟨added, trees, log, hcorpus, hadded, hstores⟩, fun bytes hbytes => ?_⟩,
        fun fuel hfuel => ?_⟩
      · rcases List.mem_append.mp hbytes with hbytes | hbytes
        · exact hexecuted bytes hbytes
        · obtain rfl := List.mem_singleton.mp hbytes
          exact ⟨tree, htree, htext⟩
      · simp only [step, hinput, henough fuel hfuel, Option.bind_eq_bind, Option.bind_some]
  | add =>
      have htexts : ChunkStore.HasTexts ctx scripts tree := by
        intro n sub hsub _
        obtain ⟨nt, hderives, -⟩ := htree.subtree? hsub
        exact Derives.exists_text scripts h.scriptless hderives
      obtain ⟨enough, henough⟩ := ChunkStore.exists_enough scripts htree
      obtain ⟨⟨cks, files⟩, trees', more, hrun, hstores'⟩ :=
        hstores.addTree h.creates htree htexts
      refine ⟨{ s with corpus := s.corpus ++ [s.input], cks, files }, enough,
        ⟨⟨tree, hinput, htree⟩, ⟨added ++ [tree], trees', log ++ more, ?_, ?_, hstores'⟩,
          hexecuted⟩, fun fuel hfuel => ?_⟩
      · show s.corpus ++ [s.input] = _
        rw [hcorpus, hinput, List.map_append]
        rfl
      · intro tree' hmem
        rcases List.mem_append.mp hmem with hmem | hmem
        · exact hadded tree' hmem
        · obtain rfl := List.mem_singleton.mp hmem
          exact htree
      · simp only [step, hinput, hrun fuel (henough fuel hfuel), Option.bind_eq_bind,
          Option.bind_some]

end NautilusFuzzer

end Libaflmm
