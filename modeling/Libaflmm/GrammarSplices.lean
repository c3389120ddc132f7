import Libaflmm.ChunkStore
import Libaflmm.Minimize
import Libaflmm.RuleMutations

/-!
# Random subtrees and splices

`mut_random` replaces the subtree of a random node by one that is generated for
its nonterminal, and `mut_splice` by a chunk with another rule. The tester is
handed a tree of the same nonterminal as before, which is written out as before
but for the text of the node.
-/

namespace Libaflmm

open RoseTree

namespace Context

variable (ctx : Context)

def checkIfNtermHasMultiplePossiblities (nt : NTermId) : Option Bool :=
  (ctx.getRulesForNt nt).map fun rules => decide (1 < rules.length)

/-- Every nonterminal can be derived in the length that trees are given. -/
def Roomy : Prop := ∀ nt v, ctx.getMinLenForNt nt = some v → v ≤ ctx.maxLen

end Context

/-- The errors of the mutators: one of their own, and that of the tester. -/
inductive MutError (ε : Type) where
  | illegalArgument (msg : String)
  | tester (e : ε)

/-! ## Replacing a node -/

/-- The subtree of the node is replaced by a derivation of its nonterminal. -/
structure TreeMutation.Replaces (ctx : Context) (tree : RoseTree RuleIdOrCustom) (n : NodeId)
    (sub new : RoseTree RuleIdOrCustom) (mutation : TreeMutation) : Prop where
  node : tree.subtree? n = some sub
  same : ∃ nt, Derives ctx nt sub ∧ Derives ctx nt new
  rules : mutation.rules = (graft new tree n).labels
  repl : mutation.repl = new.labels

namespace TreeMutation.Replaces

variable {ctx : Context} {tree sub new : RoseTree RuleIdOrCustom} {n : NodeId} {root : NTermId}
  {mutation : TreeMutation}

theorem derives (h : mutation.Replaces ctx tree n sub new) (htree : Derives ctx root tree) :
    Derives ctx root (graft new tree n) := by
  obtain ⟨nt, hsub, hnew⟩ := h.same
  obtain ⟨nt', hsub', hgraft⟩ := htree.subtree? h.node
  exact hgraft new (hsub'.unique hsub ▸ hnew)

theorem toTree (h : mutation.Replaces ctx tree n sub new) (htree : Derives ctx root tree) :
    mutation.toTree ctx = some (Tree.layOut (graft new tree n)) := by
  rw [TreeMutation.toTree, h.rules, Tree.fromRuleVec_labels (h.derives htree)]

end TreeMutation.Replaces

theorem replaces_layOut {ctx : Context} {tree other sub new : RoseTree RuleIdOrCustom}
    {n m : NodeId} {nt : NTermId}
    (hsub : tree.subtree? n = some sub) (hderives : Derives ctx nt sub)
    (hnew : other.subtree? m = some new) (hnewDerives : Derives ctx nt new) :
    ∃ mutation, (Tree.layOut tree).mutateReplaceFromTree n (Tree.layOut other) m = some mutation ∧
      mutation.Replaces ctx tree n sub new := by
  obtain ⟨mutation, hmutation, hrules, hrepl⟩ := Tree.mutateReplaceFromTree_layOut hsub hnew
  exact ⟨mutation, hmutation, hsub, ⟨nt, hderives, hnewDerives⟩, hrules, hrepl⟩

namespace Unparser

variable {ctx : Context} {tree sub new : RoseTree RuleIdOrCustom} {n : NodeId} {root : NTermId}
  {mutation : TreeMutation}

/-- A tree, the mutation of it, and the tree made of the mutation are written out as one text
each. They differ in the text of the node that is replaced, which stands in the same frame. -/
theorem mutation_writesOut (h : mutation.Replaces ctx tree n sub new)
    (htree : Derives ctx root tree) (scripts : Scripts) :
    WritesOut (Tree.layOut tree) ctx scripts n (sub.text ctx scripts) (n + sub.size) ∧
    ∃ tree' frame, mutation.toTree ctx = some tree' ∧ (ctx.Scriptless → Surrounds frame) ∧
      WritesOut (Tree.layOut tree) ctx scripts 0 ((sub.text ctx scripts).bind frame)
        tree.size ∧
      WritesOut mutation ctx scripts 0 ((new.text ctx scripts).bind frame)
        mutation.rules.length ∧
      WritesOut tree' ctx scripts 0 ((new.text ctx scripts).bind frame)
        mutation.rules.length := by
  obtain ⟨nt, hderives, -⟩ := htree.subtree? h.node
  have hmutated := h.derives htree
  obtain ⟨frame, hframe, hsurrounds⟩ := exists_frame scripts htree h.node
  have hold : tree.text ctx scripts = (sub.text ctx scripts).bind frame := by
    rw [← hframe, graft_subtree? h.node]
  have hlen : mutation.rules.length = 0 + (graft new tree n).size := by
    rw [h.rules, length_labels, Nat.zero_add]
  refine ⟨unparse_of_hasLabels scripts hderives (hasLabels_layOut h.node),
    _, frame, h.toTree htree, hsurrounds, ?_, ?_, ?_⟩
  · rw [← hold, ← Nat.zero_add tree.size]
    exact unparse_of_hasLabels scripts htree (hasLabels_layOut (subtree?_zero tree))
  · rw [← hframe, hlen]
    exact unparse_of_hasLabels scripts hmutated (hasLabels_mutation h.rules)
  · rw [← hframe, hlen]
    exact unparse_of_hasLabels scripts hmutated (hasLabels_layOut (subtree?_zero _))

open RecursionInfo in
/-- The first of two ones is replaced by a sum. -/
theorem mutation_writesOut_plus : ∃ mutation : TreeMutation,
    WritesOut (Tree.layOut (plus one one)) Context.sums (fun _ _ => none) 1
      (one.text Context.sums fun _ _ => none) (1 + one.size) ∧
    ∃ tree' frame, mutation.toTree Context.sums = some tree' ∧
      (Context.sums.Scriptless → Surrounds frame) ∧
      WritesOut (Tree.layOut (plus one one)) Context.sums (fun _ _ => none) 0
        ((one.text Context.sums fun _ _ => none).bind frame) (plus one one).size ∧
      WritesOut mutation Context.sums (fun _ _ => none) 0
        (((plus one one).text Context.sums fun _ _ => none).bind frame) mutation.rules.length ∧
      WritesOut tree' Context.sums (fun _ _ => none) 0
        (((plus one one).text Context.sums fun _ _ => none).bind frame) mutation.rules.length := by
  have hplus := derives_plus derives_one derives_one
  obtain ⟨mutation, -, hreplaces⟩ : ∃ mutation : TreeMutation,
      (Tree.layOut (plus one one)).mutateReplaceFromTree 1 (Tree.layOut (plus one one)) 0 =
        some mutation ∧
      mutation.Replaces Context.sums (plus one one) 1 one (plus one one) :=
    replaces_layOut rfl derives_one (subtree?_zero _) hplus
  exact ⟨mutation, mutation_writesOut hreplaces hplus _⟩

end Unparser

namespace GrammarMutator

variable {σ ε R : Type} [Rand R]

/-! ## The mutators -/

/-- The length bounds the depth. -/
def mutRandom (tree : Tree) (ctx : Context) (tester : RuleTester σ ε) (s : σ) (scratchpad : Tree)
    (r : R) : Option (Except (MutError ε) Unit × σ × Tree × R) :=
  if h : 0 < tree.rules.length then do
    let (n, r) := Rand.below ⟨tree.rules.length, h⟩ r
    let nterm ← (tree.getRule n ctx).map Rule.nonterm
    if ← ctx.checkIfNtermHasMultiplePossiblities nterm then do
      let len := ctx.getRandomLenForNt nterm
      let (scratchpad, r) ← scratchpad.generateFromNt ctx len nterm len r
      let repl ← tree.mutateReplaceFromTree n scratchpad 0
      let (res, s) := tester repl s
      some (res.mapError .tester, s, scratchpad, r)
    else some (.ok (), s, scratchpad, r)
  else some (.error (.illegalArgument "Empty tree in mut_random"), s, scratchpad, r)

def mutSplice (tree : Tree) (ctx : Context) (cks : ChunkStore) (tester : RuleTester σ ε) (s : σ)
    (r : R) : Option (Except (MutError ε) Unit × σ × R) :=
  if h : 0 < tree.rules.length then do
    let (n, r) := Rand.below ⟨tree.rules.length, h⟩ r
    let oldRule ← tree.rules[n]?
    let (alternative, r) ← cks.getAlternativeTo oldRule.id ctx r
    match alternative with
    | some (replTree, replNode) => do
      let repl ← tree.mutateReplaceFromTree n replTree replNode
      let (res, s) := tester repl s
      some (res.mapError .tester, s, r)
    | none => some (.ok (), s, r)
  else some (.error (.illegalArgument "Empty tree in mut_splice"), s, r)

/-- What the tester leaves when it is asked about no mutation, or about one. -/
def Asks (tester : RuleTester σ ε) (s : σ) (offered : TreeMutation → Prop)
    (out : Except (MutError ε) Unit × σ) : Prop :=
  out = (.ok (), s) ∨ ∃ mutation, offered mutation ∧
    out = ((tester mutation s).1.mapError .tester, (tester mutation s).2)

section

variable {ctx : Context} {tree : RoseTree RuleIdOrCustom} {root : NTermId}

/-- Every nonterminal that is derived has rules. -/
theorem exists_rulesForNt (h : ctx.Exact) {nt : NTermId} (hderives : Derives ctx nt tree) :
    ∃ ids, ctx.getRulesForNt nt = some ids := by
  cases hderives with
  | @node rid rule label children hrule _ _ =>
      obtain ⟨ids, hids, -⟩ := h.listed.mem rid rule hrule
      exact ⟨ids, hids⟩

/-- The node that is drawn, and whether anything is generated for it. -/
theorem mutRandom_eq (h : ctx.Exact) (htree : Derives ctx root tree) (tester : RuleTester σ ε)
    (s : σ) (scratchpad : Tree) (r : R) :
    ∃ n sub nt r1, tree.subtree? n = some sub ∧ Derives ctx nt sub ∧
      (mutRandom (Tree.layOut tree) ctx tester s scratchpad r = some (.ok (), s, scratchpad, r1) ∨
        mutRandom (Tree.layOut tree) ctx tester s scratchpad r =
          (scratchpad.generateFromNt ctx ctx.maxLen nt ctx.maxLen r1).bind fun (scratchpad, r) =>
            ((Tree.layOut tree).mutateReplaceFromTree n scratchpad 0).bind fun repl =>
              some ((tester repl s).1.mapError .tester, (tester repl s).2, scratchpad, r)) := by
  have hpos : 0 < (Tree.layOut tree).rules.length := by
    rw [Tree.size_layOut]
    exact size_pos tree
  have hn := Rand.below_lt ⟨(Tree.layOut tree).rules.length, hpos⟩ r
  cases hbelow : Rand.below ⟨(Tree.layOut tree).rules.length, hpos⟩ r with
  | mk n r1 =>
      rw [hbelow] at hn
      have hlt : n < tree.size := Tree.size_layOut tree ▸ hn
      obtain ⟨sub, hsub⟩ := exists_subtree? hlt
      obtain ⟨nt, hderives, -⟩ := htree.subtree? hsub
      obtain ⟨rule, hrule, rfl⟩ := Tree.getRule_layOut hsub hderives
      obtain ⟨ids, hids⟩ := exists_rulesForNt h hderives
      refine ⟨n, sub, rule.nonterm, r1, hsub, hderives, ?_⟩
      simp only [mutRandom, dif_pos hpos, hbelow, hrule, hids, decide_eq_true_eq,
        Context.checkIfNtermHasMultiplePossiblities, Option.bind_eq_bind, Option.bind_some,
        Option.map_some]
      by_cases hmany : 1 < ids.length
      · rw [if_pos hmany]
        exact .inr rfl
      · rw [if_neg hmany]
        exact .inl rfl

/-- A generated subtree replaces that of a node. Where all draws are sound and the lengths
suffice, the call comes to an end. -/
theorem mutRandom_asks (h : ctx.Exact) (htree : Derives ctx root tree)
    (tester : RuleTester σ ε) (s : σ) (scratchpad : Tree) (r : R) :
    (∀ out, mutRandom (Tree.layOut tree) ctx tester s scratchpad r = some out →
      Asks tester s (fun mutation => ∃ n sub new, mutation.Replaces ctx tree n sub new ∧
        new.size ≤ ctx.maxLen) (out.1, out.2.1)) ∧
    (ctx.DrawsSound → ctx.Roomy → ctx.maxLen < 2 ^ 64 →
      ∃ out, mutRandom (Tree.layOut tree) ctx tester s scratchpad r = some out) := by
  obtain ⟨n, sub, nt, r1, hsub, hderives, hcall | hcall⟩ :=
    mutRandom_eq h htree tester s scratchpad r
  · rw [hcall]
    refine ⟨fun out hout => ?_, fun _ _ _ => ⟨_, rfl⟩⟩
    obtain rfl := Option.some.inj hout
    exact .inl rfl
  · rw [hcall]
    constructor
    · intro out hout
      obtain ⟨⟨generated, r2⟩, hgenerated, hout⟩ := Option.bind_eq_some_iff.mp hout
      obtain ⟨new, rfl, hnew, hsize⟩ := Tree.generateFromNt_eq_some h hgenerated
      obtain ⟨mutation, hmutation, hreplaces⟩ :=
        replaces_layOut hsub hderives (subtree?_zero new) hnew
      simp only [hmutation, Option.bind_some, Option.some_inj] at hout
      subst hout
      exact .inr ⟨mutation, ⟨n, sub, new, hreplaces, hsize⟩, rfl⟩
    · intro hdraws hroomy hmax
      obtain ⟨v, hv⟩ := exists_minLen h hderives
      obtain ⟨new, r2, hgenerated, hnew, -⟩ :=
        Context.generateFromNt_spec h hdraws hv (hroomy nt v hv) hmax scratchpad r1
      obtain ⟨mutation, hmutation, -⟩ := replaces_layOut hsub hderives (subtree?_zero new) hnew
      simp only [hgenerated, hmutation, Option.bind_some]
      exact ⟨_, rfl⟩

/-- A chunk with another rule replaces the subtree of a node. Where there is no other rule for the
node that is drawn, nothing is offered. -/
theorem mutSplice_asks (htree : Derives ctx root tree) {scripts : Scripts}
    {trees : List (RoseTree RuleIdOrCustom)} {log : List ChunkStore.Chunk} {cks : ChunkStore}
    {files : ChunkFiles} (hrecords : ChunkStore.Records ctx scripts trees log cks files)
    (hkept : cks.trees = trees.map Tree.layOut) (tester : RuleTester σ ε) (s : σ) (r : R) :
    ∃ res s' r', mutSplice (Tree.layOut tree) ctx cks tester s r = some (res, s', r') ∧
      Asks tester s (fun mutation => ∃ n sub new, mutation.Replaces ctx tree n sub new ∧
        ∃ c ∈ log, ∃ other, c.IsIn ctx scripts trees other new ∧
          sub.labels.head?.map RuleIdOrCustom.id ≠ some c.rule) (res, s') := by
  have hpos : 0 < (Tree.layOut tree).rules.length := by
    rw [Tree.size_layOut]
    exact size_pos tree
  have hn := Rand.below_lt ⟨(Tree.layOut tree).rules.length, hpos⟩ r
  cases hbelow : Rand.below ⟨(Tree.layOut tree).rules.length, hpos⟩ r with
  | mk n r1 =>
      rw [hbelow] at hn
      have hlt : n < tree.size := Tree.size_layOut tree ▸ hn
      obtain ⟨sub, hsub⟩ := exists_subtree? hlt
      obtain ⟨nt, hderives, -⟩ := htree.subtree? hsub
      obtain ⟨rule, hrule, rfl⟩ := Tree.getRule_layOut hsub hderives
      obtain ⟨label, hlabel, hhead⟩ := ChunkStore.rules_layOut hsub
      have hid : ctx.getRule label.id = some rule := by
        simpa only [Tree.getRule, hlabel, Option.bind_eq_bind, Option.bind_some] using hrule
      obtain ⟨alternative, r2, halternative, hoffers⟩ :=
        ChunkStore.getAlternativeTo_offers hrecords hkept hid r1
      simp only [mutSplice, dif_pos hpos, hbelow, hlabel, halternative, Option.bind_eq_bind,
        Option.bind_some]
      cases alternative with
      | none => exact ⟨_, _, _, rfl, .inl rfl⟩
      | some place =>
          obtain ⟨replTree, replNode⟩ := place
          obtain ⟨c, hc, hnt, hne, other, new, hin, rfl, rfl⟩ := hoffers
          obtain ⟨mutation, hmutation, hreplaces⟩ :=
            replaces_layOut hsub hderives hin.node (hnt ▸ hin.derives)
          simp only [hmutation, Option.bind_some]
          refine ⟨_, _, _, rfl, .inr ⟨mutation, ⟨n, sub, new, hreplaces, c, hc, other, hin, ?_⟩,
            rfl⟩⟩
          rw [hhead, Option.map_some]
          exact fun heq => hne (Option.some.inj heq).symm

end

end GrammarMutator

end Libaflmm
