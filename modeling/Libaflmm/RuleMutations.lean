import Libaflmm.GrammarPanics
import Libaflmm.TreeMutations

/-!
# Mutating rules

`mut_rules` goes through nodes of a tree, and offers the tester a variant for
each other rule of the nonterminal: the subtree of the node is replaced by one
that is generated from the rule.

The rule is given the length that all trees are given. What its nonterminals
need at least may be more than that. Such a rule would not be drawn, but here no
rule is drawn, and the assertion in `Rule::generate` fails.
-/

namespace Libaflmm

namespace Context

variable (ctx : Context)

/-- The rule is not looked at. -/
def getRandomLenForRuleId (_ruleId : RuleId) : Nat := ctx.maxLen

def getRandomLenForNt (_nt : NTermId) : Nat := ctx.maxLen

def getRulesForNt (nt : NTermId) : Option (List RuleId) := ctx.ntsToRules.lookup nt

end Context

/-- A tester that does not choose, but may fail. -/
abbrev RuleTester (σ ε : Type) := TreeMutation → σ → Except ε Unit × σ

namespace GrammarMutator

variable {σ ε R : Type} [Rand R]

/-- The loop over the rules, with the state of the tester, the scratchpad and
the generator. The length bounds the depth. -/
def mutRulesOf (tree : Tree) (ctx : Context) (n : NodeId) (oldRuleId : RuleId)
    (tester : RuleTester σ ε) : List RuleId → σ × Tree × R → Option (Except ε Unit × σ × Tree × R)
  | [], s => some (.ok (), s)
  | newRuleId :: ruleIds, (s, scratchpad, r) =>
    if oldRuleId ≠ newRuleId then do
      let randomSize := ctx.getRandomLenForRuleId newRuleId
      let (scratchpad, r) ← scratchpad.generateFromRule ctx (randomSize + 1) newRuleId randomSize r
      let repl ← tree.mutateReplaceFromTree n scratchpad 0
      match tester repl s with
      | (.error e, s) => some (.error e, s, scratchpad, r)
      | (.ok (), s) => mutRulesOf tree ctx n oldRuleId tester ruleIds (s, scratchpad, r)
    else mutRulesOf tree ctx n oldRuleId tester ruleIds (s, scratchpad, r)

/-- The loop over `count` nodes from `i` on. -/
def mutRulesLoop (tree : Tree) (ctx : Context) (tester : RuleTester σ ε) :
    Nat → NodeId → σ × Tree × R → Option (Except ε Bool × σ × Tree × R)
  | 0, _, s => some (.ok false, s)
  | count + 1, i, s =>
    if i = tree.rules.length then some (.ok true, s)
    else do
      let oldRule ← tree.rules[i]?
      let nt ← ctx.getNt (.rule oldRule.id)
      let ruleIds ← ctx.getRulesForNt nt
      match ← mutRulesOf tree ctx i oldRule.id tester ruleIds s with
      | (.error e, s) => some (.error e, s)
      | (.ok (), s) => mutRulesLoop tree ctx tester count (i + 1) s

def mutRules (tree : Tree) (ctx : Context) (startIndex endIndex : Nat) (tester : RuleTester σ ε)
    (s : σ × Tree × R) : Option (Except ε Bool × σ × Tree × R) :=
  mutRulesLoop tree ctx tester (endIndex - startIndex) startIndex s

/-! ## The variants -/

/-- The other rules of the nonterminal of a node. -/
def otherRules (tree : Tree) (ctx : Context) (n : NodeId) : Option (List (NodeId × RuleId)) := do
  let oldRule ← tree.rules[n]?
  let nt ← ctx.getNt (.rule oldRule.id)
  let ruleIds ← ctx.getRulesForNt nt
  some ((ruleIds.filter (oldRule.id ≠ ·)).map (n, ·))

/-- The nodes that are gone through, each with the rules for it. There are none behind the last
node. -/
def variants (tree : Tree) (ctx : Context) (startIndex endIndex : Nat) : List (NodeId × RuleId) :=
  (List.range' startIndex (endIndex - startIndex)).flatMap fun n =>
    (otherRules tree ctx n).getD []

/-- What the tester answers to all mutations. It is asked until it fails. -/
def offer (tester : RuleTester σ ε) : List TreeMutation → σ → Except ε Unit × σ
  | [], s => (.ok (), s)
  | mutation :: mutations, s =>
    match tester mutation s with
    | (.error e, s) => (.error e, s)
    | (.ok (), s) => offer tester mutations s

open RoseTree

/-- The subtree of the node is replaced by a derivation with the rule at its root. -/
def IsVariant (tree : Tree) (ctx : Context) (nodeRule : NodeId × RuleId) (mutation : TreeMutation) :
    Prop :=
  ∃ label children nt, label.id = nodeRule.2 ∧ Derives ctx nt (.node label children) ∧
    tree.mutateReplaceFromTree nodeRule.1 (Tree.layOut (.node label children)) 0 = some mutation

/-- The call comes to an end for every tester and all draws, and has offered the
tester the variants. -/
def OffersVariants (tree : Tree) (ctx : Context) (startIndex endIndex : Nat) : Prop :=
  ∀ {σ ε R : Type} [Rand R] (tester : RuleTester σ ε) (s : σ) (scratchpad : Tree) (r : R),
    ∃ mutations complete scratchpad' r',
      List.Forall₂ (IsVariant tree ctx) (variants tree ctx startIndex endIndex) mutations ∧
      mutRules tree ctx startIndex endIndex tester (s, scratchpad, r) =
        some ((offer tester mutations s).1.map fun _ => complete, (offer tester mutations s).2,
          scratchpad', r')

/-! ## One loop over the variants -/

section

variable {tree : Tree} {ctx : Context} {tester : RuleTester σ ε}

/-- The two loops as one. -/
def offerVariants (tree : Tree) (ctx : Context) (tester : RuleTester σ ε) :
    List (NodeId × RuleId) → σ × Tree × R → Option (Except ε Unit × σ × Tree × R)
  | [], s => some (.ok (), s)
  | (n, ruleId) :: rest, (s, scratchpad, r) => do
    let (scratchpad, r) ← scratchpad.generateFromRule ctx (ctx.maxLen + 1) ruleId ctx.maxLen r
    let repl ← tree.mutateReplaceFromTree n scratchpad 0
    match tester repl s with
    | (.error e, s) => some (.error e, s, scratchpad, r)
    | (.ok (), s) => offerVariants tree ctx tester rest (s, scratchpad, r)

theorem mutRulesOf_eq (n : NodeId) (oldRuleId : RuleId) (ruleIds : List RuleId)
    (s : σ × Tree × R) :
    mutRulesOf tree ctx n oldRuleId tester ruleIds s =
      offerVariants tree ctx tester ((ruleIds.filter (oldRuleId ≠ ·)).map (n, ·)) s := by
  induction ruleIds generalizing s with
  | nil => rfl
  | cons newRuleId ruleIds ih =>
      obtain ⟨s, scratchpad, r⟩ := s
      rw [mutRulesOf]
      by_cases hne : oldRuleId ≠ newRuleId
      · rw [if_pos hne, List.filter_cons_of_pos (by simpa using hne), List.map_cons, offerVariants]
        simp only [ih]
        rfl
      · rw [if_neg hne, List.filter_cons_of_neg (by simpa using hne), ih]

theorem offerVariants_append (l l' : List (NodeId × RuleId)) (s : σ × Tree × R) :
    offerVariants tree ctx tester (l ++ l') s =
      (offerVariants tree ctx tester l s).bind fun
        | (.error e, s) => some (.error e, s)
        | (.ok (), s) => offerVariants tree ctx tester l' s := by
  induction l generalizing s with
  | nil => rfl
  | cons nodeRule l ih =>
      obtain ⟨s, scratchpad, r⟩ := s
      rw [List.cons_append, offerVariants, offerVariants]
      simp only [Option.bind_eq_bind, Option.bind_assoc]
      congr 1
      funext ⟨scratchpad, r⟩
      congr 1
      funext repl
      match tester repl s with
      | (.error e, s) => rfl
      | (.ok (), s) => exact ih (s, scratchpad, r)

theorem variants_eq_nil {i : Nat} (h : tree.rules.length ≤ i) (stop : Nat) :
    variants tree ctx i stop = [] := by
  refine List.flatMap_eq_nil_iff.mpr fun n hn => ?_
  have hlen : tree.rules.length ≤ n := h.trans (List.mem_range'_1.mp hn).1
  rw [otherRules, List.getElem?_eq_none hlen]
  rfl

theorem variants_succ (i count : Nat) :
    variants tree ctx i (i + (count + 1)) =
      (otherRules tree ctx i).getD [] ++ variants tree ctx (i + 1) (i + 1 + count) := by
  rw [variants, variants, Nat.add_sub_cancel_left, Nat.add_sub_cancel_left, List.range'_succ,
    List.flatMap_cons]

theorem mutRulesLoop_eq (tester : RuleTester σ ε)
    (hrules : ∀ n < tree.rules.length, ∃ l, otherRules tree ctx n = some l) (count : Nat)
    {i : Nat} (hi : i ≤ tree.rules.length) :
    ∃ complete, ∀ s : σ × Tree × R, mutRulesLoop tree ctx tester count i s =
      (offerVariants tree ctx tester (variants tree ctx i (i + count)) s).map fun out =>
        (out.1.map fun _ => complete, out.2) := by
  induction count generalizing i with
  | zero =>
      refine ⟨false, fun s => ?_⟩
      rw [variants, Nat.add_zero, Nat.sub_self]
      rfl
  | succ count ih =>
      by_cases hend : i = tree.rules.length
      · refine ⟨true, fun s => ?_⟩
        rw [mutRulesLoop, if_pos hend, variants_eq_nil (Nat.le_of_eq hend.symm)]
        rfl
      · obtain ⟨l, hl⟩ := hrules i (Nat.lt_of_le_of_ne hi hend)
        obtain ⟨complete, hloop⟩ := ih (i := i + 1) (Nat.lt_of_le_of_ne hi hend)
        refine ⟨complete, fun s => ?_⟩
        rw [variants_succ, hl, Option.getD_some, offerVariants_append, mutRulesLoop, if_neg hend]
        obtain ⟨oldRule, hold, hl⟩ := Option.bind_eq_some_iff.mp hl
        obtain ⟨nt, hnt, hl⟩ := Option.bind_eq_some_iff.mp hl
        obtain ⟨ruleIds, hids, hl⟩ := Option.bind_eq_some_iff.mp hl
        obtain rfl := Option.some.inj hl
        simp only [hold, hnt, hids, Option.bind_eq_bind, Option.bind_some, mutRulesOf_eq]
        match offerVariants tree ctx tester
            ((ruleIds.filter (oldRule.id ≠ ·)).map (i, ·)) s with
        | none => rfl
        | some (.error e, s) => rfl
        | some (.ok (), s) => exact hloop s

end

/-! ## When they are offered -/

section

variable {tree : RoseTree RuleIdOrCustom} {ctx : Context} {nt : NTermId}

/-- The node is there, and the rule. -/
def Present (tree : RoseTree RuleIdOrCustom) (ctx : Context) (nodeRule : NodeId × RuleId) : Prop :=
  (∃ sub, tree.subtree? nodeRule.1 = some sub) ∧ ∃ rule, ctx.getRule nodeRule.2 = some rule

theorem otherRules_layOut (h : ctx.Exact) (htree : Derives ctx nt tree) {n : Nat}
    (hn : n < tree.size) : ∃ l, otherRules (Tree.layOut tree) ctx n = some l ∧
      ∀ nodeRule ∈ l, Present tree ctx nodeRule := by
  obtain ⟨sub, hsub⟩ := exists_subtree? hn
  obtain ⟨nt', hderives, -⟩ := htree.subtree? hsub
  obtain ⟨rule, hrule, rfl⟩ := Tree.getRule_layOut hsub hderives
  obtain ⟨label, hlabel, hrule⟩ := Option.bind_eq_some_iff.mp hrule
  obtain ⟨ids, hids, -⟩ := h.listed.mem label.id rule hrule
  have hnt : ctx.getNt (.rule label.id) = some rule.nonterm := by
    rw [Context.getNt, RuleIdOrCustom.id, hrule, Option.map_some]
  refine ⟨_, by simp only [otherRules, hlabel, hnt, Context.getRulesForNt, hids,
    Option.bind_eq_bind, Option.bind_some]; rfl, ?_⟩
  intro nodeRule hmem
  obtain ⟨ruleId, hother, rfl⟩ := List.mem_map.mp hmem
  obtain ⟨rule', hrule', -⟩ :=
    h.listed.derives _ ids ruleId hids (List.mem_filter.mp hother).1
  exact ⟨⟨sub, hsub⟩, rule', hrule'⟩

theorem variants_layOut (h : ctx.Exact) (htree : Derives ctx nt tree) (start stop : Nat) :
    ∀ nodeRule ∈ variants (Tree.layOut tree) ctx start stop, Present tree ctx nodeRule := by
  intro nodeRule hmem
  obtain ⟨n, -, hmem⟩ := List.mem_flatMap.mp hmem
  by_cases hn : n < tree.size
  · obtain ⟨l, hl, hall⟩ := otherRules_layOut h htree hn
    rw [hl] at hmem
    exact hall nodeRule hmem
  · have hlen : (Tree.layOut tree).rules.length ≤ n := by
      rw [Tree.size_layOut]
      exact Nat.le_of_not_lt hn
    rw [otherRules, List.getElem?_eq_none hlen] at hmem
    cases hmem

variable (h : ctx.Exact) (hmax : ctx.maxLen < 2 ^ 64)

include h hmax

theorem offerVariants_eq (tester : RuleTester σ ε) {l : List (NodeId × RuleId)}
    (hpresent : ∀ nodeRule ∈ l, Present tree ctx nodeRule)
    (hfits : ∀ nodeRule ∈ l, ctx.FitsSoundly nodeRule.2 ctx.maxLen) (s : σ) (scratchpad : Tree)
    (r : R) : ∃ mutations scratchpad' r',
      List.Forall₂ (IsVariant (Tree.layOut tree) ctx) l mutations ∧
      offerVariants (Tree.layOut tree) ctx tester l (s, scratchpad, r) =
        some ((offer tester mutations s).1, (offer tester mutations s).2, scratchpad', r') := by
  induction l generalizing s scratchpad r with
  | nil => exact ⟨[], scratchpad, r, .nil, rfl⟩
  | cons nodeRule l ih =>
      obtain ⟨n, ruleId⟩ := nodeRule
      obtain ⟨⟨⟨sub, hsub⟩, -⟩, hpresent⟩ := List.forall_mem_cons.mp hpresent
      obtain ⟨hfit, hfits⟩ := List.forall_mem_cons.mp hfits
      obtain ⟨⟨scratchpad₁, r₁⟩, hrun⟩ := hfit.generateFromRule h hmax scratchpad r
      obtain ⟨rule, label, children, hrule, hlabelled, hchildren, rfl, -⟩ :=
        Tree.generateFromRule_eq_some h hrun
      have hroot : (RoseTree.node label children).subtree? 0 = some (.node label children) := rfl
      obtain ⟨mutation, hmutation, -⟩ := Tree.mutateReplaceFromTree_layOut hsub hroot
      have hvariant : IsVariant (Tree.layOut tree) ctx (n, ruleId) mutation :=
        ⟨label, children, rule.nonterm, hlabelled.id_eq, .node hrule hlabelled hchildren, hmutation⟩
      cases htest : tester mutation s with
      | mk answer s' =>
          obtain ⟨mutations, scratchpad', r', hall, hrest⟩ := ih hpresent hfits s'
            (Tree.layOut (.node label children)) r₁
          cases answer with
          | error e =>
              refine ⟨mutation :: mutations, Tree.layOut (.node label children), r₁,
                .cons hvariant hall, ?_⟩
              simp only [offerVariants, hrun, hmutation, htest, offer, Option.bind_eq_bind,
                Option.bind_some]
          | ok answer =>
              refine ⟨mutation :: mutations, scratchpad', r', .cons hvariant hall, ?_⟩
              simp only [offerVariants, hrun, hmutation, htest, offer, Option.bind_eq_bind,
                Option.bind_some]
              exact hrest

/-- The draws lead past the variants that can be offered to one that panics. -/
theorem exists_offerVariants_eq_none {l : List (NodeId × RuleId)}
    (hpresent : ∀ nodeRule ∈ l, Present tree ctx nodeRule)
    (hfits : ¬∀ nodeRule ∈ l, ctx.FitsSoundly nodeRule.2 ctx.maxLen) :
    ∃ r : Stream' UInt64, ∀ scratchpad, offerVariants (Tree.layOut tree) ctx
      (fun _ (s : Unit) => ((.ok () : Except Empty Unit), s)) l ((), scratchpad, r) = none := by
  induction l with
  | nil => exact absurd (List.forall_mem_nil _) hfits
  | cons nodeRule l ih =>
      obtain ⟨n, ruleId⟩ := nodeRule
      obtain ⟨⟨⟨sub, hsub⟩, rule, hrule⟩, hpresent⟩ := List.forall_mem_cons.mp hpresent
      by_cases hfit : ctx.FitsSoundly ruleId ctx.maxLen
      · obtain ⟨r, hr⟩ := ih hpresent fun hrest => hfits (List.forall_mem_cons.mpr ⟨hfit, hrest⟩)
        obtain ⟨pre, hpre⟩ := hfit.exists_draws h hmax
        refine ⟨pre ++ₛ r, fun scratchpad => ?_⟩
        obtain ⟨scratchpad₁, hrun⟩ := hpre scratchpad r
        obtain ⟨rule, label, children, -, -, -, rfl, -⟩ := Tree.generateFromRule_eq_some h hrun
        have hroot : (RoseTree.node label children).subtree? 0 = some (.node label children) := rfl
        obtain ⟨mutation, hmutation, -⟩ := Tree.mutateReplaceFromTree_layOut hsub hroot
        simp only [offerVariants, hrun, hmutation, Option.bind_eq_bind, Option.bind_some]
        exact hr _
      · obtain ⟨r, hr⟩ := Context.exists_generateFromRule_eq_none h hrule hmax hfit
          (ctx.maxLen + 1)
        refine ⟨r, fun scratchpad => ?_⟩
        rw [offerVariants, hr, Option.bind_eq_bind, Option.bind_none]

theorem offersVariants_iff_of_derives (htree : Derives ctx nt tree) {start : Nat}
    (hstart : start ≤ tree.size) (stop : Nat) :
    OffersVariants (Tree.layOut tree) ctx start stop ↔
      ∀ nodeRule ∈ variants (Tree.layOut tree) ctx start stop,
        ctx.FitsSoundly nodeRule.2 ctx.maxLen := by
  have hrules : ∀ n < (Tree.layOut tree).rules.length,
      ∃ l, otherRules (Tree.layOut tree) ctx n = some l := by
    intro n hn
    rw [Tree.size_layOut] at hn
    obtain ⟨l, hl, -⟩ := otherRules_layOut h htree hn
    exact ⟨l, hl⟩
  have hpresent := variants_layOut h htree start stop
  have hrange : variants (Tree.layOut tree) ctx start (start + (stop - start)) =
      variants (Tree.layOut tree) ctx start stop := by
    rw [variants, variants, Nat.add_sub_cancel_left]
  rw [← Tree.size_layOut] at hstart
  constructor
  · intro hoffers
    by_contra hfits
    obtain ⟨r, hr⟩ := exists_offerVariants_eq_none h hmax hpresent hfits
    obtain ⟨mutations, complete, scratchpad', r', -, hrun⟩ :=
      hoffers (fun _ (s : Unit) => ((.ok () : Except Empty Unit), s)) () Tree.truncate r
    obtain ⟨complete', hloop⟩ := mutRulesLoop_eq (R := Stream' UInt64)
      (fun _ (s : Unit) => ((.ok () : Except Empty Unit), s)) hrules (stop - start) hstart
    rw [mutRules, hloop, hrange, hr, Option.map_none] at hrun
    cases hrun
  · intro hfits σ ε R _ tester s scratchpad r
    obtain ⟨complete, hloop⟩ := mutRulesLoop_eq (R := R) tester hrules (stop - start) hstart
    obtain ⟨mutations, scratchpad', r', hall, hrun⟩ :=
      offerVariants_eq h hmax tester hpresent hfits s scratchpad r
    refine ⟨mutations, complete, scratchpad', r', hall, ?_⟩
    rw [mutRules, hloop, hrange, hrun, Option.map_some]

omit hmax in
/-- In a sound grammar only the least sizes matter. -/
theorem offersVariants_iff_fits (hsound : ∀ rule ∈ ctx.rules, rule.Sound)
    (hlt : ctx.maxLen + 1 < 2 ^ 64) (htree : Derives ctx nt tree) {start : Nat}
    (hstart : start ≤ tree.size) (stop : Nat) :
    OffersVariants (Tree.layOut tree) ctx start stop ↔
      ∀ nodeRule ∈ variants (Tree.layOut tree) ctx start stop, ∃ rule needed,
        ctx.getRule nodeRule.2 = some rule ∧ ctx.minSum rule.nonterms = some needed ∧
          needed ≤ ctx.maxLen := by
  rw [offersVariants_iff_of_derives h (Nat.lt_of_succ_lt hlt) htree hstart]
  refine forall₂_congr fun nodeRule hmem => ?_
  obtain ⟨-, rule, hrule⟩ := variants_layOut h htree start stop nodeRule hmem
  rw [Context.fitsSoundly_iff h hsound hrule hlt]
  constructor
  · rintro ⟨needed, hneeded, hle⟩
    exact ⟨rule, needed, hrule, hneeded, hle⟩
  · rintro ⟨rule', needed, hrule', hneeded, hle⟩
    obtain rfl := Option.some.inj (hrule.symm.trans hrule')
    exact ⟨needed, hneeded, hle⟩

end

theorem maxLen_lt {ctx ctx' : Context} {rounds maxLen : Nat}
    (h : ctx.initializeWith rounds maxLen = some ctx') : ctx'.maxLen < 2 ^ 64 := by
  obtain ⟨ordered, -, h⟩ := Option.bind_eq_some_iff.mp h
  obtain ⟨counted, -, h⟩ := Option.bind_eq_some_iff.mp h
  obtain ⟨len, hlen, h⟩ := Option.bind_eq_some_iff.mp h
  obtain ⟨hlt, rfl⟩ := usizeAdd_eq_some.mp hlen
  obtain rfl := Option.some.inj h
  exact hlt

/-- The variants of a generated tree are offered, exactly if each of their
rules fits the length trees are given. -/
theorem offersVariants_iff {ctx ctx' : Context} {rounds maxLen : Nat} (hbuilt : ctx.Built)
    (hinit : ctx.initializeWith rounds maxLen = some ctx') {depth : Nat} {nt : NTermId}
    {scratchpad tree : Tree} {r r' : R}
    (hgen : scratchpad.generateFromNt ctx' depth nt (ctx'.getRandomLenForNt nt) r =
      some (tree, r'))
    {startIndex : Nat} (hstart : startIndex ≤ tree.rules.length) (endIndex : Nat) :
    OffersVariants tree ctx' startIndex endIndex ↔
      ∀ nodeRule ∈ variants tree ctx' startIndex endIndex,
        ctx'.FitsSoundly nodeRule.2 ctx'.maxLen := by
  have hexact := Context.initializeWith_exact hbuilt.invariants.1 hbuilt.invariants.2 hinit
  obtain ⟨derivation, rfl, hderives, -⟩ := Tree.generateFromNt_eq_some hexact hgen
  rw [Tree.size_layOut] at hstart
  exact offersVariants_iff_of_derives hexact (maxLen_lt hinit) hderives hstart endIndex

open Context in
theorem offersVariants_iff_sums : ∃ ctx tree r', sums.initializeWith 10 0 = some ctx ∧
    Tree.truncate.generateFromNt ctx 2 0 (ctx.getRandomLenForNt 0) (Stream'.const (0 : UInt64)) =
      some (tree, r') ∧
    (OffersVariants tree ctx 0 1 ↔
      ∀ nodeRule ∈ variants tree ctx 0 1, ctx.FitsSoundly nodeRule.2 ctx.maxLen) := by
  obtain ⟨ctx, tree, r', hinit, hgen, hlen⟩ : ∃ ctx tree r',
      sums.initializeWith 10 0 = some ctx ∧
      Tree.truncate.generateFromNt ctx 2 0 (ctx.getRandomLenForNt 0)
        (Stream'.const (0 : UInt64)) = some (tree, r') ∧ 0 ≤ tree.rules.length :=
    ⟨_, _, _, rfl, rfl, Nat.zero_le _⟩
  exact ⟨ctx, tree, r', hinit, hgen, offersVariants_iff sums_built hinit hgen hlen 1⟩

/-- `A → AAA`, `A → a` -/
def triples : Context :=
  (Context.new.addRule
    (.plain { nonterm := 0, children := [.nTerm 0, .nTerm 0, .nTerm 0] })).addRule
    (.plain { nonterm := 0, children := [.term [0x61]] })

/-- The first rule needs three nodes below its own, and is given two. -/
theorem not_offersVariants_triples : ∃ ctx tree r', triples.initializeWith 10 0 = some ctx ∧
    Tree.truncate.generateFromNt ctx 2 0 (ctx.getRandomLenForNt 0) (Stream'.const (0 : UInt64)) =
      some (tree, r') ∧
    (∀ (tester : RuleTester Unit Empty) (s : Unit × Tree × Stream' UInt64),
      mutRules tree ctx 0 1 tester s = none) ∧ ¬OffersVariants tree ctx 0 1 := by
  have hpanics : ∃ ctx tree r', triples.initializeWith 10 0 = some ctx ∧
      Tree.truncate.generateFromNt ctx 2 0 (ctx.getRandomLenForNt 0)
        (Stream'.const (0 : UInt64)) = some (tree, r') ∧
      ∀ (tester : RuleTester Unit Empty) (s : Unit × Tree × Stream' UInt64),
        mutRules tree ctx 0 1 tester s = none := ⟨_, _, _, rfl, rfl, fun _ _ => rfl⟩
  obtain ⟨ctx, tree, r', hinit, hgen, hnone⟩ := hpanics
  refine ⟨ctx, tree, r', hinit, hgen, hnone, fun hoffers => ?_⟩
  obtain ⟨mutations, complete, scratchpad', r'', -, hrun⟩ :=
    hoffers (fun _ (s : Unit) => ((.ok () : Except Empty Unit), s)) () Tree.truncate
      (Stream'.const (0 : UInt64))
  rw [hnone] at hrun
  cases hrun

end GrammarMutator

end Libaflmm
