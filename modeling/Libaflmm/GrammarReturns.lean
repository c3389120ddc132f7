import Libaflmm.GrammarShares

/-!
# What generation returns

Whatever the rules are, a tree that is returned is the layout of a derivation
that is no longer than the length. Only an expression can keep a tree from
being returned, or a rule with too many children. What is returned needs no
assumption on them.
-/

namespace Libaflmm

open RoseTree

namespace Context

variable {ctx : Context} {R : Type} [Rand R]

theorem getApplicableRules_subset {maxLen p : Nat} {ids rules : List RuleId} {r r' : R}
    (h : ctx.getApplicableRules maxLen p ids r = some (rules, r')) : rules ⊆ ids := by
  induction ids generalizing rules r r' with
  | nil =>
      obtain ⟨rfl, -⟩ := Prod.mk.inj (Option.some.inj h)
      exact List.Subset.refl _
  | cons id ids ih =>
      obtain ⟨size, -, h⟩ := Option.bind_eq_some_iff.mp h
      split at h
      · obtain ⟨options, -, h⟩ := Option.bind_eq_some_iff.mp h
        obtain ⟨⟨more, r₁⟩, hmore, h⟩ := Option.bind_eq_some_iff.mp h
        obtain ⟨rfl, -⟩ := Prod.mk.inj (Option.some.inj h)
        have hkept : ∀ keep : Bool, (if keep then id :: more else more) ⊆ id :: ids := by
          rintro (_ | _)
          · exact List.subset_cons_of_subset id (ih hmore)
          · exact List.cons_subset_cons id (ih hmore)
        exact hkept _
      · obtain ⟨rfl, -⟩ := Prod.mk.inj (Option.some.inj h)
        exact List.nil_subset _

theorem chooseApplicableRule_mem {nt : NTermId} {maxLen p : Nat} {rid : RuleId} {r r' : R}
    (h : ctx.chooseApplicableRule nt maxLen p r = some (some rid, r')) :
    ∃ ids, ctx.ntsToRules.lookup nt = some ids ∧ rid ∈ ids := by
  obtain ⟨ids, hids, h⟩ := Option.bind_eq_some_iff.mp h
  obtain ⟨⟨rules, r₁⟩, hrules, h⟩ := Option.bind_eq_some_iff.mp h
  obtain ⟨hchosen, -⟩ := Prod.mk.inj (Option.some.inj h)
  exact ⟨ids, hids, getApplicableRules_subset hrules (Rand.chooseIter_mem hchosen)⟩

theorem Exact.getRandomRuleForNt_eq_some (h : ctx.Exact) {nt : NTermId} {maxLen : Nat}
    {rid : RuleId} {r r' : R} (hdraw : ctx.getRandomRuleForNt nt maxLen r = some (rid, r')) :
    ∃ rule, ctx.getRule rid = some rule ∧ rule.nonterm = nt := by
  have hmem : ∃ ids, ctx.ntsToRules.lookup nt = some ids ∧ rid ∈ ids := by
    obtain ⟨⟨opt, r₁⟩, hfirst, hdraw⟩ := Option.bind_eq_some_iff.mp hdraw
    cases opt with
    | some opt =>
        obtain ⟨rfl, -⟩ := Prod.mk.inj (Option.some.inj hdraw)
        exact chooseApplicableRule_mem hfirst
    | none =>
        obtain ⟨⟨opt, r₂⟩, hsecond, hdraw⟩ := Option.bind_eq_some_iff.mp hdraw
        obtain ⟨rid', rfl, heq⟩ := Option.map_eq_some_iff.mp hdraw
        obtain ⟨rfl, -⟩ := Prod.mk.inj heq
        exact chooseApplicableRule_mem hsecond
  obtain ⟨ids, hids, hmem⟩ := hmem
  exact h.listed.derives nt ids rid hids hmem

theorem ruleOrCustom_eq_some {rid : RuleId} {rule : Rule} {label : RuleIdOrCustom} {r r' : R}
    (hrule : ctx.getRule rid = some rule) (h : ctx.ruleOrCustom rid r = some (label, r')) :
    rule.LabelledBy rid label := by
  simp only [ruleOrCustom, hrule, Option.bind_eq_bind, Option.bind_some] at h
  cases rule with
  | plain rule => exact (Prod.mk.inj (Option.some.inj h)).1.symm
  | script rule => exact (Prod.mk.inj (Option.some.inj h)).1.symm
  | regExp rule =>
      obtain ⟨⟨data, r₁⟩, -, h⟩ := Option.bind_eq_some_iff.mp h
      exact ⟨data, (Prod.mk.inj (Option.some.inj h)).1.symm⟩

/-- What `generate` returns are derivations of the children of the rule. -/
def ReturnsDerivations (ctx : Context)
    (generate : RuleId → Nat → Tree → R → Option (Nat × Tree × R)) : Prop :=
  ∀ {rid : RuleId} {len size : Nat} {tree tree' : Tree} {r r' : R},
    generate rid len tree r = some (size, tree', r') → tree.Consistent → 0 < tree.rules.length →
      ∃ rule children, ctx.getRule rid = some rule ∧
        List.Forall₂ (Derives ctx) rule.nonterms children ∧ size = 1 + sizeAll children ∧
        tree' = tree.append (tree.rules.length - 1) children ∧ sizeAll children ≤ len

theorem minimalNeededLen_eq_some {nts : List NTermId} {sum needed : Nat}
    (h : ctx.minimalNeededLen nts sum = some needed) :
    ∃ total, ctx.minSum nts = some total ∧ needed = sum + total := by
  induction nts generalizing sum with
  | nil => exact ⟨0, rfl, (Option.some.inj h).symm⟩
  | cons nt nts ih =>
      obtain ⟨v, hv, h⟩ := Option.bind_eq_some_iff.mp h
      obtain ⟨sum', hsum, h⟩ := Option.bind_eq_some_iff.mp h
      obtain ⟨-, rfl⟩ := usizeAdd_eq_some.mp hsum
      obtain ⟨total, htotal, rfl⟩ := ih h
      exact ⟨v + total, minSum_cons.mpr ⟨v, total, hv, htotal, rfl⟩, Nat.add_assoc ..⟩

theorem generateChildren_eq_some (h : ctx.Exact)
    {generate : RuleId → Nat → Tree → R → Option (Nat × Tree × R)}
    (hgen : ctx.ReturnsDerivations generate) {paren : NodeId} {nts : List NTermId} {needed : Nat}
    (hneeded : ctx.minSum nts = some needed) {remaining total size : Nat} {tree tree' : Tree}
    {r r' : R} (htree : tree.Consistent)
    (hrun : ctx.generateChildren generate paren nts remaining total tree r =
      some (size, tree', r')) :
    ∃ children, List.Forall₂ (Derives ctx) nts children ∧ size = total + sizeAll children ∧
      tree' = tree.append paren children ∧ sizeAll children ≤ remaining + needed := by
  induction nts generalizing needed remaining total tree r with
  | nil =>
      obtain ⟨rfl, heq⟩ := Prod.mk.inj (Option.some.inj hrun)
      obtain ⟨rfl, -⟩ := Prod.mk.inj heq
      exact ⟨[], .nil, rfl, Tree.append_nil.symm, Nat.zero_le _⟩
  | cons nt nts ih =>
      obtain ⟨v, rest, hv, hrest, rfl⟩ := minSum_cons.mp hneeded
      obtain ⟨⟨k, r₁⟩, hk, hrun⟩ := Option.bind_eq_some_iff.mp hrun
      obtain ⟨v', hv', hrun⟩ := Option.bind_eq_some_iff.mp hrun
      obtain rfl := Option.some.inj (hv.symm.trans hv')
      obtain ⟨cur, hcur, hrun⟩ := Option.bind_eq_some_iff.mp hrun
      obtain ⟨-, rfl⟩ := usizeAdd_eq_some.mp hcur
      obtain ⟨⟨rid, r₂⟩, hdraw, hrun⟩ := Option.bind_eq_some_iff.mp hrun
      obtain ⟨⟨label, r₃⟩, hlabel, hrun⟩ := Option.bind_eq_some_iff.mp hrun
      obtain ⟨-, hrun⟩ := Option.ite_none_right_eq_some.mp hrun
      obtain ⟨childLen, hchild, hrun⟩ := Option.bind_eq_some_iff.mp hrun
      obtain ⟨⟨consumed, tree₁, r₄⟩, hgenerate, hrun⟩ := Option.bind_eq_some_iff.mp hrun
      obtain ⟨hconsumed, hrun⟩ := Option.ite_none_right_eq_some.mp hrun
      obtain ⟨back, hback, hrun⟩ := Option.bind_eq_some_iff.mp hrun
      obtain ⟨left, hleft, hrun⟩ := Option.bind_eq_some_iff.mp hrun
      obtain ⟨total', htotal, hrun⟩ := Option.bind_eq_some_iff.mp hrun
      obtain ⟨-, rfl⟩ := usizeAdd_eq_some.mp hback
      obtain ⟨hle, rfl⟩ := usizeSub_eq_some.mp hleft
      obtain ⟨-, rfl⟩ := usizeAdd_eq_some.mp htotal
      obtain ⟨rule, hrule, hnt⟩ := h.getRandomRuleForNt_eq_some hdraw
      obtain ⟨rule', grand, hrule', hderives, rfl, rfl, -⟩ :=
        hgen hgenerate (htree.push label) (by simp [Tree.push])
      obtain rfl := Option.some.inj (hrule.symm.trans hrule')
      have hparen : (tree.push label).rules.length - 1 = tree.rules.length := by simp [Tree.push]
      rw [hparen, Tree.setSize_append_push htree] at hrun
      obtain ⟨children, hall, rfl, rfl, hsum⟩ := ih hrest (htree.append paren _) hrun
      refine ⟨.node label grand :: children, .cons ?_ hall, ?_, ?_, ?_⟩
      · rw [← hnt]
        exact .node hrule (ruleOrCustom_eq_some hrule hlabel) hderives
      · rw [sizeAll, RoseTree.size, Nat.add_assoc]
      · rw [Tree.append_cons _ children]
      · rw [sizeAll, RoseTree.size]
        omega

theorem generateRule_eq_some (h : ctx.Exact) (depth : Nat) :
    ctx.ReturnsDerivations (generateRule ctx (R := R) depth) := by
  induction depth with
  | zero =>
      intro rid len size tree tree' r r' hrun
      cases hrun
  | succ depth ih =>
      intro rid len size tree tree' r r' hrun htree hne
      obtain ⟨rule, hrule, hrun⟩ := Option.bind_eq_some_iff.mp hrun
      obtain ⟨needed, hneeded, hrun⟩ := Option.bind_eq_some_iff.mp hrun
      obtain ⟨hfits, hrun⟩ := Option.ite_none_right_eq_some.mp hrun
      obtain ⟨paren, hparen, hrun⟩ := Option.bind_eq_some_iff.mp hrun
      obtain ⟨-, rfl⟩ := usizeSub_eq_some.mp hparen
      obtain ⟨total, htotal, rfl⟩ := minimalNeededLen_eq_some hneeded
      obtain ⟨children, hall, rfl, rfl, hsum⟩ := generateChildren_eq_some h ih htotal htree hrun
      exact ⟨rule, children, hrule, hall, rfl, rfl, by omega⟩

end Context

namespace Tree

variable {ctx : Context} {R : Type} [Rand R]

/-- The tree of a rule has the rule at its root. -/
theorem generateFromRule_eq_some (h : ctx.Exact) {depth maxLen : Nat} {rid : RuleId}
    {tree tree' : Tree} {r r' : R}
    (hrun : tree.generateFromRule ctx depth rid maxLen r = some (tree', r')) :
    ∃ rule label children, ctx.getRule rid = some rule ∧ rule.LabelledBy rid label ∧
      List.Forall₂ (Derives ctx) rule.nonterms children ∧
      tree' = layOut (.node label children) ∧ sizeAll children ≤ maxLen := by
  obtain ⟨rule, hrule, hmatch⟩ := Option.bind_eq_some_iff.mp hrun
  by_cases hkind : ∀ re, rule ≠ .regExp re
  · rw [Context.generateFromRule_eq hrule hkind] at hrun
    obtain ⟨⟨size, tree₁, r₁⟩, hgenerate, heq⟩ := Option.map_eq_some_iff.mp hrun
    obtain ⟨rfl, rfl⟩ := Prod.mk.inj heq
    obtain ⟨rule', children, hrule', hall, -, rfl, hsum⟩ :=
      Context.generateRule_eq_some h depth hgenerate ⟨rfl, rfl⟩ (by simp [Tree.push])
    obtain rfl := Option.some.inj (hrule.symm.trans hrule')
    refine ⟨rule, .rule rid, children, hrule, Rule.labelledBy_rule hkind, hall, ?_, hsum⟩
    exact setSize_append_root children
  · push Not at hkind
    obtain ⟨re, rfl⟩ := hkind
    obtain ⟨⟨data, r₁⟩, hdata, heq⟩ := Option.bind_eq_some_iff.mp hmatch
    obtain ⟨rfl, rfl⟩ := Prod.mk.inj (Option.some.inj heq)
    exact ⟨_, .custom rid data, [], hrule, ⟨data, rfl⟩, .nil, rfl, Nat.zero_le _⟩

theorem generateFromNt_eq_some (h : ctx.Exact) {depth len : Nat} {nt : NTermId}
    {tree tree' : Tree} {r r' : R}
    (hrun : tree.generateFromNt ctx depth nt len r = some (tree', r')) :
    ∃ derivation, tree' = layOut derivation ∧ Derives ctx nt derivation ∧
      derivation.size ≤ len := by
  obtain ⟨⟨rid, r₁⟩, hdraw, hrest⟩ := Option.bind_eq_some_iff.mp hrun
  obtain ⟨maxLen, hsub, hgenerate⟩ := Option.bind_eq_some_iff.mp hrest
  obtain ⟨hpos, rfl⟩ := usizeSub_eq_some.mp hsub
  obtain ⟨rule, hrule, rfl⟩ := h.getRandomRuleForNt_eq_some hdraw
  obtain ⟨rule', label, children, hrule', hlabelled, hall, rfl, hsum⟩ :=
    generateFromRule_eq_some h hgenerate
  obtain rfl := Option.some.inj (hrule.symm.trans hrule')
  refine ⟨_, rfl, .node hrule hlabelled hall, ?_⟩
  rw [RoseTree.size]
  omega

end Tree

end Libaflmm
