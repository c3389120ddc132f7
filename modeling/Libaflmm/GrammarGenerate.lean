import Libaflmm.GrammarSafely

/-!
# Generated trees are derivations

As long as only sound rules can be drawn, a tree is generated for every
nonterminal and every length it can be derived in, whatever the draws. It is
the layout of a derivation of the nonterminal, and has no more nodes than the
length allows.

A child is given what it needs at least, and a part of what remains. Together
with the needs of the children to come this never exceeds the length, and since
every node takes one off the length, the length bounds the depth.
-/

namespace Libaflmm

open RoseTree

namespace Context

variable {ctx : Context} {R : Type} [Rand R]

/-! ## Generation -/

/-- Up to the length `bound`, `generate` appends derivations of the children of
a rule, if they have the room they need. -/
def Expands (ctx : Context) (generate : RuleId → Nat → Tree → R → Option (Nat × Tree × R))
    (bound : Nat) : Prop :=
  ∀ {rid : RuleId} {rule : Rule} {m : Nat} (len : Nat) (tree : Tree) (r : R),
    ctx.getRule rid = some rule → rule.Sound →
    addMinSizes ctx.ntsToMinSize rule.nonterms 1 = some (some m) → m ≤ len + 1 → len < bound →
    len + 1 < 2 ^ 64 → tree.Consistent → 0 < tree.rules.length →
    ∃ children r', List.Forall₂ (Derives ctx) rule.nonterms children ∧
      generate rid len tree r =
        some (1 + sizeAll children, tree.append (tree.rules.length - 1) children, r') ∧
      m ≤ 1 + sizeAll children ∧ sizeAll children ≤ len

theorem generateRule_spec (h : ctx.Exact) (hdraws : ctx.DrawsSound) (depth : Nat) :
    ctx.Expands (generateRule ctx (R := R) depth) depth := by
  intro rid rule m len tree r hrule hsound hsum hle hlt hmax htree hne
  obtain ⟨needed, hneeded, rfl⟩ := minSum_of_addMinSizes hsum
  have hbounds : ∀ n, ctx.Grows rid len n → 1 + needed ≤ n ∧ n ≤ len + 1 :=
    fun n hgrow => within_grows h depth hlt hrule hneeded hgrow
  have hfits : ctx.FitsSoundly rid len := by
    refine ⟨⟨rule, needed, hrule, hneeded, by omega⟩, ⟨rule, hrule, hsound⟩, ?_, ?_⟩
    · intro rid' hdrawn
      exact hdraws.soundId_of_drawn h (by omega) hdrawn
    · intro n hgrow
      obtain ⟨-, hhigh⟩ := hbounds n hgrow
      omega
  obtain ⟨n, tree', r', hrun, hgrow⟩ :=
    generateRule_grows h depth tree r hfits hlt (by omega) htree hne
  obtain ⟨hlow, -⟩ := hbounds n hgrow
  obtain ⟨rule', children, hrule', hall, rfl, rfl, hhigh⟩ :=
    generateRule_eq_some h depth hrun htree hne
  obtain rfl := Option.some.inj (hrule.symm.trans hrule')
  exact ⟨children, r', hall, hrun, hlow, hhigh⟩

/-! ## Whole trees -/

/-- For every nonterminal, every length it can be derived in and all draws, a
derivation is generated that is no longer than that. -/
def GeneratesDerivations (ctx : Context) : Prop :=
  ∀ nt v len, ctx.getMinLenForNt nt = some v → v ≤ len → len < 2 ^ 64 →
    ∀ (R : Type) [Rand R] (tree : Tree) (r : R), ∃ depth derivation r',
      tree.generateFromNt ctx depth nt len r = some (Tree.layOut derivation, r') ∧
        Derives ctx nt derivation ∧ derivation.size ≤ len

theorem generateFromRule_children (h : ctx.Exact) (hdraws : ctx.DrawsSound) {rid : RuleId}
    {rule : Rule} {m : Nat} (len : Nat) (tree : Tree) (r : R) (hrule : ctx.getRule rid = some rule)
    (hkind : ∀ re, rule ≠ .regExp re) (hsound : rule.Sound)
    (hsum : addMinSizes ctx.ntsToMinSize rule.nonterms 1 = some (some m)) (hle : m ≤ len + 1)
    (hmax : len + 1 < 2 ^ 64) :
    ∃ derivation r',
      tree.generateFromRule ctx (len + 1) rid len r = some (Tree.layOut derivation, r') ∧
        Derives ctx rule.nonterm derivation ∧ derivation.size ≤ len + 1 := by
  have hroot : (Tree.truncate.push (.rule rid)).Consistent := ⟨rfl, rfl⟩
  obtain ⟨children, r', hall, hrun, -, hhigh⟩ := generateRule_spec h hdraws (len + 1) len _ r
    hrule hsound hsum hle (Nat.lt_succ_self len) hmax hroot (by simp [Tree.push])
  refine ⟨.node (.rule rid) children, r', ?_, .node hrule (Rule.labelledBy_rule hkind) hall, ?_⟩
  · rw [generateFromRule_eq hrule hkind, hrun, Option.map_some, ← Tree.setSize_append_root]
    rfl
  · rw [size, Nat.add_comm]
    exact Nat.succ_le_succ hhigh

theorem generateFromRule_spec (h : ctx.Exact) (hdraws : ctx.DrawsSound) {rid : RuleId}
    {rule : Rule} {m : Nat} (len : Nat) (tree : Tree) (r : R) (hrule : ctx.getRule rid = some rule)
    (hsound : rule.Sound) (hsum : addMinSizes ctx.ntsToMinSize rule.nonterms 1 = some (some m))
    (hle : m ≤ len + 1) (hmax : len + 1 < 2 ^ 64) :
    ∃ derivation r',
      tree.generateFromRule ctx (len + 1) rid len r = some (Tree.layOut derivation, r') ∧
        Derives ctx rule.nonterm derivation ∧ derivation.size ≤ len + 1 := by
  cases rule with
  | regExp re =>
      obtain ⟨⟨data, r'⟩, hdata⟩ := generateRegex_isSome re.wellFormed hsound r
      refine ⟨.node (.custom rid data) [], r', ?_, .node hrule ⟨data, rfl⟩ .nil, ?_⟩
      · simp only [Tree.generateFromRule, hrule, hdata, Option.bind_eq_bind, Option.bind_some]
        rfl
      · simp [size, sizeAll]
  | plain plain =>
      exact generateFromRule_children h hdraws len tree r hrule (by simp) hsound hsum hle hmax
  | script script =>
      exact generateFromRule_children h hdraws len tree r hrule (by simp) hsound hsum hle hmax

/-- The length bounds the depth. -/
theorem generateFromNt_spec (h : ctx.Exact) (hdraws : ctx.DrawsSound) {nt : NTermId} {v len : Nat}
    (hv : ctx.getMinLenForNt nt = some v) (hle : v ≤ len) (hmax : len < 2 ^ 64) (tree : Tree)
    (r : R) :
    ∃ derivation r', tree.generateFromNt ctx len nt len r = some (Tree.layOut derivation, r') ∧
      Derives ctx nt derivation ∧ derivation.size ≤ len := by
  have hpos := h.one_le hv
  obtain ⟨rid, rule, m, r1, hdraw, hrule, rfl, hsound, hsum, -, hmle⟩ :=
    h.getRandomRuleForNt_spec hdraws hv hle hmax r
  obtain ⟨derivation, r', hrun, hderives, hsize⟩ := generateFromRule_spec h hdraws (len - 1)
    tree r1 hrule hsound hsum (by omega) (by omega)
  have hsub : usizeSub len 1 = some (len - 1) := usizeSub_eq_some.mpr ⟨by omega, rfl⟩
  rw [Nat.sub_add_cancel (hpos.trans hle)] at hrun hsize
  refine ⟨derivation, r', ?_, hderives, hsize⟩
  simp only [Tree.generateFromNt, hdraw, hsub, Option.bind_eq_bind, Option.bind_some, hrun]

theorem generatesDerivations_of_drawsSound (h : ctx.Exact) (hdraws : ctx.DrawsSound) :
    ctx.GeneratesDerivations := by
  intro nt v len hv hle hmax R _ tree r
  obtain ⟨derivation, r', hrun, hderives, hsize⟩ := generateFromNt_spec h hdraws hv hle hmax tree r
  exact ⟨len, derivation, r', hrun, hderives, hsize⟩

/-! ## A rule that is not sound -/

/-- The first child of too many is given no share. -/
theorem generateChildren_eq_none
    {generate : RuleId → Nat → Tree → R → Option (Nat × Tree × R)} {nts : List NTermId}
    (hmany : 2 ^ 31 ≤ nts.length) (paren : NodeId) (remaining total : Nat) (tree : Tree) (r : R) :
    ctx.generateChildren generate paren nts remaining total tree r = none := by
  cases nts with
  | nil => simp at hmany
  | cons nt nts =>
      have hlen : getRandomLen remaining (nt :: nts) r = none := if_neg (Nat.not_lt_of_le hmany)
      simp only [generateChildren, hlen, Option.bind_eq_bind, Option.bind_none]

theorem generateRule_eq_none {rid : RuleId} {rule : Rule} (hrule : ctx.getRule rid = some rule)
    (hmany : 2 ^ 31 ≤ rule.nonterms.length) (depth len : Nat) (tree : Tree) (r : R) :
    ctx.generateRule depth rid len tree r = none := by
  cases depth with
  | zero => rfl
  | succ depth =>
      simp only [generateRule, hrule, Option.bind_eq_bind, Option.bind_some,
        Option.bind_eq_none_iff]
      intro needed _
      split
      · rw [Option.bind_eq_none_iff]
        intro paren _
        exact generateChildren_eq_none hmany paren _ _ tree r
      · rfl

theorem generateFromRule_eq_none {rid : RuleId} {rule : RegExpRule} {r : R}
    (hrule : ctx.getRule rid = some (.regExp rule)) (h : generateRegex rule.hir r = none)
    (depth maxLen : Nat) (tree : Tree) : tree.generateFromRule ctx depth rid maxLen r = none := by
  simp only [Tree.generateFromRule, hrule, h, Option.bind_eq_bind, Option.bind_some,
    Option.bind_none]

theorem generateFromNt_eq_none {rid : RuleId} {start : NTermId} {len : Nat} {tree : Tree}
    {r r' : R} (hdraw : ctx.getRandomRuleForNt start len r = some (rid, r')) {depth : Nat}
    (h : ∀ maxLen, tree.generateFromRule ctx depth rid maxLen r' = none) :
    tree.generateFromNt ctx depth start len r = none := by
  simp only [Tree.generateFromNt, hdraw, Option.bind_eq_bind, Option.bind_some, h,
    Option.bind_fun_none]

theorem drawsSound_of_generatesDerivations (h : ctx.Exact) (hgen : ctx.GeneratesDerivations) :
    ctx.DrawsSound := by
  intro nt v len ids hv hle hmax hids seed rid hrid
  obtain ⟨rule, hrule, hnt⟩ := h.listed.derives nt ids rid hids
    (List.takeWhile_subset _ (Rand.chooseIter_mem hrid))
  refine ⟨rule, hrule, by_contra fun hunsound => ?_⟩
  -- draws that pick the rule, and go on to make it panic
  obtain ⟨s, hs⟩ : ∃ s : Stream' UInt64, ∀ depth maxLen (tree : Tree),
      tree.generateFromRule ctx depth rid maxLen s = none := by
    cases rule with
    | regExp re =>
        obtain ⟨s, hs⟩ := exists_generateRegex_eq_none re.wellFormed hunsound
        exact ⟨s, generateFromRule_eq_none hrule hs⟩
    | plain plain =>
        refine ⟨Stream'.const 0, fun depth maxLen tree => ?_⟩
        rw [generateFromRule_eq hrule (by simp),
          generateRule_eq_none hrule (Nat.le_of_not_lt hunsound), Option.map_none]
    | script script =>
        refine ⟨Stream'.const 0, fun depth maxLen tree => ?_⟩
        rw [generateFromRule_eq hrule (by simp),
          generateRule_eq_none hrule (Nat.le_of_not_lt hunsound), Option.map_none]
  obtain ⟨r, hr⟩ := h.exists_getRandomRuleForNt hids hrid s
  obtain ⟨depth, derivation, r', hrun, -⟩ := hgen nt v len hv hle hmax _ Tree.truncate r
  rw [generateFromNt_eq_none hr fun maxLen => hs depth maxLen _] at hrun
  cases hrun

/-- Whatever way a grammar was put together. -/
theorem generatesDerivations_iff {ctx ctx' : Context} {rounds maxLen : Nat} (hbuilt : ctx.Built)
    (h : ctx.initializeWith rounds maxLen = some ctx') :
    ctx'.GeneratesDerivations ↔ ctx'.DrawsSound := by
  have hexact := initializeWith_exact hbuilt.invariants.1 hbuilt.invariants.2 h
  exact ⟨drawsSound_of_generatesDerivations hexact, generatesDerivations_of_drawsSound hexact⟩

/-! ## Two grammars -/

/-- `E → E+E`, `E → 1` -/
def sums : Context :=
  (new.addRule (.plain { nonterm := 0, children := [.nTerm 0, .term [0x2b], .nTerm 0] })).addRule
    (.plain { nonterm := 0, children := [.term [0x31]] })

theorem Exact.drawsSound {ctx : Context} (h : ctx.Exact)
    (hsound : ∀ rule ∈ ctx.rules, rule.Sound) : ctx.DrawsSound := by
  intro nt v len ids _ _ _ hids seed rid hrid
  obtain ⟨rule, hrule, -⟩ := h.listed.derives nt ids rid hids
    (List.takeWhile_subset _ (Rand.chooseIter_mem hrid))
  exact ⟨rule, hrule, hsound rule (List.mem_of_getElem? hrule)⟩

theorem sums_built : sums.Built := (Built.new.addRule _).addRule _

theorem generatesDerivations_sums :
    ∃ ctx, sums.initializeWith 10 11 = some ctx ∧ ctx.GeneratesDerivations := by
  have hinit : sums.initializeWith 10 11 = some _ := rfl
  refine ⟨_, hinit, (generatesDerivations_iff sums_built hinit).mpr ?_⟩
  refine (initializeWith_exact sums_built.invariants.1 sums_built.invariants.2 hinit).drawsSound ?_
  show ∀ rule ∈ sums.rules, rule.Sound
  refine List.forall_mem_cons.mpr ⟨?_, List.forall_mem_singleton.mpr ?_⟩
  · show 2 < 2 ^ 31
    decide
  · show 0 < 2 ^ 31
    decide

/-- `.`, which is every character but the line feed. -/
def dot : Class :=
  .unicode [⟨'\x00', '\t', by decide⟩, ⟨'\x0b', Char.ofNat 0x10ffff, by decide⟩]

def dots : Context := new.addRule (.regExp ⟨0, .cls dot, by simp [dot, Hir.WellFormed]⟩)

/-- The second range is picked, and a word in it that is no character. -/
theorem generateRegex_dot :
    generateRegex (.cls dot) (Rand.skip 2 (RomuDuoJrRand.withSeed 1)) = none :=
  generateLoop_cls_eq_none (by decide +kernel)

/-- No depth is enough, although the tree would have one node only. -/
theorem dots_panics : ∃ ctx, dots.initializeWith 1 5 = some ctx ∧ ctx.getMinLenForNt 0 = some 1 ∧
    ∀ depth, Tree.truncate.generateFromNt ctx depth 0 1 (RomuDuoJrRand.withSeed 1) = none := by
  refine ⟨_, rfl, rfl, fun depth => ?_⟩
  refine generateFromNt_eq_none
    (show _ = some (0, Rand.skip 2 (RomuDuoJrRand.withSeed 1)) from rfl) fun maxLen => ?_
  exact generateFromRule_eq_none rfl generateRegex_dot depth maxLen Tree.truncate

theorem not_generatesDerivations_dots :
    ∃ ctx, dots.initializeWith 1 5 = some ctx ∧ ¬ctx.GeneratesDerivations := by
  obtain ⟨ctx, hinit, hmin, hpanics⟩ := dots_panics
  refine ⟨ctx, hinit, fun hgen => ?_⟩
  obtain ⟨depth, derivation, r', hrun, -⟩ := hgen 0 1 1 hmin (Nat.le_refl 1) (by decide)
    RomuDuoJrRand Tree.truncate (RomuDuoJrRand.withSeed 1)
  rw [hpanics depth] at hrun
  cases hrun

end Context

end Libaflmm
