import Libaflmm.GrammarGrowth

/-!
# Expansions that cannot panic

A rule that fits soundly is expanded by any generator, to a number of nodes it
can grow to.
-/

namespace Libaflmm

open RoseTree

section

variable {R : Type} [Rand R]

/-- The last nonterminal is given all there is. -/
theorem getRandomLen_share (remaining : Nat) {nt : NTermId} {nts : List NTermId}
    (h : (nt :: nts).length < 2 ^ 31) (r : R) :
    ∃ k r', getRandomLen remaining (nt :: nts) r = some (k, r') ∧ k ≤ remaining ∧
      (nts = [] → k = remaining) := by
  cases nts with
  | nil =>
      refine ⟨remaining, r, ?_, Nat.le_refl _, fun _ => rfl⟩
      rw [getRandomLen, simpleGetRandomLen, if_pos h]
      rfl
  | cons nt' nts =>
      obtain ⟨k, r', hk, hle⟩ := getRandomLen_le remaining h r
      exact ⟨k, r', hk, hle, fun hnil => by cases hnil⟩

end

namespace Context

variable {ctx : Context} {R : Type} [Rand R]

theorem Exact.getRandomRuleForNt_picks (h : ctx.Exact) {nt : NTermId} {nts : List NTermId}
    {remaining v k : Nat} (hv : ctx.getMinLenForNt nt = some v) (hshare : k ≤ remaining)
    (hlast : nts = [] → k = remaining) (r : R) :
    ∃ rid r', ctx.getRandomRuleForNt nt (k + v) r = some (rid, r') ∧
      ctx.Picks nt nts remaining v k rid := by
  obtain ⟨ids, hids, hne⟩ := h.fitting_ne_nil hv (Nat.le_add_left v k)
  obtain ⟨n, hn⟩ := h.getRandomRuleForNt_eq hids hne
  obtain ⟨rid, hrid, hdraw⟩ := hn r
  exact ⟨rid, _, hdraw, hv, hshare, hlast, ids, _, hids, hrid⟩

section

variable {generate : RuleId → Nat → Tree → R → Option (Nat × Tree × R)} {nt : NTermId}
  {nts : List NTermId} {remaining v k : Nat} {rid : RuleId} {label : RuleIdOrCustom}
  {tree : Tree} {r r1 r2 r3 : R}

/-- The first child, up to its own nonterminals. -/
theorem generateChildren_cons_eq_none (hk : getRandomLen remaining (nt :: nts) r = some (k, r1))
    (hv : ctx.getMinLenForNt nt = some v)
    (hdraw : ctx.getRandomRuleForNt nt (k + v) r1 = some (rid, r2))
    (hrun : ∀ label r3, ctx.ruleOrCustom rid r2 = some (label, r3) →
      generate rid (k + v - 1) (tree.push label) r3 = none) (paren : NodeId) (total : Nat) :
    ctx.generateChildren generate paren (nt :: nts) remaining total tree r = none := by
  simp only [generateChildren, hk, hv, Option.bind_eq_bind, Option.bind_some]
  refine Option.bind_eq_none_iff.mpr fun cur hcur => ?_
  obtain ⟨-, rfl⟩ := usizeAdd_eq_some.mp hcur
  simp only [hdraw, Option.bind_some]
  refine Option.bind_eq_none_iff.mpr fun ⟨label, r3⟩ hlabel => ?_
  dsimp only
  split
  · refine Option.bind_eq_none_iff.mpr fun len hlen => ?_
    obtain ⟨-, rfl⟩ := usizeSub_eq_some.mp hlen
    rw [hrun label r3 hlabel, Option.bind_none]
  · rfl

theorem generateChildren_cons (hk : getRandomLen remaining (nt :: nts) r = some (k, r1))
    (hv : ctx.getMinLenForNt nt = some v)
    (hdraw : ctx.getRandomRuleForNt nt (k + v) r1 = some (rid, r2))
    (hlabel : ctx.ruleOrCustom rid r2 = some (label, r3)) (htree : tree.Consistent)
    {grand : List (RoseTree RuleIdOrCustom)} {r4 : R}
    (hrun : generate rid (k + v - 1) (tree.push label) r3 =
      some (1 + sizeAll grand, (tree.push label).append tree.rules.length grand, r4))
    (hshare : k ≤ remaining) (hmax : remaining + v < 2 ^ 64) (hlow : v ≤ 1 + sizeAll grand)
    (hhigh : 1 + sizeAll grand ≤ k + v) (paren : NodeId) (total : Nat) :
    ctx.generateChildren generate paren (nt :: nts) remaining total tree r =
      (usizeAdd total (1 + sizeAll grand)).bind fun total =>
        ctx.generateChildren generate paren nts (remaining + v - (1 + sizeAll grand)) total
          (tree.append paren [.node label grand]) r4 := by
  have hcur : usizeAdd k v = some (k + v) := usizeAdd_eq_some.mpr ⟨by omega, rfl⟩
  have hsub : usizeSub (k + v) 1 = some (k + v - 1) := usizeSub_eq_some.mpr ⟨by omega, rfl⟩
  have hback : usizeAdd remaining v = some (remaining + v) :=
    usizeAdd_eq_some.mpr ⟨by omega, rfl⟩
  have hleft : usizeSub (remaining + v) (1 + sizeAll grand) =
      some (remaining + v - (1 + sizeAll grand)) := usizeSub_eq_some.mpr ⟨by omega, rfl⟩
  simp only [generateChildren, hk, hv, hcur, hdraw, hlabel, Option.bind_eq_bind,
    Option.bind_some]
  rw [if_pos ⟨htree.sizes, htree.parents⟩]
  simp only [hsub, hrun, Option.bind_some]
  rw [if_pos ⟨hhigh, hlow⟩]
  simp only [hback, hleft, Option.bind_some]
  rw [Tree.setSize_append_push htree]

end

/-- Below `bound`, `generate` expands what fits soundly. -/
def ExpandsSoundly (ctx : Context) (generate : RuleId → Nat → Tree → R → Option (Nat × Tree × R))
    (bound : Nat) : Prop :=
  ∀ {rid : RuleId} {len : Nat} (tree : Tree) (r : R), ctx.FitsSoundly rid len → len < bound →
    len < 2 ^ 64 → tree.Consistent → 0 < tree.rules.length →
      ∃ n tree' r', generate rid len tree r = some (n, tree', r') ∧ ctx.Grows rid len n

theorem generateChildren_grows (h : ctx.Exact)
    {generate : RuleId → Nat → Tree → R → Option (Nat × Tree × R)} {bound : Nat}
    (hreturns : ctx.ReturnsDerivations generate) (hgen : ctx.ExpandsSoundly generate bound)
    (paren : NodeId) {nts : List NTermId} {needed : Nat} (remaining total : Nat) (tree : Tree)
    (r : R) (hneeded : ctx.minSum nts = some needed) (hnts : nts.length < 2 ^ 31)
    (hbound : remaining + needed ≤ bound) (hmax : remaining + needed < 2 ^ 64)
    (hsound : ∀ rid, DrawnAll ctx (Drawn ctx) nts remaining rid → ctx.SoundId rid)
    (hgrown : ∀ n, GrowsAll ctx (Grows ctx) nts remaining n → total + n < 2 ^ 64)
    (htree : tree.Consistent) :
    ∃ n tree' r', ctx.generateChildren generate paren nts remaining total tree r =
        some (total + n, tree', r') ∧ GrowsAll ctx (Grows ctx) nts remaining n := by
  induction nts generalizing needed remaining total tree r with
  | nil => exact ⟨0, tree, r, rfl, .nil⟩
  | cons nt nts ih =>
      obtain ⟨v, rest, hv, hrest, rfl⟩ := minSum_cons.mp hneeded
      -- the share, a rule that fits it, and the node
      obtain ⟨k, r1, hk, hshare, hlast⟩ := getRandomLen_share remaining hnts r
      obtain ⟨rid, r2, hdraw, hpick⟩ := h.getRandomRuleForNt_picks hv hshare hlast r1
      obtain ⟨rule, needed, hrule, -, hchild, hpos, hlow, hfits⟩ := hpick.spec h
      have hrid : ctx.SoundId rid := hsound rid (.here hpick)
      obtain ⟨rule', hrule', hruleSound⟩ := hrid
      obtain rfl := Option.some.inj (hrule.symm.trans hrule')
      obtain ⟨label, r3, hlabel, -⟩ := ruleOrCustom_spec hrule hruleSound r2
      -- its own nonterminals
      have hbelow : ctx.FitsSoundly rid (k + v - 1) := by
        refine ⟨⟨rule, needed, hrule, hchild, hfits⟩, ⟨rule, hrule, hruleSound⟩, ?_, ?_⟩
        · intro rid' hdrawn
          exact hsound rid' (.under hpick hdrawn)
        · intro n hgrow
          obtain ⟨-, hle⟩ := within_grows h _ (Nat.lt_succ_self _) hrule hchild hgrow
          omega
      obtain ⟨m, tree1, r4, hrun, hgrow⟩ := hgen (tree.push label) r3 hbelow (by omega) (by omega)
        (htree.push label) (by simp [Tree.push])
      obtain ⟨hge, hle⟩ := within_grows h _ (Nat.lt_succ_self _) hrule hchild hgrow
      obtain ⟨-, grand, -, -, rfl, rfl, -⟩ := hreturns hrun (htree.push label) (by simp [Tree.push])
      have hparen : (tree.push label).rules.length - 1 = tree.rules.length := by simp [Tree.push]
      rw [hparen] at hrun
      -- what it leaves to the next ones
      have htotal : usizeAdd total (1 + sizeAll grand) = some (total + (1 + sizeAll grand)) := by
        obtain ⟨n, hall⟩ := exists_growsAll h (exists_grows h _)
          (remaining + v - (1 + sizeAll grand)) hrest (Nat.le_refl _)
        have hlt := hgrown _ (.cons hpick hgrow hall)
        exact usizeAdd_eq_some.mpr ⟨by omega, rfl⟩
      obtain ⟨n, tree', r', hloop, hall⟩ := ih (remaining + v - (1 + sizeAll grand))
        (total + (1 + sizeAll grand)) (tree.append paren [.node label grand]) r4 hrest
        (Nat.lt_of_succ_lt hnts) (by omega) (by omega)
        (fun rid' hdrawn => hsound rid' (.next hpick hgrow hdrawn))
        (fun n hall => by
          have hlt := hgrown _ (.cons hpick hgrow hall)
          omega)
        (htree.append paren _)
      refine ⟨1 + sizeAll grand + n, tree', r', ?_, .cons hpick hgrow hall⟩
      rw [generateChildren_cons hk hv hdraw hlabel htree hrun hshare (by omega) (by omega)
        (by omega), htotal, Option.bind_some, hloop, Nat.add_assoc]

/-- A rule that fits is expanded by the loop over its nonterminals. -/
theorem generateRule_eq {rid : RuleId} {rule : Rule} {len needed : Nat}
    (hrule : ctx.getRule rid = some rule)
    (hneeded : ctx.minSum rule.nonterms = some needed) (hle : needed ≤ len) (hmax : len < 2 ^ 64)
    {tree : Tree} (hne : 0 < tree.rules.length) (depth : Nat) (r : R) :
    ctx.generateRule (depth + 1) rid len tree r =
      ctx.generateChildren (generateRule ctx depth) (tree.rules.length - 1) rule.nonterms
        (len - needed) 1 tree r := by
  have hminimal : ctx.minimalNeededLen rule.nonterms 0 = some needed := by
    rw [minimalNeededLen_eq hneeded (by omega), Nat.zero_add]
  have hparen : usizeSub tree.rules.length 1 = some (tree.rules.length - 1) :=
    usizeSub_eq_some.mpr ⟨hne, rfl⟩
  simp only [generateRule, hrule, hminimal, Option.bind_eq_bind, Option.bind_some]
  rw [if_pos hle]
  simp only [hparen, Option.bind_some]

theorem generateRule_grows (h : ctx.Exact) (depth : Nat) :
    ctx.ExpandsSoundly (generateRule ctx (R := R) depth) depth := by
  induction depth with
  | zero => exact fun _ _ _ hlt => absurd hlt (Nat.not_lt_zero _)
  | succ depth ih =>
      intro rid len tree r hfits hlt hmax htree hne
      obtain ⟨rule, needed, hrule, hneeded, hle⟩ := hfits.fits
      obtain ⟨rule', hrule', hsound⟩ := hfits.sound
      obtain rfl := Option.some.inj (hrule.symm.trans hrule')
      obtain ⟨n, tree', r', hloop, hall⟩ := generateChildren_grows h
        (generateRule_eq_some h depth) ih (tree.rules.length - 1) (len - needed) 1 tree r hneeded
        hsound.length_lt (by omega) (by omega)
        (fun rid' hdrawn => hfits.drawn rid' (.node hrule hneeded hle hdrawn))
        (fun n hall => hfits.grown _ (.node hrule hneeded hle hall)) htree
      refine ⟨1 + n, tree', r', ?_, .node hrule hneeded hle hall⟩
      rw [generateRule_eq hrule hneeded hle hmax hne, hloop]

end Context

end Libaflmm
