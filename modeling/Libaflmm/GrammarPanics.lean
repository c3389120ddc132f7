import Libaflmm.GrammarGenerate

/-!
# Expansions that can panic

A generator of given values can be led to any number of nodes a rule can grow
to, and to any rule that can be drawn, unless it panics before. The values for
a part of the expansion stand in front of those for the rest.
-/

namespace Libaflmm

open RoseTree

/-! ## Expressions -/

section

variable {R : Type} [Rand R] {scr : RegexScript}

theorem RegexScript.getMod_still (h : scr.remaining = 0) (val : Nat) (r : R) :
    scr.getMod val r = (0, r) := dif_pos (.inl h)

theorem RegexScript.getRange_still (h : scr.remaining = 0) {min max n : Nat} {r r' : R}
    (hrange : scr.getRange min max r = some (n, r')) : r' = r := by
  obtain ⟨-, hrange⟩ := Option.ite_none_right_eq_some.mp hrange
  rw [scr.getMod_still h] at hrange
  exact (Prod.mk.inj (Option.some.inj hrange)).2.symm

theorem appendClass_still (h : scr.remaining = 0) {cls : Class} {res res' : List UInt8} {r r' : R}
    (happ : appendClass scr res cls r = some (res', r')) : r' = r := by
  cases cls with
  | unicode ranges =>
      simp only [appendClass, scr.getMod_still h] at happ
      obtain ⟨rng, -, happ⟩ := Option.bind_eq_some_iff.mp happ
      obtain ⟨⟨c, r1⟩, hrange, happ⟩ := Option.bind_eq_some_iff.mp happ
      obtain ⟨chr, -, happ⟩ := Option.bind_eq_some_iff.mp happ
      obtain ⟨-, rfl⟩ := Prod.mk.inj (Option.some.inj happ)
      exact scr.getRange_still h hrange
  | bytes ranges =>
      simp only [appendClass, scr.getMod_still h] at happ
      obtain ⟨rng, -, happ⟩ := Option.bind_eq_some_iff.mp happ
      obtain ⟨-, happ⟩ := Option.ite_none_right_eq_some.mp happ
      obtain ⟨⟨c, r1⟩, hrange, happ⟩ := Option.bind_eq_some_iff.mp happ
      obtain ⟨-, rfl⟩ := Prod.mk.inj (Option.some.inj happ)
      exact scr.getRange_still h hrange

theorem getRepetitions_still (h : scr.remaining = 0) {min : UInt32} {max : Option UInt32}
    {num : Nat} {r r' : R} (hrep : getRepetitions scr min max r = some (num, r')) : r' = r := by
  have hlen : getLength scr r = (0, r) := by
    simp only [getLength, scr.getMod_still h]
  unfold getRepetitions getRepetitionRange at hrep
  simp only [hlen, scr.getMod_still h] at hrep
  split_ifs at hrep
  · exact (Prod.mk.inj (Option.some.inj hrep)).2.symm
  · exact (Prod.mk.inj (Option.some.inj hrep)).2.symm
  · exact (Prod.mk.inj (Option.some.inj hrep)).2.symm
  · cases max with
    | none => exact (Prod.mk.inj (Option.some.inj hrep)).2.symm
    | some max =>
        dsimp only at hrep
        split_ifs at hrep
        · exact (Prod.mk.inj (Option.some.inj hrep)).2.symm
        · exact scr.getRange_still h hrep

/-- A script of no length makes no draws. -/
theorem generateLoop_still (h : scr.remaining = 0) (stack : List Hir) (res : List UInt8) (r : R)
    {out : List UInt8} {r' : R} (hrun : generateLoop scr stack res r = some (out, r')) :
    r' = r := by
  fun_induction generateLoop scr stack res r with
  | case1 => exact (Prod.mk.inj (Option.some.inj hrun)).2.symm
  | case2 stack res r ih => exact ih hrun
  | case3 lit stack res r ih => exact ih hrun
  | case4 cls stack res r res' r1 happ ih => exact (ih hrun).trans (appendClass_still h happ)
  | case5 => cases hrun
  | case6 min max sub stack res r num r1 hnum ih =>
      exact (ih hrun).trans (getRepetitions_still h hnum)
  | case7 => cases hrun
  | case8 sub stack res r ih => exact ih hrun
  | case9 hirs stack res r ih => exact ih hrun
  | case10 hirs stack res r drawn hir hget ih =>
      exact (ih hrun).trans (congrArg Prod.snd (scr.getMod_still h hirs.length r))
  | case11 => cases hrun
  | case12 stack res r ih => exact ih hrun

theorem exists_draws_generateRegex {hir : Hir} (hwf : hir.WellFormed) (hsound : hir.Sound) :
    ∃ pre, ∀ s : Stream' UInt64, ∃ data, generateRegex hir (pre ++ₛ s) = some (data, s) := by
  refine ⟨[0, 0], fun s => ?_⟩
  have hnew : RegexScript.new ([0, 0] ++ₛ s) = (⟨0⟩, s) := rfl
  obtain ⟨⟨data, s'⟩, hrun⟩ := generateRegex_isSome hwf hsound ([0, 0] ++ₛ s)
  have hloop := hrun
  rw [generateRegex, hnew] at hloop
  obtain rfl := generateLoop_still rfl [hir] [] s hloop
  exact ⟨data, hrun⟩

end

/-! ## Shares -/

theorem Rand.exists_between {k n : Nat} (h : k ≤ n) (hn : n < 2 ^ 64) :
    ∃ rand, ∀ s : Stream' UInt64, Rand.between 0 n (Stream'.cons rand s) = some (k, s) := by
  by_cases hmax : n = 2 ^ 64 - 1
  · refine ⟨UInt64.ofNat k, fun s => ?_⟩
    have hk : (UInt64.ofNat k).toNat = k := UInt64.toNat_ofNat_of_lt' (Nat.lt_of_le_of_lt h hn)
    rw [Rand.between, if_pos (Nat.zero_le n), if_pos ⟨hmax, rfl⟩]
    exact congrArg (fun k => some (k, s)) hk
  · obtain ⟨rand, hrand⟩ := Rand.exists_below ⟨n - 0 + 1, Nat.succ_pos _⟩
      (Nat.lt_succ_of_le h) (show n + 1 ≤ 2 ^ 64 by omega)
    refine ⟨rand, fun s => ?_⟩
    rw [Rand.between, if_pos (Nat.zero_le n), if_neg fun hn => hmax hn.1, hrand]
    exact congrArg (fun k => some (k, s)) (Nat.zero_add k)

theorem exists_draws_leastProposal {k total : Nat} (h : k ≤ total) (hmax : total < 2 ^ 64)
    (iters : Nat) :
    ∃ pre, ∀ s : Stream' UInt64, leastProposal total iters k (pre ++ₛ s) = some (k, s) := by
  obtain ⟨rand, hrand⟩ := Rand.exists_between h hmax
  induction iters with
  | zero => exact ⟨[], fun s => rfl⟩
  | succ iters ih =>
      obtain ⟨pre, hpre⟩ := ih
      refine ⟨rand :: pre, fun s => ?_⟩
      rw [Stream'.cons_append_stream, leastProposal, hrand]
      simp only [Option.bind_eq_bind, Option.bind_some, Nat.lt_irrefl, if_false]
      exact hpre s

theorem exists_draws_getRandomLen {k remaining : Nat} (nt : NTermId) {nts : List NTermId}
    (hshare : k ≤ remaining) (hlast : nts = [] → k = remaining) (hmax : remaining < 2 ^ 64)
    (hnts : (nt :: nts).length < 2 ^ 31) :
    ∃ pre, ∀ s : Stream' UInt64,
      getRandomLen remaining (nt :: nts) (pre ++ₛ s) = some (k, s) := by
  cases nts with
  | nil =>
      refine ⟨[], fun s => ?_⟩
      rw [hlast rfl, getRandomLen, simpleGetRandomLen, if_pos hnts]
      rfl
  | cons nt' nts =>
      obtain ⟨rand, hrand⟩ := Rand.exists_between hshare hmax
      obtain ⟨pre, hpre⟩ := exists_draws_leastProposal hshare hmax nts.length
      refine ⟨rand :: pre, fun s => ?_⟩
      have hleast : (if k < remaining then k else remaining) = k := by
        split
        · rfl
        · omega
      rw [getRandomLen, simpleGetRandomLen, if_pos hnts]
      show leastProposal remaining (nts.length + 1) remaining _ = _
      rw [Stream'.cons_append_stream, leastProposal, hrand]
      simp only [Option.bind_eq_bind, Option.bind_some, hleast]
      exact hpre s

namespace Context

variable {ctx : Context}

theorem exists_draws_ruleOrCustom {rid : RuleId} {rule : Rule}
    (hrule : ctx.getRule rid = some rule) (hsound : rule.Sound) :
    ∃ pre, ∀ s : Stream' UInt64, ∃ label, ctx.ruleOrCustom rid (pre ++ₛ s) = some (label, s) := by
  cases rule with
  | plain rule =>
      exact ⟨[], fun s => ⟨.rule rid, by simp only [ruleOrCustom, hrule]; rfl⟩⟩
  | script rule =>
      exact ⟨[], fun s => ⟨.rule rid, by simp only [ruleOrCustom, hrule]; rfl⟩⟩
  | regExp rule =>
      obtain ⟨pre, hpre⟩ := exists_draws_generateRegex rule.wellFormed hsound
      refine ⟨pre, fun s => ?_⟩
      obtain ⟨data, hdata⟩ := hpre s
      exact ⟨.custom rid data, by
        simp only [ruleOrCustom, hrule, hdata, Option.bind_eq_bind, Option.bind_some]⟩

theorem exists_generate_eq_none {rid : RuleId} {rule : Rule} (hrule : ctx.getRule rid = some rule)
    (hunsound : ¬rule.Sound) :
    ∃ s : Stream' UInt64, ∀ label r3, ctx.ruleOrCustom rid s = some (label, r3) →
      ∀ depth len tree, ctx.generateRule depth rid len tree r3 = none := by
  cases rule with
  | plain rule =>
      refine ⟨Stream'.const 0, fun label r3 _ depth len tree => ?_⟩
      exact generateRule_eq_none hrule (Nat.le_of_not_lt hunsound) depth len tree r3
  | script rule =>
      refine ⟨Stream'.const 0, fun label r3 _ depth len tree => ?_⟩
      exact generateRule_eq_none hrule (Nat.le_of_not_lt hunsound) depth len tree r3
  | regExp rule =>
      obtain ⟨s, hs⟩ := exists_generateRegex_eq_none rule.wellFormed hunsound
      refine ⟨s, fun label r3 hlabel => ?_⟩
      simp only [ruleOrCustom, hrule, hs, Option.bind_eq_bind, Option.bind_some,
        Option.bind_none] at hlabel
      cases hlabel

/-! ## Leading an expansion -/

/-- Some draws make the rule grow to `n` nodes. -/
def Leads (ctx : Context) (depth : Nat) (rid : RuleId) (len n : Nat) : Prop :=
  n < 2 ^ 64 ∧ ∃ pre, ∀ (tree : Tree) (s : Stream' UInt64), tree.Consistent →
    0 < tree.rules.length →
      ∃ tree', ctx.generateRule depth rid len tree (pre ++ₛ s) = some (n, tree', s)

def Panics (ctx : Context) (depth : Nat) (rid : RuleId) (len : Nat) : Prop :=
  ∃ s : Stream' UInt64, ∀ tree : Tree, tree.Consistent → 0 < tree.rules.length →
    ctx.generateRule depth rid len tree s = none

def LeadsAll (ctx : Context) (depth : Nat) (nts : List NTermId) (remaining total n : Nat) : Prop :=
  total + n < 2 ^ 64 ∧ ∃ pre, ∀ (paren : NodeId) (tree : Tree) (s : Stream' UInt64),
    tree.Consistent → ∃ tree', ctx.generateChildren (generateRule ctx depth) paren nts remaining
      total tree (pre ++ₛ s) = some (total + n, tree', s)

def PanicsAll (ctx : Context) (depth : Nat) (nts : List NTermId) (remaining total : Nat) : Prop :=
  ∃ s : Stream' UInt64, ∀ (paren : NodeId) (tree : Tree), tree.Consistent →
    ctx.generateChildren (generateRule ctx depth) paren nts remaining total tree s = none

namespace Picks

variable {nt : NTermId} {nts : List NTermId} {remaining v k : Nat} {rid : RuleId} {depth : Nat}

/-- The draws up to the node of the rule. -/
theorem exists_draws (h : ctx.Exact) (hpick : ctx.Picks nt nts remaining v k rid)
    (hrid : ctx.SoundId rid) (hmax : remaining < 2 ^ 64) (hnts : (nt :: nts).length < 2 ^ 31) :
    ∃ pre, ∀ s : Stream' UInt64, ∃ label r1 r2,
      getRandomLen remaining (nt :: nts) (pre ++ₛ s) = some (k, r1) ∧
      ctx.getRandomRuleForNt nt (k + v) r1 = some (rid, r2) ∧
      ctx.ruleOrCustom rid r2 = some (label, s) := by
  obtain ⟨ids, seed, hids, hdrawn⟩ := hpick.drawn
  obtain ⟨rule, hrule, hsound⟩ := hrid
  obtain ⟨share, hk⟩ := exists_draws_getRandomLen nt hpick.share hpick.last hmax hnts
  obtain ⟨draw, hdraw⟩ := h.exists_draws_getRandomRuleForNt hids hdrawn
  obtain ⟨node, hnode⟩ := exists_draws_ruleOrCustom hrule hsound
  refine ⟨share ++ (draw ++ node), fun s => ?_⟩
  obtain ⟨label, hlabel⟩ := hnode s
  refine ⟨label, _, _, ?_, hdraw _, hlabel⟩
  rw [Stream'.append_append_stream, hk, Stream'.append_append_stream]

theorem panicsAll_of_panics (h : ctx.Exact) (hpick : ctx.Picks nt nts remaining v k rid)
    (hrid : ctx.SoundId rid) (hmax : remaining < 2 ^ 64) (hnts : (nt :: nts).length < 2 ^ 31)
    (hpanics : ctx.Panics depth rid (k + v - 1)) (total : Nat) :
    ctx.PanicsAll depth (nt :: nts) remaining total := by
  obtain ⟨pre, hpre⟩ := hpick.exists_draws h hrid hmax hnts
  obtain ⟨s, hs⟩ := hpanics
  obtain ⟨label, r1, r2, hk, hdraw, hlabel⟩ := hpre s
  refine ⟨pre ++ₛ s, fun paren tree htree => ?_⟩
  refine generateChildren_cons_eq_none hk hpick.least hdraw (fun label' r3 hlabel' => ?_)
    paren total
  obtain ⟨rfl, rfl⟩ := Prod.mk.inj (Option.some.inj (hlabel.symm.trans hlabel'))
  exact hs (tree.push label) (htree.push label) (by simp [Tree.push])

/-- A rule that is not sound panics when its node is made, or when its children are counted. -/
theorem panicsAll_of_not_soundId (h : ctx.Exact) (hpick : ctx.Picks nt nts remaining v k rid)
    (hrid : ¬ctx.SoundId rid) (hmax : remaining < 2 ^ 64) (hnts : (nt :: nts).length < 2 ^ 31)
    (total : Nat) : ctx.PanicsAll depth (nt :: nts) remaining total := by
  obtain ⟨ids, seed, hids, hdrawn⟩ := hpick.drawn
  obtain ⟨rule, needed, hrule, -⟩ := hpick.spec h
  obtain ⟨share, hk⟩ := exists_draws_getRandomLen nt hpick.share hpick.last hmax hnts
  obtain ⟨draw, hdraw⟩ := h.exists_draws_getRandomRuleForNt hids hdrawn
  obtain ⟨s, hs⟩ := exists_generate_eq_none hrule fun hsound => hrid ⟨rule, hrule, hsound⟩
  refine ⟨share ++ draw ++ₛ s, fun paren tree htree => ?_⟩
  rw [Stream'.append_append_stream]
  exact generateChildren_cons_eq_none (hk _) hpick.least (hdraw s)
    (fun label r3 hlabel => hs label r3 hlabel depth _ _) paren total

variable {m n : Nat}

/-- What the pick leads to, and what is left to the next nonterminals. -/
theorem exists_draws_cons (h : ctx.Exact) (hpick : ctx.Picks nt nts remaining v k rid)
    (hrid : ctx.SoundId rid) (hmax : remaining + v < 2 ^ 64) (hnts : (nt :: nts).length < 2 ^ 31)
    (hgrow : ctx.Grows rid (k + v - 1) m) (hleads : ctx.Leads depth rid (k + v - 1) m) :
    ∃ pre, ∀ (paren : NodeId) (total : Nat) (tree : Tree) (s : Stream' UInt64), tree.Consistent →
      ∃ tree' : Tree, tree'.Consistent ∧
        ctx.generateChildren (generateRule ctx depth) paren (nt :: nts) remaining total tree
            (pre ++ₛ s) =
          (usizeAdd total m).bind fun total =>
            ctx.generateChildren (generateRule ctx depth) paren nts (remaining + v - m) total
              tree' s := by
  obtain ⟨rule, needed, hrule, -, hchild, hpos, hlow, hfits⟩ := hpick.spec h
  obtain ⟨hge, hle⟩ := within_grows h _ (Nat.lt_succ_self _) hrule hchild hgrow
  obtain ⟨first, hfirst⟩ := hpick.exists_draws h hrid (by omega) hnts
  obtain ⟨-, below, hbelow⟩ := hleads
  refine ⟨first ++ below, fun paren total tree s htree => ?_⟩
  rw [Stream'.append_append_stream]
  obtain ⟨label, r1, r2, hk, hdraw, hlabel⟩ := hfirst (below ++ₛ s)
  have hpush : 0 < (tree.push label).rules.length := by simp [Tree.push]
  have hparen : (tree.push label).rules.length - 1 = tree.rules.length := by simp [Tree.push]
  obtain ⟨tree', hrun⟩ := hbelow (tree.push label) s (htree.push label) hpush
  obtain ⟨-, grand, -, -, rfl, rfl, -⟩ :=
    generateRule_eq_some h depth hrun (htree.push label) hpush
  rw [hparen] at hrun
  refine ⟨tree.append paren [.node label grand], htree.append paren _, ?_⟩
  exact generateChildren_cons hk hpick.least hdraw hlabel htree hrun hpick.share hmax (by omega)
    (by omega) paren total

/-- Either something panics, or the loop goes on with the next nonterminals. -/
theorem panicsAll_or (h : ctx.Exact) (hpick : ctx.Picks nt nts remaining v k rid)
    (hmax : remaining + v < 2 ^ 64) (hnts : (nt :: nts).length < 2 ^ 31)
    (hgrow : ctx.Grows rid (k + v - 1) m)
    (hfirst : ctx.Leads depth rid (k + v - 1) m ∨ ctx.Panics depth rid (k + v - 1)) (total : Nat) :
    ctx.PanicsAll depth (nt :: nts) remaining total ∨
      total + m < 2 ^ 64 ∧ ∃ pre, ∀ (paren : NodeId) (tree : Tree) (s : Stream' UInt64),
        tree.Consistent → ∃ tree' : Tree, tree'.Consistent ∧
          ctx.generateChildren (generateRule ctx depth) paren (nt :: nts) remaining total tree
              (pre ++ₛ s) =
            ctx.generateChildren (generateRule ctx depth) paren nts (remaining + v - m) (total + m)
              tree' s := by
  by_cases hrid : ctx.SoundId rid
  · rcases hfirst with hleads | hpanics
    · obtain ⟨pre, hpre⟩ := hpick.exists_draws_cons h hrid hmax hnts hgrow hleads
      by_cases hover : total + m < 2 ^ 64
      · refine .inr ⟨hover, pre, fun paren tree s htree => ?_⟩
        obtain ⟨tree', htree', hrun⟩ := hpre paren total tree s htree
        exact ⟨tree', htree', by rw [hrun, usizeAdd, if_pos hover, Option.bind_some]⟩
      · refine .inl ⟨pre ++ₛ Stream'.const 0, fun paren tree htree => ?_⟩
        obtain ⟨tree', -, hrun⟩ := hpre paren total tree (Stream'.const 0) htree
        rw [hrun, usizeAdd, if_neg hover, Option.bind_none]
    · exact .inl (hpick.panicsAll_of_panics h hrid (by omega) hnts hpanics total)
  · exact .inl (hpick.panicsAll_of_not_soundId h hrid (by omega) hnts total)

end Picks

/-! ## What an expansion is led to -/

section

variable {depth : Nat} {nts : List NTermId} {remaining needed : Nat}

/-- The nonterminals grow as they can, or something panics. -/
theorem GrowsAll.leadsAll (h : ctx.Exact)
    (hgen : ∀ {rid len n}, len < 2 ^ 64 → ctx.Grows rid len n →
      ctx.Leads depth rid len n ∨ ctx.Panics depth rid len)
    {n : Nat} (hall : GrowsAll ctx (Grows ctx) nts remaining n)
    (hneeded : ctx.minSum nts = some needed) (hmax : remaining + needed < 2 ^ 64)
    (hnts : nts.length < 2 ^ 31) {total : Nat} (htotal : total < 2 ^ 64) :
    ctx.LeadsAll depth nts remaining total n ∨ ctx.PanicsAll depth nts remaining total := by
  induction hall generalizing needed total with
  | nil => exact .inl ⟨htotal, [], fun _ tree _ _ => ⟨tree, rfl⟩⟩
  | @cons nt nts remaining v k rid m n hpick hgrow hrest ih =>
      obtain ⟨v', rest, hv, hsum, rfl⟩ := minSum_cons.mp hneeded
      obtain rfl := Option.some.inj (hpick.least.symm.trans hv)
      have hshare := hpick.share
      rcases hpick.panicsAll_or h (by omega) hnts hgrow (hgen (by omega) hgrow) total with
        hpanics | ⟨hadd, pre, hpre⟩
      · exact .inr hpanics
      · rcases ih hsum (by omega) (Nat.lt_of_succ_lt hnts) hadd with
          ⟨hlt, post, hpost⟩ | ⟨s, hs⟩
        · refine .inl ⟨Nat.add_assoc total m n ▸ hlt, pre ++ post, fun paren tree s htree => ?_⟩
          obtain ⟨tree1, htree1, hrun⟩ := hpre paren tree (post ++ₛ s) htree
          obtain ⟨tree', hloop⟩ := hpost paren tree1 s htree1
          exact ⟨tree', by rw [Stream'.append_append_stream, hrun, hloop, Nat.add_assoc]⟩
        · refine .inr ⟨pre ++ₛ s, fun paren tree htree => ?_⟩
          obtain ⟨tree1, htree1, hrun⟩ := hpre paren tree s htree
          rw [hrun, hs paren tree1 htree1]

theorem DrawnAll.panicsAll (h : ctx.Exact) {rid' : RuleId} (hrid' : ¬ctx.SoundId rid')
    (hgen : ∀ {rid len n}, len < 2 ^ 64 → ctx.Grows rid len n →
      ctx.Leads depth rid len n ∨ ctx.Panics depth rid len)
    (hdrawn : ∀ {rid len}, len < 2 ^ 64 → ctx.Drawn rid len rid' → ctx.Panics depth rid len)
    (hall : DrawnAll ctx (Drawn ctx) nts remaining rid')
    (hneeded : ctx.minSum nts = some needed) (hmax : remaining + needed < 2 ^ 64)
    (hnts : nts.length < 2 ^ 31) (total : Nat) : ctx.PanicsAll depth nts remaining total := by
  induction hall generalizing needed total with
  | here hpick =>
      exact hpick.panicsAll_of_not_soundId h hrid' (by omega) hnts total
  | @under nt nts remaining v k rid rid' hpick hbelow =>
      obtain ⟨v', rest, hv, hsum, rfl⟩ := minSum_cons.mp hneeded
      obtain rfl := Option.some.inj (hpick.least.symm.trans hv)
      have hshare := hpick.share
      by_cases hrid : ctx.SoundId rid
      · exact hpick.panicsAll_of_panics h hrid (by omega) hnts (hdrawn (by omega) hbelow) total
      · exact hpick.panicsAll_of_not_soundId h hrid (by omega) hnts total
  | @next nt nts remaining v k rid rid' m hpick hgrow hrest ih =>
      obtain ⟨v', rest, hv, hsum, rfl⟩ := minSum_cons.mp hneeded
      obtain rfl := Option.some.inj (hpick.least.symm.trans hv)
      have hshare := hpick.share
      rcases hpick.panicsAll_or h (by omega) hnts hgrow (hgen (by omega) hgrow) total with
        hpanics | ⟨-, pre, hpre⟩
      · exact hpanics
      · obtain ⟨s, hs⟩ := ih hrid' hdrawn hsum (by omega) (Nat.lt_of_succ_lt hnts) (total + m)
        refine ⟨pre ++ₛ s, fun paren tree htree => ?_⟩
        obtain ⟨tree1, htree1, hrun⟩ := hpre paren tree s htree
        rw [hrun, hs paren tree1 htree1]

end

section

variable {rid : RuleId} {rule : Rule} {len needed : Nat}

theorem PanicsAll.panics {depth : Nat} (hrule : ctx.getRule rid = some rule)
    (hneeded : ctx.minSum rule.nonterms = some needed) (hle : needed ≤ len) (hmax : len < 2 ^ 64)
    (hall : ctx.PanicsAll depth rule.nonterms (len - needed) 1) :
    ctx.Panics (depth + 1) rid len := by
  obtain ⟨s, hs⟩ := hall
  refine ⟨s, fun tree htree hne => ?_⟩
  rw [generateRule_eq hrule hneeded hle hmax hne, hs _ tree htree]

theorem panics_of_many (hrule : ctx.getRule rid = some rule)
    (hmany : ¬rule.nonterms.length < 2 ^ 31) (depth len : Nat) : ctx.Panics depth rid len :=
  ⟨Stream'.const 0, fun tree _ _ =>
    generateRule_eq_none hrule (Nat.le_of_not_lt hmany) depth len tree _⟩

theorem Grows.leads (h : ctx.Exact) (depth : Nat) {n : Nat} (hmax : len < 2 ^ 64)
    (hgrow : ctx.Grows rid len n) : ctx.Leads depth rid len n ∨ ctx.Panics depth rid len := by
  induction depth generalizing rid len n with
  | zero => exact .inr ⟨Stream'.const 0, fun _ _ _ => rfl⟩
  | succ depth ih =>
      cases hgrow with
      | @node rid rule len needed n hrule hneeded hle hall =>
          by_cases hnts : rule.nonterms.length < 2 ^ 31
          · have hone : 1 < 2 ^ 64 := by decide
            rcases hall.leadsAll h ih hneeded (by omega) hnts hone with
              ⟨hlt, pre, hpre⟩ | hpanics
            · refine .inl ⟨hlt, pre, fun tree s htree hne => ?_⟩
              rw [generateRule_eq hrule hneeded hle hmax hne]
              exact hpre _ tree s htree
            · exact .inr (hpanics.panics hrule hneeded hle hmax)
          · exact .inr (panics_of_many hrule hnts (depth + 1) len)

theorem Drawn.panics (h : ctx.Exact) {depth : Nat} {rid' : RuleId} (hrid' : ¬ctx.SoundId rid')
    (hmax : len < 2 ^ 64) (hdrawn : ctx.Drawn rid len rid') : ctx.Panics depth rid len := by
  induction depth generalizing rid len with
  | zero => exact ⟨Stream'.const 0, fun _ _ _ => rfl⟩
  | succ depth ih =>
      cases hdrawn with
      | @node rid rule len needed _ hrule hneeded hle hall =>
          by_cases hnts : rule.nonterms.length < 2 ^ 31
          · exact (hall.panicsAll h hrid' (Grows.leads h depth) ih hneeded (by omega) hnts 1).panics
              hrule hneeded hle hmax
          · exact panics_of_many hrule hnts (depth + 1) len

end

/-! ## Whole trees -/

section

variable {rid : RuleId} {maxLen : Nat}

theorem FitsSoundly.generateFromRule (h : ctx.Exact) (hfits : ctx.FitsSoundly rid maxLen)
    (hmax : maxLen < 2 ^ 64) {R : Type} [Rand R] (tree : Tree) (r : R) :
    ∃ out, tree.generateFromRule ctx (maxLen + 1) rid maxLen r = some out := by
  obtain ⟨rule, hrule, hsound⟩ := hfits.sound
  by_cases hkind : ∀ re, rule ≠ .regExp re
  · obtain ⟨n, tree', r', hrun, -⟩ := generateRule_grows h (maxLen + 1)
      (Tree.truncate.push (.rule rid)) r hfits (Nat.lt_succ_self _) hmax ⟨rfl, rfl⟩
      (by simp [Tree.push])
    rw [generateFromRule_eq hrule hkind, hrun]
    exact ⟨_, rfl⟩
  · push Not at hkind
    obtain ⟨re, rfl⟩ := hkind
    obtain ⟨⟨data, r'⟩, hdata⟩ := generateRegex_isSome re.wellFormed hsound r
    simp only [Tree.generateFromRule, hrule, hdata, Option.bind_eq_bind, Option.bind_some]
    exact ⟨_, rfl⟩

theorem FitsSoundly.exists_draws (h : ctx.Exact) (hfits : ctx.FitsSoundly rid maxLen)
    (hmax : maxLen < 2 ^ 64) :
    ∃ pre, ∀ (tree : Tree) (s : Stream' UInt64), ∃ tree',
      tree.generateFromRule ctx (maxLen + 1) rid maxLen (pre ++ₛ s) = some (tree', s) := by
  obtain ⟨rule, hrule, hsound⟩ := hfits.sound
  by_cases hkind : ∀ re, rule ≠ .regExp re
  · obtain ⟨rule', needed, hrule', hneeded, hle⟩ := hfits.fits
    obtain ⟨n, hgrow⟩ := exists_grows h _ (Nat.lt_succ_self maxLen) hrule' hneeded hle
    rcases hgrow.leads h (maxLen + 1) hmax with ⟨-, pre, hpre⟩ | ⟨s, hs⟩
    · refine ⟨pre, fun tree s => ?_⟩
      obtain ⟨tree', hrun⟩ := hpre (Tree.truncate.push (.rule rid)) s ⟨rfl, rfl⟩
        (by simp [Tree.push])
      rw [generateFromRule_eq hrule hkind, hrun]
      exact ⟨_, rfl⟩
    · obtain ⟨n, tree', r', hrun, -⟩ := generateRule_grows h (maxLen + 1)
        (Tree.truncate.push (.rule rid)) s hfits (Nat.lt_succ_self _) hmax ⟨rfl, rfl⟩
        (by simp [Tree.push])
      rw [hs _ ⟨rfl, rfl⟩ (by simp [Tree.push])] at hrun
      cases hrun
  · push Not at hkind
    obtain ⟨re, rfl⟩ := hkind
    obtain ⟨pre, hpre⟩ := exists_draws_generateRegex re.wellFormed hsound
    refine ⟨pre, fun tree s => ?_⟩
    obtain ⟨data, hdata⟩ := hpre s
    simp only [Tree.generateFromRule, hrule, hdata, Option.bind_eq_bind, Option.bind_some]
    exact ⟨_, rfl⟩

/-- An expression is generated without the loop. -/
theorem fitsSoundly_regExp {re : RegExpRule} (hrule : ctx.getRule rid = some (.regExp re))
    (hsound : re.hir.Sound) (len : Nat) : ctx.FitsSoundly rid len := by
  have hnil : ∀ {rule}, ctx.getRule rid = some rule → rule.nonterms = [] := fun hrule' => by
    obtain rfl := Option.some.inj (hrule.symm.trans hrule')
    rfl
  refine ⟨⟨_, 0, hrule, rfl, Nat.zero_le _⟩, ⟨_, hrule, hsound⟩, fun rid' hdrawn => ?_,
    fun n hgrow => ?_⟩
  · cases hdrawn with
    | node hrule' _ _ hall =>
        rw [hnil hrule'] at hall
        cases hall
  · cases hgrow with
    | node hrule' _ _ hall =>
        rw [hnil hrule'] at hall
        cases hall
        decide

theorem exists_panics (h : ctx.Exact) {rule : Rule} (hrule : ctx.getRule rid = some rule)
    (hmax : maxLen < 2 ^ 64) (hsound : ctx.SoundId rid) (hfits : ¬ctx.FitsSoundly rid maxLen)
    (depth : Nat) : ctx.Panics depth rid maxLen := by
  obtain ⟨m, v, -, -, hsum, -, -⟩ := h.size_of_rule hrule
  have hlt : m < 2 ^ 64 := addMinSizes_lt (by decide) hsum
  obtain ⟨needed, hneeded, rfl⟩ := minSum_of_addMinSizes hsum
  by_cases hle : needed ≤ maxLen
  · by_cases hdrawn : ∀ rid', ctx.Drawn rid maxLen rid' → ctx.SoundId rid'
    · by_cases hgrown : ∀ n, ctx.Grows rid maxLen n → n < 2 ^ 64
      · exact absurd ⟨⟨rule, needed, hrule, hneeded, hle⟩, hsound, hdrawn, hgrown⟩ hfits
      · push Not at hgrown
        obtain ⟨n, hgrow, hover⟩ := hgrown
        rcases hgrow.leads h depth hmax with ⟨hn, -⟩ | hpanics
        · exact absurd hn (Nat.not_lt_of_le hover)
        · exact hpanics
    · push Not at hdrawn
      obtain ⟨rid', hdrawn, hunsound⟩ := hdrawn
      exact hdrawn.panics h hunsound hmax
  · have hminimal : ctx.minimalNeededLen rule.nonterms 0 = some needed := by
      rw [minimalNeededLen_eq hneeded (by omega), Nat.zero_add]
    refine ⟨Stream'.const 0, fun tree _ _ => ?_⟩
    cases depth with
    | zero => rfl
    | succ depth =>
        simp only [generateRule, hrule, hminimal, Option.bind_eq_bind, Option.bind_some]
        exact if_neg hle

theorem exists_generateFromRule_eq_none (h : ctx.Exact) {rule : Rule}
    (hrule : ctx.getRule rid = some rule) (hmax : maxLen < 2 ^ 64)
    (hfits : ¬ctx.FitsSoundly rid maxLen) (depth : Nat) :
    ∃ s : Stream' UInt64, ∀ tree : Tree,
      tree.generateFromRule ctx depth rid maxLen s = none := by
  by_cases hkind : ∀ re, rule ≠ .regExp re
  · have hpanics : ctx.Panics depth rid maxLen := by
      by_cases hsound : ctx.SoundId rid
      · exact exists_panics h hrule hmax hsound hfits depth
      · have hmany : ¬rule.nonterms.length < 2 ^ 31 := by
          intro hlt
          refine hsound ⟨rule, hrule, ?_⟩
          cases rule with
          | plain rule => exact hlt
          | script rule => exact hlt
          | regExp re => exact absurd rfl (hkind re)
        exact panics_of_many hrule hmany depth maxLen
    obtain ⟨s, hs⟩ := hpanics
    refine ⟨s, fun tree => ?_⟩
    rw [generateFromRule_eq hrule hkind, hs _ ⟨rfl, rfl⟩ (by simp [Tree.push]), Option.map_none]
  · push Not at hkind
    obtain ⟨re, rfl⟩ := hkind
    obtain ⟨s, hs⟩ := exists_generateRegex_eq_none re.wellFormed fun hsound =>
      hfits (fitsSoundly_regExp hrule hsound maxLen)
    exact ⟨s, fun tree => generateFromRule_eq_none hrule hs depth maxLen tree⟩

end

end Context

end Libaflmm
