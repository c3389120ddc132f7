import Libaflmm.GrammarSizes
import Libaflmm.GrammarTree
import Libaflmm.RegexMutatorSafe

/-!
# The rules that are drawn

A rule for a nonterminal is drawn among the first of its rules, which are those
that fit the length. Which of them it is depends on the seed of the draw alone,
so that the rules that can come are known beforehand.

A rule is sound if its expression is, and if its children are few enough for
the type they are counted in.
-/

namespace Libaflmm

/-! ## Sound rules -/

def Rule.Sound : Rule → Prop
  | .plain rule => rule.nonterms.length < 2 ^ 31
  | .script rule => rule.nonterms.length < 2 ^ 31
  | .regExp rule => rule.hir.Sound

theorem Rule.Sound.length_lt {rule : Rule} (h : rule.Sound) : rule.nonterms.length < 2 ^ 31 := by
  cases rule with
  | plain rule => exact h
  | script rule => exact h
  | regExp rule => exact (by decide : 0 < 2 ^ 31)

namespace Context

def fitting (ctx : Context) (ids : List RuleId) (len : Nat) : List RuleId :=
  ids.takeWhile fun rid => ctx.ruleSize rid ≤ len

/-- Every rule that a seed can pick, for a nonterminal and a length it can be
derived in, is sound. -/
def DrawsSound (ctx : Context) : Prop :=
  ∀ nt v len ids, ctx.getMinLenForNt nt = some v → v ≤ len → len < 2 ^ 64 →
    ctx.ntsToRules.lookup nt = some ids → ∀ seed rid,
      (Rand.chooseIter (ctx.fitting ids len) (RomuDuoJrRand.withSeed seed)).1 = some rid →
        ∃ rule, ctx.getRule rid = some rule ∧ rule.Sound

/-! ## The exact tables -/

namespace Exact

variable {ctx : Context} (h : ctx.Exact)

include h

theorem size_of_rule {rid : RuleId} {rule : Rule} (hrule : ctx.getRule rid = some rule) :
    ∃ m v, ctx.rulesToMinSize.lookup rid = some m ∧ ctx.ruleSize rid = m ∧
      addMinSizes ctx.ntsToMinSize rule.nonterms 1 = some (some m) ∧
        ctx.getMinLenForNt rule.nonterm = some v ∧ v ≤ m := by
  obtain ⟨hlt, -⟩ := List.getElem?_eq_some_iff.mp hrule
  obtain ⟨rule', m, v, hrule', hm, hsum, hv, hle⟩ := h.settled rid hlt
  obtain rfl := Option.some.inj (hrule.symm.trans hrule')
  exact ⟨m, v, hm, by rw [ruleSize, hm, Option.getD_some], hsum, hv, hle⟩

/-- A nonterminal with a least size has rules, the first of which fits it. -/
theorem fitting_ne_nil {nt : NTermId} {v len : Nat} (hv : ctx.getMinLenForNt nt = some v)
    (hlen : v ≤ len) :
    ∃ ids, ctx.ntsToRules.lookup nt = some ids ∧ ctx.fitting ids len ≠ [] := by
  obtain ⟨rid, rule, m, hrule, rfl, hsum, hle⟩ := h.attained nt v hv
  obtain ⟨ids, hids, hmem⟩ := h.listed.mem rid rule hrule
  obtain ⟨m', _, -, hsize, hsum', -, -⟩ := h.size_of_rule hrule
  obtain rfl := Option.some.inj (Option.some.inj (hsum.symm.trans hsum'))
  refine ⟨ids, hids, ?_⟩
  have hsorted := h.sorted _ ids hids
  cases ids with
  | nil => cases hmem
  | cons first rest =>
      have hfirst : ctx.ruleSize first ≤ ctx.ruleSize rid := by
        rcases List.mem_cons.mp hmem with rfl | hrest
        · exact Nat.le_refl _
        · exact List.rel_of_pairwise_cons hsorted hrest
      have hfits : ctx.ruleSize first ≤ len := by omega
      simp [fitting, hfits]

theorem one_le {nt : NTermId} {v : Nat} (hv : ctx.getMinLenForNt nt = some v) : 1 ≤ v := by
  obtain ⟨rid, rule, m, hrule, rfl, hsum, hle⟩ := h.attained nt v hv
  exact (le_addMinSizes hsum).trans hle

theorem minLen_lt {nt : NTermId} {v : Nat} (hv : ctx.getMinLenForNt nt = some v) :
    v < 2 ^ 64 := by
  obtain ⟨rid, rule, m, hrule, rfl, hsum, -⟩ := h.attained nt v hv
  obtain ⟨m', v', -, -, hsum', hv', hle⟩ := h.size_of_rule hrule
  obtain rfl := Option.some.inj (Option.some.inj (hsum.symm.trans hsum'))
  obtain rfl := Option.some.inj (hv.symm.trans hv')
  exact Nat.lt_of_le_of_lt hle (addMinSizes_lt (by decide) hsum)

end Exact

end Context

/-! ## The draws that are made -/

namespace Rand

def skip {R : Type} [Rand R] : Nat → R → R
  | 0, r => r
  | n + 1, r => skip n (next r).2

theorem skip_replicate (n : Nat) (s : Stream' UInt64) :
    skip n (List.replicate n 0 ++ₛ s) = s := by
  induction n with
  | zero => rfl
  | succ n ih => exact ih

end Rand

namespace Context

variable {ctx : Context}

/-- All rules that fit are kept. A draw is made for those with one option. -/
theorem getApplicableRules_eq {ids : List RuleId} (len : Nat)
    (hsizes : ∀ rid ∈ ids, ∃ m, ctx.rulesToMinSize.lookup rid = some m)
    (hoptions : ∀ rid ∈ ids, ∃ n, ctx.rulesToNumOptions.lookup rid = some n) :
    ∃ n, ∀ {R : Type} [Rand R] (r : R),
      ctx.getApplicableRules len 100 ids r = some (ctx.fitting ids len, Rand.skip n r) := by
  induction ids with
  | nil => exact ⟨0, fun r => rfl⟩
  | cons rid ids ih =>
      obtain ⟨⟨m, hm⟩, hsizes⟩ := List.forall_mem_cons.mp hsizes
      obtain ⟨⟨options, hopt⟩, hoptions⟩ := List.forall_mem_cons.mp hoptions
      obtain ⟨n, hn⟩ := ih hsizes hoptions
      have hsize : ctx.ruleSize rid = m := by rw [ruleSize, hm, Option.getD_some]
      by_cases hfits : m ≤ len
      · have hfitting : ctx.fitting (rid :: ids) len = rid :: ctx.fitting ids len := by
          simp [fitting, hsize, hfits]
        by_cases hmany : 1 < options
        · refine ⟨n, fun r => ?_⟩
          simp [getApplicableRules, hm, hfits, hopt, hmany, hn, hfitting]
        · refine ⟨n + 1, fun r => ?_⟩
          have hpercent : (Rand.below ⟨100, by decide⟩ r).1 ≤ 100 :=
            Nat.le_of_lt (Rand.below_lt _ r)
          simp only [getApplicableRules, hm, hfits, hopt, hmany, hn, hfitting, hpercent,
            Option.bind_eq_bind, Option.bind_some, if_true, if_false, decide_true]
          rfl
      · refine ⟨0, fun r => ?_⟩
        have hfitting : ctx.fitting (rid :: ids) len = [] := by
          simp [fitting, hsize, hfits]
        simp only [getApplicableRules, hm, hfits, hfitting, Option.bind_eq_bind, Option.bind_some,
          if_false]
        rfl

theorem Exact.getRandomRuleForNt_eq (h : ctx.Exact) {nt : NTermId} {ids : List RuleId} {len : Nat}
    (hids : ctx.ntsToRules.lookup nt = some ids) (hne : ctx.fitting ids len ≠ []) :
    ∃ n, ∀ {R : Type} [Rand R] (r : R), ∃ rid,
      (Rand.chooseIter (ctx.fitting ids len) (RomuDuoJrRand.withSeed (Rand.next r).1)).1 =
        some rid ∧
      ctx.getRandomRuleForNt nt len r = some (rid, Rand.skip n (Rand.next r).2) := by
  have hlt : ∀ rid ∈ ids, rid < ctx.rules.length := by
    intro rid hmem
    obtain ⟨rule, hrule, -⟩ := h.listed.derives nt ids rid hids hmem
    exact (List.getElem?_eq_some_iff.mp hrule).1
  have hsizes : ∀ rid ∈ ids, ∃ m, ctx.rulesToMinSize.lookup rid = some m := by
    intro rid hmem
    obtain ⟨_, m, _, _, hm, _⟩ := h.settled rid (hlt rid hmem)
    exact ⟨m, hm⟩
  have hoptions : ∀ rid ∈ ids, ∃ n, ctx.rulesToNumOptions.lookup rid = some n :=
    fun rid hmem => Option.isSome_iff_exists.mp (h.options rid (hlt rid hmem))
  obtain ⟨n, hn⟩ := getApplicableRules_eq len hsizes hoptions
  refine ⟨n, fun r => ?_⟩
  obtain ⟨rid, hrid⟩ := Option.isSome_iff_exists.mp
    (Rand.chooseIter_isSome hne (RomuDuoJrRand.withSeed (Rand.next r).1))
  refine ⟨rid, hrid, ?_⟩
  simp only [getRandomRuleForNt, chooseApplicableRule, hids, hn, hrid, Option.bind_eq_bind,
    Option.bind_some]

/-- Any seed can come, with any draws after those for the rule. -/
theorem Exact.exists_draws_getRandomRuleForNt (h : ctx.Exact) {nt : NTermId} {ids : List RuleId}
    {len : Nat} (hids : ctx.ntsToRules.lookup nt = some ids) {seed : UInt64} {rid : RuleId}
    (hrid : (Rand.chooseIter (ctx.fitting ids len) (RomuDuoJrRand.withSeed seed)).1 = some rid) :
    ∃ pre, ∀ s : Stream' UInt64, ctx.getRandomRuleForNt nt len (pre ++ₛ s) = some (rid, s) := by
  have hne : ctx.fitting ids len ≠ [] := List.ne_nil_of_mem (Rand.chooseIter_mem hrid)
  obtain ⟨n, hn⟩ := h.getRandomRuleForNt_eq hids hne
  refine ⟨seed :: List.replicate n 0, fun s => ?_⟩
  obtain ⟨rid', hrid', hdraw⟩ := hn (seed :: List.replicate n 0 ++ₛ s)
  obtain rfl := Option.some.inj (hrid.symm.trans hrid')
  rw [hdraw]
  exact congrArg (fun s => some (rid, s)) (Rand.skip_replicate n s)

theorem Exact.exists_getRandomRuleForNt (h : ctx.Exact) {nt : NTermId} {ids : List RuleId}
    {len : Nat} (hids : ctx.ntsToRules.lookup nt = some ids) {seed : UInt64} {rid : RuleId}
    (hrid : (Rand.chooseIter (ctx.fitting ids len) (RomuDuoJrRand.withSeed seed)).1 = some rid)
    (s : Stream' UInt64) :
    ∃ r : Stream' UInt64, ctx.getRandomRuleForNt nt len r = some (rid, s) := by
  obtain ⟨pre, hpre⟩ := h.exists_draws_getRandomRuleForNt hids hrid
  exact ⟨pre ++ₛ s, hpre s⟩

/-- What a drawn rule is known to be. -/
theorem Exact.getRandomRuleForNt_spec (h : ctx.Exact) (hdraws : ctx.DrawsSound) {nt : NTermId}
    {v len : Nat} (hv : ctx.getMinLenForNt nt = some v) (hlen : v ≤ len) (hmax : len < 2 ^ 64)
    {R : Type} [Rand R] (r : R) :
    ∃ rid rule m r', ctx.getRandomRuleForNt nt len r = some (rid, r') ∧
      ctx.getRule rid = some rule ∧ rule.nonterm = nt ∧ rule.Sound ∧
        addMinSizes ctx.ntsToMinSize rule.nonterms 1 = some (some m) ∧ v ≤ m ∧ m ≤ len := by
  obtain ⟨ids, hids, hne⟩ := h.fitting_ne_nil hv hlen
  obtain ⟨n, hn⟩ := h.getRandomRuleForNt_eq hids hne
  obtain ⟨rid, hrid, hdraw⟩ := hn r
  obtain ⟨rule, hrule, hsound⟩ := hdraws nt v len ids hv hlen hmax hids _ rid hrid
  have hmem := Rand.chooseIter_mem hrid
  obtain ⟨rule', hrule', hnt⟩ :=
    h.listed.derives nt ids rid hids (List.takeWhile_subset _ hmem)
  obtain rfl := Option.some.inj (hrule.symm.trans hrule')
  obtain ⟨m, u, -, hsize, hsum, hu, hle⟩ := h.size_of_rule hrule
  have hfits : ctx.ruleSize rid ≤ len := by simpa using List.mem_takeWhile_imp hmem
  subst hnt
  obtain rfl := Option.some.inj (hu.symm.trans hv)
  exact ⟨rid, rule, m, _, hdraw, hrule, rfl, hsound, hsum, hle, hsize ▸ hfits⟩

end Context

end Libaflmm
