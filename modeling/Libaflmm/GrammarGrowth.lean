import Libaflmm.GrammarReturns

/-!
# What a rule can grow to

A rule is expanded within a length. Each of its nonterminals is given a share
of what the least sizes leave: up to all of it, and the last one whatever is
still there. A rule that fits is picked by a seed, and what it does not use is
left to the next nonterminals.

The relations say how many nodes this can come to, and which rules can be drawn
on the way. They know of no generator: the seeds and shares are those that some
draws lead to.
-/

namespace Libaflmm

namespace Context

/-- A nonterminal in front of `nts` can be given `k` besides its least size `v`, and
the rule be picked for it. -/
structure Picks (ctx : Context) (nt : NTermId) (nts : List NTermId) (remaining v k : Nat)
    (rid : RuleId) : Prop where
  least : ctx.getMinLenForNt nt = some v
  share : k ≤ remaining
  last : nts = [] → k = remaining
  drawn : ∃ ids seed, ctx.ntsToRules.lookup nt = some ids ∧
    (Rand.chooseIter (ctx.fitting ids (k + v)) (RomuDuoJrRand.withSeed seed)).1 = some rid

inductive GrowsAll (ctx : Context) (grows : RuleId → Nat → Nat → Prop) :
    List NTermId → Nat → Nat → Prop
  | nil {remaining : Nat} : GrowsAll ctx grows [] remaining 0
  | cons {nt : NTermId} {nts : List NTermId} {remaining v k : Nat} {rid : RuleId} {m n : Nat} :
      ctx.Picks nt nts remaining v k rid → grows rid (k + v - 1) m →
      GrowsAll ctx grows nts (remaining + v - m) n →
      GrowsAll ctx grows (nt :: nts) remaining (m + n)

/-- The rule can be expanded to `n` nodes within the length. -/
inductive Grows (ctx : Context) : RuleId → Nat → Nat → Prop
  | node {rid : RuleId} {rule : Rule} {len needed n : Nat} :
      ctx.getRule rid = some rule → ctx.minSum rule.nonterms = some needed → needed ≤ len →
      GrowsAll ctx (Grows ctx) rule.nonterms (len - needed) n → Grows ctx rid len (1 + n)

inductive DrawnAll (ctx : Context) (drawn : RuleId → Nat → RuleId → Prop) :
    List NTermId → Nat → RuleId → Prop
  | here {nt : NTermId} {nts : List NTermId} {remaining v k : Nat} {rid : RuleId} :
      ctx.Picks nt nts remaining v k rid → DrawnAll ctx drawn (nt :: nts) remaining rid
  | under {nt : NTermId} {nts : List NTermId} {remaining v k : Nat} {rid rid' : RuleId} :
      ctx.Picks nt nts remaining v k rid → drawn rid (k + v - 1) rid' →
      DrawnAll ctx drawn (nt :: nts) remaining rid'
  | next {nt : NTermId} {nts : List NTermId} {remaining v k : Nat} {rid rid' : RuleId} {m : Nat} :
      ctx.Picks nt nts remaining v k rid → ctx.Grows rid (k + v - 1) m →
      DrawnAll ctx drawn nts (remaining + v - m) rid' →
      DrawnAll ctx drawn (nt :: nts) remaining rid'

/-- The second rule can be drawn while the first one is expanded within the length. -/
inductive Drawn (ctx : Context) : RuleId → Nat → RuleId → Prop
  | node {rid : RuleId} {rule : Rule} {len needed : Nat} {rid' : RuleId} :
      ctx.getRule rid = some rule → ctx.minSum rule.nonterms = some needed → needed ≤ len →
      DrawnAll ctx (Drawn ctx) rule.nonterms (len - needed) rid' → Drawn ctx rid len rid'

def SoundId (ctx : Context) (rid : RuleId) : Prop :=
  ∃ rule, ctx.getRule rid = some rule ∧ rule.Sound

/-- The least sizes of its nonterminals fit the length, and what can be drawn is sound. The
number of nodes does not overflow. -/
structure FitsSoundly (ctx : Context) (rid : RuleId) (len : Nat) : Prop where
  fits : ∃ rule needed, ctx.getRule rid = some rule ∧ ctx.minSum rule.nonterms = some needed ∧
    needed ≤ len
  sound : ctx.SoundId rid
  drawn : ∀ rid', ctx.Drawn rid len rid' → ctx.SoundId rid'
  grown : ∀ n, ctx.Grows rid len n → n < 2 ^ 64

/-! ## Bounds -/

variable {ctx : Context}

theorem Picks.spec (h : ctx.Exact) {nt : NTermId} {nts : List NTermId} {remaining v k : Nat}
    {rid : RuleId} (hpick : ctx.Picks nt nts remaining v k rid) :
    ∃ rule needed, ctx.getRule rid = some rule ∧ rule.nonterm = nt ∧
      ctx.minSum rule.nonterms = some needed ∧ 1 ≤ v ∧ v ≤ 1 + needed ∧ needed ≤ k + v - 1 := by
  obtain ⟨ids, seed, hids, hrid⟩ := hpick.drawn
  have hmem := Rand.chooseIter_mem hrid
  obtain ⟨rule, hrule, rfl⟩ := h.listed.derives nt ids rid hids (List.takeWhile_subset _ hmem)
  obtain ⟨m, v', -, hsize, hsum, hv, hle⟩ := h.size_of_rule hrule
  obtain rfl := Option.some.inj (hpick.least.symm.trans hv)
  obtain ⟨needed, hneeded, rfl⟩ := minSum_of_addMinSizes hsum
  have hfits : ctx.ruleSize rid ≤ k + v := by simpa using List.mem_takeWhile_imp hmem
  exact ⟨rule, needed, hrule, rfl, hneeded, h.one_le hv, hle, by omega⟩

/-- Below `bound`, what `grows` comes to takes at least the least sizes. -/
def Within (ctx : Context) (grows : RuleId → Nat → Nat → Prop) (bound : Nat) : Prop :=
  ∀ {rid : RuleId} {rule : Rule} {len needed n : Nat}, len < bound →
    ctx.getRule rid = some rule → ctx.minSum rule.nonterms = some needed → grows rid len n →
      1 + needed ≤ n ∧ n ≤ len + 1

theorem GrowsAll.bounds (h : ctx.Exact) {grows : RuleId → Nat → Nat → Prop} {bound : Nat}
    (hgrows : ctx.Within grows bound) {nts : List NTermId} {remaining needed n : Nat}
    (hall : GrowsAll ctx grows nts remaining n) (hneeded : ctx.minSum nts = some needed)
    (hbound : remaining + needed ≤ bound) : needed ≤ n ∧ n ≤ remaining + needed := by
  induction hall generalizing needed with
  | nil =>
      obtain rfl : 0 = needed := by simpa [minSum] using hneeded
      exact ⟨Nat.le_refl 0, Nat.zero_le _⟩
  | @cons nt nts remaining v k rid m n hpick hgrow hrest ih =>
      obtain ⟨v', rest, hv, hsum, rfl⟩ := minSum_cons.mp hneeded
      obtain rfl := Option.some.inj (hpick.least.symm.trans hv)
      obtain ⟨rule, needed, hrule, -, hchild, hpos, hlow, hhigh⟩ := hpick.spec h
      have hshare := hpick.share
      obtain ⟨hge, hle⟩ := hgrows (by omega) hrule hchild hgrow
      obtain ⟨hge', hle'⟩ := ih hsum (by omega)
      omega

theorem within_grows (h : ctx.Exact) (bound : Nat) : ctx.Within ctx.Grows bound := by
  induction bound with
  | zero =>
      intro rid rule len needed n hlt
      exact absurd hlt (Nat.not_lt_zero len)
  | succ bound ih =>
      intro rid rule len needed n hlt hrule hneeded hgrow
      cases hgrow with
      | node hrule' hneeded' hfits hall =>
          obtain rfl := Option.some.inj (hrule.symm.trans hrule')
          obtain rfl := Option.some.inj (hneeded.symm.trans hneeded')
          obtain ⟨hge, hle⟩ := hall.bounds h ih hneeded (by omega)
          omega

/-! ## What fits grows -/

theorem exists_picks (h : ctx.Exact) {nt : NTermId} {v : Nat} (hv : ctx.getMinLenForNt nt = some v)
    (nts : List NTermId) (remaining : Nat) : ∃ rid, ctx.Picks nt nts remaining v remaining rid := by
  obtain ⟨ids, hids, hne⟩ := h.fitting_ne_nil hv (Nat.le_add_left v remaining)
  obtain ⟨rid, hrid⟩ := Option.isSome_iff_exists.mp
    (Rand.chooseIter_isSome hne (RomuDuoJrRand.withSeed 0))
  exact ⟨rid, hv, Nat.le_refl _, fun _ => rfl, ids, 0, hids, hrid⟩

theorem exists_growsAll (h : ctx.Exact) {grows : RuleId → Nat → Nat → Prop} {bound : Nat}
    (hgrows : ∀ {rid rule len needed}, len < bound → ctx.getRule rid = some rule →
      ctx.minSum rule.nonterms = some needed → needed ≤ len → ∃ n, grows rid len n)
    {nts : List NTermId} {needed : Nat} (remaining : Nat)
    (hneeded : ctx.minSum nts = some needed) (hbound : remaining + needed ≤ bound) :
    ∃ n, GrowsAll ctx grows nts remaining n := by
  induction nts generalizing remaining needed with
  | nil => exact ⟨0, .nil⟩
  | cons nt nts ih =>
      obtain ⟨v, rest, hv, hsum, rfl⟩ := minSum_cons.mp hneeded
      obtain ⟨rid, hpick⟩ := exists_picks h hv nts remaining
      obtain ⟨rule, needed, hrule, -, hchild, hpos, -, hfits⟩ := hpick.spec h
      obtain ⟨m, hgrow⟩ := hgrows (by omega) hrule hchild hfits
      obtain ⟨n, hall⟩ := ih (remaining + v - m) hsum (by omega)
      exact ⟨m + n, .cons hpick hgrow hall⟩

theorem exists_grows (h : ctx.Exact) (bound : Nat) {rid : RuleId} {rule : Rule}
    {len needed : Nat} (hlt : len < bound) (hrule : ctx.getRule rid = some rule)
    (hneeded : ctx.minSum rule.nonterms = some needed) (hfits : needed ≤ len) :
    ∃ n, ctx.Grows rid len n := by
  induction bound generalizing rid rule len needed with
  | zero => exact absurd hlt (Nat.not_lt_zero len)
  | succ bound ih =>
      obtain ⟨n, hall⟩ := exists_growsAll h ih (len - needed) hneeded (by omega)
      exact ⟨1 + n, .node hrule hneeded hfits hall⟩

/-! ## What is drawn -/

/-- A rule that is picked, for a length that does not overflow. -/
def Picked (ctx : Context) (rid : RuleId) : Prop :=
  ∃ nt nts remaining v k, ctx.Picks nt nts remaining v k rid ∧ k + v < 2 ^ 64

theorem DrawnAll.picked (h : ctx.Exact) {drawn : RuleId → Nat → RuleId → Prop} {bound : Nat}
    (hdrawn : ∀ {rid len rid'}, len < bound → len < 2 ^ 64 → drawn rid len rid' → ctx.Picked rid')
    {nts : List NTermId} {remaining needed : Nat} {rid' : RuleId}
    (hall : DrawnAll ctx drawn nts remaining rid') (hneeded : ctx.minSum nts = some needed)
    (hbound : remaining + needed ≤ bound) (hmax : remaining + needed < 2 ^ 64) :
    ctx.Picked rid' := by
  induction hall generalizing needed with
  | here hpick =>
      obtain ⟨v, rest, hv, -, rfl⟩ := minSum_cons.mp hneeded
      obtain rfl := Option.some.inj (hpick.least.symm.trans hv)
      have hshare := hpick.share
      exact ⟨_, _, _, _, _, hpick, by omega⟩
  | under hpick hbelow =>
      obtain ⟨v, rest, hv, -, rfl⟩ := minSum_cons.mp hneeded
      obtain rfl := Option.some.inj (hpick.least.symm.trans hv)
      obtain ⟨-, -, -, -, -, hpos, -⟩ := hpick.spec h
      have hshare := hpick.share
      exact hdrawn (by omega) (by omega) hbelow
  | next hpick hgrow hrest ih =>
      obtain ⟨v, rest, hv, hsum, rfl⟩ := minSum_cons.mp hneeded
      obtain rfl := Option.some.inj (hpick.least.symm.trans hv)
      exact ih hsum (by omega) (by omega)

theorem picked_of_drawn (h : ctx.Exact) (bound : Nat) {rid rid' : RuleId} {len : Nat}
    (hlt : len < bound) (hmax : len < 2 ^ 64) (hdrawn : ctx.Drawn rid len rid') :
    ctx.Picked rid' := by
  induction bound generalizing rid rid' len with
  | zero => exact absurd hlt (Nat.not_lt_zero len)
  | succ bound ih =>
      cases hdrawn with
      | node hrule hneeded hfits hall => exact hall.picked h ih hneeded (by omega) (by omega)

theorem DrawsSound.soundId_of_drawn (hdraws : ctx.DrawsSound) (h : ctx.Exact) {rid rid' : RuleId}
    {len : Nat} (hmax : len < 2 ^ 64) (hdrawn : ctx.Drawn rid len rid') : ctx.SoundId rid' := by
  obtain ⟨nt, nts, remaining, v, k, hpick, hlen⟩ :=
    picked_of_drawn h _ (Nat.lt_succ_self len) hmax hdrawn
  obtain ⟨ids, seed, hids, hrid⟩ := hpick.drawn
  exact hdraws nt v (k + v) ids hpick.least (Nat.le_add_left v k) hlen hids seed rid' hrid

/-- Only the least sizes are left to look at. -/
theorem fitsSoundly_iff (h : ctx.Exact) (hsound : ∀ rule ∈ ctx.rules, rule.Sound) {rid : RuleId}
    {rule : Rule} (hrule : ctx.getRule rid = some rule) {len : Nat} (hlen : len + 1 < 2 ^ 64) :
    ctx.FitsSoundly rid len ↔ ∃ needed, ctx.minSum rule.nonterms = some needed ∧ needed ≤ len := by
  have hall : ∀ rid' rule', ctx.getRule rid' = some rule' → ctx.SoundId rid' :=
    fun rid' rule' hrule' => ⟨rule', hrule', hsound rule' (List.mem_of_getElem? hrule')⟩
  constructor
  · rintro ⟨⟨rule', needed, hrule', hneeded, hle⟩, -⟩
    obtain rfl := Option.some.inj (hrule.symm.trans hrule')
    exact ⟨needed, hneeded, hle⟩
  · rintro ⟨needed, hneeded, hle⟩
    refine ⟨⟨rule, needed, hrule, hneeded, hle⟩, hall rid rule hrule, ?_, ?_⟩
    · intro rid' hdrawn
      obtain ⟨nt, nts, remaining, v, k, hpick, -⟩ :=
        picked_of_drawn h _ (Nat.lt_succ_self len) (by omega) hdrawn
      obtain ⟨rule', -, hrule', -⟩ := hpick.spec h
      exact hall rid' rule' hrule'
    · intro n hgrow
      obtain ⟨-, hle⟩ := within_grows h _ (Nat.lt_succ_self len) hrule hneeded hgrow
      omega

end Context

end Libaflmm
