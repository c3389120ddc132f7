import Libaflmm.GrammarSizes
import Mathlib.Algebra.Order.BigOperators.Group.List

/-!
# The search for least sizes, to its end

The loops of the search as they are written, with no bound on their rounds, and
the panics told apart. A round of the inner loop either sizes a rule or is the
last. Once all nonterminals have sizes, a pass of the outer loop that changes
anything lowers the sum of the sizes, so that there is a last pass.
-/

namespace Libaflmm

inductive MinLenPanic
  | brokenGrammar
  | overflow

namespace Context

/-- The inner loop, with the rules in `unknown` to be sized. -/
inductive SizesUnknown :
    List RuleId → Bool → Context → Except MinLenPanic (Bool × Context) → Prop
  | done {changed : Bool} {ctx : Context} : SizesUnknown [] changed ctx (.ok (changed, ctx))
  | overflow {unknown : List RuleId} {changed : Bool} {ctx : Context} :
      unknown ≠ [] → retainUnknown unknown changed ctx = none →
      SizesUnknown unknown changed ctx (.error .overflow)
  | broken {unknown unknown' : List RuleId} {changed changed' : Bool} {ctx ctx' : Context} :
      unknown ≠ [] → retainUnknown unknown changed ctx = some (unknown', changed', ctx') →
      unknown.length = unknown'.length →
      SizesUnknown unknown changed ctx (.error .brokenGrammar)
  | again {unknown unknown' : List RuleId} {changed changed' : Bool} {ctx ctx' : Context}
      {res : Except MinLenPanic (Bool × Context)} :
      unknown ≠ [] → retainUnknown unknown changed ctx = some (unknown', changed', ctx') →
      unknown.length ≠ unknown'.length → SizesUnknown unknown' changed' ctx' res →
      SizesUnknown unknown changed ctx res

/-- `calc_min_len` -/
inductive CalcsMinLen : Context → Except MinLenPanic Context → Prop
  | panic {ctx : Context} {p : MinLenPanic} :
      SizesUnknown (List.range ctx.rules.length) false ctx (.error p) →
      CalcsMinLen ctx (.error p)
  | again {ctx ctx' : Context} {res : Except MinLenPanic Context} :
      SizesUnknown (List.range ctx.rules.length) false ctx (.ok (true, ctx')) →
      CalcsMinLen ctx' res → CalcsMinLen ctx res
  | done {ctx ctx' : Context} :
      SizesUnknown (List.range ctx.rules.length) false ctx (.ok (false, ctx')) →
      CalcsMinLen ctx (.ok ctx'.calcRuleOrder)

variable {ctx ctx' : Context} {rid : RuleId} {rule : Rule} {rids unknown : List RuleId}
  {changed changed' : Bool}

/-! ## One rule -/

theorem sizeRule_overflow (hrule : ctx.getRule rid = some rule)
    (h : addMinSizes ctx.ntsToMinSize rule.nonterms 1 = none) :
    ctx.sizeRule rid changed = none := by
  simp only [sizeRule, calcMinLenForRule, hrule, h, Option.bind_eq_bind, Option.bind_some,
    Option.bind_none]

theorem sizeRule_unknown (hrule : ctx.getRule rid = some rule)
    (h : addMinSizes ctx.ntsToMinSize rule.nonterms 1 = some none) :
    ctx.sizeRule rid changed = some (true, changed, ctx) := by
  simp only [sizeRule, calcMinLenForRule, hrule, h, Option.bind_eq_bind, Option.bind_some]

theorem sizeRule_known {m : Nat} (hrule : ctx.getRule rid = some rule)
    (h : addMinSizes ctx.ntsToMinSize rule.nonterms 1 = some (some m)) :
    ctx.sizeRule rid changed =
      some (false, changed || decide (m < ctx.leastSize rule.nonterm m), ctx.sized rid rule m) := by
  simp only [sizeRule, calcMinLenForRule, hrule, h, Option.bind_eq_bind, Option.bind_some,
    Option.map_some]
  rfl

theorem exists_getRule (h : rid < ctx.rules.length) : ∃ rule, ctx.getRule rid = some rule :=
  ⟨_, List.getElem?_eq_getElem h⟩

theorem lt_of_getRule (h : ctx.getRule rid = some rule) : rid < ctx.rules.length := by
  obtain ⟨hlt, -⟩ := List.getElem?_eq_some_iff.mp h
  exact hlt

/-! ## What sizing rules keeps -/

/-- Some sum is out of range where `P` holds. -/
def Overflows (P : Bool → Context → Prop) : Prop :=
  ∃ changed ctx rid rule, P changed ctx ∧ ctx.getRule rid = some rule ∧
    addMinSizes ctx.ntsToMinSize rule.nonterms 1 = none

variable {P : Bool → Context → Prop}

theorem KeptBySizing.overflows (hP : KeptBySizing P) (hvalid : ∀ rid ∈ rids, rid < ctx.rules.length)
    (h : Libaflmm.retainUnknown rids changed ctx = none) (hctx : P changed ctx) : Overflows P := by
  induction rids generalizing ctx changed with
  | nil => cases h
  | cons rid rids ih =>
      obtain ⟨rule, hrule⟩ := exists_getRule (hvalid rid List.mem_cons_self)
      have hrids : ∀ rid ∈ rids, rid < ctx.rules.length :=
        fun rid' hmem => hvalid rid' (List.mem_cons_of_mem rid hmem)
      rw [Libaflmm.retainUnknown] at h
      cases hm : addMinSizes ctx.ntsToMinSize rule.nonterms 1 with
      | none => exact ⟨changed, ctx, rid, rule, hctx, hrule, hm⟩
      | some size =>
          cases size with
          | none =>
              rw [sizeRule_unknown hrule hm] at h
              refine ih hrids ?_ hctx
              cases hrest : Libaflmm.retainUnknown rids changed ctx with
              | none => rfl
              | some rest => simp [hrest] at h
          | some m =>
              rw [sizeRule_known hrule hm] at h
              have hrids : ∀ rid' ∈ rids, rid' < (ctx.sized rid rule m).rules.length := hrids
              refine ih hrids ?_ (hP changed ctx rid rule m hctx hrule hm)
              cases hrest : Libaflmm.retainUnknown rids
                  (changed || decide (m < ctx.leastSize rule.nonterm m)) (ctx.sized rid rule m) with
              | none => rfl
              | some rest => simp [hrest] at h

/-- The rules stay what they are. -/
theorem keptBySizing_rules (rules : List Rule) : KeptBySizing fun _ ctx => ctx.rules = rules :=
  fun _ _ _ _ _ h _ _ => h

theorem rules_retainUnknown
    (h : Libaflmm.retainUnknown rids changed ctx = some (unknown, changed', ctx')) :
    ctx'.rules = ctx.rules :=
  (keptBySizing_rules ctx.rules).retainUnknown h rfl

theorem retainUnknown_sublist
    (h : Libaflmm.retainUnknown rids changed ctx = some (unknown, changed', ctx')) :
    unknown.Sublist rids := by
  induction rids generalizing ctx changed unknown with
  | nil =>
      cases h
      exact List.Sublist.refl []
  | cons rid rids ih =>
      rw [Libaflmm.retainUnknown] at h
      obtain ⟨⟨keep, b, mid⟩, hstep, h⟩ := Option.bind_eq_some_iff.mp h
      obtain ⟨⟨rest, b', last⟩, hrest, h⟩ := Option.bind_eq_some_iff.mp h
      cases h
      split
      · exact (ih hrest).cons_cons rid
      · exact (ih hrest).cons rid

/-- A round without progress finds a nonterminal without a size in every rule. -/
theorem retainUnknown_stuck (hvalid : ∀ rid ∈ rids, rid < ctx.rules.length)
    (h : Libaflmm.retainUnknown rids changed ctx = some (unknown, changed', ctx'))
    (hlen : rids.length = unknown.length) {rid : RuleId} (hmem : rid ∈ rids) :
    ∃ rule, ctx.getRule rid = some rule ∧
      addMinSizes ctx.ntsToMinSize rule.nonterms 1 = some none := by
  induction rids generalizing ctx changed unknown with
  | nil => exact absurd hmem List.not_mem_nil
  | cons rid' rids ih =>
      obtain ⟨rule, hrule⟩ := exists_getRule (hvalid rid' List.mem_cons_self)
      have hrids : ∀ rid ∈ rids, rid < ctx.rules.length :=
        fun rid hmem => hvalid rid (List.mem_cons_of_mem rid' hmem)
      rw [Libaflmm.retainUnknown] at h
      obtain ⟨⟨keep, b, mid⟩, hstep, h⟩ := Option.bind_eq_some_iff.mp h
      obtain ⟨⟨rest, b', last⟩, hrest, h⟩ := Option.bind_eq_some_iff.mp h
      have hle := (retainUnknown_sublist hrest).length_le
      cases h
      rcases sizeRule_cases hstep with ⟨hkeep, -, hmid⟩ | ⟨_, _, hkeep, -⟩
      · rw [hkeep, if_pos rfl, List.length_cons, List.length_cons] at hlen
        rw [hmid] at hrest
        rcases List.mem_cons.mp hmem with rfl | htail
        · refine ⟨rule, hrule, ?_⟩
          cases hm : addMinSizes ctx.ntsToMinSize rule.nonterms 1 with
          | none =>
              rw [sizeRule_overflow hrule hm] at hstep
              cases hstep
          | some size =>
              cases size with
              | none => rfl
              | some m =>
                  rw [sizeRule_known hrule hm, hkeep] at hstep
                  cases hstep
        · exact ih hrids hrest (Nat.succ.inj hlen) htail
      · rw [hkeep, if_neg Bool.false_ne_true, List.length_cons] at hlen
        omega

/-! ## Nonterminals with sizes -/

/-- The rule derives a nonterminal that has a size. -/
def Knows (ctx : Context) (rid : RuleId) : Prop :=
  ∃ rule, ctx.getRule rid = some rule ∧ (ctx.ntsToMinSize.lookup rule.nonterm).isSome

theorem isSome_sized {m : Nat} {nt : NTermId} (h : (ctx.ntsToMinSize.lookup nt).isSome) :
    ((ctx.sized rid rule m).ntsToMinSize.lookup nt).isSome := by
  obtain ⟨v, hv⟩ := Option.isSome_iff_exists.mp h
  have hle : ∃ v', (ctx.sized rid rule m).ntsToMinSize.lookup nt = some v' ∧ v' ≤ v := sized_le hv
  obtain ⟨v', hv', -⟩ := hle
  exact Option.isSome_iff_exists.mpr ⟨v', hv'⟩

theorem keptBySizing_knows (rid : RuleId) : KeptBySizing fun _ ctx => ctx.Knows rid := by
  rintro _ ctx rid' rule' m ⟨rule, hrule, hsome⟩ _ _
  exact ⟨rule, hrule, isSome_sized hsome⟩

theorem knows_sized {m : Nat} (h : ctx.getRule rid = some rule) :
    (ctx.sized rid rule m).Knows rid := by
  refine ⟨rule, h, ?_⟩
  rw [lookup_sized, if_pos rfl]
  rfl

/-- What is no longer unknown derives a nonterminal with a size. -/
theorem retainUnknown_knows
    (h : Libaflmm.retainUnknown rids changed ctx = some (unknown, changed', ctx')) {rid : RuleId}
    (hmem : rid ∈ rids) : rid ∈ unknown ∨ ctx'.Knows rid := by
  induction rids generalizing ctx changed unknown with
  | nil => exact absurd hmem List.not_mem_nil
  | cons rid' rids ih =>
      rw [Libaflmm.retainUnknown] at h
      obtain ⟨⟨keep, b, mid⟩, hstep, h⟩ := Option.bind_eq_some_iff.mp h
      obtain ⟨⟨rest, b', last⟩, hrest, h⟩ := Option.bind_eq_some_iff.mp h
      cases h
      rcases sizeRule_cases hstep with ⟨rfl, rfl, rfl⟩ | ⟨rule, m, rfl, hrule, hm, rfl, rfl⟩
      · rcases List.mem_cons.mp hmem with rfl | htail
        · exact .inl List.mem_cons_self
        · exact (ih hrest htail).imp_left (List.mem_cons_of_mem rid')
      · rcases List.mem_cons.mp hmem with rfl | htail
        · exact .inr ((keptBySizing_knows rid).retainUnknown hrest (knows_sized hrule))
        · exact ih hrest htail

/-! ## The inner loop -/

variable {res : Except MinLenPanic (Bool × Context)}

theorem exists_sizesUnknown (unknown : List RuleId) (changed : Bool) (ctx : Context) :
    ∃ res, SizesUnknown unknown changed ctx res := by
  induction hlen : unknown.length using Nat.strong_induction_on
    generalizing unknown changed ctx with
  | h len ih =>
      by_cases hnil : unknown = []
      · rw [hnil]
        exact ⟨_, .done⟩
      · cases hstep : Libaflmm.retainUnknown unknown changed ctx with
        | none => exact ⟨_, .overflow hnil hstep⟩
        | some r =>
            obtain ⟨unknown', changed', ctx'⟩ := r
            have hle := (retainUnknown_sublist hstep).length_le
            by_cases heq : unknown.length = unknown'.length
            · exact ⟨_, .broken hnil hstep heq⟩
            · obtain ⟨res, hres⟩ := ih unknown'.length (by omega) unknown' changed' ctx' rfl
              exact ⟨res, .again hnil hstep heq hres⟩

theorem KeptBySizing.sizesUnknown (hP : KeptBySizing P) (h : SizesUnknown unknown changed ctx res)
    (hres : res = .ok (changed', ctx')) (hctx : P changed ctx) : P changed' ctx' := by
  induction h with
  | done =>
      cases hres
      exact hctx
  | overflow => cases hres
  | broken => cases hres
  | again _ hstep _ _ ih => exact ih hres (hP.retainUnknown hstep hctx)

/-- The rules that are left are rules. -/
theorem retainUnknown_valid (hvalid : ∀ rid ∈ rids, rid < ctx.rules.length)
    (h : Libaflmm.retainUnknown rids changed ctx = some (unknown, changed', ctx')) :
    ∀ rid ∈ unknown, rid < ctx'.rules.length := by
  intro rid hmem
  rw [rules_retainUnknown h]
  exact hvalid rid ((retainUnknown_sublist h).mem hmem)

theorem KeptBySizing.sizesUnknown_overflows (hP : KeptBySizing P)
    (h : SizesUnknown unknown changed ctx res) (hres : res = .error .overflow)
    (hvalid : ∀ rid ∈ unknown, rid < ctx.rules.length) (hctx : P changed ctx) : Overflows P := by
  induction h with
  | done => cases hres
  | overflow _ hnone => exact hP.overflows hvalid hnone hctx
  | broken => cases hres
  | again _ hstep _ _ ih =>
      exact ih hres (retainUnknown_valid hvalid hstep) (hP.retainUnknown hstep hctx)

theorem SizesUnknown.knows (h : SizesUnknown unknown changed ctx res)
    (hres : res = .ok (changed', ctx')) {rid : RuleId} (hrid : rid ∈ unknown ∨ ctx.Knows rid) :
    ctx'.Knows rid := by
  induction h with
  | done =>
      cases hres
      exact hrid.resolve_left List.not_mem_nil
  | overflow => cases hres
  | broken => cases hres
  | again _ hstep _ _ ih =>
      refine ih hres ?_
      rcases hrid with hmem | hknows
      · exact retainUnknown_knows hstep hmem
      · exact .inr ((keptBySizing_knows rid).retainUnknown hstep hknows)

/-- As many rounds as there are unknown rules are enough. -/
theorem SizesUnknown.sizeUnknown_eq (h : SizesUnknown unknown changed ctx res) {rounds : Nat}
    (hrounds : unknown.length ≤ rounds) :
    sizeUnknown rounds unknown changed ctx = res.toOption := by
  induction h generalizing rounds with
  | done => cases rounds <;> rfl
  | @overflow unknown _ _ hne hstep =>
      obtain ⟨rid, rids, rfl⟩ := List.exists_cons_of_ne_nil hne
      cases rounds with
      | zero => cases hrounds
      | succ rounds =>
          rw [sizeUnknown, hstep]
          rfl
  | @broken unknown _ _ _ _ _ hne hstep hlen =>
      obtain ⟨rid, rids, rfl⟩ := List.exists_cons_of_ne_nil hne
      cases rounds with
      | zero => cases hrounds
      | succ rounds =>
          rw [sizeUnknown, hstep]
          exact if_pos hlen
  | @again unknown unknown' _ _ _ _ _ hne hstep hlen _ ih =>
      obtain ⟨rid, rids, rfl⟩ := List.exists_cons_of_ne_nil hne
      have hle := (retainUnknown_sublist hstep).length_le
      cases rounds with
      | zero => cases hrounds
      | succ rounds =>
          rw [sizeUnknown, hstep]
          exact (if_neg hlen).trans (ih (by omega))

/-! ## The outer loop -/

def NTermsKnown (ctx : Context) : Prop := ∀ rid < ctx.rules.length, ctx.Knows rid

/-- The sum of the sizes of what the rules derive. -/
def weight (ctx : Context) : Nat :=
  (ctx.rules.map fun rule => ctx.leastSize rule.nonterm 0).sum

theorem leastSize_of_some {nt : NTermId} {v : Nat} (h : ctx.ntsToMinSize.lookup nt = some v)
    (m : Nat) : ctx.leastSize nt m = v := by
  rw [leastSize, h, Option.getD_some]

theorem NTermsKnown.leastSize (h : ctx.NTermsKnown) (hrule : ctx.getRule rid = some rule)
    (m : Nat) : ctx.leastSize rule.nonterm m = ctx.leastSize rule.nonterm 0 := by
  obtain ⟨rule', hrule', hsome⟩ := h rid (lt_of_getRule hrule)
  obtain rfl := Option.some.inj (hrule'.symm.trans hrule)
  obtain ⟨v, hv⟩ := Option.isSome_iff_exists.mp hsome
  rw [leastSize_of_some hv, leastSize_of_some hv]

theorem NTermsKnown.leastSize_sized (h : ctx.NTermsKnown) {rule' : Rule} (hmem : rule' ∈ ctx.rules)
    (m : Nat) : (ctx.sized rid rule m).leastSize rule'.nonterm 0 =
      if rule'.nonterm = rule.nonterm then min m (ctx.leastSize rule'.nonterm 0)
      else ctx.leastSize rule'.nonterm 0 := by
  obtain ⟨rid', hrule'⟩ := List.mem_iff_getElem?.mp hmem
  rw [Context.leastSize, lookup_sized]
  split
  · rw [Option.getD_some, h.leastSize hrule']
  · rfl

/-- Sizing a rule never raises a size. -/
theorem NTermsKnown.weight_sized_le (h : ctx.NTermsKnown) (m : Nat) :
    (ctx.sized rid rule m).weight ≤ ctx.weight := by
  refine List.sum_le_sum fun rule' hmem => ?_
  rw [h.leastSize_sized hmem]
  split
  · exact Nat.min_le_right m _
  · exact Nat.le_refl _

/-- A size that changes is lowered. -/
theorem NTermsKnown.weight_sized_lt (h : ctx.NTermsKnown) (hrule : ctx.getRule rid = some rule)
    {m : Nat} (hlt : m < ctx.leastSize rule.nonterm m) :
    (ctx.sized rid rule m).weight < ctx.weight := by
  have hmem : rule ∈ ctx.rules := List.mem_of_getElem? hrule
  refine List.sum_lt_sum _ _ (fun rule' hmem' => ?_) ⟨rule, hmem, ?_⟩
  · rw [h.leastSize_sized hmem']
    split
    · exact Nat.min_le_right m _
    · exact Nat.le_refl _
  · rw [h.leastSize_sized hmem, if_pos rfl]
    rw [h.leastSize hrule] at hlt
    omega

theorem keptBySizing_weight (w : Nat) : KeptBySizing fun changed ctx =>
    ctx.NTermsKnown ∧ ctx.weight ≤ w ∧ (changed = true → ctx.weight < w) := by
  rintro changed ctx rid rule m ⟨hknown, hle, hlt⟩ hrule hm
  have hweight : (ctx.sized rid rule m).weight ≤ ctx.weight := hknown.weight_sized_le m
  refine ⟨fun rid' hrid' => ?_, hweight.trans hle, fun hchanged => ?_⟩
  · exact keptBySizing_knows rid' changed ctx rid rule m (hknown rid' hrid') hrule hm
  · rcases Bool.or_eq_true_iff.mp hchanged with hbefore | hnow
    · exact Nat.lt_of_le_of_lt hweight (hlt hbefore)
    · exact Nat.lt_of_lt_of_le (hknown.weight_sized_lt hrule (of_decide_eq_true hnow)) hle

/-- A pass gives every nonterminal with a rule its size. -/
theorem SizesUnknown.nTermsKnown
    (h : SizesUnknown (List.range ctx.rules.length) changed ctx (.ok (changed', ctx'))) :
    ctx'.NTermsKnown := by
  have hrules := (keptBySizing_rules ctx.rules).sizesUnknown h rfl rfl
  intro rid hlt
  rw [hrules] at hlt
  exact h.knows rfl (.inl (List.mem_range.mpr hlt))

theorem NTermsKnown.exists_calcsMinLen (h : ctx.NTermsKnown) : ∃ res, CalcsMinLen ctx res := by
  induction hweight : ctx.weight using Nat.strong_induction_on generalizing ctx with
  | h w ih =>
      obtain ⟨pass, hpass⟩ := exists_sizesUnknown (List.range ctx.rules.length) false ctx
      match pass, hpass with
      | .error p, hpass => exact ⟨_, .panic hpass⟩
      | .ok (false, ctx'), hpass => exact ⟨_, .done hpass⟩
      | .ok (true, ctx'), hpass =>
          obtain ⟨hknown, -, hlt⟩ := (keptBySizing_weight w).sizesUnknown hpass rfl
            ⟨h, Nat.le_of_eq hweight, fun hfalse => by cases hfalse⟩
          obtain ⟨res, hres⟩ := ih ctx'.weight (hlt rfl) hknown rfl
          exact ⟨res, .again hpass hres⟩

/-- **The search ends.** -/
theorem exists_calcsMinLen (ctx : Context) : ∃ res, CalcsMinLen ctx res := by
  obtain ⟨pass, hpass⟩ := exists_sizesUnknown (List.range ctx.rules.length) false ctx
  match pass, hpass with
  | .error p, hpass => exact ⟨_, .panic hpass⟩
  | .ok (false, ctx'), hpass => exact ⟨_, .done hpass⟩
  | .ok (true, ctx'), hpass =>
      obtain ⟨res, hres⟩ := hpass.nTermsKnown.exists_calcsMinLen
      exact ⟨res, .again hpass hres⟩

/-- The loops with bounded rounds come to the same, with rounds enough. -/
theorem CalcsMinLen.calcMinLen_eq {res : Except MinLenPanic Context} (h : CalcsMinLen ctx res) :
    ∃ rounds, ∀ rounds' ≥ rounds, ctx.calcMinLen rounds' = res.toOption := by
  induction h with
  | panic hpass =>
      refine ⟨1, fun rounds hrounds => ?_⟩
      obtain ⟨rounds, rfl⟩ := Nat.exists_eq_add_of_le' hrounds
      rw [calcMinLen, calcMinLenLoop, hpass.sizeUnknown_eq (Nat.le_of_eq rfl)]
      rfl
  | again hpass _ ih =>
      obtain ⟨rounds, ih⟩ := ih
      refine ⟨rounds + 1, fun rounds' hrounds' => ?_⟩
      obtain ⟨extra, rfl⟩ := Nat.exists_eq_add_of_le' hrounds'
      rw [calcMinLen, ← Nat.add_assoc, calcMinLenLoop, hpass.sizeUnknown_eq (Nat.le_of_eq rfl)]
      exact ih (extra + rounds) (Nat.le_add_left rounds extra)
  | done hpass =>
      refine ⟨1, fun rounds hrounds => ?_⟩
      obtain ⟨rounds, rfl⟩ := Nat.exists_eq_add_of_le' hrounds
      rw [calcMinLen, calcMinLenLoop, hpass.sizeUnknown_eq (Nat.le_of_eq rfl)]
      rfl

theorem CalcsMinLen.exists_loop (h : CalcsMinLen ctx (.ok ctx')) :
    ∃ rounds settled, calcMinLenLoop rounds ctx = some settled ∧
      settled.calcRuleOrder = ctx' := by
  obtain ⟨rounds, hrounds⟩ := h.calcMinLen_eq
  obtain ⟨settled, hsettled, heq⟩ := Option.map_eq_some_iff.mp (hrounds rounds (Nat.le_refl _))
  exact ⟨rounds, settled, hsettled, heq⟩

end Context

end Libaflmm
