import Libaflmm.Derivations
import Libaflmm.GrammarRuns
import Mathlib.Data.List.Dedup
import Mathlib.Data.List.MinMax
import Mathlib.Order.Bounds.Defs

/-!
# Least sizes are those of derivations

The sizes that are found are the numbers of nodes of least derivations. That
none is below them is an induction on derivations, since every rule is settled;
that they are attained is an induction on sizes, since the size of a nonterminal
is more than those below the rule that attains it.

A round without progress means a rule without a derivation. A sum that leaves its
type means that the grammar is large: as long as some nonterminals have no size,
the sizes are those of trees that grow by one level with every nonterminal.
-/

namespace Libaflmm

open RoseTree

/-! ## Derivations -/

section

variable {ctx : Context} {P : NTermId → RoseTree RuleIdOrCustom → Prop}

mutual

/-- Induction on derivations. -/
theorem Derives.induct
    (hnode : ∀ {rid rule label children}, ctx.getRule rid = some rule →
      rule.LabelledBy rid label →
      List.Forall₂ (fun nt tree => Derives ctx nt tree ∧ P nt tree) rule.nonterms children →
      P rule.nonterm (.node label children)) :
    ∀ (tree : RoseTree RuleIdOrCustom) {nt : NTermId}, Derives ctx nt tree → P nt tree
  | .node _ children, _, .node hrule hlabel hchildren =>
      hnode hrule hlabel (Derives.inductAll hnode children hchildren)

theorem Derives.inductAll
    (hnode : ∀ {rid rule label children}, ctx.getRule rid = some rule →
      rule.LabelledBy rid label →
      List.Forall₂ (fun nt tree => Derives ctx nt tree ∧ P nt tree) rule.nonterms children →
      P rule.nonterm (.node label children)) :
    ∀ (trees : List (RoseTree RuleIdOrCustom)) {nts : List NTermId},
      List.Forall₂ (Derives ctx) nts trees →
      List.Forall₂ (fun nt tree => Derives ctx nt tree ∧ P nt tree) nts trees
  | [], _, .nil => .nil
  | tree :: trees, _, .cons h hs =>
      .cons ⟨h, Derives.induct hnode tree h⟩ (Derives.inductAll hnode trees hs)

end

end

theorem Rule.exists_labelledBy (rule : Rule) (rid : RuleId) :
    ∃ label, rule.LabelledBy rid label := by
  cases rule with
  | plain => exact ⟨.rule rid, rfl⟩
  | script => exact ⟨.rule rid, rfl⟩
  | regExp => exact ⟨.custom rid [], [], rfl⟩

namespace Context

/-- A derivation with the rule at its root. -/
def DerivesBy (ctx : Context) (rid : RuleId) (tree : RoseTree RuleIdOrCustom) : Prop :=
  ∃ rule label children, ctx.getRule rid = some rule ∧ rule.LabelledBy rid label ∧
    List.Forall₂ (Derives ctx) rule.nonterms children ∧ tree = .node label children

def Productive (ctx : Context) (rid : RuleId) : Prop := ∃ tree, ctx.DerivesBy rid tree

variable {ctx ctx' : Context} {rid : RuleId} {rule : Rule} {nt : NTermId} {nts : List NTermId}
  {tree : RoseTree RuleIdOrCustom} {trees : List (RoseTree RuleIdOrCustom)} {res m v : Nat}

/-- Derivations depend on the rules alone. -/
theorem derives_of_rules (hrules : ctx'.rules = ctx.rules) (h : Derives ctx' nt tree) :
    Derives ctx nt tree := by
  refine Derives.induct (fun hrule hlabel hchildren => ?_) tree h
  rw [getRule, hrules] at hrule
  exact .node hrule hlabel (hchildren.imp fun _ _ hchild => hchild.2)

theorem derivesBy_congr (hrules : ctx'.rules = ctx.rules) : ctx'.DerivesBy = ctx.DerivesBy := by
  have himp {a b : Context} (hab : a.rules = b.rules) {rid : RuleId}
      {tree : RoseTree RuleIdOrCustom} (h : a.DerivesBy rid tree) : b.DerivesBy rid tree := by
    obtain ⟨rule, label, children, hrule, hlabel, hchildren, htree⟩ := h
    rw [getRule, hab] at hrule
    exact ⟨rule, label, children, hrule, hlabel,
      hchildren.imp fun _ _ => derives_of_rules hab, htree⟩
  funext rid tree
  exact propext ⟨himp hrules, himp hrules.symm⟩

theorem productive_congr (hrules : ctx'.rules = ctx.rules) : ctx'.Productive = ctx.Productive := by
  funext rid
  rw [Productive, Productive, derivesBy_congr hrules]

/-! ## Sums of sizes and of trees -/

theorem addMinSizes_unknown {sizes : HashMap NTermId Nat}
    (h : addMinSizes sizes nts res = some none) : ∃ nt ∈ nts, sizes.lookup nt = none := by
  induction nts generalizing res with
  | nil => cases h
  | cons nt nts ih =>
      rw [addMinSizes] at h
      cases hv : sizes.lookup nt with
      | none => exact ⟨nt, List.mem_cons_self, hv⟩
      | some v =>
          rw [hv] at h
          obtain ⟨sum, -, h⟩ := Option.bind_eq_some_iff.mp h
          obtain ⟨nt', hmem, hnone⟩ := ih h
          exact ⟨nt', List.mem_cons_of_mem nt hmem, hnone⟩

/-- The sum is least where its parts are. -/
theorem addMinSizes_le_sizeAll {sizes : HashMap NTermId Nat}
    (htrees : List.Forall₂ (fun nt tree => ∃ v, sizes.lookup nt = some v ∧ v ≤ tree.size) nts trees)
    (h : addMinSizes sizes nts res = some (some m)) : m ≤ res + sizeAll trees := by
  induction htrees generalizing res with
  | nil =>
      cases h
      exact Nat.le_refl _
  | cons hhead _ ih =>
      obtain ⟨v, hv, hle⟩ := hhead
      obtain ⟨v', hv', -, hrest⟩ := addMinSizes_cons.mp h
      obtain rfl := Option.some.inj (hv.symm.trans hv')
      have hsum := ih hrest
      rw [sizeAll]
      omega

/-- Trees for all parts of a sum, when there are trees for the sizes below `n`. -/
theorem exists_forest {n : Nat}
    (htree : ∀ nt v, v < n → ctx.ntsToMinSize.lookup nt = some v →
      ∃ tree, Derives ctx nt tree ∧ tree.size ≤ v)
    (h : addMinSizes ctx.ntsToMinSize nts res = some (some m)) (hres : 0 < res) (hm : m ≤ n) :
    ∃ trees, List.Forall₂ (Derives ctx) nts trees ∧ res + sizeAll trees ≤ m := by
  induction nts generalizing res with
  | nil =>
      cases h
      exact ⟨[], .nil, Nat.le_refl _⟩
  | cons nt nts ih =>
      obtain ⟨v, hv, -, hrest⟩ := addMinSizes_cons.mp h
      have hle := le_addMinSizes hrest
      obtain ⟨tree, htree, hsize⟩ := htree nt v (by omega) hv
      obtain ⟨trees, htrees, hsizes⟩ := ih hrest (by omega)
      refine ⟨tree :: trees, .cons htree htrees, ?_⟩
      rw [sizeAll]
      omega

/-! ## Settled sizes are least -/

theorem Attained.exists_derives (h : ctx.Attained) (hv : ctx.ntsToMinSize.lookup nt = some v) :
    ∃ tree, Derives ctx nt tree ∧ tree.size ≤ v := by
  induction v using Nat.strong_induction_on generalizing nt with
  | h v ih =>
      obtain ⟨rid, rule, m, hrule, rfl, hm, hle⟩ := h nt v hv
      obtain ⟨trees, htrees, hsizes⟩ :=
        exists_forest (fun nt u hlt hu => ih u hlt hu) hm Nat.one_pos hle
      obtain ⟨label, hlabel⟩ := rule.exists_labelledBy rid
      exact ⟨.node label trees, .node hrule hlabel htrees, hsizes.trans hle⟩

theorem Attained.exists_derivesBy (h : ctx.Attained) (hrule : ctx.getRule rid = some rule)
    (hm : addMinSizes ctx.ntsToMinSize rule.nonterms 1 = some (some m)) :
    ∃ tree, ctx.DerivesBy rid tree ∧ tree.size ≤ m := by
  obtain ⟨trees, htrees, hsizes⟩ :=
    exists_forest (fun _ _ _ hu => h.exists_derives hu) hm Nat.one_pos (Nat.le_refl m)
  obtain ⟨label, hlabel⟩ := rule.exists_labelledBy rid
  exact ⟨.node label trees, ⟨rule, label, trees, hrule, hlabel, htrees, rfl⟩, hsizes⟩

/-- No derivation has fewer nodes than the size of what it derives. -/
theorem exists_le_size (hsettled : ∀ rid < ctx.rules.length, ctx.Settled rid)
    (h : Derives ctx nt tree) : ∃ v, ctx.ntsToMinSize.lookup nt = some v ∧ v ≤ tree.size := by
  refine Derives.induct (P := fun nt tree => ∃ v, ctx.ntsToMinSize.lookup nt = some v ∧
    v ≤ tree.size) (fun {rid rule label children} hrule _ hchildren => ?_) tree h
  obtain ⟨rule', m, v, hrule', -, hm, hv, hle⟩ := hsettled rid (lt_of_getRule hrule)
  obtain rfl := Option.some.inj (hrule'.symm.trans hrule)
  have hsum := addMinSizes_le_sizeAll (hchildren.imp fun _ _ hchild => hchild.2) hm
  exact ⟨v, hv, hle.trans hsum⟩

theorem isLeast_of_settled (hsettled : ∀ rid < ctx.rules.length, ctx.Settled rid)
    (hattained : ctx.Attained) (hrule : ctx.getRule rid = some rule)
    (hm : addMinSizes ctx.ntsToMinSize rule.nonterms 1 = some (some m)) :
    IsLeast {n | ∃ tree, ctx.DerivesBy rid tree ∧ tree.size = n} m := by
  have hlower : ∀ tree, ctx.DerivesBy rid tree → m ≤ tree.size := by
    rintro tree ⟨rule', label, children, hrule', -, hchildren, rfl⟩
    obtain rfl := Option.some.inj (hrule'.symm.trans hrule)
    exact addMinSizes_le_sizeAll (hchildren.imp fun _ _ => exists_le_size hsettled) hm
  obtain ⟨tree, htree, hle⟩ := hattained.exists_derivesBy hrule hm
  constructor
  · exact ⟨tree, htree, Nat.le_antisymm hle (hlower tree htree)⟩
  · rintro n ⟨tree', htree', rfl⟩
    exact hlower tree' htree'

/-- The size of a nonterminal is the least of those of its rules. -/
theorem isLeast_of_attained (hsettled : ∀ rid < ctx.rules.length, ctx.Settled rid)
    (hattained : ctx.Attained) (hv : ctx.ntsToMinSize.lookup nt = some v) :
    IsLeast {m | ∃ rid rule, ctx.getRule rid = some rule ∧ rule.nonterm = nt ∧
      ctx.rulesToMinSize.lookup rid = some m} v := by
  have hlower : ∀ rid rule m, ctx.getRule rid = some rule → rule.nonterm = nt →
      ctx.rulesToMinSize.lookup rid = some m → v ≤ m := by
    intro rid rule m hrule hnt hm
    obtain ⟨rule', m', v', hrule', hm', -, hv', hle⟩ := hsettled rid (lt_of_getRule hrule)
    obtain rfl := Option.some.inj (hrule'.symm.trans hrule)
    obtain rfl := Option.some.inj (hm'.symm.trans hm)
    rw [hnt] at hv'
    obtain rfl := Option.some.inj (hv'.symm.trans hv)
    exact hle
  obtain ⟨rid, rule, m, hrule, hnt, hsum, hle⟩ := hattained nt v hv
  obtain ⟨rule', m', -, hrule', hm', hsum', -⟩ := hsettled rid (lt_of_getRule hrule)
  obtain rfl := Option.some.inj (hrule'.symm.trans hrule)
  obtain rfl := Option.some.inj (Option.some.inj (hsum'.symm.trans hsum))
  constructor
  · obtain rfl := Nat.le_antisymm hle (hlower rid rule' m' hrule hnt hm')
    exact ⟨rid, rule', hrule, hnt, hm'⟩
  · rintro m ⟨rid', rule'', hrule'', hnt', hm⟩
    exact hlower rid' rule'' m hrule'' hnt' hm

/-! ## Rules without a derivation -/

/-- Where no rule can be sized, what has a derivation has a size. -/
theorem isSome_of_derives
    (hstuck : ∀ rid rule, ctx.getRule rid = some rule → ctx.Knows rid ∨
      addMinSizes ctx.ntsToMinSize rule.nonterms 1 = some none)
    (h : Derives ctx nt tree) : (ctx.ntsToMinSize.lookup nt).isSome := by
  refine Derives.induct (P := fun nt _ => (ctx.ntsToMinSize.lookup nt).isSome)
    (fun {rid rule label children} hrule _ hchildren => ?_) tree h
  rcases hstuck rid rule hrule with ⟨rule', hrule', hsome⟩ | hnone
  · obtain rfl := Option.some.inj (hrule'.symm.trans hrule)
    exact hsome
  · obtain ⟨nt, hmem, hlookup⟩ := addMinSizes_unknown hnone
    have hall := (List.forall₂_and_left _ _).mp (hchildren.imp fun _ _ => And.symm)
    have hsome := hall.1 nt hmem
    rw [hlookup] at hsome
    cases hsome

variable {rids unknown : List RuleId} {changed changed' : Bool}

/-- A rule that stays unknown in such a round has no derivation. -/
theorem not_productive_of_stuck (hvalid : ∀ rid ∈ rids, rid < ctx.rules.length)
    (hknows : ∀ rid < ctx.rules.length, rid ∈ rids ∨ ctx.Knows rid)
    (h : retainUnknown rids changed ctx = some (unknown, changed', ctx'))
    (hlen : rids.length = unknown.length) (hmem : rid ∈ rids) : ¬ ctx.Productive rid := by
  have hstuck : ∀ rid rule, ctx.getRule rid = some rule → ctx.Knows rid ∨
      addMinSizes ctx.ntsToMinSize rule.nonterms 1 = some none := by
    intro rid rule hrule
    rcases hknows rid (lt_of_getRule hrule) with hmem | hknown
    · obtain ⟨rule', hrule', hnone⟩ := retainUnknown_stuck hvalid h hlen hmem
      obtain rfl := Option.some.inj (hrule'.symm.trans hrule)
      exact .inr hnone
    · exact .inl hknown
  rintro ⟨tree, rule, label, children, hrule, -, hchildren, -⟩
  obtain ⟨rule', hrule', hnone⟩ := retainUnknown_stuck hvalid h hlen hmem
  obtain rfl := Option.some.inj (hrule'.symm.trans hrule)
  obtain ⟨nt, hnt, hlookup⟩ := addMinSizes_unknown hnone
  have hsome := hchildren.imp fun _ _ hchild => And.intro (isSome_of_derives hstuck hchild) hchild
  have hall := ((List.forall₂_and_left _ _).mp hsome).1 nt hnt
  rw [hlookup] at hall
  cases hall

theorem SizesUnknown.not_productive {pass : Except MinLenPanic (Bool × Context)}
    (h : SizesUnknown unknown changed ctx pass) (hpass : pass = .error .brokenGrammar)
    (hvalid : ∀ rid ∈ unknown, rid < ctx.rules.length)
    (hknows : ∀ rid < ctx.rules.length, rid ∈ unknown ∨ ctx.Knows rid) :
    ∃ rid < ctx.rules.length, ¬ ctx.Productive rid := by
  induction h with
  | done => cases hpass
  | overflow => cases hpass
  | broken hne hstep hlen =>
      obtain ⟨rid, hmem⟩ := List.exists_mem_of_ne_nil _ hne
      exact ⟨rid, hvalid rid hmem, not_productive_of_stuck hvalid hknows hstep hlen hmem⟩
  | again _ hstep _ _ ih =>
      have hrules := rules_retainUnknown hstep
      rw [← hrules, ← productive_congr hrules]
      refine ih hpass (retainUnknown_valid hvalid hstep) fun rid hlt => ?_
      rw [hrules] at hlt
      rcases hknows rid hlt with hmem | hknown
      · exact retainUnknown_knows hstep hmem
      · exact .inr ((keptBySizing_knows rid).retainUnknown hstep hknown)

theorem CalcsMinLen.not_productive {result : Except MinLenPanic Context}
    (h : CalcsMinLen ctx result) (hresult : result = .error .brokenGrammar) :
    ∃ rid < ctx.rules.length, ¬ ctx.Productive rid := by
  induction h with
  | panic hpass =>
      cases hresult
      exact hpass.not_productive rfl (fun _ => List.mem_range.mp)
        fun _ hlt => .inl (List.mem_range.mpr hlt)
  | again hpass _ ih =>
      have hrules := (keptBySizing_rules _).sizesUnknown hpass rfl rfl
      rw [← hrules, ← productive_congr hrules]
      exact ih hresult
  | done => cases hresult

/-! ## Sums out of range -/

/-- The size of the tree of this height where every node above the leaves has `k`
children. -/
def fullSize (k : Nat) : Nat → Nat
  | 0 => 0
  | height + 1 => 1 + k * fullSize k height

theorem fullSize_mono {k k' : Nat} (hk : k ≤ k') {n n' : Nat} (hn : n ≤ n') :
    fullSize k n ≤ fullSize k' n' := by
  induction n generalizing n' with
  | zero => exact Nat.zero_le _
  | succ n ih =>
      obtain ⟨n', rfl⟩ := Nat.exists_eq_add_of_le' hn
      exact Nat.add_le_add_left (Nat.mul_le_mul hk (ih (Nat.le_add_left n n'))) 1

/-- The most nonterminals that a rule has. -/
def width (ctx : Context) : Nat := (ctx.rules.map fun rule => rule.nonterms.length).foldr max ⊥

/-- The nonterminals that have rules. -/
def derived (ctx : Context) : List NTermId := (ctx.rules.map Rule.nonterm).dedup

/-- The sizes that are known are those of trees no higher than there are sizes. -/
def Bounded (ctx : Context) : Prop :=
  ∀ nt v, ctx.ntsToMinSize.lookup nt = some v →
    v ≤ fullSize ctx.width ctx.ntsToMinSize.keys.length

theorem length_nonterms_le (hrule : ctx.getRule rid = some rule) :
    rule.nonterms.length ≤ ctx.width :=
  List.le_max_of_le (List.mem_map_of_mem (List.mem_of_getElem? hrule)) (Nat.le_refl _)

theorem addMinSizes_le {sizes : HashMap NTermId Nat} {b : Nat}
    (hb : ∀ nt v, sizes.lookup nt = some v → v ≤ b)
    (h : addMinSizes sizes nts res = some (some m)) : m ≤ res + nts.length * b := by
  induction nts generalizing res with
  | nil =>
      cases h
      omega
  | cons nt nts ih =>
      obtain ⟨v, hv, -, hrest⟩ := addMinSizes_cons.mp h
      have hle := hb nt v hv
      have hsum := ih hrest
      rw [List.length_cons, Nat.succ_mul]
      omega

theorem le_of_addMinSizes_eq_none {sizes : HashMap NTermId Nat} {b : Nat}
    (hb : ∀ nt v, sizes.lookup nt = some v → v ≤ b)
    (h : addMinSizes sizes nts res = none) : 2 ^ 64 ≤ res + nts.length * b := by
  induction nts generalizing res with
  | nil => cases h
  | cons nt nts ih =>
      rw [addMinSizes] at h
      rw [List.length_cons, Nat.succ_mul]
      cases hv : sizes.lookup nt with
      | none =>
          rw [hv] at h
          cases h
      | some v =>
          have hle := hb nt v hv
          rw [hv] at h
          by_cases hlt : res + v < 2 ^ 64
          · simp only [usizeAdd, if_pos hlt, Option.bind_eq_bind, Option.bind_some] at h
            have hsum := ih h
            omega
          · omega

/-- A new size may be that of a tree one level higher. -/
theorem keptBySizing_bounded : KeptBySizing fun _ => Bounded := by
  intro _ ctx rid rule m hbounded hrule hm nt v hv
  have hnext : m ≤ fullSize ctx.width (ctx.ntsToMinSize.keys.length + 1) := by
    refine (addMinSizes_le hbounded hm).trans (Nat.add_le_add_left ?_ 1)
    exact Nat.mul_le_mul_right _ (length_nonterms_le hrule)
  have hwidth : (ctx.sized rid rule m).width = ctx.width := rfl
  rw [hwidth]
  rw [lookup_sized] at hv
  cases hu : ctx.ntsToMinSize.lookup rule.nonterm with
  | none =>
      have hnot : rule.nonterm ∉ ctx.ntsToMinSize.keys := fun hmem =>
        AList.lookup_eq_none.mp hu hmem
      have hlen : (ctx.sized rid rule m).ntsToMinSize.keys.length =
          ctx.ntsToMinSize.keys.length + 1 := by
        rw [sized, AList.keys_insert, List.erase_of_not_mem hnot, List.length_cons]
      rw [hlen]
      split at hv
      · obtain rfl := Option.some.inj hv
        exact (Nat.min_le_left m _).trans hnext
      · exact (hbounded nt v hv).trans (fullSize_mono (Nat.le_refl _) (Nat.le_succ _))
  | some u =>
      have hmem : rule.nonterm ∈ ctx.ntsToMinSize.keys :=
        AList.lookup_isSome.mp (Option.isSome_iff_exists.mpr ⟨u, hu⟩)
      have hlen : (ctx.sized rid rule m).ntsToMinSize.keys.length =
          ctx.ntsToMinSize.keys.length := by
        have hpos := List.length_pos_of_mem hmem
        rw [sized, AList.keys_insert, List.length_cons, List.length_erase_of_mem hmem]
        omega
      rw [hlen]
      split at hv
      · next hnt =>
          obtain rfl := Option.some.inj hv
          rw [hnt, leastSize_of_some hu]
          exact (Nat.min_le_right m u).trans (hbounded _ u hu)
      · exact hbounded nt v hv

theorem keptBySizing_attained : KeptBySizing fun _ => Attained :=
  fun _ _ _ _ _ h hrule hm => (sized_keeps hrule hm).attained h

theorem KeptBySizing.and {Q Q' : Context → Prop} (h : KeptBySizing fun _ => Q)
    (h' : KeptBySizing fun _ => Q') : KeptBySizing fun _ ctx => Q ctx ∧ Q' ctx :=
  fun changed ctx rid rule m hctx hrule hm =>
    ⟨h changed ctx rid rule m hctx.1 hrule hm, h' changed ctx rid rule m hctx.2 hrule hm⟩

theorem CalcsMinLen.overflows {result : Except MinLenPanic Context} {Q : Context → Prop}
    (hQ : KeptBySizing fun _ => Q) (h : CalcsMinLen ctx result)
    (hresult : result = .error .overflow) (hctx : Q ctx) : Overflows fun _ => Q := by
  induction h with
  | panic hpass =>
      cases hresult
      exact hQ.sizesUnknown_overflows hpass rfl (fun _ => List.mem_range.mp) hctx
  | again hpass _ ih => exact ih hresult (hQ.sizesUnknown hpass rfl hctx)
  | done => cases hresult

/-- Only nonterminals with rules have sizes. -/
theorem Attained.length_keys_le (h : ctx.Attained) :
    ctx.ntsToMinSize.keys.length ≤ ctx.derived.length := by
  refine (List.subperm_of_subset ctx.ntsToMinSize.keys_nodup fun nt hmem => ?_).length_le
  obtain ⟨v, hv⟩ := Option.isSome_iff_exists.mp (AList.lookup_isSome.mpr hmem)
  obtain ⟨rid, rule, -, hrule, rfl, -⟩ := h nt v hv
  exact List.mem_dedup.mpr (List.mem_map_of_mem (List.mem_of_getElem? hrule))

/-- A sum is out of range in large grammars only. -/
theorem CalcsMinLen.le_fullSize {result : Except MinLenPanic Context}
    (h : CalcsMinLen ctx result) (hresult : result = .error .overflow) (hattained : ctx.Attained)
    (hbounded : ctx.Bounded) : 2 ^ 64 ≤ fullSize ctx.width (ctx.derived.length + 1) := by
  have hkept := (keptBySizing_rules ctx.rules).and (keptBySizing_bounded.and keptBySizing_attained)
  obtain ⟨-, mid, rid, rule, ⟨hrules, hbounded, hattained⟩, hrule, hnone⟩ :=
    h.overflows hkept hresult ⟨rfl, hbounded, hattained⟩
  have hwidth : mid.width = ctx.width := by rw [width, width, hrules]
  have hderived : mid.derived = ctx.derived := by rw [derived, derived, hrules]
  rw [← hwidth, ← hderived]
  refine (le_of_addMinSizes_eq_none hbounded hnone).trans (Nat.add_le_add_left ?_ 1)
  exact Nat.mul_le_mul (length_nonterms_le hrule)
    (fullSize_mono (Nat.le_refl _) hattained.length_keys_le)

/-! ## The search -/

/-- The sizes in `ctx'` are the least of the rules of `ctx`, and the lists are in the order
of these sizes. -/
structure LeastSizes (ctx ctx' : Context) : Prop where
  rules : ∀ rid < ctx.rules.length, ∃ m, ctx'.rulesToMinSize.lookup rid = some m ∧
    IsLeast {n | ∃ tree, ctx.DerivesBy rid tree ∧ tree.size = n} m
  nts : ∀ rid rule, ctx.getRule rid = some rule →
    ∃ v, ctx'.ntsToMinSize.lookup rule.nonterm = some v ∧
      IsLeast {m | ∃ rid' rule', ctx.getRule rid' = some rule' ∧ rule'.nonterm = rule.nonterm ∧
        ctx'.rulesToMinSize.lookup rid' = some m} v
  sorted : ∀ nt ids, ctx.ntsToRules.lookup nt = some ids →
    ∃ ids', ctx'.ntsToRules.lookup nt = some ids' ∧ ids'.Perm ids ∧
      ids'.Pairwise fun r1 r2 => ctx'.ruleSize r1 ≤ ctx'.ruleSize r2

theorem CalcsMinLen.leastSizes (h : CalcsMinLen ctx (.ok ctx')) (hattained : ctx.Attained) :
    ctx.LeastSizes ctx' := by
  obtain ⟨rounds, settled, hloop, rfl⟩ := h.exists_loop
  obtain ⟨hrules, hlists, hkept⟩ := calcMinLenLoop_keeps hloop
  have hsettled := calcMinLenLoop_settles hloop
  have hattained := hkept hattained
  have hgetRule : settled.getRule = ctx.getRule := by
    funext rid
    rw [getRule, getRule, hrules]
  constructor
  · intro rid hlt
    rw [← hrules] at hlt
    obtain ⟨rule, m, -, hrule, hm, hsum, -⟩ := hsettled rid hlt
    refine ⟨m, hm, ?_⟩
    rw [← derivesBy_congr hrules]
    exact isLeast_of_settled hsettled hattained hrule hsum
  · intro rid rule hrule
    rw [← hgetRule] at hrule
    obtain ⟨rule', -, v, hrule', -, -, hv, -⟩ := hsettled rid (lt_of_getRule hrule)
    obtain rfl := Option.some.inj (hrule'.symm.trans hrule)
    refine ⟨v, hv, ?_⟩
    rw [← hgetRule]
    exact isLeast_of_attained hsettled hattained hv
  · intro nt ids hids
    rw [← hlists] at hids
    have hids' : settled.calcRuleOrder.ntsToRules.lookup nt =
        some (ids.insertionSort fun r1 r2 => settled.ruleSize r1 ≤ settled.ruleSize r2) := by
      simp only [calcRuleOrder, HashMap.lookup_mapValues, hids, Option.map_some]
      rfl
    exact ⟨_, hids', List.perm_insertionSort _ ids, calcRuleOrder_sorted hids'⟩

theorem LeastSizes.productive (h : ctx.LeastSizes ctx') (hlt : rid < ctx.rules.length) :
    ctx.Productive rid := by
  obtain ⟨m, -, ⟨tree, htree, -⟩, -⟩ := h.rules rid hlt
  exact ⟨tree, htree⟩

theorem Bounded.congr (h : ctx.Bounded) (hrules : ctx'.rules = ctx.rules)
    (hsizes : ctx'.ntsToMinSize = ctx.ntsToMinSize) : ctx'.Bounded := by
  simpa only [Bounded, width, hrules, hsizes] using h

theorem Built.bounded (h : ctx.Built) : ctx.Bounded := by
  induction h with
  | new =>
      intro nt v hv
      cases hv
  | @addRule ctx rule _ ih =>
      have hwidth : ctx.width ≤ (ctx.addRule rule).width := by
        refine List.max_le_of_forall_le _ _ fun n hn => List.le_max_of_le ?_ (Nat.le_refl n)
        rw [Context.addRule, List.map_append]
        exact List.mem_append_left _ hn
      exact fun nt v hv => (ih nt v hv).trans (fullSize_mono hwidth (Nat.le_refl _))
  | initializeWith _ hinit ih =>
      obtain ⟨ordered, hordered, hinit⟩ := Option.bind_eq_some_iff.mp hinit
      obtain ⟨counted, hcounted, hinit⟩ := Option.bind_eq_some_iff.mp hinit
      obtain ⟨len, -, hinit⟩ := Option.bind_eq_some_iff.mp hinit
      obtain rfl := Option.some.inj hinit
      obtain ⟨settled, hsettled, rfl⟩ := Option.map_eq_some_iff.mp hordered
      obtain ⟨hsame, -⟩ := calcNumOptionsLoop_spec hcounted
      exact (keptBySizing_bounded.calcMinLenLoop hsettled ih).congr hsame.rules hsame.ntsToMinSize

/-- What the search for the sizes of `ctx` comes to. -/
def MinLenSpec (ctx : Context) : Except MinLenPanic Context → Prop
  | .ok ctx' => (∀ rid < ctx.rules.length, ctx.Productive rid) ∧ ctx.LeastSizes ctx'
  | .error .brokenGrammar => ∃ rid < ctx.rules.length, ¬ ctx.Productive rid
  | .error .overflow => 2 ^ 64 ≤ fullSize ctx.width (ctx.derived.length + 1)

theorem CalcsMinLen.minLenSpec {result : Except MinLenPanic Context} (h : CalcsMinLen ctx result)
    (hattained : ctx.Attained) (hbounded : ctx.Bounded) : ctx.MinLenSpec result := by
  match result, h with
  | .ok ctx', h =>
      have hleast := h.leastSizes hattained
      exact ⟨fun rid => hleast.productive, hleast⟩
  | .error .brokenGrammar, h => exact h.not_productive rfl
  | .error .overflow, h => exact h.le_fullSize rfl hattained hbounded

/-- **The search for least sizes** ends. It panics over a rule without a derivation, or in
a large grammar over a sum that is out of range, and otherwise finds the least sizes. -/
theorem Built.calcsMinLen_spec (h : ctx.Built) :
    (∃ result, ctx.CalcsMinLen result) ∧
      ∀ result, ctx.CalcsMinLen result → ctx.MinLenSpec result := by
  obtain ⟨-, hattained⟩ := h.invariants
  exact ⟨exists_calcsMinLen ctx, fun result hresult => hresult.minLenSpec hattained h.bounded⟩

/-! ## Grammars -/

def ofRules (rules : List Rule) : Context := rules.foldl addRule new

theorem built_ofRules (rules : List Rule) : (ofRules rules).Built := by
  have hfold (ctx : Context) (h : ctx.Built) : (rules.foldl addRule ctx).Built := by
    induction rules generalizing ctx with
    | nil => exact h
    | cons rule rules ih => exact ih _ (h.addRule rule)
  exact hfold new .new

theorem rules_ofRules (rules : List Rule) : (ofRules rules).rules = rules := by
  have hfold (ctx : Context) : (rules.foldl addRule ctx).rules = ctx.rules ++ rules := by
    induction rules generalizing ctx with
    | nil => exact (List.append_nil _).symm
    | cons rule rules ih =>
        rw [List.foldl_cons, ih, addRule, List.append_assoc]
        rfl
  exact hfold new

theorem Productive.exists_derives (h : ctx.Productive rid) (hrule : ctx.getRule rid = some rule) :
    ∃ tree, Derives ctx rule.nonterm tree := by
  obtain ⟨tree, rule', label, children, hrule', hlabel, hchildren, rfl⟩ := h
  obtain rfl := Option.some.inj (hrule'.symm.trans hrule)
  exact ⟨_, .node hrule hlabel hchildren⟩

theorem productive_of_derives (hrule : ctx.getRule rid = some rule)
    (h : ∀ nt ∈ rule.nonterms, ∃ tree, Derives ctx nt tree) : ctx.Productive rid := by
  have hforest (nts : List NTermId) (h : ∀ nt ∈ nts, ∃ tree, Derives ctx nt tree) :
      ∃ trees, List.Forall₂ (Derives ctx) nts trees := by
    induction nts with
    | nil => exact ⟨[], .nil⟩
    | cons nt nts ih =>
        obtain ⟨tree, htree⟩ := h nt List.mem_cons_self
        obtain ⟨trees, htrees⟩ := ih fun nt' hmem => h nt' (List.mem_cons_of_mem nt hmem)
        exact ⟨tree :: trees, .cons htree htrees⟩
  obtain ⟨trees, htrees⟩ := hforest rule.nonterms h
  obtain ⟨label, hlabel⟩ := rule.exists_labelledBy rid
  exact ⟨_, rule, label, trees, hrule, hlabel, htrees, rfl⟩

/-- Products of one number. -/
def products : Context :=
  ofRules [.plain { nonterm := 0, children := [.nTerm 0, .term [0x2a], .nTerm 0] },
    .plain { nonterm := 0, children := [.term [0x32]] }]

theorem productive_products : ∀ rid < products.rules.length, products.Productive rid := by
  have hone : products.Productive 1 := productive_of_derives rfl (List.forall_mem_nil _)
  intro rid hlt
  match rid, hlt with
  | 0, _ =>
      refine productive_of_derives rfl fun nt hmem => ?_
      obtain rfl : nt = 0 := by
        rcases List.mem_cons.mp hmem with rfl | hmem
        · rfl
        · exact List.mem_singleton.mp hmem
      exact hone.exists_derives rfl
  | 1, _ => exact hone

/-- The least sizes of the products are found. -/
theorem leastSizes_products :
    ∃ ctx', products.CalcsMinLen (.ok ctx') ∧ products.LeastSizes ctx' := by
  obtain ⟨⟨result, hresult⟩, hspec⟩ := Built.calcsMinLen_spec (built_ofRules _ : products.Built)
  have hmin := hspec result hresult
  match result, hresult, hmin with
  | .ok ctx', hresult, hmin => exact ⟨ctx', hresult, hmin.2⟩
  | .error .brokenGrammar, _, hmin =>
      obtain ⟨rid, hlt, hnot⟩ := hmin
      exact absurd (productive_products rid hlt) hnot
  | .error .overflow, _, hmin =>
      have hlarge : 2 ^ 64 ≤ fullSize products.width (products.derived.length + 1) := hmin
      exact absurd hlarge (by decide)

/-! ### Sizes that double -/

def doublingRule : NTermId → Rule
  | 0 => .plain { nonterm := 0, children := [.term [0x32]] }
  | nt + 1 => .plain { nonterm := nt + 1, children := [.nTerm nt, .nTerm nt] }

def doubling : Context := ofRules ((List.range 65).map doublingRule)

theorem nonterm_doublingRule (nt : NTermId) : (doublingRule nt).nonterm = nt := by
  cases nt <;> rfl

theorem getRule_doubling : doubling.getRule rid = some rule ↔
    rid < 65 ∧ doublingRule rid = rule := by
  rw [getRule, doubling, rules_ofRules, List.getElem?_map, Option.map_eq_some_iff]
  simp only [List.getElem?_eq_some_iff, List.length_range, List.getElem_range]
  constructor
  · rintro ⟨_, ⟨hlt, rfl⟩, hrule⟩
    exact ⟨hlt, hrule⟩
  · rintro ⟨hlt, hrule⟩
    exact ⟨rid, ⟨hlt, rfl⟩, hrule⟩

theorem productive_doubling (h : rid < 65) : doubling.Productive rid := by
  induction rid with
  | zero =>
      exact productive_of_derives (getRule_doubling.mpr ⟨h, rfl⟩) (List.forall_mem_nil _)
  | succ rid ih =>
      have hrule : doubling.getRule rid = some (doublingRule rid) :=
        getRule_doubling.mpr ⟨Nat.lt_of_succ_lt h, rfl⟩
      have hderives := (ih (Nat.lt_of_succ_lt h)).exists_derives hrule
      rw [nonterm_doublingRule] at hderives
      refine productive_of_derives (getRule_doubling.mpr ⟨h, rfl⟩) fun nt hmem => ?_
      obtain rfl : nt = rid := by
        rcases List.mem_cons.mp hmem with rfl | hmem
        · rfl
        · exact List.mem_singleton.mp hmem
      exact hderives

theorem pow_le_doubling (hrules : ctx.rules = doubling.rules) (hattained : ctx.Attained)
    (hv : ctx.ntsToMinSize.lookup nt = some v) : 2 ^ nt ≤ v := by
  induction nt generalizing v with
  | zero =>
      obtain ⟨rid, rule, m, -, -, hm, hle⟩ := hattained 0 v hv
      exact (le_addMinSizes hm).trans hle
  | succ nt ih =>
      obtain ⟨rid, rule, m, hrule, hnt, hm, hle⟩ := hattained (nt + 1) v hv
      rw [getRule, hrules, ← getRule] at hrule
      obtain ⟨-, rfl⟩ := getRule_doubling.mp hrule
      rw [nonterm_doublingRule] at hnt
      subst hnt
      obtain ⟨u, hu, -, hrest⟩ := addMinSizes_cons.mp hm
      obtain ⟨u', hu', -, hrest⟩ := addMinSizes_cons.mp hrest
      obtain rfl := Option.some.inj (hu.symm.trans hu')
      have hsum := le_addMinSizes hrest
      have hpow := ih hu
      rw [Nat.pow_succ]
      omega

/-- Every rule has a derivation, and the search panics: the last sum has no place in
64 bits. -/
theorem doubling_panics : doubling.Built ∧
    (∀ rid < doubling.rules.length, doubling.Productive rid) ∧
    ∃ p, doubling.CalcsMinLen (.error p) := by
  have hbuilt : doubling.Built := built_ofRules _
  refine ⟨hbuilt, fun rid hlt => ?_, ?_⟩
  · rw [doubling, rules_ofRules, List.length_map, List.length_range] at hlt
    exact productive_doubling hlt
  · obtain ⟨result, hresult⟩ := exists_calcsMinLen doubling
    match result, hresult with
    | .error p, hresult => exact ⟨p, hresult⟩
    | .ok ctx', hresult =>
        obtain ⟨rounds, settled, hloop, -⟩ := hresult.exists_loop
        obtain ⟨hrules, -, hkept⟩ := calcMinLenLoop_keeps hloop
        have hlt : 64 < settled.rules.length := by
          rw [hrules, doubling, rules_ofRules, List.length_map, List.length_range]
          omega
        obtain ⟨rule, m, v, hrule, -, hm, -⟩ := calcMinLenLoop_settles hloop 64 hlt
        rw [getRule, hrules, ← getRule] at hrule
        obtain ⟨-, rfl⟩ := getRule_doubling.mp hrule
        obtain ⟨u, hu, hfits, hrest⟩ := addMinSizes_cons.mp hm
        obtain ⟨u', hu', hfits', -⟩ := addMinSizes_cons.mp hrest
        obtain rfl := Option.some.inj (hu.symm.trans hu')
        have hpow : 2 ^ 63 ≤ u := pow_le_doubling hrules (hkept hbuilt.invariants.2) hu
        omega

end Context

end Libaflmm
