import Libaflmm.Grammar

/-!
# Least sizes

What the loops over the rules leave behind. A rule is settled when its size is
one more than the sizes of its nonterminals, and not below that of the
nonterminal it derives. A pass over the rules that lowers no size settles all
of them, and the passes go on until there is such a pass.

The size of a nonterminal is attained by one of its rules all along, so that
it is the least of their sizes in the end.
-/

namespace Libaflmm

/-! ## Sums of sizes -/

theorem addMinSizes_cons {sizes : HashMap NTermId Nat} {nt : NTermId} {nts : List NTermId}
    {res m : Nat} :
    addMinSizes sizes (nt :: nts) res = some (some m) ↔
      ∃ v, sizes.lookup nt = some v ∧ res + v < 2 ^ 64 ∧
        addMinSizes sizes nts (res + v) = some (some m) := by
  rw [addMinSizes]
  cases sizes.lookup nt with
  | none => simp
  | some v =>
      simp only [Option.bind_eq_bind, Option.bind_eq_some_iff, usizeAdd_eq_some,
        Option.some.injEq, exists_eq_left']
      constructor
      · rintro ⟨_, ⟨hlt, rfl⟩, hrest⟩
        exact ⟨hlt, hrest⟩
      · rintro ⟨hlt, hrest⟩
        exact ⟨_, ⟨hlt, rfl⟩, hrest⟩

theorem addMinSizes_mono {sizes sizes' : HashMap NTermId Nat}
    (h : ∀ nt v, sizes.lookup nt = some v → ∃ v', sizes'.lookup nt = some v' ∧ v' ≤ v)
    {nts : List NTermId} {res res' m : Nat} (hres : res' ≤ res)
    (hm : addMinSizes sizes nts res = some (some m)) :
    ∃ m', addMinSizes sizes' nts res' = some (some m') ∧ m' ≤ m := by
  induction nts generalizing res res' with
  | nil =>
      obtain rfl : res = m := by simpa [addMinSizes] using hm
      exact ⟨res', rfl, hres⟩
  | cons nt nts ih =>
      obtain ⟨v, hv, hlt, hrest⟩ := addMinSizes_cons.mp hm
      obtain ⟨v', hv', hle⟩ := h nt v hv
      obtain ⟨m', hm', hle'⟩ := ih (Nat.add_le_add hres hle) hrest
      exact ⟨m', addMinSizes_cons.mpr ⟨v', hv', by omega, hm'⟩, hle'⟩

theorem addMinSizes_lt {sizes : HashMap NTermId Nat} {nts : List NTermId} {res m : Nat}
    (hres : res < 2 ^ 64) (hm : addMinSizes sizes nts res = some (some m)) : m < 2 ^ 64 := by
  induction nts generalizing res with
  | nil =>
      obtain rfl : res = m := by simpa [addMinSizes] using hm
      exact hres
  | cons nt nts ih =>
      obtain ⟨v, -, hlt, hrest⟩ := addMinSizes_cons.mp hm
      exact ih hlt hrest

theorem addMinSizes_extend {sizes sizes' : HashMap NTermId Nat}
    (h : ∀ nt v, sizes.lookup nt = some v → sizes'.lookup nt = some v)
    {nts : List NTermId} {res m : Nat} (hm : addMinSizes sizes nts res = some (some m)) :
    addMinSizes sizes' nts res = some (some m) := by
  induction nts generalizing res with
  | nil => exact hm
  | cons nt nts ih =>
      obtain ⟨v, hv, hlt, hrest⟩ := addMinSizes_cons.mp hm
      exact addMinSizes_cons.mpr ⟨v, h nt v hv, hlt, ih hrest⟩

theorem le_addMinSizes {sizes : HashMap NTermId Nat} {nts : List NTermId} {res m : Nat}
    (h : addMinSizes sizes nts res = some (some m)) : res ≤ m := by
  induction nts generalizing res with
  | nil => exact Nat.le_of_eq (by simpa [addMinSizes] using h)
  | cons nt nts ih =>
      obtain ⟨v, -, -, hrest⟩ := addMinSizes_cons.mp h
      exact (Nat.le_add_right res v).trans (ih hrest)

namespace Context

/-! ## The invariants -/

/-- The lists of the nonterminals hold exactly the rules that derive them. -/
structure Listed (ctx : Context) : Prop where
  derives : ∀ nt ids rid, ctx.ntsToRules.lookup nt = some ids → rid ∈ ids →
    ∃ rule, ctx.getRule rid = some rule ∧ rule.nonterm = nt
  mem : ∀ rid rule, ctx.getRule rid = some rule →
    ∃ ids, ctx.ntsToRules.lookup rule.nonterm = some ids ∧ rid ∈ ids

def Attained (ctx : Context) : Prop :=
  ∀ nt v, ctx.ntsToMinSize.lookup nt = some v → ∃ rid rule m,
    ctx.getRule rid = some rule ∧ rule.nonterm = nt ∧
      addMinSizes ctx.ntsToMinSize rule.nonterms 1 = some (some m) ∧ m ≤ v

def Settled (ctx : Context) (rid : RuleId) : Prop :=
  ∃ rule m v, ctx.getRule rid = some rule ∧ ctx.rulesToMinSize.lookup rid = some m ∧
    addMinSizes ctx.ntsToMinSize rule.nonterms 1 = some (some m) ∧
      ctx.ntsToMinSize.lookup rule.nonterm = some v ∧ v ≤ m

/-! ## One rule -/

def leastSize (ctx : Context) (nt : NTermId) (m : Nat) : Nat :=
  (ctx.ntsToMinSize.lookup nt).getD m

/-- A rule is sized at `m`. -/
def sized (ctx : Context) (rid : RuleId) (rule : Rule) (m : Nat) : Context :=
  { ctx with
    ntsToMinSize := AList.insert rule.nonterm
      (if m < ctx.leastSize rule.nonterm m then m else ctx.leastSize rule.nonterm m)
      ctx.ntsToMinSize
    rulesToMinSize := AList.insert rid m ctx.rulesToMinSize }

/-- A rule either stays unknown, with nothing changed, or is sized. -/
theorem sizeRule_cases {ctx ctx' : Context} {rid : RuleId} {changed changed' keep : Bool}
    (h : ctx.sizeRule rid changed = some (keep, changed', ctx')) :
    (keep = true ∧ changed' = changed ∧ ctx' = ctx) ∨
    ∃ rule m, keep = false ∧ ctx.getRule rid = some rule ∧
      addMinSizes ctx.ntsToMinSize rule.nonterms 1 = some (some m) ∧
      changed' = (changed || decide (m < ctx.leastSize rule.nonterm m)) ∧
      ctx' = ctx.sized rid rule m := by
  unfold sizeRule calcMinLenForRule at h
  cases hrule : ctx.getRule rid with
  | none => simp [hrule] at h
  | some rule =>
      simp only [hrule, Option.bind_eq_bind, Option.bind_some, Option.map_some] at h
      cases hsize : addMinSizes ctx.ntsToMinSize rule.nonterms 1 with
      | none => simp [hsize] at h
      | some size =>
          simp only [hsize, Option.bind_some] at h
          cases size with
          | none =>
              obtain ⟨rfl, rfl, rfl⟩ : true = keep ∧ changed = changed' ∧ ctx = ctx' := by
                simpa using h
              exact .inl ⟨rfl, rfl, rfl⟩
          | some m =>
              obtain ⟨hkeep, hrest⟩ := Prod.mk.inj (Option.some.inj h)
              obtain ⟨hchanged, hctx⟩ := Prod.mk.inj hrest
              exact .inr ⟨rule, m, hkeep.symm, rfl, hsize, hchanged.symm, hctx.symm⟩

theorem lookup_sized {ctx : Context} {rid : RuleId} {rule : Rule} {m : Nat} {nt : NTermId} :
    (ctx.sized rid rule m).ntsToMinSize.lookup nt =
      if nt = rule.nonterm then some (min m (ctx.leastSize nt m))
      else ctx.ntsToMinSize.lookup nt := by
  simp only [sized, HashMap.lookup_insert]
  split
  · next hnt =>
      subst hnt
      split <;> congr 1 <;> omega
  · rfl

theorem sized_le {ctx : Context} {rid : RuleId} {rule : Rule} {m v : Nat} {nt : NTermId}
    (hv : ctx.ntsToMinSize.lookup nt = some v) :
    ∃ v', (ctx.sized rid rule m).ntsToMinSize.lookup nt = some v' ∧ v' ≤ v := by
  rw [lookup_sized]
  split
  · rw [leastSize, hv]
    exact ⟨_, rfl, Nat.min_le_right m v⟩
  · exact ⟨v, hv, Nat.le_refl v⟩

theorem sized_eq {ctx : Context} {rid : RuleId} {rule : Rule} {m v : Nat} {nt : NTermId}
    (h : ctx.leastSize rule.nonterm m ≤ m) (hv : ctx.ntsToMinSize.lookup nt = some v) :
    (ctx.sized rid rule m).ntsToMinSize.lookup nt = some v := by
  rw [lookup_sized]
  split
  · next hnt =>
      rw [← hnt] at h
      rw [Nat.min_eq_right h, leastSize, hv, Option.getD_some]
  · exact hv

/-- What a loop over the rules keeps. -/
structure Keeps (ctx ctx' : Context) : Prop where
  rules : ctx'.rules = ctx.rules
  ntsToRules : ctx'.ntsToRules = ctx.ntsToRules
  attained : ctx.Attained → ctx'.Attained

theorem Keeps.refl (ctx : Context) : Keeps ctx ctx := ⟨rfl, rfl, id⟩

theorem Keeps.trans {a b c : Context} (h : Keeps a b) (h' : Keeps b c) : Keeps a c :=
  ⟨h'.rules.trans h.rules, h'.ntsToRules.trans h.ntsToRules, h'.attained ∘ h.attained⟩

/-- The rule that attained a size before still does, unless the size is now
that of the rule at hand. -/
theorem sized_keeps {ctx : Context} {rid : RuleId} {rule : Rule} {m : Nat}
    (hrule : ctx.getRule rid = some rule)
    (hm : addMinSizes ctx.ntsToMinSize rule.nonterms 1 = some (some m)) :
    Keeps ctx (ctx.sized rid rule m) := by
  refine ⟨rfl, rfl, fun hatt nt v hv => ?_⟩
  have hmono : ∀ nt v, ctx.ntsToMinSize.lookup nt = some v →
      ∃ v', (ctx.sized rid rule m).ntsToMinSize.lookup nt = some v' ∧ v' ≤ v :=
    fun _ _ => sized_le
  have hold : ∀ u, ctx.ntsToMinSize.lookup nt = some u → u ≤ v → ∃ rid' rule' k,
      (ctx.sized rid rule m).getRule rid' = some rule' ∧ rule'.nonterm = nt ∧
        addMinSizes (ctx.sized rid rule m).ntsToMinSize rule'.nonterms 1 = some (some k) ∧
          k ≤ v := by
    intro u hu hle
    obtain ⟨rid', rule', k, hrule', hnt, hk, hku⟩ := hatt nt u hu
    obtain ⟨k', hk', hkk⟩ := addMinSizes_mono hmono (Nat.le_refl 1) hk
    exact ⟨rid', rule', k', hrule', hnt, hk', (hkk.trans hku).trans hle⟩
  obtain ⟨m', hm', hmm⟩ := addMinSizes_mono hmono (Nat.le_refl 1) hm
  have hcase := hv
  rw [lookup_sized] at hcase
  split at hcase
  · next hnt =>
      have hmin := Option.some.inj hcase
      by_cases hle : m ≤ ctx.leastSize nt m
      · exact ⟨rid, rule, m', hrule, hnt.symm, hm', by omega⟩
      · cases hu : ctx.ntsToMinSize.lookup nt with
        | none => exact absurd (Nat.le_of_eq (by rw [leastSize, hu, Option.getD_none])) hle
        | some u =>
            have hleast : ctx.leastSize nt m = u := by rw [leastSize, hu, Option.getD_some]
            exact hold u hu (by omega)
  · exact hold v hcase (Nat.le_refl v)

/-- `P` holds on, whichever rule is sized. -/
def KeptBySizing (P : Bool → Context → Prop) : Prop :=
  ∀ changed ctx rid rule m, P changed ctx → ctx.getRule rid = some rule →
    addMinSizes ctx.ntsToMinSize rule.nonterms 1 = some (some m) →
    P (changed || decide (m < ctx.leastSize rule.nonterm m)) (ctx.sized rid rule m)

theorem keptBySizing_keeps (first : Context) : KeptBySizing fun _ ctx => Keeps first ctx :=
  fun _ _ _ _ _ h hrule hm => h.trans (sized_keeps hrule hm)

/-- A step that changes no size settles its rule, and leaves the others settled. -/
theorem sizeRule_settles {ctx ctx' : Context} {rid : RuleId} {changed keep : Bool}
    (h : ctx.sizeRule rid changed = some (keep, false, ctx')) :
    changed = false ∧ (keep = true ∨ ctx'.Settled rid) ∧
      ∀ rid', ctx.Settled rid' → ctx'.Settled rid' := by
  rcases sizeRule_cases h with ⟨hkeep, hchanged, rfl⟩ | ⟨rule, m, -, hrule, hm, hchanged, rfl⟩
  · exact ⟨hchanged.symm, .inl hkeep, fun _ => id⟩
  · obtain ⟨hchanged, hle⟩ : changed = false ∧ ctx.leastSize rule.nonterm m ≤ m := by
      simpa using hchanged.symm
    have hext : ∀ nt v, ctx.ntsToMinSize.lookup nt = some v →
        (ctx.sized rid rule m).ntsToMinSize.lookup nt = some v := fun _ _ => sized_eq hle
    have hself : (ctx.sized rid rule m).Settled rid := by
      refine ⟨rule, m, _, hrule, ?_, addMinSizes_extend hext hm, ?_, hle⟩
      · simp only [sized, HashMap.lookup_insert, if_true]
      · rw [lookup_sized, if_pos rfl, Nat.min_eq_right hle]
    refine ⟨hchanged, .inr hself, fun rid' hsettled => ?_⟩
    by_cases hrid : rid' = rid
    · rw [hrid]
      exact hself
    · obtain ⟨rule', m', v, hrule', hm', hsum, hv, hle'⟩ := hsettled
      refine ⟨rule', m', v, hrule', ?_, addMinSizes_extend hext hsum, hext _ _ hv, hle'⟩
      simpa only [sized, HashMap.lookup_insert, if_neg hrid] using hm'

/-! ## The loops -/

section

variable {P : Bool → Context → Prop} {rids unknown : List RuleId} {changed changed' : Bool}
  {ctx ctx' : Context}

theorem KeptBySizing.retainUnknown (hP : KeptBySizing P)
    (h : retainUnknown rids changed ctx = some (unknown, changed', ctx')) (hctx : P changed ctx) :
    P changed' ctx' := by
  induction rids generalizing ctx changed unknown with
  | nil =>
      cases h
      exact hctx
  | cons rid rids ih =>
      rw [Libaflmm.retainUnknown] at h
      obtain ⟨⟨keep, b, mid⟩, hstep, h⟩ := Option.bind_eq_some_iff.mp h
      obtain ⟨⟨rest, b', last⟩, hrest, h⟩ := Option.bind_eq_some_iff.mp h
      cases h
      refine ih hrest ?_
      rcases sizeRule_cases hstep with ⟨-, rfl, rfl⟩ | ⟨rule, m, -, hrule, hm, rfl, rfl⟩
      · exact hctx
      · exact hP changed ctx rid rule m hctx hrule hm

theorem KeptBySizing.sizeUnknown {rounds : Nat} (hP : KeptBySizing P)
    (h : Libaflmm.sizeUnknown rounds unknown changed ctx = some (changed', ctx'))
    (hctx : P changed ctx) : P changed' ctx' := by
  induction rounds generalizing unknown changed ctx with
  | zero =>
      cases unknown with
      | nil =>
          cases h
          exact hctx
      | cons => cases h
  | succ rounds ih =>
      cases unknown with
      | nil =>
          cases h
          exact hctx
      | cons rid rids =>
          rw [Libaflmm.sizeUnknown] at h
          obtain ⟨⟨rest, b, mid⟩, hstep, h⟩ := Option.bind_eq_some_iff.mp h
          dsimp only at h
          split at h
          · cases h
          · exact ih h (hP.retainUnknown hstep hctx)

theorem KeptBySizing.calcMinLenLoop {Q : Context → Prop} {rounds : Nat}
    (hQ : KeptBySizing fun _ => Q) (h : Libaflmm.calcMinLenLoop rounds ctx = some ctx')
    (hctx : Q ctx) : Q ctx' := by
  induction rounds generalizing ctx with
  | zero => cases h
  | succ rounds ih =>
      rw [Libaflmm.calcMinLenLoop] at h
      obtain ⟨⟨b, mid⟩, hstep, h⟩ := Option.bind_eq_some_iff.mp h
      have hmid : Q mid := hQ.sizeUnknown hstep hctx
      dsimp only at h
      split at h
      · exact ih h hmid
      · cases h
        exact hmid

end

theorem retainUnknown_settles {rids unknown : List RuleId} {changed : Bool} {ctx ctx' : Context}
    (h : retainUnknown rids changed ctx = some (unknown, false, ctx')) :
    changed = false ∧ (∀ rid, ctx.Settled rid → ctx'.Settled rid) ∧
      ∀ rid ∈ rids, rid ∈ unknown ∨ ctx'.Settled rid := by
  induction rids generalizing ctx changed unknown with
  | nil =>
      obtain ⟨-, rfl, rfl⟩ : [] = unknown ∧ changed = false ∧ ctx = ctx' := by
        simpa [retainUnknown] using h
      exact ⟨rfl, fun _ => id, fun rid hmem => absurd hmem List.not_mem_nil⟩
  | cons rid rids ih =>
      rw [retainUnknown] at h
      obtain ⟨⟨keep, b, mid⟩, hstep, h⟩ := Option.bind_eq_some_iff.mp h
      obtain ⟨⟨rest, b', last⟩, hrest, h⟩ := Option.bind_eq_some_iff.mp h
      obtain ⟨hunknown, rfl, rfl⟩ : _ ∧ b' = false ∧ last = ctx' := by
        simpa only [Option.some.injEq, Prod.mk.injEq] using h
      obtain ⟨rfl, hold, hmem⟩ := ih hrest
      obtain ⟨rfl, hself, hmid⟩ := sizeRule_settles hstep
      refine ⟨rfl, fun rid' hsettled => hold rid' (hmid rid' hsettled), fun rid' hin => ?_⟩
      have hsub : ∀ r ∈ rest, r ∈ unknown := by
        intro r hr
        rw [← hunknown]
        split
        · exact List.mem_cons_of_mem _ hr
        · exact hr
      rcases List.mem_cons.mp hin with rfl | htail
      · rcases hself with hkeep | hsettled
        · refine .inl ?_
          rw [← hunknown, if_pos hkeep]
          exact List.mem_cons_self ..
        · exact .inr (hold _ hsettled)
      · exact (hmem rid' htail).imp (hsub rid') id

theorem sizeUnknown_keeps {rounds : Nat} {unknown : List RuleId} {changed changed' : Bool}
    {ctx ctx' : Context} (h : sizeUnknown rounds unknown changed ctx = some (changed', ctx')) :
    Keeps ctx ctx' :=
  (keptBySizing_keeps ctx).sizeUnknown h (Keeps.refl ctx)

theorem sizeUnknown_settles {rounds : Nat} {unknown : List RuleId} {changed : Bool}
    {ctx ctx' : Context} (h : sizeUnknown rounds unknown changed ctx = some (false, ctx')) :
    changed = false ∧ (∀ rid, ctx.Settled rid → ctx'.Settled rid) ∧
      ∀ rid ∈ unknown, ctx'.Settled rid := by
  induction rounds generalizing unknown changed ctx with
  | zero =>
      cases unknown with
      | nil =>
          obtain ⟨rfl, rfl⟩ : changed = false ∧ ctx = ctx' := by simpa [sizeUnknown] using h
          exact ⟨rfl, fun _ => id, List.forall_mem_nil _⟩
      | cons => cases h
  | succ rounds ih =>
      cases unknown with
      | nil =>
          obtain ⟨rfl, rfl⟩ : changed = false ∧ ctx = ctx' := by simpa [sizeUnknown] using h
          exact ⟨rfl, fun _ => id, List.forall_mem_nil _⟩
      | cons rid rids =>
          rw [sizeUnknown] at h
          obtain ⟨⟨rest, b, mid⟩, hstep, h⟩ := Option.bind_eq_some_iff.mp h
          dsimp only at h
          split at h
          · cases h
          · obtain ⟨rfl, hlater, hrest⟩ := ih h
            obtain ⟨rfl, hmid, hmem⟩ := retainUnknown_settles hstep
            exact ⟨rfl, fun r hr => hlater r (hmid r hr),
              fun r hr => (hmem r hr).elim (hrest r) (hlater r)⟩

theorem calcMinLenLoop_keeps {rounds : Nat} {ctx ctx' : Context}
    (h : calcMinLenLoop rounds ctx = some ctx') : Keeps ctx ctx' :=
  (keptBySizing_keeps ctx).calcMinLenLoop h (Keeps.refl ctx)

/-- The last pass is over all rules, and changes no size. -/
theorem calcMinLenLoop_settles {rounds : Nat} {ctx ctx' : Context}
    (h : calcMinLenLoop rounds ctx = some ctx') : ∀ rid < ctx'.rules.length, ctx'.Settled rid := by
  induction rounds generalizing ctx with
  | zero => cases h
  | succ rounds ih =>
      rw [calcMinLenLoop] at h
      obtain ⟨⟨b, mid⟩, hstep, h⟩ := Option.bind_eq_some_iff.mp h
      dsimp only at h
      cases b with
      | true => exact ih h
      | false =>
          obtain rfl := Option.some.inj h
          intro rid hlt
          rw [(sizeUnknown_keeps hstep).rules] at hlt
          exact (sizeUnknown_settles hstep).2.2 rid (List.mem_range.mpr hlt)

/-! ### Options -/

/-- Counting the options leaves the sizes alone. -/
structure SameSizes (ctx ctx' : Context) : Prop where
  rules : ctx'.rules = ctx.rules
  ntsToRules : ctx'.ntsToRules = ctx.ntsToRules
  rulesToMinSize : ctx'.rulesToMinSize = ctx.rulesToMinSize
  ntsToMinSize : ctx'.ntsToMinSize = ctx.ntsToMinSize

theorem SameSizes.trans {a b c : Context} (h : SameSizes a b) (h' : SameSizes b c) :
    SameSizes a c :=
  ⟨h'.rules.trans h.rules, h'.ntsToRules.trans h.ntsToRules,
    h'.rulesToMinSize.trans h.rulesToMinSize, h'.ntsToMinSize.trans h.ntsToMinSize⟩

theorem countOptions_spec {rids : List RuleId} {changed changed' : Bool} {ctx ctx' : Context}
    (h : countOptions rids changed ctx = some (changed', ctx')) :
    SameSizes ctx ctx' ∧
      (∀ rid, rid ∈ rids ∨ (ctx.rulesToNumOptions.lookup rid).isSome →
        (ctx'.rulesToNumOptions.lookup rid).isSome) := by
  induction rids generalizing ctx changed with
  | nil =>
      obtain ⟨-, rfl⟩ : changed = changed' ∧ ctx = ctx' := by simpa [countOptions] using h
      exact ⟨⟨rfl, rfl, rfl, rfl⟩, fun rid hrid => hrid.resolve_left List.not_mem_nil⟩
  | cons rid rids ih =>
      rw [countOptions] at h
      obtain ⟨num, -, h⟩ := Option.bind_eq_some_iff.mp h
      obtain ⟨nt, -, h⟩ := Option.bind_eq_some_iff.mp h
      obtain ⟨hsame, hsome⟩ := ih h
      refine ⟨⟨hsame.rules, hsame.ntsToRules, hsame.rulesToMinSize, hsame.ntsToMinSize⟩,
        fun rid' hrid => ?_⟩
      by_cases heq : rid' = rid
      · exact hsome rid' (.inr (by simp [HashMap.lookup_insert, heq]))
      · refine hsome rid' (hrid.imp (fun hmem => ?_) fun hold => ?_)
        · exact (List.mem_cons.mp hmem).resolve_left heq
        · simpa only [HashMap.lookup_insert, if_neg heq] using hold

theorem calcNumOptionsLoop_spec {rounds : Nat} {ctx ctx' : Context}
    (h : calcNumOptionsLoop rounds ctx = some ctx') :
    SameSizes ctx ctx' ∧
      ∀ rid < ctx.rules.length, (ctx'.rulesToNumOptions.lookup rid).isSome := by
  induction rounds generalizing ctx with
  | zero => cases h
  | succ rounds ih =>
      rw [calcNumOptionsLoop] at h
      obtain ⟨⟨b, mid⟩, hstep, h⟩ := Option.bind_eq_some_iff.mp h
      obtain ⟨hsame, hsome⟩ := countOptions_spec hstep
      dsimp only at h
      split at h
      · obtain ⟨hsame', hsome'⟩ := ih h
        exact ⟨hsame.trans hsame', fun rid hlt => hsome' rid (by rwa [hsame.rules])⟩
      · obtain rfl := Option.some.inj h
        exact ⟨hsame, fun rid hlt => hsome rid (.inl (List.mem_range.mpr hlt))⟩

/-! ## After the initialisation -/

def ruleSize (ctx : Context) (rid : RuleId) : Nat := (ctx.rulesToMinSize.lookup rid).getD 0

structure Exact (ctx : Context) : Prop where
  listed : ctx.Listed
  attained : ctx.Attained
  settled : ∀ rid < ctx.rules.length, ctx.Settled rid
  sorted : ∀ nt ids, ctx.ntsToRules.lookup nt = some ids →
    ids.Pairwise fun r1 r2 => ctx.ruleSize r1 ≤ ctx.ruleSize r2
  options : ∀ rid < ctx.rules.length, (ctx.rulesToNumOptions.lookup rid).isSome

theorem Keeps.listed {ctx ctx' : Context} (h : Keeps ctx ctx') (hlisted : ctx.Listed) :
    ctx'.Listed := by
  obtain ⟨hderives, hmem⟩ := hlisted
  constructor
  · simpa only [getRule, h.rules, h.ntsToRules] using hderives
  · simpa only [getRule, h.rules, h.ntsToRules] using hmem

theorem Listed.calcRuleOrder {ctx : Context} (h : ctx.Listed) : ctx.calcRuleOrder.Listed := by
  constructor
  · intro nt ids rid hids hmem
    simp only [Context.calcRuleOrder, HashMap.lookup_mapValues] at hids
    obtain ⟨old, hold, rfl⟩ := Option.map_eq_some_iff.mp hids
    exact h.derives nt old rid hold ((List.mem_insertionSort _).mp hmem)
  · intro rid rule hrule
    obtain ⟨ids, hids, hmem⟩ := h.mem rid rule hrule
    have hlookup : ctx.calcRuleOrder.ntsToRules.lookup rule.nonterm =
        some (ids.insertionSort fun r1 r2 => ctx.ruleSize r1 ≤ ctx.ruleSize r2) := by
      simp only [Context.calcRuleOrder, HashMap.lookup_mapValues, hids, Option.map_some]
      rfl
    exact ⟨_, hlookup, (List.mem_insertionSort _).mpr hmem⟩

theorem calcRuleOrder_sorted {ctx : Context} {nt : NTermId} {ids : List RuleId}
    (h : ctx.calcRuleOrder.ntsToRules.lookup nt = some ids) :
    ids.Pairwise fun r1 r2 => ctx.calcRuleOrder.ruleSize r1 ≤ ctx.calcRuleOrder.ruleSize r2 := by
  simp only [calcRuleOrder, HashMap.lookup_mapValues] at h
  obtain ⟨old, -, rfl⟩ := Option.map_eq_some_iff.mp h
  have : Std.Total fun r1 r2 => ctx.ruleSize r1 ≤ ctx.ruleSize r2 :=
    ⟨fun r1 r2 => Nat.le_total _ _⟩
  have : IsTrans RuleId fun r1 r2 => ctx.ruleSize r1 ≤ ctx.ruleSize r2 :=
    ⟨fun _ _ _ => Nat.le_trans⟩
  exact List.pairwise_insertionSort _ old

theorem initializeWith_exact {ctx ctx' : Context} {rounds maxLen : Nat} (hlisted : ctx.Listed)
    (hattained : ctx.Attained) (h : ctx.initializeWith rounds maxLen = some ctx') : ctx'.Exact := by
  obtain ⟨ordered, hordered, h⟩ := Option.bind_eq_some_iff.mp h
  obtain ⟨counted, hcounted, h⟩ := Option.bind_eq_some_iff.mp h
  obtain ⟨len, -, h⟩ := Option.bind_eq_some_iff.mp h
  obtain rfl := Option.some.inj h
  obtain ⟨mid, hmid, rfl⟩ := Option.map_eq_some_iff.mp hordered
  have hkeeps := calcMinLenLoop_keeps hmid
  have hsettled := calcMinLenLoop_settles hmid
  obtain ⟨hsame, hoptions⟩ := calcNumOptionsLoop_spec hcounted
  have hrules : counted.rules = mid.calcRuleOrder.rules := hsame.rules
  have hlists : counted.ntsToRules = mid.calcRuleOrder.ntsToRules := hsame.ntsToRules
  have hsizes : counted.rulesToMinSize = mid.calcRuleOrder.rulesToMinSize := hsame.rulesToMinSize
  have hleast : counted.ntsToMinSize = mid.calcRuleOrder.ntsToMinSize := hsame.ntsToMinSize
  have hmidListed := (hkeeps.listed hlisted).calcRuleOrder
  have hmidAttained : mid.calcRuleOrder.Attained := hkeeps.attained hattained
  have hmidSettled : ∀ rid < mid.calcRuleOrder.rules.length, mid.calcRuleOrder.Settled rid :=
    hsettled
  refine ⟨⟨?_, ?_⟩, ?_, ?_, ?_, ?_⟩
  · simpa only [getRule, hrules, hlists] using hmidListed.derives
  · simpa only [getRule, hrules, hlists] using hmidListed.mem
  · simpa only [Attained, getRule, hrules, hleast] using hmidAttained
  · simpa only [Settled, getRule, hrules, hleast, hsizes] using hmidSettled
  · intro nt ids hids
    simp only [hlists] at hids
    simpa only [ruleSize, hsizes] using calcRuleOrder_sorted hids
  · simpa only [hrules] using hoptions

/-! ### Every context -/

theorem getRule_addRule_of_some {ctx : Context} {rule rule' : Rule} {rid : RuleId}
    (h : ctx.getRule rid = some rule') : (ctx.addRule rule).getRule rid = some rule' := by
  obtain ⟨hlt, -⟩ := List.getElem?_eq_some_iff.mp h
  simpa only [getRule, addRule, List.getElem?_append_left hlt] using h

theorem getRule_addRule {ctx : Context} {rule rule' : Rule} {rid : RuleId}
    (h : (ctx.addRule rule).getRule rid = some rule') :
    ctx.getRule rid = some rule' ∨ rid = ctx.rules.length ∧ rule' = rule := by
  simp only [getRule, addRule] at h
  rcases Nat.lt_trichotomy rid ctx.rules.length with hlt | rfl | hgt
  · exact .inl (by rwa [List.getElem?_append_left hlt] at h)
  · rw [List.getElem?_concat_length] at h
    exact .inr ⟨rfl, (Option.some.inj h).symm⟩
  · rw [List.getElem?_eq_none (by simp; omega)] at h
    cases h

theorem Listed.addRule {ctx : Context} (h : ctx.Listed) (rule : Rule) :
    (ctx.addRule rule).Listed := by
  have hnew : (ctx.addRule rule).getRule ctx.rules.length = some rule :=
    List.getElem?_concat_length
  constructor
  · intro nt ids rid hids hmem
    simp only [Context.addRule, HashMap.lookup_insert] at hids
    split at hids
    · next hnt =>
        rw [← Option.some.inj hids] at hmem
        rcases List.mem_append.mp hmem with hold | hlast
        · cases hlookup : ctx.ntsToRules.lookup rule.nonterm with
          | none => simp [hlookup] at hold
          | some old =>
              rw [hlookup, Option.getD_some] at hold
              obtain ⟨rule', hrule', hnt'⟩ := h.derives _ _ rid hlookup hold
              exact ⟨rule', getRule_addRule_of_some hrule', hnt'.trans hnt.symm⟩
        · rw [List.mem_singleton.mp hlast]
          exact ⟨rule, hnew, hnt.symm⟩
    · obtain ⟨rule', hrule', hnt'⟩ := h.derives nt ids rid hids hmem
      exact ⟨rule', getRule_addRule_of_some hrule', hnt'⟩
  · intro rid rule' hrule'
    simp only [Context.addRule, HashMap.lookup_insert]
    rcases getRule_addRule hrule' with hold | ⟨rfl, rfl⟩
    · obtain ⟨ids, hids, hmem⟩ := h.mem rid rule' hold
      split
      · next hnt =>
          rw [hnt] at hids
          exact ⟨_, rfl, List.mem_append_left _ (by rwa [hids, Option.getD_some])⟩
      · exact ⟨ids, hids, hmem⟩
    · rw [if_pos rfl]
      exact ⟨_, rfl, List.mem_append_right _ (List.mem_singleton_self _)⟩

theorem Built.invariants {ctx : Context} (h : ctx.Built) : ctx.Listed ∧ ctx.Attained := by
  induction h with
  | new =>
      refine ⟨⟨fun nt ids rid hids => ?_, fun rid rule hrule => ?_⟩, fun nt v hv => ?_⟩
      · cases hids
      · cases hrule
      · cases hv
  | addRule rule hbuilt ih =>
      refine ⟨ih.1.addRule rule, fun nt v hv => ?_⟩
      obtain ⟨rid, rule', m, hrule', hnt, hm, hle⟩ := ih.2 nt v hv
      exact ⟨rid, rule', m, getRule_addRule_of_some hrule', hnt, hm, hle⟩
  | initializeWith hbuilt hinit ih =>
      have hexact := initializeWith_exact ih.1 ih.2 hinit
      exact ⟨hexact.listed, hexact.attained⟩

end Context

end Libaflmm
