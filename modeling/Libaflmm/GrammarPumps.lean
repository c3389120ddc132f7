import Libaflmm.GrammarSplices
import Libaflmm.RecursionSampling
import Libaflmm.TreePumps

/-!
# Random recursions

`mut_random_recursion` draws a node and a node above it with the same
nonterminal. What is between the two is repeated: the rules in front of the
lower node and those behind it are copied as often as they fit into a random
length, and the sizes are adjusted by hand. Only that of the root is read.

The draw by the depths of the nodes is a parameter, as the sampler counts in
floating point.
-/

namespace Libaflmm

open RoseTree

/-! ## Recursions of a tree -/

namespace Tree

/-- The loop of `calc_recursions`, with the nonterminals that are done. -/
def calcRecursionsLoop (tree : Tree) (ctx : Context) :
    List RuleIdOrCustom → HashSet NTermId → Option (List RecursionInfo)
  | [], _ => some []
  | rule :: rules, doneNterms => do
    let nterm ← ctx.getNt rule
    if nterm ∈ doneNterms then calcRecursionsLoop tree ctx rules doneNterms
    else do
      let recInfo ← RecursionInfo.new tree nterm ctx
      let ret ← calcRecursionsLoop tree ctx rules (AList.insert nterm () doneNterms)
      some (recInfo.toList ++ ret)

def calcRecursions (tree : Tree) (ctx : Context) : Option (Option (List RecursionInfo)) := do
  let ret ← calcRecursionsLoop tree ctx tree.rules ∅
  some (if ret = [] then none else some ret)

end Tree

/-! ## Repeating a recursion -/

namespace GrammarMutator

/-- `times` copies of the elements from `start` on, `len` of them. -/
def repeated {α : Type} (l : List α) (start len times : Nat) : Option (List α) :=
  (List.range (times * len)).mapM fun i => l[start + i % len]?

/-- The numbers stay below that of the nodes and the random length, so that only the
differences are checked. -/
def recursionTree (tree : Tree) (recursion : NodeId × NodeId) (maxLenOfRecursions : Nat) :
    Option Tree := do
  let recursionLenPre ← usizeSub recursion.2 recursion.1
  let size ← tree.subtreeSize recursion.1
  let postfixLen ← tree.subtreeSize recursion.2
  let recursionLenTotal ← usizeSub size postfixLen
  let recursionLenPost ← usizeSub recursionLenTotal recursionLenPre
  if recursionLenTotal = 0 then none
  else do
    let numOfRecursions := maxLenOfRecursions / recursionLenTotal
    let rulesPre ← repeated tree.rules recursion.1 recursionLenPre numOfRecursions
    let sizesPre ← repeated tree.sizes recursion.1 recursionLenPre numOfRecursions
    let rulesEnd ← repeated tree.rules recursion.2 postfixLen 1
    let sizesEnd ← repeated tree.sizes recursion.2 postfixLen 1
    let sizesPre := sizesPre.mapIdx fun i item =>
      if recursionLenPre ≤ item then
        item + (numOfRecursions - i / recursionLenPre - 1) * recursionLenTotal
      else item
    let behind := recursion.2 + postfixLen
    let rulesPost ← repeated tree.rules behind recursionLenPost numOfRecursions
    let sizesPost ← repeated tree.sizes behind recursionLenPost numOfRecursions
    some ⟨rulesPre ++ rulesEnd ++ rulesPost, sizesPre ++ sizesEnd ++ sizesPost, []⟩

section

variable {σ ε R : Type} [Rand R] (sample : List Nat → R → Nat × R)

def getRandomRecursionPair (recursionInfo : RecursionInfo) (r : R) :
    Option ((NodeId × NodeId) × R) := do
  let (offset, r) := sample recursionInfo.depthByOffset r
  let recursion ← recursionInfo.getRecursionPairByOffset offset
  some (recursion, r)

def mutRandomRecursion (tree : Tree) (recursions : List RecursionInfo) (tester : RuleTester σ ε)
    (s : σ) (r : R) : Option (Except (MutError ε) Unit × σ × R) := do
  let (exponent, r) ← Rand.between 1 10 r
  let maxLenOfRecursions := 2 <<< exponent
  let (chosen, r) := Rand.choose recursions r
  match chosen with
  | none => some (.ok (), s, r)
  | some recursionInfo => do
    let (recursion, r) ← getRandomRecursionPair sample recursionInfo r
    let recursionTree ← recursionTree tree recursion maxLenOfRecursions
    let repl ← tree.mutateReplaceFromTree recursion.2 recursionTree 0
    let (res, s) := tester repl s
    some (res.mapError .tester, s, r)

end

/-! ## The copies -/

theorem mapM_eq_some {α β : Type} {f : α → Option β} {l : List α} {l' : List β}
    (h : l.map f = l'.map some) : l.mapM f = some l' := by
  induction l generalizing l' with
  | nil =>
      obtain rfl : l' = [] := List.map_eq_nil_iff.mp h.symm
      rfl
  | cons a l ih =>
      cases l' with
      | nil => cases h
      | cons b l' =>
          obtain ⟨ha, hl⟩ := List.cons.inj h
          simp only [List.mapM_cons, ha, ih hl, Option.bind_eq_bind, Option.bind_some]
          rfl

theorem map_range_getElem? {α : Type} (front part back : List α) :
    (List.range part.length).map (fun i => (front ++ part ++ back)[front.length + i]?) =
      part.map some := by
  refine List.ext_getElem (by simp) fun i hi _ => ?_
  have hlt : i < part.length := by simpa using hi
  rw [List.getElem_map, List.getElem_map, List.getElem_range, List.append_assoc,
    List.getElem?_append_right (Nat.le_add_right _ _), Nat.add_sub_cancel_left,
    List.getElem?_append_left hlt, List.getElem?_eq_getElem hlt]

theorem repeated_eq {α : Type} (front part back : List α) (times : Nat) :
    repeated (front ++ part ++ back) front.length part.length times =
      some (List.replicate times part).flatten := by
  refine mapM_eq_some ?_
  induction times with
  | zero => simp
  | succ times ih =>
      have hfirst : (List.range part.length).map
          (fun i => (front ++ part ++ back)[front.length + i % part.length]?) =
            part.map some := by
        rw [← map_range_getElem? front part back]
        refine List.map_congr_left fun i hi => ?_
        rw [Nat.mod_eq_of_lt (List.mem_range.mp hi)]
      have hrest : ∀ i, (part.length + i) % part.length = i % part.length :=
        fun i => Nat.add_mod_left ..
      rw [Nat.succ_mul, Nat.add_comm, List.range_add, List.map_append, hfirst, List.map_map,
        List.replicate_succ, List.flatten_cons, List.map_append, ← ih]
      congr 1
      refine List.map_congr_left fun i _ => ?_
      simp only [Function.comp_apply, hrest]

theorem repeated_of_le {α : Type} {l : List α} {start len : Nat} (h : start + len ≤ l.length)
    (times : Nat) :
    repeated l start len times =
      some (List.replicate times ((l.drop start).take len)).flatten := by
  have hsplit : l.take start ++ (l.drop start).take len ++ (l.drop start).drop len = l := by
    rw [List.append_assoc, List.take_append_drop, List.take_append_drop]
  have hstart : (l.take start).length = start := by
    rw [List.length_take]
    omega
  have hlen : ((l.drop start).take len).length = len := by
    rw [List.length_take, List.length_drop]
    omega
  have heq := repeated_eq (l.take start) ((l.drop start).take len) ((l.drop start).drop len) times
  rwa [hsplit, hstart, hlen] at heq

/-- The size of the root after the sizes of the copies are adjusted. -/
theorem head_adjusted {sizes : List Nat} {len size times : Nat} (total : Nat)
    (hsize : sizes.head? = some size) (hlen : len ≤ size) (htimes : 0 < times) :
    (((List.replicate times sizes).flatten).mapIdx fun i item =>
      if len ≤ item then item + (times - i / len - 1) * total else item)[0]? =
        some (size + (times - 1) * total) := by
  obtain ⟨rest, rfl⟩ : ∃ rest, sizes = size :: rest := by
    cases sizes with
    | nil => cases hsize
    | cons first rest =>
        obtain rfl := Option.some.inj hsize
        exact ⟨rest, rfl⟩
  obtain ⟨times, rfl⟩ := Nat.exists_eq_succ_of_ne_zero (Nat.pos_iff_ne_zero.mp htimes)
  rw [List.getElem?_mapIdx, List.replicate_succ, List.flatten_cons, List.cons_append,
    List.getElem?_cons_zero, Option.map_some, if_pos hlen, Nat.zero_div, Nat.sub_zero]

section

variable {tree above sub : RoseTree RuleIdOrCustom} {a k : Nat}

/-- The tree that is made is laid out like the recursion repeated, and so is the size at its
root. -/
theorem recursionTree_layOut (habove : tree.subtree? a = some above)
    (hsub : above.subtree? k = some sub) (hk : 0 < k) (maxLen : Nat) :
    ∃ made, recursionTree (Tree.layOut tree) (a, a + k) maxLen = some made ∧
      made.rules = (pump above k sub (maxLen / (above.size - sub.size))).labels ∧
      made.sizes[0]? = some (pump above k sub (maxLen / (above.size - sub.size))).size := by
  have hin := subtree?_within habove
  have hin' := subtree?_within hsub
  have hpos := size_pos sub
  have hnode : tree.subtree? (a + k) = some sub := by
    rw [subtree?_add habove (by omega), hsub]
  obtain ⟨front, back, rfl, hlabels, -⟩ := labels_subtree? habove
  obtain ⟨front', back', rfl, hlabels', hgraft⟩ := labels_subtree? hsub
  have hsize : above.size = front'.length + sub.size + back'.length := by
    have hlen := congrArg List.length hlabels'
    simp only [List.length_append, length_labels] at hlen
    exact hlen
  have hpre : usizeSub (front.length + front'.length) front.length = some front'.length :=
    usizeSub_eq_some.mpr ⟨by omega, by omega⟩
  have htotal : usizeSub above.size sub.size = some (above.size - sub.size) :=
    usizeSub_eq_some.mpr ⟨by omega, rfl⟩
  have hpost : usizeSub (above.size - sub.size) front'.length = some back'.length :=
    usizeSub_eq_some.mpr ⟨by omega, by omega⟩
  have hne : ¬above.size - sub.size = 0 := by omega
  have hrules : (Tree.layOut tree).rules = front ++ (front' ++ sub.labels ++ back') ++ back := by
    show tree.labels = _
    rw [hlabels, hlabels']
  generalize htimes : maxLen / (above.size - sub.size) = times
  have hrulesPre : repeated (Tree.layOut tree).rules front.length front'.length times =
      some (List.replicate times front').flatten := by
    have heq := repeated_eq front front' (sub.labels ++ back' ++ back) times
    rw [hrules]
    simpa only [List.append_assoc] using heq
  have hrulesEnd : repeated (Tree.layOut tree).rules (front.length + front'.length) sub.size 1 =
      some sub.labels := by
    have heq := repeated_eq (front ++ front') sub.labels (back' ++ back) 1
    rw [hrules]
    simpa only [List.append_assoc, List.length_append, length_labels, List.replicate_one,
      List.flatten_singleton] using heq
  have hrulesPost : repeated (Tree.layOut tree).rules
      (front.length + front'.length + sub.size) back'.length times =
        some (List.replicate times back').flatten := by
    have heq := repeated_eq (front ++ front' ++ sub.labels) back' back times
    rw [hrules]
    simpa only [List.append_assoc, List.length_append, length_labels, Nat.add_assoc] using heq
  have hlen : (Tree.layOut tree).sizes.length = tree.size := length_sizes tree
  have hsizes := fun start len times (h : start + len ≤ tree.size) =>
    repeated_of_le (l := (Tree.layOut tree).sizes) (hlen ▸ h) times
  simp only [recursionTree, hpre, Tree.subtreeSize_layOut habove, Tree.subtreeSize_layOut hnode,
    htotal, hpost, if_neg hne, htimes, hrulesPre, hrulesEnd, hrulesPost,
    hsizes front.length front'.length times (by omega),
    hsizes (front.length + front'.length) sub.size 1 (by omega),
    hsizes (front.length + front'.length + sub.size) back'.length times (by omega),
    Option.bind_eq_bind, Option.bind_some]
  refine ⟨_, rfl, (labels_pump hgraft times).symm, ?_⟩
  simp only [size_pump hsub, List.append_assoc]
  rcases Nat.eq_zero_or_pos times with rfl | htimes
  · have hroot : (Tree.layOut tree).sizes[front.length + front'.length]? = some sub.size :=
      Tree.subtreeSize_layOut hnode
    obtain ⟨size, hpred⟩ := Nat.exists_eq_succ_of_ne_zero (Nat.pos_iff_ne_zero.mp hpos)
    simp [hpred, List.getElem?_drop, hroot]
  · have hroot : (((Tree.layOut tree).sizes.drop front.length).take front'.length).head? =
        some above.size := by
      have hsize : (Tree.layOut tree).sizes[front.length]? = some above.size :=
        Tree.subtreeSize_layOut habove
      rw [List.head?_take, if_neg (Nat.pos_iff_ne_zero.mp hk), List.head?_drop, hsize]
    have hle : front'.length ≤ above.size := by omega
    have hadjusted := head_adjusted (above.size - sub.size) hroot hle htimes
    have hlt := (List.getElem?_eq_some_iff.mp hadjusted).1
    rw [List.getElem?_append_left hlt, hadjusted]
    obtain ⟨times, rfl⟩ := Nat.exists_eq_succ_of_ne_zero (Nat.pos_iff_ne_zero.mp htimes)
    rw [Nat.succ_mul, Nat.succ_sub_one]
    congr 1
    omega

end

end GrammarMutator

/-! ## The recursions that are drawn -/

namespace Tree

variable {ctx : Context} {t : RoseTree RuleIdOrCustom} {start nt : NTermId}

/-- A node lies within the range of the nodes above it. -/
theorem Ancestor.within {a n : NodeId} (h : (layOut t).Ancestor a n) (hn : n < t.size) :
    ∃ above sub, t.subtree? a = some above ∧ t.subtree? n = some sub ∧ a < n ∧
      n + sub.size ≤ a + above.size := by
  have hparent : ∀ {n p : NodeId}, (layOut t).getParent n = some p → n < t.size →
      ∃ above sub, t.subtree? p = some above ∧ t.subtree? n = some sub ∧ p < n ∧
        n + sub.size ≤ p + above.size := by
    intro n p h hn
    unfold getParent at h
    split at h
    · cases h
    · next hne =>
        obtain ⟨p', above, sub, hp', hlt, habove, hsub, hwithin⟩ :=
          subtree?_parent 0 0 (Nat.pos_of_ne_zero hne) hn
        obtain rfl := Option.some.inj (h.symm.trans hp')
        rw [Nat.zero_add]
        exact ⟨above, sub, habove, hsub, hlt, hwithin⟩
  induction h with
  | parent h => exact hparent h hn
  | above h _ ih =>
      obtain ⟨_, sub, hp, hsub, hlt, hwithin⟩ := hparent h hn
      obtain ⟨above, middle, habove, hmiddle, hlt', hwithin'⟩ := ih (hlt.trans hn)
      obtain rfl := Option.some.inj (hp.symm.trans hmiddle)
      exact ⟨above, sub, habove, hsub, hlt'.trans hlt, hwithin.trans hwithin'⟩

/-- A node with the nonterminal has a derivation of it. -/
theorem HasNt.derives {n : NodeId} {sub : RoseTree RuleIdOrCustom} (h : (layOut t).HasNt ctx nt n)
    (ht : Derives ctx start t) (hsub : t.subtree? n = some sub) : Derives ctx nt sub := by
  obtain ⟨nt', hderives, -⟩ := ht.subtree? hsub
  obtain ⟨rule, hrule, rfl⟩ := getRule_layOut hsub hderives
  obtain ⟨label, hlabel, hnt⟩ := h
  simp only [getRule, hlabel, Option.bind_eq_bind, Option.bind_some] at hrule
  rw [Context.getNt, hrule, Option.map_some, Option.some_inj] at hnt
  exact hnt ▸ hderives

theorem lt_of_hasNt {n : NodeId} (h : (layOut t).HasNt ctx nt n) : n < t.size := by
  obtain ⟨label, hlabel, -⟩ := h
  rw [← size_layOut]
  exact (List.getElem?_eq_some_iff.mp hlabel).1

end Tree

namespace RecursionInfo

variable {ctx : Context} {t : RoseTree RuleIdOrCustom} {start nt : NTermId}

/-- What is drawn is a node and one above it, both with the nonterminal. -/
theorem getRandomRecursionPair_spec {R : Type} [Rand R] {sample : List Nat → R → Nat × R}
    (hsample : ∀ weights r, weights ≠ [] → (sample weights r).1 < weights.length)
    (ht : Derives ctx start t) (hne : entries ctx nt t ≠ []) (r : R) :
    ∃ a k above sub r', GrammarMutator.getRandomRecursionPair sample (ofList (entries ctx nt t)) r =
        some ((a, a + k), r') ∧ 0 < k ∧ t.subtree? a = some above ∧ above.subtree? k = some sub ∧
      Derives ctx nt above ∧ Derives ctx nt sub := by
  have hweights : (ofList (entries ctx nt t)).depthByOffset.length = (entries ctx nt t).length :=
    List.length_map ..
  have hlt := hsample (ofList (entries ctx nt t)).depthByOffset r
    (List.ne_nil_of_length_pos (hweights ▸ List.length_pos_iff.mpr hne))
  rw [hweights] at hlt
  obtain ⟨⟨n, a, d⟩, hentry⟩ : ∃ e, (entries ctx nt t)[(sample
      (ofList (entries ctx nt t)).depthByOffset r).1]? = some e :=
    ⟨_, List.getElem?_eq_getElem hlt⟩
  obtain ⟨c, hc, hnt, hhead, rfl⟩ := entry_of_offset hentry
  have hpair := getRecursionPairByOffset_ofList entries_nodup hentry (length_pos_of_head hhead)
  have hmem : a ∈ (Tree.layOut t).ancestorsWith ctx nt n := by
    rw [ancestorsWith_eq hc]
    exact List.mem_of_mem_head? hhead
  obtain ⟨hancestor, hnt'⟩ := hmem
  obtain ⟨above, sub, habove, hsub, hlt, hwithin⟩ := hancestor.within (Tree.lt_of_hasNt hnt)
  obtain ⟨k, rfl⟩ := Nat.exists_eq_add_of_lt hlt
  refine ⟨a, k + 1, above, sub, (sample (ofList (entries ctx nt t)).depthByOffset r).2, ?_,
    Nat.succ_pos k, habove, ?_, hnt'.derives ht habove, hnt.derives ht hsub⟩
  · simp only [GrammarMutator.getRandomRecursionPair, hpair, Option.bind_eq_bind, Option.bind_some]
    rfl
  · have hnode := subtree?_of_within habove hsub (Nat.le_of_lt hlt) hwithin
    rwa [Nat.add_assoc, Nat.add_sub_cancel_left] at hnode

end RecursionInfo

namespace Tree

open RecursionInfo

variable {ctx : Context} {t : RoseTree RuleIdOrCustom} {start : NTermId}

/-- One information is kept for each nonterminal of the rules that is not done and recurs. -/
theorem calcRecursionsLoop_layOut (ht : Derives ctx start t) {rules : List RuleIdOrCustom}
    (hrules : ∀ rule ∈ rules, ∃ nt, ctx.getNt rule = some nt) (doneNterms : HashSet NTermId) :
    ∃ infos, calcRecursionsLoop (layOut t) ctx rules doneNterms = some infos ∧
      ∀ info, info ∈ infos ↔ ∃ rule ∈ rules, ∃ nt, ctx.getNt rule = some nt ∧ nt ∉ doneNterms ∧
        entries ctx nt t ≠ [] ∧ info = ofList (entries ctx nt t) := by
  induction rules generalizing doneNterms with
  | nil => exact ⟨[], rfl, by simp⟩
  | cons rule rules ih =>
      obtain ⟨⟨nt, hnt⟩, hrules⟩ := List.forall_mem_cons.mp hrules
      simp only [calcRecursionsLoop, hnt, new_layOut ht, Option.bind_eq_bind, Option.bind_some]
      by_cases hdone : nt ∈ doneNterms
      · rw [if_pos hdone]
        obtain ⟨infos, hinfos, hmem⟩ := ih hrules doneNterms
        refine ⟨infos, hinfos, fun info => (hmem info).trans ?_⟩
        constructor
        · rintro ⟨rule', hrule', hinfo⟩
          exact ⟨rule', List.mem_cons_of_mem _ hrule', hinfo⟩
        · rintro ⟨rule', hrule', nt', hnt', hnew, hinfo⟩
          rcases List.mem_cons.mp hrule' with rfl | hrule'
          · obtain rfl := Option.some.inj (hnt.symm.trans hnt')
            exact absurd hdone hnew
          · exact ⟨rule', hrule', nt', hnt', hnew, hinfo⟩
      · rw [if_neg hdone]
        obtain ⟨infos, hinfos, hmem⟩ := ih hrules (AList.insert nt () doneNterms)
        simp only [hinfos, Option.bind_some]
        refine ⟨_, rfl, fun info => List.mem_append.trans ?_⟩
        have hfirst : info ∈ (if entries ctx nt t = [] then none else
            some (ofList (entries ctx nt t))).toList ↔
              entries ctx nt t ≠ [] ∧ info = ofList (entries ctx nt t) := by
          split
          · next hnil => simp [hnil]
          · next hne => simp [hne]
        rw [hfirst, hmem]
        constructor
        · rintro (⟨hne, hinfo⟩ | ⟨rule', hrule', nt', hnt', hnew, hinfo⟩)
          · exact ⟨rule, List.mem_cons_self .., nt, hnt, hdone, hne, hinfo⟩
          · exact ⟨rule', List.mem_cons_of_mem _ hrule', nt', hnt',
              fun h => hnew ((AList.mem_insert _).mpr (.inr h)), hinfo⟩
        · rintro ⟨rule', hrule', nt', hnt', hnew, hne, hinfo⟩
          by_cases heq : nt' = nt
          · subst heq
            exact .inl ⟨hne, hinfo⟩
          · rcases List.mem_cons.mp hrule' with rfl | hrule'
            · exact absurd (Option.some.inj (hnt'.symm.trans hnt)) heq
            · refine .inr ⟨rule', hrule', nt', hnt', fun h => ?_, hne, hinfo⟩
              rcases (AList.mem_insert _).mp h with h | h
              · exact heq h
              · exact hnew h

theorem exists_getNt (ht : Derives ctx start t) :
    ∀ rule ∈ (layOut t).rules, ∃ nt, ctx.getNt rule = some nt := by
  intro rule hrule
  obtain ⟨n, hn⟩ := List.mem_iff_getElem?.mp hrule
  have hlt := (List.getElem?_eq_some_iff.mp hn).1
  rw [size_layOut] at hlt
  obtain ⟨sub, hsub⟩ := exists_subtree? hlt
  obtain ⟨nt, hderives, -⟩ := ht.subtree? hsub
  obtain ⟨rule', hrule', rfl⟩ := getRule_layOut hsub hderives
  simp only [getRule, hn, Option.bind_eq_bind, Option.bind_some] at hrule'
  exact ⟨rule'.nonterm, by rw [Context.getNt, hrule', Option.map_some]⟩

/-- The recursions of a tree: there are none where no node recurs. -/
theorem calcRecursions_layOut (ht : Derives ctx start t) :
    ∃ infos, calcRecursions (layOut t) ctx = some (if infos = [] then none else some infos) ∧
      (∀ info ∈ infos, ∃ nt, entries ctx nt t ≠ [] ∧ info = ofList (entries ctx nt t)) ∧
      (infos = [] ↔ ∀ nt n, ¬(layOut t).Recursive ctx nt n) := by
  obtain ⟨infos, hinfos, hmem⟩ := calcRecursionsLoop_layOut ht (exists_getNt ht) ∅
  refine ⟨infos, ?_, fun info hinfo => ?_, ?_⟩
  · simp only [calcRecursions, hinfos, Option.bind_eq_bind, Option.bind_some]
  · obtain ⟨-, -, nt, -, -, hne, rfl⟩ := (hmem info).mp hinfo
    exact ⟨nt, hne, rfl⟩
  · constructor
    · rintro rfl nt n hrec
      have hentry := recursive_iff_mem_entries.mp hrec
      have hne : entries ctx nt t ≠ [] := by
        intro hnil
        rw [hnil] at hentry
        exact absurd hentry List.not_mem_nil
      obtain ⟨rule, hrule, hnt⟩ := hrec.1
      have hin := (hmem (ofList (entries ctx nt t))).mpr
        ⟨rule, List.mem_of_getElem? hrule, nt, hnt, AList.notMem_empty nt, hne, rfl⟩
      exact absurd hin List.not_mem_nil
    · intro hnone
      refine List.eq_nil_iff_forall_not_mem.mpr fun info hinfo => ?_
      obtain ⟨-, -, nt, -, -, hne, -⟩ := (hmem info).mp hinfo
      obtain ⟨e, rest, heq⟩ := List.ne_nil_iff_exists_cons.mp hne
      refine hnone nt e.1 (recursive_iff_mem_entries.mpr ?_)
      rw [heq]
      exact List.mem_map_of_mem (List.mem_cons_self ..)

end Tree

/-! ## Texts -/

namespace GrammarMutator

variable {ctx : Context} {tree above sub : RoseTree RuleIdOrCustom} {root nt : NTermId} {a k : Nat}

theorem derives_pump (habove : Derives ctx nt above) (hsub : above.subtree? k = some sub)
    (hderives : Derives ctx nt sub) (times : Nat) : Derives ctx nt (pump above k sub times) := by
  obtain ⟨nt', hsub', hgraft⟩ := habove.subtree? hsub
  obtain rfl := hsub'.unique hderives
  induction times with
  | zero => exact hderives
  | succ times ih => exact hgraft _ ih

/-- What is written around the lower node is written as often as it is repeated. -/
theorem text_pump {scripts : Scripts} {u v w : List UInt8}
    {frame : List UInt8 → Option (List UInt8)}
    (hframe : ∀ new, (graft new above k).text ctx scripts = (new.text ctx scripts).bind frame)
    (hsurrounds : ∀ text, frame text = some (u ++ text ++ v))
    (htext : sub.text ctx scripts = some w) (times : Nat) :
    (pump above k sub times).text ctx scripts =
      some ((List.replicate times u).flatten ++ w ++ (List.replicate times v).flatten) := by
  induction times with
  | zero =>
      rw [pump, htext, List.replicate_zero, List.replicate_zero, List.flatten_nil,
        List.nil_append, List.append_nil]
  | succ times ih =>
      rw [pump, hframe, ih, Option.bind_some, hsurrounds, List.replicate_succ, List.flatten_cons,
        List.replicate_succ', List.flatten_append, List.flatten_singleton]
      simp only [List.append_assoc]

section

variable {σ ε R : Type} [Rand R] {sample : List Nat → R → Nat × R} {tester : RuleTester σ ε}

/-- The recursion is repeated in the place of the lower node. -/
structure Pumps (ctx : Context) (tree : RoseTree RuleIdOrCustom) (mutation : TreeMutation)
    (a k : Nat) (above sub : RoseTree RuleIdOrCustom) (times : Nat) : Prop where
  upper : tree.subtree? a = some above
  lower : above.subtree? k = some sub
  below : 0 < k
  same : ∃ nt, Derives ctx nt above ∧ Derives ctx nt sub
  replaces : mutation.Replaces ctx tree (a + k) sub (pump above k sub times)

theorem mutRandomRecursion_pumps (tester : RuleTester σ ε) (htree : Derives ctx root tree)
    (hsample : ∀ weights r, weights ≠ [] → (sample weights r).1 < weights.length)
    {recursions : List RecursionInfo}
    (hrecursions : ∀ info ∈ recursions, ∃ nt, RecursionInfo.entries ctx nt tree ≠ [] ∧
      info = RecursionInfo.ofList (RecursionInfo.entries ctx nt tree))
    (hne : recursions ≠ []) (s : σ) (r : R) :
    ∃ mutation r' a k above sub exponent,
      mutRandomRecursion sample (Tree.layOut tree) recursions tester s r =
        some ((tester mutation s).1.mapError .tester, (tester mutation s).2, r') ∧
      1 ≤ exponent ∧ exponent ≤ 10 ∧
      Pumps ctx tree mutation a k above sub (2 ^ (exponent + 1) / (above.size - sub.size)) := by
  obtain ⟨exponent, r1, hexponent, hlow, hhigh⟩ : ∃ exponent r1,
      Rand.between 1 10 r = some (exponent, r1) ∧ 1 ≤ exponent ∧ exponent ≤ 10 := by
    have hlt := Rand.below_lt ⟨10 - 1 + 1, Nat.succ_pos _⟩ r
    refine ⟨_, _, rfl, Nat.le_add_right 1 _, ?_⟩
    rw [Nat.add_comm]
    exact Nat.succ_le_of_lt hlt
  obtain ⟨info, hinfo, r2, hchosen⟩ := Rand.choose_mem hne r1
  obtain ⟨nt, hentries, rfl⟩ := hrecursions info hinfo
  obtain ⟨a, k, above, sub, r3, hpair, hk, habove, hsub, hderives, hderives'⟩ :=
    RecursionInfo.getRandomRecursionPair_spec hsample htree hentries r2
  obtain ⟨made, hmade, hrules, hsize⟩ := recursionTree_layOut habove hsub hk (2 <<< exponent)
  have hpow : 2 <<< exponent = 2 ^ (exponent + 1) := by
    rw [Nat.shiftLeft_eq, Nat.pow_succ, Nat.mul_comm]
  rw [hpow] at hrules hsize hmade
  have hwithin := subtree?_within hsub
  have hpos := size_pos sub
  have hnode : tree.subtree? (a + k) = some sub := by
    rw [subtree?_add habove (by omega), hsub]
  obtain ⟨mutation, hmutation, hreplaces⟩ := replaces_layOut hnode hderives' (subtree?_zero _)
    (derives_pump hderives hsub hderives' (2 ^ (exponent + 1) / (above.size - sub.size)))
  have hsame : (Tree.layOut tree).mutateReplaceFromTree (a + k) made 0 = some mutation := by
    have hroot : (Tree.layOut (pump above k sub
        (2 ^ (exponent + 1) / (above.size - sub.size)))).sizes[0]? = made.sizes[0]? :=
      (Tree.subtreeSize_layOut (subtree?_zero _)).trans hsize.symm
    rw [← hmutation]
    simp only [Tree.mutateReplaceFromTree, Tree.subtreeSize, Tree.slice, hroot, hrules]
    rfl
  refine ⟨mutation, r3, a, k, above, sub, exponent, ?_, hlow, hhigh, habove, hsub, hk,
    ⟨nt, hderives, hderives'⟩, hreplaces⟩
  simp only [mutRandomRecursion, hexponent, hchosen, hpair, hpow, hmade, hsame,
    Option.bind_eq_bind, Option.bind_some]

/-- The texts around the lower node, and those around the upper one. -/
theorem Pumps.texts {mutation : TreeMutation} {times : Nat} (scripts : Scripts)
    (hctx : ctx.Scriptless) (htree : Derives ctx root tree)
    (h : Pumps ctx tree mutation a k above sub times) :
    ∃ front u w v back, sub.text ctx scripts = some w ∧
      above.text ctx scripts = some (u ++ w ++ v) ∧
      tree.text ctx scripts = some (front ++ (u ++ w ++ v) ++ back) ∧
      Unparser.WritesOut mutation ctx scripts 0 (some (front ++
        ((List.replicate (times + 1) u).flatten ++ w ++ (List.replicate (times + 1) v).flatten) ++
          back)) mutation.rules.length := by
  obtain ⟨nt, habove, hsub⟩ := h.same
  obtain ⟨w, hw⟩ := Derives.exists_text scripts hctx hsub
  obtain ⟨frame, hframe, hsurrounds⟩ := exists_frame scripts habove h.lower
  obtain ⟨u, v, huv⟩ := hsurrounds hctx
  obtain ⟨outer, houter, hsurrounds'⟩ := exists_frame scripts htree h.upper
  obtain ⟨front, back, hfront⟩ := hsurrounds' hctx
  have hpump := text_pump hframe huv hw
  have htext : above.text ctx scripts = some (u ++ w ++ v) := by
    have hone := hframe sub
    rwa [graft_subtree? h.lower, hw, Option.bind_some, huv] at hone
  have hwithin := subtree?_within h.lower
  have hpos := size_pos sub
  have hmutated : (graft (pump above k sub times) tree (a + k)).text ctx scripts =
      some (front ++ ((List.replicate (times + 1) u).flatten ++ w ++
        (List.replicate (times + 1) v).flatten) ++ back) := by
    rw [← graft_add _ h.upper (by omega), houter, ← pump, hpump, Option.bind_some, hfront]
  refine ⟨front, u, w, v, back, hw, htext, ?_, ?_⟩
  · have hall := houter above
    rwa [graft_subtree? h.upper, htext, Option.bind_some, hfront] at hall
  · have hwritten := Unparser.unparse_of_hasLabels scripts (h.replaces.derives htree)
      (Unparser.hasLabels_mutation h.replaces.rules)
    rwa [hmutated, Nat.zero_add, ← length_labels, ← h.replaces.rules] at hwritten

theorem Pumps.size {mutation : TreeMutation} {times : Nat}
    (h : Pumps ctx tree mutation a k above sub times) :
    (graft (pump above k sub times) tree (a + k)).size =
      tree.size + times * (above.size - sub.size) := by
  have hsize := size_graft h.replaces.node (pump above k sub times)
  rw [size_pump h.lower] at hsize
  omega

/-- The mutation is a derivation of the same nonterminal, in which the texts around the lower node
of a recursion are repeated as often as they fit into a length that can be drawn, and once more. -/
def Repeats (ctx : Context) (scripts : Scripts) (root : NTermId) (tree : RoseTree RuleIdOrCustom)
    (mutation : TreeMutation) : Prop :=
  ∃ mutated front u w v back exponent total,
    mutation.toTree ctx = some (Tree.layOut mutated) ∧ Derives ctx root mutated ∧
    1 ≤ exponent ∧ exponent ≤ 10 ∧ 0 < total ∧
    mutated.size = tree.size + 2 ^ (exponent + 1) / total * total ∧
    tree.text ctx scripts = some (front ++ (u ++ w ++ v) ++ back) ∧
    Unparser.WritesOut mutation ctx scripts 0 (some (front ++
      ((List.replicate (2 ^ (exponent + 1) / total + 1) u).flatten ++ w ++
        (List.replicate (2 ^ (exponent + 1) / total + 1) v).flatten) ++ back))
      mutation.rules.length

end

end GrammarMutator

end Libaflmm
