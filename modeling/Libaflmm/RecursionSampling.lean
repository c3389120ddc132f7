import Libaflmm.GrammarGenerate
import Libaflmm.RecursionInfo
import Mathlib.Data.Finset.Card
import Mathlib.Tactic.IntervalCases

/-!
# Sampling recursions

A uniform sample over the recursions of a tree draws a node with a weight, the
number of recursions that end in it, and then one of these recursions. The
weight that is found is the depth of the node instead, and the recursion that
is returned for it is always the one with the nearest node above.
-/

namespace Libaflmm

/-- What a uniform sample over the recursions of a tree asks of the information. -/
structure RecursionInfo.Exact (info : RecursionInfo) (tree : Tree) (ctx : Context)
    (nt : NTermId) : Prop where
  nodup : info.nodeByOffset.Nodup
  listed : ∀ n, n ∈ info.nodeByOffset ↔ tree.Recursive ctx nt n
  weight : ∀ (offset : Nat) (n : NodeId), info.nodeByOffset[offset]? = some n →
    info.depthByOffset[offset]? = some (tree.ancestorsWith ctx nt n).ncard
  pairs : ∀ a n, (∃ offset, info.getRecursionPairByOffset offset = some (a, n)) ↔
    tree.HasNt ctx nt n ∧ a ∈ tree.ancestorsWith ctx nt n

namespace Tree

/-- There is no information if and only if there are no recursions. -/
def SamplesExactly (tree : Tree) (ctx : Context) (nt : NTermId) : Prop :=
  match RecursionInfo.new tree nt ctx with
  | none => False
  | some none => ∀ n, ¬ tree.Recursive ctx nt n
  | some (some info) => info.Exact tree ctx nt

def Shallow (tree : Tree) (ctx : Context) (nt : NTermId) : Prop :=
  ∀ n, tree.Recursive ctx nt n → tree.getParent n = some 0

theorem ancestor_iff {tree : Tree} {n p a : NodeId} (h : tree.getParent n = some p) :
    tree.Ancestor a n ↔ a = p ∨ tree.Ancestor a p := by
  constructor
  · intro ha
    cases ha with
    | parent hp => exact Or.inl (Option.some.inj (hp.symm.trans h))
    | above hp ha =>
        obtain rfl := Option.some.inj (hp.symm.trans h)
        exact Or.inr ha
  · rintro (rfl | ha)
    · exact .parent h
    · exact .above h ha

theorem not_ancestor_root {tree : Tree} {a : NodeId} : ¬ tree.Ancestor a 0 := by
  intro h
  cases h with
  | parent hp => exact absurd hp (by simp [getParent])
  | above hp _ => exact absurd hp (by simp [getParent])

end Tree

namespace RecursionInfo

section

variable {ctx : Context} {nt : NTermId} {t : RoseTree RuleIdOrCustom} {n : NodeId}
  {c : RoseTree.Chain RuleIdOrCustom}

/-! ## Chains of a layout -/

theorem chain_cases (hc : (chains t)[n]? = some c) : n = 0 ∧ c = [] ∨
    ∃ p label c', c = (p, label) :: c' ∧ p < n ∧ (chains t)[p]? = some c' ∧
      (Tree.layOut t).getParent n = some p := by
  rcases RoseTree.getElem_chain 0 0 [] t n c hc with
    h | ⟨p, label, c', rfl, hlt, -, hchain, hparent⟩
  · exact Or.inl h
  · rw [Nat.zero_add] at hparent ⊢
    refine Or.inr ⟨p, label, c', rfl, hlt, hchain, ?_⟩
    rw [Tree.getParent, if_neg (Nat.ne_of_gt (Nat.zero_lt_of_lt hlt))]
    exact hparent

theorem ancestor_iff_mem_chain {a : NodeId} (hc : (chains t)[n]? = some c) :
    (Tree.layOut t).Ancestor a n ↔ a ∈ c.map Prod.fst := by
  induction n using Nat.strongRecOn generalizing c with
  | ind n ih =>
      rcases chain_cases hc with ⟨rfl, rfl⟩ | ⟨p, label, c', rfl, hlt, hchain, hparent⟩
      · exact ⟨fun h => absurd h Tree.not_ancestor_root, fun h => absurd h List.not_mem_nil⟩
      · rw [Tree.ancestor_iff hparent, ih p hlt hchain, List.map_cons, List.mem_cons]

theorem exists_chain (h : (Tree.layOut t).HasNt ctx nt n) : ∃ c, (chains t)[n]? = some c := by
  obtain ⟨rule, hrule, -⟩ := h
  have hlt : n < t.labels.length := (List.getElem?_eq_some_iff.mp hrule).1
  have hlen : (chains t).length = t.labels.length := by
    rw [chains, RoseTree.length_inherit, RoseTree.length_labels]
  exact ⟨_, List.getElem?_eq_getElem (Nat.lt_of_lt_of_eq hlt hlen.symm)⟩

/-- The nodes of a chain with the nonterminal, the nearest first. -/
def withNt (ctx : Context) (nt : NTermId) (c : RoseTree.Chain RuleIdOrCustom) : List NodeId :=
  (c.filter fun e => ctx.getNt e.2 = some nt).map Prod.fst

theorem ancestorsWith_eq (hc : (chains t)[n]? = some c) :
    (Tree.layOut t).ancestorsWith ctx nt n = {a | a ∈ withNt ctx nt c} := by
  have hlabels := (RoseTree.chain_sorted hc).1
  ext a
  simp only [Tree.ancestorsWith, Set.mem_ofPred_eq, ancestor_iff_mem_chain hc, withNt,
    List.mem_map, List.mem_filter, decide_eq_true_eq]
  constructor
  · rintro ⟨⟨⟨a, label⟩, hmem, rfl⟩, rule, hrule, hnt⟩
    obtain rfl : rule = label := Option.some.inj (hrule.symm.trans (hlabels _ hmem).2)
    exact ⟨_, ⟨hmem, hnt⟩, rfl⟩
  · rintro ⟨⟨a, label⟩, ⟨hmem, hnt⟩, rfl⟩
    exact ⟨⟨_, hmem, rfl⟩, label, (hlabels _ hmem).2, hnt⟩

theorem ncard_ancestorsWith (hc : (chains t)[n]? = some c) :
    ((Tree.layOut t).ancestorsWith ctx nt n).ncard = (withNt ctx nt c).length := by
  have hnodup : (withNt ctx nt c).Nodup := by
    refine List.Nodup.sublist (List.filter_sublist.map Prod.fst) ?_
    exact (RoseTree.chain_sorted hc).2.imp fun h => Nat.ne_of_gt h
  have hset : {a | a ∈ withNt ctx nt c} = ((withNt ctx nt c).toFinset : Set NodeId) := by
    ext a
    simp
  rw [ancestorsWith_eq hc, hset, Set.ncard_coe_finset, List.toFinset_card_of_nodup hnodup]

theorem recursive_iff (hc : (chains t)[n]? = some c) :
    (Tree.layOut t).Recursive ctx nt n ↔
      (Tree.layOut t).HasNt ctx nt n ∧ withNt ctx nt c ≠ [] := by
  rw [Tree.Recursive, ancestorsWith_eq hc, List.ne_nil_iff_exists_cons]
  constructor
  · rintro ⟨hnt, a, ha⟩
    exact ⟨hnt, List.ne_nil_iff_exists_cons.mp (List.ne_nil_of_mem ha)⟩
  · rintro ⟨hnt, a, l, hl⟩
    exact ⟨hnt, a, by rw [Set.mem_ofPred_eq, hl]; exact List.mem_cons_self⟩

/-- A child of the root is a node with a chain of one node. -/
theorem getParent_eq_root_iff (hc : (chains t)[n]? = some c) :
    (Tree.layOut t).getParent n = some 0 ↔ c.length = 1 := by
  rcases chain_cases hc with ⟨rfl, rfl⟩ | ⟨p, label, c', rfl, hlt, hchain, hparent⟩
  · simp [Tree.getParent]
  · rw [hparent, Option.some_inj, List.length_cons, Nat.add_eq_right, List.length_eq_zero_iff]
    rcases chain_cases hchain with ⟨rfl, rfl⟩ | ⟨q, label', c'', rfl, hlt', -, -⟩
    · exact ⟨fun _ => rfl, fun _ => rfl⟩
    · exact ⟨fun h => absurd h (by omega), fun h => absurd h (List.cons_ne_nil _ _)⟩

/-! ## The entries of a layout -/

/-- The entries that the pass finds. -/
def entries (ctx : Context) (nt : NTermId) (t : RoseTree RuleIdOrCustom) :
    List Entry :=
  entriesFrom nt ctx 0 t.labels ((chains t).map (summary nt ctx))

theorem entries_nodup : ((entries ctx nt t).map Prod.fst).Nodup :=
  (entriesFrom_sorted 0 _ _).imp fun h => Nat.ne_of_lt h

theorem mem_entries {p d : Nat} (hc : (chains t)[n]? = some c) :
    (n, p, d) ∈ entries ctx nt t ↔ (Tree.layOut t).HasNt ctx nt n ∧
      (withNt ctx nt c).head? = some p ∧ d = c.length := by
  have hnearest : (summary nt ctx c) = ((withNt ctx nt c).head?, c.length) := by
    rw [summary, withNt, List.head?_map, List.head?_filter]
  rw [entries, mem_entriesFrom]
  constructor
  · rintro ⟨k, rule, hk, hrule, hvalue, hnt⟩
    obtain rfl : n = k := hk.trans (Nat.zero_add k)
    rw [List.getElem?_map, hc, Option.map_some, hnearest, Option.some_inj] at hvalue
    obtain ⟨hp, hd⟩ := Prod.mk.inj hvalue
    exact ⟨⟨rule, hrule, hnt⟩, hp, hd.symm⟩
  · rintro ⟨⟨rule, hrule, hnt⟩, hp, rfl⟩
    refine ⟨n, rule, (Nat.zero_add n).symm, hrule, ?_, hnt⟩
    rw [List.getElem?_map, hc, Option.map_some, hnearest, hp]

/-- Exactly the recursive nodes are found. -/
theorem recursive_iff_mem_entries :
    (Tree.layOut t).Recursive ctx nt n ↔ n ∈ (entries ctx nt t).map Prod.fst := by
  constructor
  · intro h
    obtain ⟨c, hc⟩ := exists_chain h.1
    obtain ⟨hnt, hne⟩ := (recursive_iff hc).mp h
    obtain ⟨p, l, hl⟩ := List.ne_nil_iff_exists_cons.mp hne
    exact List.mem_map.mpr ⟨(n, p, c.length), (mem_entries hc).mpr ⟨hnt, by rw [hl]; rfl, rfl⟩, rfl⟩
  · intro h
    obtain ⟨⟨n, p, d⟩, hmem, rfl⟩ := List.mem_map.mp h
    have hnt : (Tree.layOut t).HasNt ctx nt n := by
      obtain ⟨k, rule, hk, hrule, -, hnt⟩ := mem_entriesFrom.mp hmem
      obtain rfl : n = k := hk.trans (Nat.zero_add k)
      exact ⟨rule, hrule, hnt⟩
    obtain ⟨c, hc⟩ := exists_chain hnt
    obtain ⟨-, hp, -⟩ := (mem_entries hc).mp hmem
    exact (recursive_iff hc).mpr ⟨hnt, fun hnil => by rw [hnil] at hp; exact absurd hp (by simp)⟩

theorem new_layOut {start : NTermId} (h : Derives ctx start t) :
    RecursionInfo.new (Tree.layOut t) nt ctx = some (if entries ctx nt t = [] then none else
      some (ofList (entries ctx nt t))) := by
  rw [RecursionInfo.new, findParents_layOut h, Option.bind_eq_bind, Option.bind_some,
    ← entries, ofEntries]
  split <;> rfl

/-! ## Exactness -/

theorem entry_of_offset {offset p d : Nat} (h : (entries ctx nt t)[offset]? = some (n, p, d)) :
    ∃ c, (chains t)[n]? = some c ∧ (Tree.layOut t).HasNt ctx nt n ∧
      (withNt ctx nt c).head? = some p ∧ d = c.length := by
  have hmem := List.mem_of_getElem? h
  have hrec := recursive_iff_mem_entries.mpr (List.mem_map_of_mem hmem)
  obtain ⟨c, hc⟩ := exists_chain hrec.1
  exact ⟨c, hc, (mem_entries hc).mp hmem⟩

theorem length_pos_of_head {p : NodeId} (h : (withNt ctx nt c).head? = some p) : 0 < c.length := by
  cases c with
  | nil => exact absurd h (by simp [withNt])
  | cons e c => exact Nat.succ_pos _

theorem entries_pos : ∀ e ∈ entries ctx nt t, 0 < e.2.2 := by
  rintro ⟨n, p, d⟩ hmem
  obtain ⟨offset, hoffset⟩ := List.mem_iff_getElem?.mp hmem
  obtain ⟨c, -, -, hp, rfl⟩ := entry_of_offset hoffset
  exact length_pos_of_head hp

/-- A pair is returned if and only if its first node is the nearest one above. -/
theorem pair_iff {a : NodeId} :
    (∃ offset, (ofList (entries ctx nt t)).getRecursionPairByOffset offset =
      some (a, n)) ↔ ∃ c, (chains t)[n]? = some c ∧ (Tree.layOut t).HasNt ctx nt n ∧
        (withNt ctx nt c).head? = some a := by
  constructor
  · rintro ⟨offset, h⟩
    obtain ⟨d, hentry⟩ := getRecursionPairByOffset_inv entries_nodup entries_pos h
    obtain ⟨c, hc, hnt, ha, -⟩ := entry_of_offset hentry
    exact ⟨c, hc, hnt, ha⟩
  · rintro ⟨c, hc, hnt, ha⟩
    obtain ⟨offset, hoffset⟩ :=
      List.mem_iff_getElem?.mp ((mem_entries hc).mpr ⟨hnt, ha, rfl⟩)
    exact ⟨offset, getRecursionPairByOffset_ofList entries_nodup hoffset
      (length_pos_of_head ha)⟩

theorem withNt_eq_singleton {a : NodeId} (hc : c.length = 1)
    (ha : (withNt ctx nt c).head? = some a) : withNt ctx nt c = [a] := by
  obtain ⟨e, rfl⟩ := List.length_eq_one_iff.mp hc
  have hle : (withNt ctx nt [e]).length ≤ 1 := by
    rw [withNt, List.length_map]
    exact List.length_filter_le _ _
  obtain ⟨l, hl⟩ : ∃ l, withNt ctx nt [e] = a :: l := List.head?_eq_some_iff.mp ha
  rw [hl, List.length_cons] at hle
  rw [hl, List.length_eq_zero_iff.mp (Nat.le_zero.mp (Nat.le_of_succ_le_succ hle))]

theorem exact_of_shallow (hshallow : (Tree.layOut t).Shallow ctx nt) :
    (ofList (entries ctx nt t)).Exact (Tree.layOut t) ctx nt where
  nodup := entries_nodup
  listed n := recursive_iff_mem_entries.symm
  weight offset n h := by
    rw [ofList, List.getElem?_map] at h
    obtain ⟨⟨n, p, d⟩, hentry, rfl⟩ := Option.map_eq_some_iff.mp h
    have hrec := recursive_iff_mem_entries.mpr (List.mem_map_of_mem (List.mem_of_getElem? hentry))
    obtain ⟨c, hc, -, hp, rfl⟩ := entry_of_offset hentry
    have hlen := (getParent_eq_root_iff hc).mp (hshallow n hrec)
    rw [ncard_ancestorsWith hc, withNt_eq_singleton hlen hp]
    simp [ofList, hentry, hlen]
  pairs a n := by
    rw [pair_iff]
    constructor
    · rintro ⟨c, hc, hnt, ha⟩
      refine ⟨hnt, ?_⟩
      rw [ancestorsWith_eq hc]
      exact List.mem_of_mem_head? ha
    · rintro ⟨hnt, ha⟩
      obtain ⟨c, hc⟩ := exists_chain hnt
      have hlen := (getParent_eq_root_iff hc).mp (hshallow n ⟨hnt, a, ha⟩)
      rw [ancestorsWith_eq hc] at ha
      obtain ⟨p, l, hl⟩ := List.ne_nil_iff_exists_cons.mp (List.ne_nil_of_mem ha)
      have hp : (withNt ctx nt c).head? = some p := by rw [hl]; rfl
      rw [withNt_eq_singleton hlen hp] at ha
      obtain rfl := List.mem_singleton.mp ha
      exact ⟨c, hc, hnt, hp⟩

/-- The pairs leave no node above but the nearest with the nonterminal, and the
weight none without it. -/
theorem shallow_of_exact (h : (ofList (entries ctx nt t)).Exact (Tree.layOut t)
    ctx nt) : (Tree.layOut t).Shallow ctx nt := by
  intro n hrec
  obtain ⟨c, hc⟩ := exists_chain hrec.1
  obtain ⟨hnt, hne⟩ := (recursive_iff hc).mp hrec
  obtain ⟨p, l, hl⟩ := List.ne_nil_iff_exists_cons.mp hne
  have hp : (withNt ctx nt c).head? = some p := by rw [hl]; rfl
  have honly : ∀ a ∈ withNt ctx nt c, a = p := by
    intro a ha
    obtain ⟨c', hc', -, ha'⟩ := pair_iff.mp ((h.pairs a n).mpr
      ⟨hnt, by rw [ancestorsWith_eq hc]; exact ha⟩)
    obtain rfl : c = c' := Option.some.inj (hc.symm.trans hc')
    exact Option.some.inj (ha'.symm.trans hp)
  obtain ⟨offset, hoffset⟩ := List.mem_iff_getElem?.mp ((mem_entries hc).mpr ⟨hnt, hp, rfl⟩)
  have hweight := h.weight offset n (by simp [ofList, hoffset])
  have hdepth : (ofList (entries ctx nt t)).depthByOffset[offset]? =
      some c.length := by simp [ofList, hoffset]
  have hset : (Tree.layOut t).ancestorsWith ctx nt n = {p} := by
    rw [ancestorsWith_eq hc]
    ext a
    exact ⟨honly a, fun ha => by rw [Set.mem_singleton_iff.mp ha, hl]; exact List.mem_cons_self⟩
  rw [hdepth, hset, Set.ncard_singleton] at hweight
  exact (getParent_eq_root_iff hc).mpr (Option.some.inj hweight)

theorem shallow_of_samplesExactly {start : NTermId} (h : Derives ctx start t)
    (hexact : (Tree.layOut t).SamplesExactly ctx nt) : (Tree.layOut t).Shallow ctx nt := by
  rw [Tree.SamplesExactly, new_layOut h] at hexact
  by_cases hnil : entries ctx nt t = []
  · rw [if_pos hnil] at hexact
    exact fun n hn => absurd hn (hexact n)
  · rw [if_neg hnil] at hexact
    exact shallow_of_exact hexact

/-- Recursions are sampled exactly if and only if every node that is the lower
one of a recursion is a child of the root. -/
theorem samplesExactly_iff {start : NTermId} (h : Derives ctx start t) :
    (Tree.layOut t).SamplesExactly ctx nt ↔ (Tree.layOut t).Shallow ctx nt := by
  refine ⟨shallow_of_samplesExactly h, fun hshallow => ?_⟩
  rw [Tree.SamplesExactly, new_layOut h]
  by_cases hnil : entries ctx nt t = []
  · rw [if_pos hnil]
    intro n hn
    rw [recursive_iff_mem_entries, hnil] at hn
    exact absurd hn List.not_mem_nil
  · rw [if_neg hnil]
    exact exact_of_shallow hshallow

end

/-! ## Two sums -/

/-- `1` -/
def one : RoseTree RuleIdOrCustom := .node (.rule 1) []

/-- `a+b` -/
def plus (a b : RoseTree RuleIdOrCustom) : RoseTree RuleIdOrCustom := .node (.rule 0) [a, b]

theorem derives_one : Derives Context.sums 0 one :=
  @Derives.node _ _ (.plain { nonterm := 0, children := [.term [0x31]] }) _ _ rfl rfl .nil

theorem derives_plus {a b : RoseTree RuleIdOrCustom} (ha : Derives Context.sums 0 a)
    (hb : Derives Context.sums 0 b) : Derives Context.sums 0 (plus a b) :=
  @Derives.node _ _ (.plain { nonterm := 0, children := [.nTerm 0, .term [0x2b], .nTerm 0] }) _ _
    rfl rfl (.cons ha (.cons hb .nil))

theorem samplesExactly_plus : (Tree.layOut (plus one one)).SamplesExactly Context.sums 0 := by
  refine (samplesExactly_iff (derives_plus derives_one derives_one)).mpr fun n hn => ?_
  obtain ⟨⟨rule, hrule, -⟩, a, ha, -⟩ := hn
  have hlt : n < 3 := (List.getElem?_eq_some_iff.mp hrule).1
  interval_cases n
  · exact absurd ha Tree.not_ancestor_root
  · rfl
  · rfl

/-- The sum has three ones, and two of them are two sums deep. -/
theorem not_samplesExactly_plus :
    ¬ (Tree.layOut (plus (plus one one) one)).SamplesExactly Context.sums 0 := by
  intro h
  have hshallow := shallow_of_samplesExactly
    (derives_plus (derives_plus derives_one derives_one) derives_one) h
  have hrec : (Tree.layOut (plus (plus one one) one)).Recursive Context.sums 0 2 :=
    ⟨⟨.rule 1, rfl, rfl⟩, 1, .parent rfl, .rule 0, rfl, rfl⟩
  exact absurd (hshallow 2 hrec) (by decide)

end RecursionInfo

end Libaflmm
