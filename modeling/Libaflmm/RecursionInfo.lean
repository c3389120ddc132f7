import Libaflmm.Derivations
import Mathlib.Data.Set.Card

/-!
# Recursions in a tree

A recursion is a pair of a node and another one above it with the same
nonterminal. One pass over the tree finds, for the nodes of a nonterminal
that are part of a recursion, the nearest node above with the same
nonterminal, and a weight (`findParents`).

The weight is the depth of the node in the tree, and the pair of a node is the
one with the nearest node above it, so that recursions are sampled as
documented only where every such node is a child of the root (`Shallow`).
-/

namespace Libaflmm

def RuleIdOrCustom.id : RuleIdOrCustom → RuleId
  | .rule id => id
  | .custom id _ => id

namespace Context

variable (ctx : Context)

def getNt (r : RuleIdOrCustom) : Option NTermId := (ctx.getRule r.id).map Rule.nonterm

def getNumChildren (r : RuleIdOrCustom) : Option Nat :=
  (ctx.getRule r.id).map fun rule => rule.nonterms.length

end Context

namespace Tree

def getParent (tree : Tree) (n : NodeId) : Option NodeId :=
  if n = 0 then none else tree.parents[n]?

end Tree

/-- The sampler over the weights is left out. -/
structure RecursionInfo where
  recursiveParents : HashMap NodeId NodeId
  depthByOffset : List Nat
  nodeByOffset : List NodeId

namespace RecursionInfo

abbrev Parents := HashMap NodeId NodeId × List NodeId × List Nat

/-- What a node of the nonterminal adds, when there is another one above it. -/
def record (node : NodeId) (depth : Nat) (res : Option Parents) : Option NodeId → Option Parents
  | none => res
  | some parent =>
      let (parents, ids, weights) := res.getD (∅, [], [])
      some (AList.insert node parent parents, ids ++ [node], weights ++ [depth])

def findParentsLoop (nt : NTermId) (ctx : Context) :
    Nat → List RuleIdOrCustom → List (Option NodeId × Nat) → Option Parents →
      Option (Option Parents)
  | _, [], _, res => some res
  | _, _ :: _, [], _ => none
  | node, rule :: rules, (maybeParent, depth) :: stack, res => do
    let ruleNt ← ctx.getNt rule
    let res := if ruleNt = nt then record node depth res maybeParent else res
    let maybeParent := if ruleNt = nt then some node else maybeParent
    let numChildren ← ctx.getNumChildren rule
    findParentsLoop nt ctx (node + 1) rules
      (List.replicate numChildren (maybeParent, depth + 1) ++ stack) res

def findParents (t : Tree) (nt : NTermId) (ctx : Context) : Option (Option Parents) :=
  findParentsLoop nt ctx 0 t.rules [(none, 0)] none

def new (t : Tree) (n : NTermId) (ctx : Context) : Option (Option RecursionInfo) := do
  let found ← findParents t n ctx
  some (found.map fun (recursiveParents, nodeByOffset, depthByOffset) =>
    { recursiveParents, depthByOffset, nodeByOffset })

def getRecursionPairByOffset (self : RecursionInfo) (offset : Nat) : Option (NodeId × NodeId) := do
  let node1 ← self.nodeByOffset[offset]?
  let depth ← self.depthByOffset[offset]?
  let node2 ← (List.range depth).foldlM (fun _ _ => self.recursiveParents.lookup node1) node1
  some (node2, node1)

def getNumberOfRecursions (self : RecursionInfo) : Nat := self.nodeByOffset.length

end RecursionInfo

/-! ## Recursions -/

namespace Tree

/-- `a` is a proper ancestor of `n`. -/
inductive Ancestor (tree : Tree) : NodeId → NodeId → Prop
  | parent {n p : NodeId} : tree.getParent n = some p → Ancestor tree p n
  | above {n p a : NodeId} : tree.getParent n = some p → Ancestor tree a p → Ancestor tree a n

def HasNt (tree : Tree) (ctx : Context) (nt : NTermId) (n : NodeId) : Prop :=
  ∃ rule, tree.rules[n]? = some rule ∧ ctx.getNt rule = some nt

/-- The proper ancestors with the nonterminal. -/
def ancestorsWith (tree : Tree) (ctx : Context) (nt : NTermId) (n : NodeId) : Set NodeId :=
  {a | tree.Ancestor a n ∧ tree.HasNt ctx nt a}

/-- The node has the nonterminal, and a proper ancestor has it too. -/
def Recursive (tree : Tree) (ctx : Context) (nt : NTermId) (n : NodeId) : Prop :=
  tree.HasNt ctx nt n ∧ (tree.ancestorsWith ctx nt n).Nonempty

end Tree

/-! ## What the pass over the tree finds -/

namespace RecursionInfo

open RoseTree

/-- A node, the nearest one above it with the nonterminal, and its depth. -/
abbrev Entry := NodeId × NodeId × Nat

def ofEntries (entries : List Entry) : Option Parents :=
  if entries = [] then none
  else some (entries.foldl (fun m e => AList.insert e.1 e.2.1 m) ∅, entries.map (·.1),
    entries.map (·.2.2))

theorem record_ofEntries (entries : List Entry) (node : NodeId) (depth : Nat)
    (maybeParent : Option NodeId) :
    record node depth (ofEntries entries) maybeParent =
      ofEntries (entries ++ maybeParent.toList.map fun p => (node, p, depth)) := by
  cases maybeParent with
  | none => rw [record, Option.toList_none, List.map_nil, List.append_nil]
  | some parent =>
      by_cases hnil : entries = []
      · subst hnil
        rfl
      · rw [record, ofEntries, if_neg hnil, ofEntries, if_neg (by simp)]
        simp [List.foldl_append]

variable (nt : NTermId) (ctx : Context)

/-- The entries of the nodes of `rules` that find `values` on the stack. -/
def entriesFrom : Nat → List RuleIdOrCustom → List (Option NodeId × Nat) → List Entry
  | i, rule :: rules, (maybeParent, depth) :: values =>
      (if ctx.getNt rule = some nt then maybeParent.toList.map fun p => (i, p, depth) else []) ++
        entriesFrom (i + 1) rules values
  | _, _, _ => []

def numChildren (rule : RuleIdOrCustom) : Nat := (ctx.getNumChildren rule).getD 0

/-- What a node puts on the stack for its children. -/
def handDown (v : Option NodeId × Nat) (node : NodeId) (rule : RuleIdOrCustom) :
    Option NodeId × Nat :=
  (if ctx.getNt rule = some nt then some node else v.1, v.2 + 1)

theorem findParentsLoop_eq (node : NodeId) {rules : List RuleIdOrCustom}
    (stack : List (Option NodeId × Nat)) (entries : List Entry)
    (hvalid : ∀ rule ∈ rules, ∃ r, ctx.getRule rule.id = some r) :
    findParentsLoop nt ctx node rules stack (ofEntries entries) =
      (walkStack (numChildren ctx) (handDown nt ctx) node rules stack).map fun values =>
        ofEntries (entries ++ entriesFrom nt ctx node rules values) := by
  induction rules generalizing node stack entries with
  | nil => simp [findParentsLoop, walkStack, entriesFrom]
  | cons rule rules ih =>
      obtain ⟨⟨r, hr⟩, hvalid⟩ := List.forall_mem_cons.mp hvalid
      rcases stack with _ | ⟨⟨maybeParent, depth⟩, stack⟩
      · rfl
      · have hnt : ctx.getNt rule = some r.nonterm := by rw [Context.getNt, hr, Option.map_some]
        have hnum : ctx.getNumChildren rule = some r.nonterms.length := by
          rw [Context.getNumChildren, hr, Option.map_some]
        have hres : (if r.nonterm = nt then record node depth (ofEntries entries) maybeParent
            else ofEntries entries) = ofEntries (entries ++
              if r.nonterm = nt then maybeParent.toList.map fun p => (node, p, depth) else []) := by
          split
          · exact record_ofEntries entries node depth maybeParent
          · rw [List.append_nil]
        simp only [findParentsLoop, hnt, hnum, Option.bind_eq_bind, Option.bind_some, hres,
          ih _ _ _ hvalid, walkStack, numChildren, handDown, Option.getD_some, Option.some.injEq,
          Option.map_map]
        congr 1
        funext values
        simp only [Function.comp_apply, entriesFrom, hnt, Option.some.injEq, List.append_assoc]

/-- What a chain says to the pass: the nearest node with the nonterminal, and the depth. -/
def summary (chain : Chain RuleIdOrCustom) : Option NodeId × Nat :=
  ((chain.find? fun e => ctx.getNt e.2 = some nt).map Prod.fst, chain.length)

theorem summary_extend (chain : Chain RuleIdOrCustom) (node : NodeId) (rule : RuleIdOrCustom) :
    summary nt ctx (extend chain node rule) =
      handDown nt ctx (summary nt ctx chain) node rule := by
  rw [summary, extend, List.find?_cons]
  by_cases h : ctx.getNt rule = some nt
  · simp [h, handDown, summary]
  · simp [h, handDown, summary]

end RecursionInfo

section

variable {ctx : Context}

mutual

/-- The labels of a derivation are those of rules, and every node has a child
for each nonterminal of its rule. -/
theorem ranked_of_derives : ∀ (t : RoseTree RuleIdOrCustom) (nt : NTermId), Derives ctx nt t →
    t.Ranked (RecursionInfo.numChildren ctx) ∧
      ∀ rule ∈ t.labels, ∃ r, ctx.getRule rule.id = some r
  | .node label children, nt, h => by
      cases h with
      | @node rid rule _ _ hrule hlabel hchildren =>
          obtain ⟨hranked, hvalid⟩ := rankedAll_of_derives children rule.nonterms hchildren
          have hid : label.id = rid := by
            cases rule with
            | plain r => rw [show label = .rule rid from hlabel]; rfl
            | script r => rw [show label = .rule rid from hlabel]; rfl
            | regExp r =>
                obtain ⟨data, hdata⟩ : ∃ data, label = .custom rid data := hlabel
                rw [hdata]
                rfl
          have hrule' : ctx.getRule label.id = some rule := by rw [hid, hrule]
          refine ⟨⟨?_, hranked⟩, List.forall_mem_cons.mpr ⟨⟨rule, hrule'⟩, hvalid⟩⟩
          rw [RecursionInfo.numChildren, Context.getNumChildren, hrule', Option.map_some,
            Option.getD_some, hchildren.length_eq]

theorem rankedAll_of_derives : ∀ (ts : List (RoseTree RuleIdOrCustom)) (nts : List NTermId),
    List.Forall₂ (Derives ctx) nts ts →
      RoseTree.RankedAll (RecursionInfo.numChildren ctx) ts ∧
        ∀ rule ∈ RoseTree.labelsAll ts, ∃ r, ctx.getRule rule.id = some r
  | [], _, _ => ⟨trivial, fun _ h => absurd h List.not_mem_nil⟩
  | t :: ts, nts, h => by
      cases h with
      | cons ht hts =>
          obtain ⟨hranked, hvalid⟩ := ranked_of_derives t _ ht
          obtain ⟨hrankedAll, hvalidAll⟩ := rankedAll_of_derives ts _ hts
          refine ⟨⟨hranked, hrankedAll⟩, fun rule hrule => ?_⟩
          rcases List.mem_append.mp hrule with hrule | hrule
          · exact hvalid rule hrule
          · exact hvalidAll rule hrule

end

/-- The chains of a tree. -/
def RecursionInfo.chains (t : RoseTree RuleIdOrCustom) : List (RoseTree.Chain RuleIdOrCustom) :=
  t.inherit RoseTree.extend 0 []

/-- **The pass** finds an entry for every node with the nonterminal below
another one, with the nearest of them and its depth. -/
theorem findParents_layOut {start nt : NTermId} {t : RoseTree RuleIdOrCustom}
    (h : Derives ctx start t) :
    RecursionInfo.findParents (Tree.layOut t) nt ctx = some (RecursionInfo.ofEntries
      (RecursionInfo.entriesFrom nt ctx 0 t.labels
        ((RecursionInfo.chains t).map (RecursionInfo.summary nt ctx)))) := by
  obtain ⟨hranked, hvalid⟩ := ranked_of_derives t start h
  have hwalk := RoseTree.walkStack_labels (RecursionInfo.handDown nt ctx) 0 (none, 0) [] [] t
    hranked
  rw [List.append_nil, RoseTree.walkStack] at hwalk
  have hsummary := RoseTree.inherit_map
    (RecursionInfo.summary_extend nt ctx) 0 [] t
  have hloop := RecursionInfo.findParentsLoop_eq nt ctx 0 [(none, 0)] [] hvalid
  rw [hwalk, Option.map_some, Option.map_some, List.append_nil] at hloop
  rw [RecursionInfo.chains, ← hsummary]
  exact hloop

end

/-! ## The entries -/

namespace RecursionInfo

variable {nt : NTermId} {ctx : Context}

theorem mem_entriesFrom {i n p d : Nat} {rules : List RuleIdOrCustom}
    {values : List (Option NodeId × Nat)} :
    (n, p, d) ∈ entriesFrom nt ctx i rules values ↔
      ∃ k rule, n = i + k ∧ rules[k]? = some rule ∧ values[k]? = some (some p, d) ∧
        ctx.getNt rule = some nt := by
  induction rules generalizing i values with
  | nil => simp [entriesFrom]
  | cons rule rules ih =>
      rcases values with _ | ⟨⟨maybeParent, depth⟩, values⟩
      · simp [entriesFrom]
      rw [entriesFrom, List.mem_append, ih]
      constructor
      · rintro (h | ⟨k, rule', rfl, hrule, hvalue, hnt⟩)
        · split at h
          · next hnt =>
              obtain ⟨p', hp', heq⟩ := List.mem_map.mp h
              obtain ⟨rfl, rfl, rfl⟩ : i = n ∧ p' = p ∧ depth = d := by simpa using heq
              exact ⟨0, rule, rfl, rfl, by rw [Option.mem_toList.mp hp']; rfl, hnt⟩
          · exact absurd h List.not_mem_nil
        · exact ⟨k + 1, rule', by omega, hrule, hvalue, hnt⟩
      · rintro ⟨k, rule', rfl, hrule, hvalue, hnt⟩
        cases k with
        | zero =>
            obtain rfl : rule = rule' := Option.some.inj hrule
            obtain ⟨rfl, rfl⟩ : maybeParent = some p ∧ depth = d :=
              Prod.mk.inj (Option.some.inj hvalue)
            exact Or.inl (by rw [if_pos hnt]; exact List.mem_singleton_self _)
        | succ k => exact Or.inr ⟨k, rule', by omega, hrule, hvalue, hnt⟩

theorem entriesFrom_sorted (i : Nat) (rules : List RuleIdOrCustom)
    (values : List (Option NodeId × Nat)) :
    ((entriesFrom nt ctx i rules values).map Prod.fst).Pairwise (· < ·) := by
  induction rules generalizing i values with
  | nil => simp [entriesFrom]
  | cons rule rules ih =>
      rcases values with _ | ⟨⟨maybeParent, depth⟩, values⟩
      · simp [entriesFrom]
      rw [entriesFrom, List.map_append]
      refine List.pairwise_append.mpr ⟨?_, ih (i + 1) values, fun a ha b hb => ?_⟩
      · split
        · cases maybeParent <;> simp
        · simp
      · have ha : a = i := by
          split at ha
          · cases maybeParent <;> simp at ha
            exact ha
          · simp at ha
        obtain ⟨⟨n, p, d⟩, hmem, rfl⟩ := List.mem_map.mp hb
        obtain ⟨k, -, hn, -⟩ := mem_entriesFrom.mp hmem
        rw [ha, hn]
        exact Nat.lt_of_lt_of_le (Nat.lt_succ_self i) (Nat.le_add_right (i + 1) k)

theorem entry_unique {i n p p' d d' : Nat} {rules : List RuleIdOrCustom}
    {values : List (Option NodeId × Nat)} (h : (n, p, d) ∈ entriesFrom nt ctx i rules values)
    (h' : (n, p', d') ∈ entriesFrom nt ctx i rules values) : p = p' ∧ d = d' := by
  obtain ⟨k, -, hk, -, hvalue, -⟩ := mem_entriesFrom.mp h
  obtain ⟨k', -, hk', -, hvalue', -⟩ := mem_entriesFrom.mp h'
  obtain rfl : k = k' := by omega
  rw [hvalue] at hvalue'
  obtain ⟨hp, hd⟩ := Prod.mk.inj (Option.some.inj hvalue')
  exact ⟨Option.some.inj hp, hd⟩

/-- What `new` makes of entries. -/
def ofList (entries : List Entry) : RecursionInfo :=
  ⟨entries.foldl (fun m e => AList.insert e.1 e.2.1 m) ∅, entries.map (·.2.2), entries.map (·.1)⟩

theorem foldlM_const {p : NodeId} : ∀ (l : List Nat) (n : NodeId), l ≠ [] →
    l.foldlM (fun _ _ => some p) n = some p
  | [], _, h => absurd rfl h
  | [_], _, _ => rfl
  | _ :: b :: l, n, _ => by
      rw [List.foldlM_cons, Option.bind_eq_bind, Option.bind_some]
      exact foldlM_const (b :: l) p (List.cons_ne_nil b l)

/-- The pair of an entry is the one with the nearest node above. -/
theorem getRecursionPairByOffset_ofList {entries : List Entry} {offset n p d : Nat}
    (hnodup : (entries.map Prod.fst).Nodup) (h : entries[offset]? = some (n, p, d)) (hd : 0 < d) :
    (ofList entries).getRecursionPairByOffset offset = some (p, n) := by
  have hlookup : (ofList entries).recursiveParents.lookup n = some p := by
    have hmem : (n, p) ∈ entries.map fun e => (e.1, e.2.1) :=
      List.mem_map_of_mem (List.mem_of_getElem? h)
    have hfold := HashMap.lookup_foldl_insert (m := ∅)
      (l := entries.map fun e => (e.1, e.2.1)) (by rw [List.map_map]; exact hnodup) hmem
    rw [List.foldl_map] at hfold
    exact hfold
  have hfold : (List.range d).foldlM (fun _ _ => some p) n = some p := by
    refine foldlM_const _ _ fun hnil => ?_
    rw [List.range_eq_nil] at hnil
    omega
  have hnode : (ofList entries).nodeByOffset[offset]? = some n := by simp [ofList, h]
  have hdepth : (ofList entries).depthByOffset[offset]? = some d := by simp [ofList, h]
  simp only [getRecursionPairByOffset, hnode, hdepth, Option.bind_eq_bind, Option.bind_some,
    hlookup, hfold]

theorem getRecursionPairByOffset_inv {entries : List Entry} {offset : Nat} {a n : NodeId}
    (hnodup : (entries.map Prod.fst).Nodup) (hpos : ∀ e ∈ entries, 0 < e.2.2)
    (h : (ofList entries).getRecursionPairByOffset offset = some (a, n)) :
    ∃ d, entries[offset]? = some (n, a, d) := by
  cases hentry : entries[offset]? with
  | none => simp [getRecursionPairByOffset, ofList, hentry] at h
  | some e =>
      obtain ⟨n', p, d⟩ := e
      rw [getRecursionPairByOffset_ofList hnodup hentry
        (hpos _ (List.mem_of_getElem? hentry))] at h
      obtain ⟨rfl, rfl⟩ := Prod.mk.inj (Option.some.inj h)
      exact ⟨d, rfl⟩

end RecursionInfo

end Libaflmm
