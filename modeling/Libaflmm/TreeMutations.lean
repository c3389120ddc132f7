import Libaflmm.RecursionInfo
import Libaflmm.Subtrees

/-!
# Replacing a subtree

A mutation of a tree replaces one of its subtrees by a subtree of another tree.
It is kept as the rules in front of the subtree, those of the replacement, and
those behind it. A tree is made of it again by a pass from the left to the
right, which finds the parents with a stack of the nonterminals to come, and
one from the right to the left, which adds the size of each node to its parent.

On the layout of a derivation this is the replacement of a derivation of a
nonterminal by another one of it, and the sizes and parents are those of the
layout again. The sizes add up to the number of nodes, so that they do not
overflow.
-/

namespace Libaflmm

structure TreeMutation where
  pre : List RuleIdOrCustom
  repl : List RuleIdOrCustom
  post : List RuleIdOrCustom

namespace Tree

/-- One step of `calc_parents` for each rule: the node takes its parent off the
stack, and puts itself on it for each of its nonterminals. -/
def calcParents (ctx : Context) :
    NodeId → List RuleIdOrCustom → List (NTermId × NodeId) → Option (List NodeId)
  | _, [], _ => some []
  | _, _ :: _, [] => none
  | i, label :: labels, (ntermId, node) :: stack => do
    let rule ← ctx.getRule label.id
    if ntermId = rule.nonterm then do
      let parents ← calcParents ctx (i + 1) labels (rule.nonterms.map (·, i) ++ stack)
      some (node :: parents)
    else none

def addSize (parents : List NodeId) (sizes : List Nat) (i : NodeId) : Option (List Nat) := do
  let parent ← parents[i]?
  let size ← sizes[i]?
  let total ← sizes[parent]?
  some (sizes.set parent (total + size))

def calcSizes (parents : List NodeId) : Option (List Nat) :=
  (List.range' 1 (parents.length - 1)).reverse.foldlM (addSize parents)
    (List.replicate parents.length 1)

def fromRuleVec (rules : List RuleIdOrCustom) (ctx : Context) : Option Tree :=
  match rules with
  | [] => some truncate
  | label :: _ => do
    let rule ← ctx.getRule label.id
    let parents ← calcParents ctx 0 rules [(rule.nonterm, 0)]
    let sizes ← calcSizes parents
    some ⟨rules, sizes, parents⟩

variable (tree : Tree)

def getRule (n : NodeId) (ctx : Context) : Option Rule := do
  let label ← tree.rules[n]?
  ctx.getRule label.id

def subtreeSize (n : NodeId) : Option Nat := tree.sizes[n]?

def slice (start stop : Nat) : Option (List RuleIdOrCustom) :=
  if start ≤ stop ∧ stop ≤ tree.rules.length then
    some ((tree.rules.drop start).take (stop - start))
  else none

def mutateReplaceFromTree (n : NodeId) (other : Tree) (otherNode : NodeId) :
    Option TreeMutation := do
  let oldSize ← tree.subtreeSize n
  let newSize ← other.subtreeSize otherNode
  let pre ← tree.slice 0 n
  let repl ← other.slice otherNode (otherNode + newSize)
  let post ← tree.slice (n + oldSize) tree.rules.length
  some ⟨pre, repl, post⟩

end Tree

namespace TreeMutation

def rules (mutation : TreeMutation) : List RuleIdOrCustom :=
  mutation.pre ++ mutation.repl ++ mutation.post

def toTree (mutation : TreeMutation) (ctx : Context) : Option Tree :=
  Tree.fromRuleVec mutation.rules ctx

end TreeMutation

/-! ## Parents and sizes -/

theorem Rule.LabelledBy.id_eq {rule : Rule} {rid : RuleId} {label : RuleIdOrCustom}
    (h : rule.LabelledBy rid label) : label.id = rid := by
  cases rule with
  | plain rule => exact congrArg RuleIdOrCustom.id h
  | script rule => exact congrArg RuleIdOrCustom.id h
  | regExp rule =>
      obtain ⟨data, hdata⟩ := h
      exact congrArg RuleIdOrCustom.id hdata

open RoseTree

namespace Tree

variable {ctx : Context}

mutual

theorem calcParents_labels {tree : RoseTree RuleIdOrCustom} {nt : NTermId}
    (h : Derives ctx nt tree) (i p : NodeId) (rest : List RuleIdOrCustom)
    (stack : List (NTermId × NodeId)) :
    calcParents ctx i (tree.labels ++ rest) ((nt, p) :: stack) =
      (calcParents ctx (i + tree.size) rest stack).map (tree.parents i p ++ ·) := by
  cases h with
  | @node rid rule label children hrule hlabelled hchildren =>
      have hid : ctx.getRule label.id = some rule := hlabelled.id_eq ▸ hrule
      rw [labels, List.cons_append, calcParents, hid]
      simp only [Option.bind_eq_bind, Option.bind_some, if_true]
      rw [calcParents_labelsAll hchildren (i + 1) i rest stack, size, RoseTree.parents,
        Nat.add_assoc]
      cases calcParents ctx (i + (1 + sizeAll children)) rest stack <;> rfl

theorem calcParents_labelsAll {trees : List (RoseTree RuleIdOrCustom)} {nts : List NTermId}
    (h : List.Forall₂ (Derives ctx) nts trees) (i p : NodeId) (rest : List RuleIdOrCustom)
    (stack : List (NTermId × NodeId)) :
    calcParents ctx i (labelsAll trees ++ rest) (nts.map (·, p) ++ stack) =
      (calcParents ctx (i + sizeAll trees) rest stack).map (parentsAll i p trees ++ ·) := by
  cases h with
  | nil =>
      rw [labelsAll, sizeAll, parentsAll]
      exact Option.map_id'.symm
  | @cons nt tree nts trees htree htrees =>
      rw [labelsAll, List.append_assoc, List.map_cons, List.cons_append,
        calcParents_labels htree i p, calcParents_labelsAll htrees (i + tree.size) p rest stack,
        Option.map_map, sizeAll, parentsAll, Nat.add_assoc]
      congr 1
      funext l
      exact (List.append_assoc _ _ _).symm

end

/-! ### Sizes -/

theorem modify_append {f : Nat → Nat} {front : List Nat} {p : Nat} (hp : p < front.length)
    (back : List Nat) : (front ++ back).modify p f = front.modify p f ++ back := by
  rw [List.modify_eq_set, List.modify_eq_set, List.getElem?_append_left hp,
    List.set_append_left _ _ hp]

theorem addSize_eq {parents : List NodeId} {front back : List Nat} {s p : Nat}
    (hparent : parents[front.length]? = some p) (hp : p < front.length) :
    addSize parents (front ++ s :: back) front.length =
      some (front.modify p (· + s) ++ s :: back) := by
  have hsize : (front ++ s :: back)[front.length]? = some s := by
    rw [List.getElem?_append_right (Nat.le_refl _), Nat.sub_self]
    rfl
  have htotal : (front ++ s :: back)[p]? = some front[p] := by
    rw [List.getElem?_append_left hp, List.getElem?_eq_getElem hp]
  simp only [addSize, hparent, hsize, htotal, Option.bind_eq_bind, Option.bind_some]
  rw [List.set_append_left _ _ hp, List.modify_eq_set, List.getElem?_eq_getElem hp,
    Option.getD_some]

/-- From the node `o` on, `parents` is as in a layout. -/
def HasParents (parents : List NodeId) (o : NodeId) (l : List NodeId) : Prop :=
  ∀ j < l.length, parents[o + j]? = l[j]?

theorem HasParents.left {parents l l' : List NodeId} {o : NodeId}
    (h : HasParents parents o (l ++ l')) : HasParents parents o l := by
  intro j hj
  rw [h j (by rw [List.length_append]; omega), List.getElem?_append_left hj]

theorem HasParents.right {parents l l' : List NodeId} {o : NodeId}
    (h : HasParents parents o (l ++ l')) : HasParents parents (o + l.length) l' := by
  intro j hj
  rw [Nat.add_assoc, h (l.length + j) (by rw [List.length_append]; omega),
    List.getElem?_append_right (Nat.le_add_right _ _), Nat.add_sub_cancel_left]

mutual

/-- The nodes of a subtree, from the right to the left: their sizes are added
up, and that of its root to its parent in front. -/
theorem foldlM_addSize {parents : List NodeId} {front : List Nat} {p : Nat}
    (hp : p < front.length) (back : List Nat) : ∀ {tree : RoseTree RuleIdOrCustom},
    HasParents parents front.length (tree.parents front.length p) →
      (List.range' front.length tree.size).reverse.foldlM (addSize parents)
          (front ++ List.replicate tree.size 1 ++ back) =
        some (front.modify p (· + tree.size) ++ tree.sizes ++ back)
  | .node label children, h => by
      have hroot : parents[front.length]? = some p := h 0 (by simp [RoseTree.parents])
      have hlen : (front ++ [1]).length = front.length + 1 := List.length_append
      have hchildren : HasParents parents (front ++ [1]).length
          (parentsAll (front ++ [1]).length front.length children) := by
        rw [hlen]
        exact HasParents.right (l := [p]) h
      have hbelow := foldlM_addSizeAll (by omega) back hchildren
      have hmodify : (front ++ [1]).modify front.length (· + sizeAll children) =
          front ++ [1 + sizeAll children] := by
        rw [List.modify_eq_set]
        simp
      rw [hlen, hmodify] at hbelow
      have hinit : front ++ List.replicate (sizeAll children + 1) 1 ++ back =
          front ++ [1] ++ List.replicate (sizeAll children) 1 ++ back := by
        rw [List.replicate_succ, List.append_cons]
      have hassoc : front ++ [1 + sizeAll children] ++ sizesAll children ++ back =
          front ++ (1 + sizeAll children) :: (sizesAll children ++ back) := by simp
      rw [size, Nat.add_comm 1, List.range'_succ, List.reverse_cons, List.foldlM_append, hinit,
        hbelow, hassoc]
      simp only [Option.bind_eq_bind, Option.bind_some, List.foldlM_cons, List.foldlM_nil,
        addSize_eq hroot hp]
      simp [RoseTree.sizes, Nat.add_comm 1]

theorem foldlM_addSizeAll {parents : List NodeId} {front : List Nat} {p : Nat}
    (hp : p < front.length) (back : List Nat) : ∀ {trees : List (RoseTree RuleIdOrCustom)},
    HasParents parents front.length (parentsAll front.length p trees) →
      (List.range' front.length (sizeAll trees)).reverse.foldlM (addSize parents)
          (front ++ List.replicate (sizeAll trees) 1 ++ back) =
        some (front.modify p (· + sizeAll trees) ++ sizesAll trees ++ back)
  | [], _ => by
      have hsame : front.modify p (fun x => x) = front := List.modify_id p front
      simp [sizeAll, sizesAll, hsame]
  | tree :: trees, h => by
      have hparents := length_parents front.length p tree
      have hfirst : (front ++ List.replicate tree.size 1).length = front.length + tree.size := by
        rw [List.length_append, List.length_replicate]
      have hrest : HasParents parents (front ++ List.replicate tree.size 1).length
          (parentsAll (front ++ List.replicate tree.size 1).length p trees) := by
        have hright := h.right
        rwa [hparents, ← hfirst] at hright
      have hlast := foldlM_addSizeAll (by omega) back hrest
      rw [hfirst, modify_append hp] at hlast
      have hmodify : (front.modify p (· + sizeAll trees)).length = front.length :=
        List.length_modify ..
      have htree : HasParents parents (front.modify p (· + sizeAll trees)).length
          (tree.parents (front.modify p (· + sizeAll trees)).length p) := by
        rw [hmodify]
        exact h.left
      have hnext := foldlM_addSize (by omega) (sizesAll trees ++ back) htree
      rw [hmodify, List.modify_modify_eq] at hnext
      have hinit : front ++ List.replicate (tree.size + sizeAll trees) 1 ++ back =
          front ++ List.replicate tree.size 1 ++ List.replicate (sizeAll trees) 1 ++ back := by
        rw [List.replicate_add, ← List.append_assoc front]
      have hsum : (· + tree.size) ∘ (· + sizeAll trees) = (· + (tree.size + sizeAll trees)) := by
        funext x
        show x + sizeAll trees + tree.size = x + (tree.size + sizeAll trees)
        omega
      rw [sizeAll, ← List.range'_append_1, List.reverse_append, List.foldlM_append, hinit, hlast,
        Option.bind_eq_bind, Option.bind_some, List.append_assoc _ (sizesAll trees), hnext, hsum,
        sizesAll]
      simp only [List.append_assoc]

end

theorem calcSizes_parents (tree : RoseTree RuleIdOrCustom) :
    calcSizes (tree.parents 0 0) = some tree.sizes := by
  cases tree with
  | node label children =>
      have hparents : HasParents (0 :: parentsAll 1 0 children) [1].length
          (parentsAll [1].length 0 children) := HasParents.right (l := [0]) fun j hj => by
        show (0 :: parentsAll 1 0 children)[0 + j]? = _
        rw [Nat.zero_add]
        rfl
      have hlen : (RoseTree.parents 0 0 (.node label children)).length = sizeAll children + 1 := by
        rw [length_parents, size, Nat.add_comm]
      have hsum := foldlM_addSizeAll Nat.one_pos [] hparents
      simp only [List.append_nil] at hsum
      rw [calcSizes, hlen, Nat.add_sub_cancel]
      exact hsum

/-- A tree made of the rules of a derivation is its layout. -/
theorem fromRuleVec_labels {tree : RoseTree RuleIdOrCustom} {nt : NTermId}
    (h : Derives ctx nt tree) : fromRuleVec tree.labels ctx = some (layOut tree) := by
  have hparents := calcParents_labels h 0 0 [] []
  rw [List.append_nil, calcParents, Option.map_some, List.append_nil] at hparents
  cases h with
  | @node rid rule label children hrule hlabelled hchildren =>
      have hid : ctx.getRule label.id = some rule := hlabelled.id_eq ▸ hrule
      have hsizes := calcSizes_parents (.node label children)
      simp only [labels] at hparents
      simp only [fromRuleVec, labels, hid, hparents, hsizes, Option.bind_eq_bind, Option.bind_some]
      rfl

end Tree

/-! ## Subtrees of a derivation -/

/-- The rule of the root determines the nonterminal. -/
theorem Derives.unique {ctx : Context} {tree : RoseTree RuleIdOrCustom} {nt nt' : NTermId}
    (h : Derives ctx nt tree) (h' : Derives ctx nt' tree) : nt = nt' := by
  cases h with
  | node hrule hlabelled _ =>
      cases h' with
      | node hrule' hlabelled' _ =>
          rw [hlabelled.id_eq.symm.trans hlabelled'.id_eq] at hrule
          exact congrArg Rule.nonterm (Option.some.inj (hrule.symm.trans hrule'))

mutual

/-- A subtree is a derivation, and may be replaced by any other one of its nonterminal. -/
theorem Derives.subtree? {ctx : Context} : ∀ {tree sub : RoseTree RuleIdOrCustom} {nt : NTermId}
    {n : Nat}, Derives ctx nt tree → tree.subtree? n = some sub →
      ∃ nt', Derives ctx nt' sub ∧
        ∀ new, Derives ctx nt' new → Derives ctx nt (graft new tree n)
  | .node label children, sub, nt, 0, h, hsub => by
      obtain rfl := Option.some.inj hsub
      exact ⟨nt, h, fun new hnew => hnew⟩
  | .node label children, sub, _, n + 1, .node hrule hlabelled hchildren, hsub => by
      obtain ⟨nt', hderives, hgraft⟩ := Derives.subtreeAll? hchildren hsub
      exact ⟨nt', hderives, fun new hnew => .node hrule hlabelled (hgraft new hnew)⟩

theorem Derives.subtreeAll? {ctx : Context} : ∀ {trees : List (RoseTree RuleIdOrCustom)}
    {sub : RoseTree RuleIdOrCustom} {nts : List NTermId} {n : Nat},
    List.Forall₂ (Derives ctx) nts trees → RoseTree.subtreeAll? trees n = some sub →
      ∃ nt', Derives ctx nt' sub ∧
        ∀ new, Derives ctx nt' new → List.Forall₂ (Derives ctx) nts (graftAll new trees n)
  | [], sub, _, n, _, hsub => by cases hsub
  | tree :: trees, sub, _, n, .cons htree htrees, hsub => by
      rw [RoseTree.subtreeAll?] at hsub
      split at hsub
      · next hn =>
          obtain ⟨nt', hderives, hgraft⟩ := Derives.subtree? htree hsub
          refine ⟨nt', hderives, fun new hnew => ?_⟩
          rw [graftAll, if_pos hn]
          exact .cons (hgraft new hnew) htrees
      · next hn =>
          obtain ⟨nt', hderives, hgraft⟩ := Derives.subtreeAll? htrees hsub
          refine ⟨nt', hderives, fun new hnew => ?_⟩
          rw [graftAll, if_neg hn]
          exact .cons htree (hgraft new hnew)

end

namespace Tree

variable {ctx : Context} {tree other sub new : RoseTree RuleIdOrCustom} {n m : NodeId}
  {nt : NTermId}

theorem size_layOut (tree : RoseTree RuleIdOrCustom) : (layOut tree).rules.length = tree.size :=
  length_labels tree

theorem subtreeSize_layOut (h : tree.subtree? n = some sub) :
    (layOut tree).subtreeSize n = some sub.size := sizes_subtree? h

theorem getRule_layOut (h : tree.subtree? n = some sub) (hderives : Derives ctx nt sub) :
    ∃ rule, (layOut tree).getRule n ctx = some rule ∧ rule.nonterm = nt := by
  obtain ⟨front, back, rfl, hlabels, -⟩ := labels_subtree? h
  cases hderives with
  | @node rid rule label children hrule hlabelled hchildren =>
      refine ⟨rule, ?_, rfl⟩
      have hlabel : (layOut tree).rules[front.length]? = some label := by
        show tree.labels[front.length]? = some label
        rw [hlabels, labels, List.append_assoc, List.getElem?_append_right (Nat.le_refl _),
          Nat.sub_self]
        rfl
      simp only [getRule, hlabel, hlabelled.id_eq, hrule, Option.bind_eq_bind, Option.bind_some]

theorem slice_eq {tree : Tree} {front middle back : List RuleIdOrCustom} {start stop : Nat}
    (h : tree.rules = front ++ middle ++ back) (hstart : front.length = start)
    (hstop : front.length + middle.length = stop) : tree.slice start stop = some middle := by
  have hwithin : start ≤ stop ∧ stop ≤ tree.rules.length := by
    rw [h]
    simp only [List.length_append]
    omega
  subst hstart hstop
  rw [slice, if_pos hwithin, h, List.append_assoc, List.drop_left, Nat.add_sub_cancel_left,
    List.take_left]

theorem mutateReplaceFromTree_layOut (hsub : tree.subtree? n = some sub)
    (hnew : other.subtree? m = some new) :
    ∃ mutation, (layOut tree).mutateReplaceFromTree n (layOut other) m = some mutation ∧
      mutation.rules = (graft new tree n).labels ∧ mutation.repl = new.labels := by
  obtain ⟨front, back, rfl, hlabels, hgraft⟩ := labels_subtree? hsub
  obtain ⟨front', back', rfl, hlabels', -⟩ := labels_subtree? hnew
  refine ⟨⟨front, new.labels, back⟩, ?_, (hgraft new).symm, rfl⟩
  have hlen := congrArg List.length hlabels
  rw [List.length_append, List.length_append, length_labels sub] at hlen
  have hpre : (layOut tree).slice 0 front.length = some front := by
    have hfront : (layOut tree).rules = [] ++ front ++ (sub.labels ++ back) := by
      rw [List.nil_append, ← List.append_assoc]
      exact hlabels
    exact slice_eq hfront rfl (Nat.zero_add _)
  have hrepl : (layOut other).slice front'.length (front'.length + new.size) =
      some new.labels :=
    slice_eq hlabels' rfl (by rw [length_labels])
  have hpost : (layOut tree).slice (front.length + sub.size) (layOut tree).rules.length =
      some back := by
    have hback : (layOut tree).rules = (front ++ sub.labels) ++ back ++ [] := by
      rw [List.append_nil]
      exact hlabels
    refine slice_eq hback ?_ ?_ <;> rw [List.length_append, length_labels]
    exact hlen.symm
  simp only [mutateReplaceFromTree, subtreeSize_layOut hsub, subtreeSize_layOut hnew, hpre, hrepl,
    hpost, Option.bind_eq_bind, Option.bind_some]

end Tree

end Libaflmm
