import Libaflmm.GrammarTree
import Libaflmm.PreorderTrees

/-!
# Derivations

A derivation of a nonterminal is a tree of rules: the rule of the root derives
the nonterminal, and its nonterminals are derived by the children in turn. What
the generator fills in is the layout of a derivation in pre-order. It does so by
appending subtrees to the right of what is there.
-/

namespace Libaflmm

/-- A node holds the id of its rule, and for a regular expression a string. -/
def Rule.LabelledBy (rule : Rule) (rid : RuleId) (label : RuleIdOrCustom) : Prop :=
  match rule with
  | .plain _ | .script _ => label = .rule rid
  | .regExp _ => ∃ data, label = .custom rid data

theorem Rule.labelledBy_rule {rule : Rule} {rid : RuleId} (h : ∀ re, rule ≠ .regExp re) :
    rule.LabelledBy rid (.rule rid) := by
  cases rule with
  | plain rule => rfl
  | script rule => rfl
  | regExp re => exact absurd rfl (h re)

inductive Derives (ctx : Context) : NTermId → RoseTree RuleIdOrCustom → Prop
  | node {rid : RuleId} {rule : Rule} {label : RuleIdOrCustom}
      {children : List (RoseTree RuleIdOrCustom)} :
      ctx.getRule rid = some rule → rule.LabelledBy rid label →
      List.Forall₂ (Derives ctx) rule.nonterms children →
      Derives ctx rule.nonterm (.node label children)

namespace Tree

open RoseTree

/-- The root is its own parent. -/
def layOut (derivation : RoseTree RuleIdOrCustom) : Tree :=
  ⟨derivation.labels, derivation.sizes, derivation.parents 0 0⟩

structure Consistent (tree : Tree) : Prop where
  sizes : tree.rules.length = tree.sizes.length
  parents : tree.sizes.length = tree.parents.length

/-- The children of the node `paren`, to the right of what is there. -/
def append (tree : Tree) (paren : NodeId) (children : List (RoseTree RuleIdOrCustom)) : Tree :=
  ⟨tree.rules ++ labelsAll children, tree.sizes ++ sizesAll children,
    tree.parents ++ parentsAll tree.rules.length paren children⟩

variable {tree : Tree} {paren : NodeId} {label : RuleIdOrCustom}

theorem Consistent.push (h : tree.Consistent) (label : RuleIdOrCustom) :
    (tree.push label).Consistent := by
  obtain ⟨hsizes, hparents⟩ := h
  constructor <;> simp [Tree.push, hsizes, hparents]

theorem Consistent.append (h : tree.Consistent) (paren : NodeId)
    (children : List (RoseTree RuleIdOrCustom)) : (tree.append paren children).Consistent := by
  obtain ⟨hsizes, hparents⟩ := h
  constructor
  · simp [Tree.append, hsizes, length_labelsAll, length_sizesAll]
  · simp [Tree.append, hparents, length_parentsAll, length_sizesAll]

theorem append_nil : tree.append paren [] = tree := by
  simp [append, labelsAll, sizesAll, parentsAll]

theorem append_cons (child : RoseTree RuleIdOrCustom)
    (children : List (RoseTree RuleIdOrCustom)) :
    tree.append paren (child :: children) =
      (tree.append paren [child]).append paren children := by
  simp [append, labelsAll, sizesAll, parentsAll, length_labels]

/-- A node that is pushed, grown and then given its size and parent is the
subtree that has grown. -/
theorem setSize_append_push (h : tree.Consistent) (children : List (RoseTree RuleIdOrCustom)) :
    (((tree.push label).append tree.rules.length children).setSize tree.rules.length
        (1 + sizeAll children)).setParent tree.rules.length paren =
      tree.append paren [.node label children] := by
  obtain ⟨hsizes, hparents⟩ := h
  have hlen : tree.rules.length = tree.parents.length := hsizes.trans hparents
  simp only [setParent, setSize, push, append, labelsAll, labels, sizesAll, RoseTree.sizes,
    parentsAll, RoseTree.parents, List.append_nil, List.append_assoc, List.cons_append,
    List.nil_append, List.length_append, List.length_cons, List.length_nil, Nat.zero_add]
  rw [List.set_append_right _ _ (Nat.le_of_eq hsizes.symm), hsizes, Nat.sub_self,
    ← hsizes, List.set_append_right _ _ (Nat.le_of_eq hlen.symm), hlen, Nat.sub_self]
  rfl

/-- The root is pushed and grown likewise, and is given the number of nodes. -/
theorem setSize_append_root (children : List (RoseTree RuleIdOrCustom)) :
    let grown := (truncate.push label).append 0 children
    grown.setSize 0 grown.rules.length = layOut (.node label children) := by
  simp [truncate, push, append, setSize, layOut, labels, RoseTree.sizes, RoseTree.parents,
    length_labelsAll, Nat.add_comm]

end Tree

end Libaflmm
