import Mathlib.Data.List.Basic

/-!
# Trees in pre-order

A tree is laid out as the list of its labels, each node before its children.
The size of the subtree of every node, and the index of its parent, are lists
of the same length. The layout of a node within a larger one depends on the
index the node has there, its `offset`, and on that of its parent.

What a node inherits from the nodes above it (`inherit`) is found in one pass
over the labels, with a stack that has one entry for every subtree to come
(`walkStack`). The chain of a node lists the nodes above it, the nearest first.
-/

namespace Libaflmm

inductive RoseTree (α : Type) where
  | node (label : α) (children : List (RoseTree α))

namespace RoseTree

variable {α : Type}

mutual

def size : RoseTree α → Nat
  | .node _ children => 1 + sizeAll children

def sizeAll : List (RoseTree α) → Nat
  | [] => 0
  | tree :: trees => tree.size + sizeAll trees

end

mutual

def labels : RoseTree α → List α
  | .node label children => label :: labelsAll children

def labelsAll : List (RoseTree α) → List α
  | [] => []
  | tree :: trees => tree.labels ++ labelsAll trees

end

mutual

def sizes : RoseTree α → List Nat
  | .node _ children => (1 + sizeAll children) :: sizesAll children

def sizesAll : List (RoseTree α) → List Nat
  | [] => []
  | tree :: trees => tree.sizes ++ sizesAll trees

end

mutual

def parents (offset parent : Nat) : RoseTree α → List Nat
  | .node _ children => parent :: parentsAll (offset + 1) offset children

def parentsAll (offset parent : Nat) : List (RoseTree α) → List Nat
  | [] => []
  | tree :: trees => tree.parents offset parent ++ parentsAll (offset + tree.size) parent trees

end

mutual

theorem length_labels : ∀ tree : RoseTree α, tree.labels.length = tree.size
  | .node _ children => by
      rw [labels, List.length_cons, length_labelsAll children, size, Nat.add_comm]

theorem length_labelsAll : ∀ trees : List (RoseTree α), (labelsAll trees).length = sizeAll trees
  | [] => rfl
  | tree :: trees => by
      rw [labelsAll, List.length_append, length_labels tree, length_labelsAll trees, sizeAll]

end

mutual

theorem length_sizes : ∀ tree : RoseTree α, tree.sizes.length = tree.size
  | .node _ children => by
      rw [sizes, List.length_cons, length_sizesAll children, size, Nat.add_comm]

theorem length_sizesAll : ∀ trees : List (RoseTree α), (sizesAll trees).length = sizeAll trees
  | [] => rfl
  | tree :: trees => by
      rw [sizesAll, List.length_append, length_sizes tree, length_sizesAll trees, sizeAll]

end

mutual

theorem length_parents (offset parent : Nat) :
    ∀ tree : RoseTree α, (tree.parents offset parent).length = tree.size
  | .node _ children => by
      rw [parents, List.length_cons, length_parentsAll (offset + 1) offset children, size,
        Nat.add_comm]

theorem length_parentsAll (offset parent : Nat) :
    ∀ trees : List (RoseTree α), (parentsAll offset parent trees).length = sizeAll trees
  | [] => rfl
  | tree :: trees => by
      rw [parentsAll, List.length_append, length_parents offset parent tree,
        length_parentsAll (offset + tree.size) parent trees, sizeAll]

end

/-! ## Inherited attributes -/

section

variable {σ τ : Type}

mutual

/-- What every node inherits, where `down` is what a node hands down to its children. -/
def inherit (down : σ → Nat → α → σ) (offset : Nat) (v : σ) : RoseTree α → List σ
  | .node label children => v :: inheritAll down (offset + 1) (down v offset label) children

def inheritAll (down : σ → Nat → α → σ) (offset : Nat) (v : σ) : List (RoseTree α) → List σ
  | [] => []
  | tree :: trees => inherit down offset v tree ++ inheritAll down (offset + tree.size) v trees

end

mutual

theorem length_inherit (down : σ → Nat → α → σ) (offset : Nat) (v : σ) :
    ∀ tree : RoseTree α, (inherit down offset v tree).length = tree.size
  | .node label children => by
      rw [inherit, List.length_cons, length_inheritAll down (offset + 1) _ children, size,
        Nat.add_comm]

theorem length_inheritAll (down : σ → Nat → α → σ) (offset : Nat) (v : σ) :
    ∀ trees : List (RoseTree α), (inheritAll down offset v trees).length = sizeAll trees
  | [] => rfl
  | tree :: trees => by
      rw [inheritAll, List.length_append, length_inherit down offset v tree,
        length_inheritAll down (offset + tree.size) v trees, sizeAll]

end

mutual

/-- What is computed from an inherited value is inherited. -/
theorem inherit_map {down : σ → Nat → α → σ} {down' : τ → Nat → α → τ} {g : σ → τ}
    (hg : ∀ v i a, g (down v i a) = down' (g v) i a) (offset : Nat) (v : σ) :
    ∀ tree : RoseTree α, inherit down' offset (g v) tree = (inherit down offset v tree).map g
  | .node label children => by
      rw [inherit, inherit, List.map_cons, ← hg, inheritAll_map hg (offset + 1) _ children]

theorem inheritAll_map {down : σ → Nat → α → σ} {down' : τ → Nat → α → τ} {g : σ → τ}
    (hg : ∀ v i a, g (down v i a) = down' (g v) i a) (offset : Nat) (v : σ) :
    ∀ trees : List (RoseTree α),
      inheritAll down' offset (g v) trees = (inheritAll down offset v trees).map g
  | [] => rfl
  | tree :: trees => by
      rw [inheritAll, inheritAll, List.map_append, inherit_map hg offset v tree,
        inheritAll_map hg (offset + tree.size) v trees]

end

mutual

/-- Every node has as many children as its label asks for. -/
def Ranked (arity : α → Nat) : RoseTree α → Prop
  | .node label children => arity label = children.length ∧ RankedAll arity children

def RankedAll (arity : α → Nat) : List (RoseTree α) → Prop
  | [] => True
  | tree :: trees => Ranked arity tree ∧ RankedAll arity trees

end

/-- What the nodes of `labels` find on the stack, when each of them takes its
value off it and puts one on it for each of its children. -/
def walkStack (arity : α → Nat) (down : σ → Nat → α → σ) :
    Nat → List α → List σ → Option (List σ)
  | _, [], _ => some []
  | _, _ :: _, [] => none
  | i, label :: labels, v :: stack =>
      (walkStack arity down (i + 1) labels
        (List.replicate (arity label) (down v i label) ++ stack)).map (v :: ·)

section

variable {arity : α → Nat} (down : σ → Nat → α → σ)

mutual

/-- **The walk** finds what the nodes inherit. -/
theorem walkStack_labels (offset : Nat) (v : σ) (rest : List α) (stack : List σ) :
    ∀ tree : RoseTree α, tree.Ranked arity →
      walkStack arity down offset (tree.labels ++ rest) (v :: stack) =
        (walkStack arity down (offset + tree.size) rest stack).map
          (inherit down offset v tree ++ ·)
  | .node label children, hranked => by
      obtain ⟨hlabel, hchildren⟩ := hranked
      rw [labels, List.cons_append, walkStack, hlabel,
        walkStack_labelsAll (offset + 1) _ rest stack children hchildren, Option.map_map, inherit,
        size, Nat.add_assoc]
      rfl

theorem walkStack_labelsAll (offset : Nat) (v : σ) (rest : List α) (stack : List σ) :
    ∀ trees : List (RoseTree α), RankedAll arity trees →
      walkStack arity down offset (labelsAll trees ++ rest)
          (List.replicate trees.length v ++ stack) =
        (walkStack arity down (offset + sizeAll trees) rest stack).map
          (inheritAll down offset v trees ++ ·)
  | [], _ => by
      rw [labelsAll, sizeAll, inheritAll, List.nil_append, Nat.add_zero]
      exact Option.map_id'.symm
  | tree :: trees, hranked => by
      obtain ⟨htree, htrees⟩ := hranked
      rw [labelsAll, List.append_assoc, List.length_cons, List.replicate_succ, List.cons_append,
        walkStack_labels offset v _ _ tree htree,
        walkStack_labelsAll (offset + tree.size) v rest stack trees htrees, Option.map_map,
        sizeAll, inheritAll, Nat.add_assoc]
      congr 1
      funext l
      exact (List.append_assoc _ _ _).symm

end

end

end

/-! ## Chains -/

/-- The nodes above a node with their labels, the nearest first. -/
abbrev Chain (α : Type) := List (Nat × α)

def extend (chain : Chain α) (i : Nat) (label : α) : Chain α := (i, label) :: chain

theorem parents_zero (offset parent : Nat) (tree : RoseTree α) :
    (tree.parents offset parent)[0]? = some parent := by
  cases tree with
  | node label children => rfl

mutual

/-- The chain of a node is that of its parent, with the parent in front. -/
theorem getElem_chain (offset parent : Nat) (chain : Chain α) :
    ∀ (tree : RoseTree α) (i : Nat) (c : Chain α),
      (inherit extend offset chain tree)[i]? = some c → i = 0 ∧ c = chain ∨
        ∃ p label c', c = (offset + p, label) :: c' ∧ p < i ∧ tree.labels[p]? = some label ∧
          (inherit extend offset chain tree)[p]? = some c' ∧
          (tree.parents offset parent)[i]? = some (offset + p)
  | .node label children, 0, c, h => by
      rw [inherit, List.getElem?_cons_zero, Option.some_inj] at h
      exact Or.inl ⟨rfl, h.symm⟩
  | .node label children, i + 1, c, h => by
      rw [inherit, List.getElem?_cons_succ] at h
      rcases getElem_chainAll (offset + 1) offset _ children i c h with
        ⟨rfl, hparent⟩ | ⟨p, label', c', rfl, hlt, hlabel, hchain, hparent⟩
      · exact Or.inr ⟨0, label, chain, rfl, Nat.succ_pos i, rfl, rfl, hparent⟩
      · refine Or.inr ⟨p + 1, label', c', ?_, Nat.succ_lt_succ hlt, hlabel, hchain, ?_⟩
        · rw [Nat.add_assoc, Nat.add_comm 1]
        · rw [parents, List.getElem?_cons_succ, hparent, Nat.add_assoc, Nat.add_comm 1]

theorem getElem_chainAll (offset parent : Nat) (chain : Chain α) :
    ∀ (trees : List (RoseTree α)) (i : Nat) (c : Chain α),
      (inheritAll extend offset chain trees)[i]? = some c →
        c = chain ∧ (parentsAll offset parent trees)[i]? = some parent ∨
        ∃ p label c', c = (offset + p, label) :: c' ∧ p < i ∧ (labelsAll trees)[p]? = some label ∧
          (inheritAll extend offset chain trees)[p]? = some c' ∧
          (parentsAll offset parent trees)[i]? = some (offset + p)
  | [], i, c, h => by
      simp [inheritAll] at h
  | tree :: trees, i, c, h => by
      have hchains := length_inherit extend offset chain tree
      have hlabels := length_labels tree
      have hparents := length_parents offset parent tree
      rw [inheritAll] at h
      rw [inheritAll, labelsAll, parentsAll]
      by_cases hi : i < tree.size
      · rw [List.getElem?_append_left (by omega)] at h
        rcases getElem_chain offset parent chain tree i c h with
          ⟨rfl, rfl⟩ | ⟨p, label, c', rfl, hlt, hlabel, hchain, hparent⟩
        · refine Or.inl ⟨rfl, ?_⟩
          rw [List.getElem?_append_left (by omega), parents_zero]
        · refine Or.inr ⟨p, label, c', rfl, hlt, ?_, ?_, ?_⟩
          · rw [List.getElem?_append_left (by omega), hlabel]
          · rw [List.getElem?_append_left (by omega), hchain]
          · rw [List.getElem?_append_left (by omega), hparent]
      · rw [List.getElem?_append_right (by omega), hchains] at h
        rcases getElem_chainAll (offset + tree.size) parent chain trees (i - tree.size) c h with
          ⟨rfl, hparent⟩ | ⟨p, label, c', rfl, hlt, hlabel, hchain, hparent⟩
        · refine Or.inl ⟨rfl, ?_⟩
          rw [List.getElem?_append_right (by omega), hparents, hparent]
        · refine Or.inr ⟨tree.size + p, label, c', ?_, by omega, ?_, ?_, ?_⟩
          · rw [Nat.add_assoc]
          · rw [List.getElem?_append_right (by omega), hlabels, Nat.add_sub_cancel_left, hlabel]
          · rw [List.getElem?_append_right (by omega), hchains, Nat.add_sub_cancel_left, hchain]
          · rw [List.getElem?_append_right (by omega), hparents, hparent, Nat.add_assoc]

end

/-- The nodes of a chain come before its node, the nearest last. -/
theorem chain_sorted {tree : RoseTree α} {i : Nat} {c : Chain α}
    (h : (inherit extend 0 [] tree)[i]? = some c) :
    (∀ e ∈ c, e.1 < i ∧ tree.labels[e.1]? = some e.2) ∧ (c.map Prod.fst).Pairwise (· > ·) := by
  induction i using Nat.strongRecOn generalizing c with
  | ind i ih =>
      rcases getElem_chain 0 0 [] tree i c h with
        ⟨-, rfl⟩ | ⟨p, label, c', rfl, hlt, hlabel, hchain, -⟩
      · exact ⟨fun _ he => absurd he List.not_mem_nil, List.Pairwise.nil⟩
      · obtain ⟨hmem, hsorted⟩ := ih p hlt hchain
        rw [Nat.zero_add]
        constructor
        · intro e he
          rcases List.mem_cons.mp he with rfl | he
          · exact ⟨hlt, hlabel⟩
          · exact ⟨Nat.lt_trans (hmem e he).1 hlt, (hmem e he).2⟩
        · refine List.pairwise_cons.mpr ⟨fun a ha => ?_, hsorted⟩
          obtain ⟨e, he, rfl⟩ := List.mem_map.mp ha
          exact (hmem e he).1

end RoseTree

end Libaflmm
