import Libaflmm.PreorderTrees

/-!
# Subtrees of a layout

The subtree of a node takes up a range of the layout, which starts at the index
of the node and is as long as the subtree has nodes. Another tree in its place
changes this range only. The range of a child lies within that of its parent.
-/

namespace Libaflmm

namespace RoseTree

variable {α : Type}

mutual

/-- The subtree of the node at an index. -/
def subtree? : RoseTree α → Nat → Option (RoseTree α)
  | .node label children, 0 => some (.node label children)
  | .node _ children, n + 1 => subtreeAll? children n

def subtreeAll? : List (RoseTree α) → Nat → Option (RoseTree α)
  | [], _ => none
  | tree :: trees, n =>
    if n < tree.size then tree.subtree? n else subtreeAll? trees (n - tree.size)

end

mutual

/-- The tree with `new` in place of the subtree at an index. -/
def graft (new : RoseTree α) : RoseTree α → Nat → RoseTree α
  | .node _ _, 0 => new
  | .node label children, n + 1 => .node label (graftAll new children n)

def graftAll (new : RoseTree α) : List (RoseTree α) → Nat → List (RoseTree α)
  | [], _ => []
  | tree :: trees, n =>
    if n < tree.size then graft new tree n :: trees else tree :: graftAll new trees (n - tree.size)

end

theorem size_pos (tree : RoseTree α) : 0 < tree.size := by
  cases tree with
  | node label children =>
      rw [size]
      omega

mutual

theorem exists_subtree? : ∀ {tree : RoseTree α} {n : Nat}, n < tree.size →
    ∃ sub, tree.subtree? n = some sub
  | .node _ _, 0, _ => ⟨_, rfl⟩
  | .node label children, n + 1, h => by
      rw [subtree?]
      rw [size] at h
      exact exists_subtreeAll? (by omega)

theorem exists_subtreeAll? : ∀ {trees : List (RoseTree α)} {n : Nat}, n < sizeAll trees →
    ∃ sub, subtreeAll? trees n = some sub
  | [], n, h => absurd h (Nat.not_lt_zero n)
  | tree :: trees, n, h => by
      rw [subtreeAll?]
      rw [sizeAll] at h
      split
      · next hn => exact exists_subtree? hn
      · exact exists_subtreeAll? (by omega)

end

mutual

/-- What is laid out in front of a subtree and behind it stays when another
tree is put in its place. -/
theorem labels_subtree? : ∀ {tree : RoseTree α} {n : Nat} {sub : RoseTree α},
    tree.subtree? n = some sub → ∃ front back, front.length = n ∧
      tree.labels = front ++ sub.labels ++ back ∧
        ∀ new, (graft new tree n).labels = front ++ new.labels ++ back
  | .node label children, 0, sub, h => by
      obtain rfl := Option.some.inj h
      exact ⟨[], [], rfl, (List.append_nil _).symm, fun new => (List.append_nil _).symm⟩
  | .node label children, n + 1, sub, h => by
      obtain ⟨front, back, hlen, hlabels, hgraft⟩ := labelsAll_subtreeAll? h
      refine ⟨label :: front, back, by rw [List.length_cons, hlen], ?_, fun new => ?_⟩
      · rw [labels, hlabels, List.cons_append, List.cons_append]
      · rw [graft, labels, hgraft new, List.cons_append, List.cons_append]

theorem labelsAll_subtreeAll? : ∀ {trees : List (RoseTree α)} {n : Nat} {sub : RoseTree α},
    subtreeAll? trees n = some sub → ∃ front back, front.length = n ∧
      labelsAll trees = front ++ sub.labels ++ back ∧
        ∀ new, labelsAll (graftAll new trees n) = front ++ new.labels ++ back
  | [], n, sub, h => by cases h
  | tree :: trees, n, sub, h => by
      rw [subtreeAll?] at h
      split at h
      · next hn =>
          obtain ⟨front, back, hlen, hlabels, hgraft⟩ := labels_subtree? h
          refine ⟨front, back ++ labelsAll trees, hlen, ?_, fun new => ?_⟩
          · rw [labelsAll, hlabels, List.append_assoc]
          · rw [graftAll, if_pos hn, labelsAll, hgraft new, List.append_assoc]
      · next hn =>
          obtain ⟨front, back, hlen, hlabels, hgraft⟩ := labelsAll_subtreeAll? h
          refine ⟨tree.labels ++ front, back, ?_, ?_, fun new => ?_⟩
          · rw [List.length_append, length_labels, hlen]
            omega
          · rw [labelsAll, hlabels, List.append_assoc, List.append_assoc, List.append_assoc]
          · rw [graftAll, if_neg hn, labelsAll, hgraft new, List.append_assoc, List.append_assoc,
              List.append_assoc]

end

mutual

theorem sizes_subtree? : ∀ {tree : RoseTree α} {n : Nat} {sub : RoseTree α},
    tree.subtree? n = some sub → tree.sizes[n]? = some sub.size
  | .node label children, 0, sub, h => by
      obtain rfl := Option.some.inj h
      rfl
  | .node label children, n + 1, sub, h => by
      rw [sizes, List.getElem?_cons_succ]
      exact sizesAll_subtreeAll? h

theorem sizesAll_subtreeAll? : ∀ {trees : List (RoseTree α)} {n : Nat} {sub : RoseTree α},
    subtreeAll? trees n = some sub → (sizesAll trees)[n]? = some sub.size
  | [], n, sub, h => by cases h
  | tree :: trees, n, sub, h => by
      rw [subtreeAll?] at h
      have hlen := length_sizes tree
      rw [sizesAll]
      split at h
      · rw [List.getElem?_append_left (by omega)]
        exact sizes_subtree? h
      · rw [List.getElem?_append_right (by omega), hlen]
        exact sizesAll_subtreeAll? h

end

theorem size_graft {tree sub : RoseTree α} {n : Nat} (h : tree.subtree? n = some sub)
    (new : RoseTree α) : (graft new tree n).size + sub.size = tree.size + new.size := by
  obtain ⟨front, back, -, hlabels, hgraft⟩ := labels_subtree? h
  have htree := congrArg List.length hlabels
  have hnew := congrArg List.length (hgraft new)
  simp only [List.length_append, length_labels] at htree hnew
  omega

theorem subtree?_within {tree sub : RoseTree α} {n : Nat} (h : tree.subtree? n = some sub) :
    n + sub.size ≤ tree.size := by
  obtain ⟨front, back, rfl, hlabels, -⟩ := labels_subtree? h
  have hlen := congrArg List.length hlabels
  simp only [List.length_append, length_labels] at hlen
  omega

/-! ## Parents -/

mutual

/-- A node below the root lies within the range of its parent. -/
theorem subtree?_parent (offset parent : Nat) : ∀ {tree : RoseTree α} {i : Nat},
    0 < i → i < tree.size → ∃ p above sub, (tree.parents offset parent)[i]? = some (offset + p) ∧
      p < i ∧ tree.subtree? p = some above ∧ tree.subtree? i = some sub ∧
        i + sub.size ≤ p + above.size
  | .node label children, 0, hpos, _ => absurd hpos (Nat.lt_irrefl 0)
  | .node label children, i + 1, _, h => by
      rw [size] at h
      rw [parents, List.getElem?_cons_succ]
      have hi : i < sizeAll children := by omega
      obtain ⟨sub, hsub, hle, hroot | ⟨p, above, hparent, hlt, habove, hwithin⟩⟩ :=
        subtreeAll?_parent (offset + 1) offset hi
      · refine ⟨0, .node label children, sub, hroot, Nat.succ_pos i, rfl, hsub, ?_⟩
        rw [size]
        omega
      · refine ⟨p + 1, above, sub, ?_, Nat.succ_lt_succ hlt, habove, hsub, by omega⟩
        rw [hparent, Nat.add_assoc, Nat.add_comm 1]

theorem subtreeAll?_parent (offset parent : Nat) : ∀ {trees : List (RoseTree α)} {i : Nat},
    i < sizeAll trees → ∃ sub, subtreeAll? trees i = some sub ∧ i + sub.size ≤ sizeAll trees ∧
      ((parentsAll offset parent trees)[i]? = some parent ∨
        ∃ p above, (parentsAll offset parent trees)[i]? = some (offset + p) ∧ p < i ∧
          subtreeAll? trees p = some above ∧ i + sub.size ≤ p + above.size)
  | [], i, h => absurd h (Nat.not_lt_zero i)
  | tree :: trees, i, h => by
      have hlen := length_parents offset parent tree
      rw [sizeAll] at h
      rw [parentsAll, sizeAll]
      simp only [subtreeAll?]
      by_cases hi : i < tree.size
      · rw [if_pos hi, List.getElem?_append_left (by omega)]
        rcases Nat.eq_zero_or_pos i with rfl | hpos
        · refine ⟨tree, ?_, by omega, .inl (parents_zero offset parent tree)⟩
          cases tree with
          | node label children => rfl
        · obtain ⟨p, above, sub, hparent, hlt, habove, hsub, hwithin⟩ :=
            subtree?_parent offset parent hpos hi
          have hrange := subtree?_within habove
          refine ⟨sub, hsub, by omega, .inr ⟨p, above, hparent, hlt, ?_, hwithin⟩⟩
          rw [if_pos (Nat.lt_trans hlt hi), habove]
      · have hrest : i - tree.size < sizeAll trees := by omega
        obtain ⟨sub, hsub, hle, hroot | ⟨p, above, hparent, hlt, habove, hwithin⟩⟩ :=
          subtreeAll?_parent (offset + tree.size) parent hrest
        · refine ⟨sub, by rw [if_neg hi, hsub], by omega, .inl ?_⟩
          rw [List.getElem?_append_right (by omega), hlen, hroot]
        · refine ⟨sub, by rw [if_neg hi, hsub], by omega,
            .inr ⟨tree.size + p, above, ?_, by omega, ?_, by omega⟩⟩
          · rw [List.getElem?_append_right (by omega), hlen, hparent, Nat.add_assoc]
          · rw [if_neg (by omega), Nat.add_sub_cancel_left, habove]

end

end RoseTree

end Libaflmm
