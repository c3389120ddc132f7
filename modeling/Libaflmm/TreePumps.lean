import Libaflmm.Subtrees

/-!
# Pumping a tree

Subtrees compose: a node of a subtree is a node of the tree, and to graft into
a subtree is to graft into the tree. A tree is pumped by putting it, again and
again, in the place of one of its own subtrees. What lies in front of this
subtree and behind it is then laid out once for each time.
-/

namespace Libaflmm

namespace RoseTree

variable {α : Type}

mutual

/-- A node of a subtree is a node of the tree. -/
theorem subtree?_add : ∀ {tree above : RoseTree α} {a k : Nat}, tree.subtree? a = some above →
    k < above.size → tree.subtree? (a + k) = above.subtree? k
  | .node label children, above, 0, k, h, _ => by
      obtain rfl := Option.some.inj h
      rw [Nat.zero_add]
  | .node label children, above, a + 1, k, h, hk => by
      rw [Nat.add_right_comm, subtree?]
      exact subtreeAll?_add h hk

theorem subtreeAll?_add : ∀ {trees : List (RoseTree α)} {above : RoseTree α} {a k : Nat},
    subtreeAll? trees a = some above → k < above.size →
      subtreeAll? trees (a + k) = above.subtree? k
  | [], above, a, k, h, _ => by cases h
  | tree :: trees, above, a, k, h, hk => by
      rw [subtreeAll?] at h
      rw [subtreeAll?]
      split at h
      · have hwithin := subtree?_within h
        rw [if_pos (by omega), subtree?_add h hk]
      · next ha =>
          rw [if_neg (by omega), Nat.sub_add_comm (Nat.le_of_not_lt ha)]
          exact subtreeAll?_add h hk

end

mutual

/-- To graft into a subtree is to graft into the tree. -/
theorem graft_add (new : RoseTree α) : ∀ {tree above : RoseTree α} {a k : Nat},
    tree.subtree? a = some above → k < above.size →
      graft (graft new above k) tree a = graft new tree (a + k)
  | .node label children, above, 0, k, h, _ => by
      obtain rfl := Option.some.inj h
      rw [Nat.zero_add, graft]
  | .node label children, above, a + 1, k, h, hk => by
      rw [Nat.add_right_comm, graft, graft, graftAll_add new h hk]

theorem graftAll_add (new : RoseTree α) : ∀ {trees : List (RoseTree α)} {above : RoseTree α}
    {a k : Nat}, subtreeAll? trees a = some above → k < above.size →
      graftAll (graft new above k) trees a = graftAll new trees (a + k)
  | [], above, a, k, h, _ => by cases h
  | tree :: trees, above, a, k, h, hk => by
      rw [subtreeAll?] at h
      rw [graftAll, graftAll]
      split at h
      · next ha =>
          have hwithin := subtree?_within h
          rw [if_pos ha, if_pos (by omega), graft_add new h hk]
      · next ha =>
          rw [if_neg ha, if_neg (by omega), Nat.sub_add_comm (Nat.le_of_not_lt ha),
            graftAll_add new h hk]

end

/-- A node that is laid out within the range of another one is a node of its subtree. -/
theorem subtree?_of_within {tree above sub : RoseTree α} {a n : Nat}
    (habove : tree.subtree? a = some above) (hsub : tree.subtree? n = some sub) (hle : a ≤ n)
    (hwithin : n + sub.size ≤ a + above.size) : above.subtree? (n - a) = some sub := by
  have hpos := size_pos sub
  have hnode := subtree?_add habove (k := n - a) (by omega)
  rw [Nat.add_sub_cancel' hle, hsub] at hnode
  exact hnode.symm

/-! ## Pumping -/

/-- `above` is put in the place of its node `k` so many times, and `sub` there in the end. -/
def pump (above : RoseTree α) (k : Nat) (sub : RoseTree α) : Nat → RoseTree α
  | 0 => sub
  | times + 1 => graft (pump above k sub times) above k

variable {above sub : RoseTree α} {k : Nat}

theorem labels_pump {front back : List α}
    (hgraft : ∀ new, (graft new above k).labels = front ++ new.labels ++ back) (times : Nat) :
    (pump above k sub times).labels = (List.replicate times front).flatten ++ sub.labels ++
      (List.replicate times back).flatten := by
  induction times with
  | zero =>
      rw [pump, List.replicate_zero, List.replicate_zero, List.flatten_nil, List.nil_append,
        List.append_nil]
  | succ times ih =>
      rw [pump, hgraft, ih, List.replicate_succ, List.flatten_cons, List.replicate_succ',
        List.flatten_append, List.flatten_singleton]
      simp only [List.append_assoc]

theorem size_pump (h : above.subtree? k = some sub) (times : Nat) :
    (pump above k sub times).size = times * (above.size - sub.size) + sub.size := by
  have hwithin := subtree?_within h
  induction times with
  | zero => rw [pump, Nat.zero_mul, Nat.zero_add]
  | succ times ih =>
      have hsize := size_graft h (pump above k sub times)
      rw [pump, Nat.succ_mul]
      omega

end RoseTree

end Libaflmm
