import Libaflmm.Unparse

/-!
# Texts of mutations

What a tree is written out as depends on a subtree only through the text of the
subtree: this text goes into a frame, which is the same whatever tree stands
there. Without scripts, the frame is what is written in front of the text and
what is written behind it.

A mutation is written out as the tree that is made of it.
-/

namespace Libaflmm

open RoseTree

def Context.Scriptless (ctx : Context) : Prop := ∀ r, .script r ∉ ctx.rules

/-! ## Frames -/

namespace RoseTree

theorem subtree?_zero {α : Type} (tree : RoseTree α) : tree.subtree? 0 = some tree := by
  cases tree
  rfl

mutual

/-- A subtree may be put in its own place. -/
theorem graft_subtree? {α : Type} : ∀ {tree sub : RoseTree α} {n : Nat},
    tree.subtree? n = some sub → graft sub tree n = tree
  | .node label children, sub, 0, h => (Option.some.inj h).symm
  | .node label children, sub, n + 1, h => by
      rw [graft, graftAll_subtreeAll? h]

theorem graftAll_subtreeAll? {α : Type} : ∀ {trees : List (RoseTree α)} {sub : RoseTree α}
    {n : Nat}, subtreeAll? trees n = some sub → graftAll sub trees n = trees
  | [], sub, n, h => by cases h
  | tree :: trees, sub, n, h => by
      rw [subtreeAll?] at h
      rw [graftAll]
      split at h
      · next hn => rw [if_pos hn, graft_subtree? h]
      · next hn => rw [if_neg hn, graftAll_subtreeAll? h]

end

end RoseTree

namespace RuleChild

theorem interleave_eq {children : List RuleChild} {pre : List (List UInt8)}
    (post : List (List UInt8)) (h : pre.length < (children.filterMap nTerm?).length) :
    ∃ front back, ∀ text, interleave children (pre ++ text :: post) = front ++ text ++ back := by
  induction children generalizing pre with
  | nil => exact absurd h (Nat.not_lt_zero _)
  | cons child children ih =>
      cases child with
      | term data =>
          obtain ⟨front, back, heq⟩ := ih h
          refine ⟨data ++ front, back, fun text => ?_⟩
          rw [interleave, heq, List.append_assoc, List.append_assoc, List.append_assoc]
      | nTerm nt =>
          cases pre with
          | nil => exact ⟨[], interleave children post, fun text => rfl⟩
          | cons first pre =>
              obtain ⟨front, back, heq⟩ := ih (Nat.lt_of_succ_lt_succ h)
              refine ⟨first ++ front, back, fun text => ?_⟩
              rw [List.cons_append, interleave, heq, List.append_assoc, List.append_assoc,
                List.append_assoc]

end RuleChild

/-- A frame that puts what it is given between two texts. -/
def Surrounds (frame : List UInt8 → Option (List UInt8)) : Prop :=
  ∃ front back, ∀ text, frame text = some (front ++ text ++ back)

section

variable {ctx : Context} (scripts : Scripts)

theorem Rule.text_frame {rid : RuleId} {rule : Rule} (label : RuleIdOrCustom)
    {frame : List UInt8 → Option (List (List UInt8))} {pre post : List (List UInt8)}
    {front back : List UInt8} (hctx : ctx.Scriptless) (hrule : ctx.getRule rid = some rule)
    (hlen : pre.length < rule.nonterms.length)
    (hframe : ∀ text, frame text = some (pre ++ (front ++ text ++ back) :: post)) :
    Surrounds fun text => (frame text).bind (rule.text scripts label) := by
  cases rule with
  | plain r =>
      have hnonterms : pre.length < (r.children.filterMap RuleChild.nTerm?).length := by
        rw [← r.nonterms_eq]
        exact hlen
      obtain ⟨front', back', heq⟩ := RuleChild.interleave_eq post hnonterms
      refine ⟨front' ++ front, back ++ back', fun text => ?_⟩
      simp only [hframe, Option.bind_some, Rule.text, heq, List.append_assoc]
  | script r => exact absurd (List.mem_of_getElem? hrule) (hctx r)
  | regExp r => exact absurd hlen (Nat.not_lt_zero _)

mutual

/-- Without scripts, every derivation has a text. -/
theorem Derives.exists_text (hctx : ctx.Scriptless) : ∀ {tree : RoseTree RuleIdOrCustom}
    {nt : NTermId}, Derives ctx nt tree → ∃ text, tree.text ctx scripts = some text
  | .node label children, _, @Derives.node _ _ rule _ _ hrule hlabelled hchildren => by
      obtain ⟨texts, htexts⟩ := Derives.exists_textAll hctx hchildren
      have hid : ctx.getRule label.id = some rule := hlabelled.id_eq ▸ hrule
      simp only [text, hid, htexts, Option.bind_eq_bind, Option.bind_some]
      cases rule with
      | plain r => exact ⟨_, rfl⟩
      | script r => exact absurd (List.mem_of_getElem? hrule) (hctx r)
      | regExp r =>
          obtain ⟨data, rfl⟩ := hlabelled
          exact ⟨data, rfl⟩

theorem Derives.exists_textAll (hctx : ctx.Scriptless) :
    ∀ {trees : List (RoseTree RuleIdOrCustom)} {nts : List NTermId},
      List.Forall₂ (Derives ctx) nts trees → ∃ texts, textAll ctx scripts trees = some texts
  | [], _, _ => ⟨[], rfl⟩
  | tree :: trees, _, .cons htree htrees => by
      obtain ⟨text, htext⟩ := Derives.exists_text hctx htree
      obtain ⟨texts, htexts⟩ := Derives.exists_textAll hctx htrees
      exact ⟨text :: texts, by simp only [textAll, htext, htexts, Option.bind_eq_bind,
        Option.bind_some]⟩

end

mutual

theorem exists_frame : ∀ {tree sub : RoseTree RuleIdOrCustom} {nt : NTermId} {n : NodeId},
    Derives ctx nt tree → tree.subtree? n = some sub →
      ∃ frame : List UInt8 → Option (List UInt8),
        (∀ new, (graft new tree n).text ctx scripts = (new.text ctx scripts).bind frame) ∧
          (ctx.Scriptless → Surrounds frame)
  | .node label children, sub, nt, 0, _, _ =>
      ⟨some, fun new => (Option.bind_fun_some _).symm, fun _ =>
        ⟨[], [], fun text => by rw [List.nil_append, List.append_nil]⟩⟩
  | .node label children, sub, _, n + 1, @Derives.node _ _ rule _ _ hrule hlabelled hchildren,
      hsub => by
      obtain ⟨frame, hframe, hsurrounds⟩ := exists_frameAll hchildren hsub
      have hid : ctx.getRule label.id = some rule := hlabelled.id_eq ▸ hrule
      refine ⟨fun text => (frame text).bind (rule.text scripts label),
        fun new => ?_, fun hctx => ?_⟩
      · simp only [graft, text, hid, hframe, Option.bind_eq_bind, Option.bind_some,
          Option.bind_assoc]
      · obtain ⟨pre, front, back, post, hlen, heq⟩ := hsurrounds hctx
        rw [← hchildren.length_eq] at hlen
        exact Rule.text_frame scripts label hctx hrule hlen heq

theorem exists_frameAll : ∀ {trees : List (RoseTree RuleIdOrCustom)}
    {sub : RoseTree RuleIdOrCustom} {nts : List NTermId} {n : NodeId},
    List.Forall₂ (Derives ctx) nts trees → subtreeAll? trees n = some sub →
      ∃ frame : List UInt8 → Option (List (List UInt8)),
        (∀ new, textAll ctx scripts (graftAll new trees n) =
          (new.text ctx scripts).bind frame) ∧
          (ctx.Scriptless → ∃ pre front back post, pre.length < trees.length ∧
            ∀ text, frame text = some (pre ++ (front ++ text ++ back) :: post))
  | [], sub, _, n, _, hsub => by cases hsub
  | tree :: trees, sub, _, n, .cons htree htrees, hsub => by
      rw [subtreeAll?] at hsub
      split at hsub
      · next hn =>
          obtain ⟨frame, hframe, hsurrounds⟩ := exists_frame htree hsub
          refine ⟨fun text => (frame text).bind fun text =>
            (textAll ctx scripts trees).map (text :: ·), fun new => ?_, fun hctx => ?_⟩
          · rw [graftAll, if_pos hn, textAll, hframe, Option.bind_eq_bind, Option.bind_assoc]
            simp only [Option.map_eq_bind]
            rfl
          · obtain ⟨front, back, heq⟩ := hsurrounds hctx
            obtain ⟨texts, htexts⟩ := Derives.exists_textAll scripts hctx htrees
            refine ⟨[], front, back, texts, Nat.succ_pos _, fun text => ?_⟩
            simp only [heq, htexts, Option.bind_some, Option.map_some, List.nil_append]
      · next hn =>
          obtain ⟨frame, hframe, hsurrounds⟩ := exists_frameAll htrees hsub
          refine ⟨fun text => (tree.text ctx scripts).bind fun first =>
            (frame text).map (first :: ·), fun new => ?_, fun hctx => ?_⟩
          · rw [graftAll, if_neg hn, textAll, hframe]
            cases tree.text ctx scripts with
            | none => simp
            | some first =>
                simp only [Option.bind_eq_bind, Option.bind_some, Option.bind_assoc,
                  Option.map_eq_bind]
                rfl
          · obtain ⟨pre, front, back, post, hlen, heq⟩ := hsurrounds hctx
            obtain ⟨first, hfirst⟩ := Derives.exists_text scripts hctx htree
            refine ⟨first :: pre, front, back, post, Nat.succ_lt_succ hlen, fun text => ?_⟩
            simp only [hfirst, heq, Option.bind_some, Option.map_some, List.cons_append]

end

end

/-! ## Mutations -/

theorem TreeMutation.getAt_eq (mutation : TreeMutation) (n : NodeId) :
    mutation.getAt n = mutation.rules[n]? := by
  have hlen : (mutation.pre ++ mutation.repl).length =
      mutation.pre.length + mutation.repl.length := List.length_append
  simp only [getAt, rules]
  split
  · next hpre => rw [List.append_assoc, List.getElem?_append_left hpre]
  · next hpre =>
      have hle := Nat.le_of_not_lt hpre
      split
      · next hrepl =>
          rw [List.getElem?_append_left (hlen ▸ hrepl), List.getElem?_append_right hle]
      · next hrepl =>
          rw [List.getElem?_append_right (hlen ▸ Nat.le_of_not_lt hrepl), hlen]
          split
          · rfl
          · next hpost =>
              have hle := Nat.le_of_not_lt hpost
              exact (List.getElem?_eq_none (Nat.le_sub_of_add_le (by omega))).symm

namespace Unparser

open RoseTree

theorem hasLabels_layOut {tree sub : RoseTree RuleIdOrCustom} {n : NodeId}
    (h : tree.subtree? n = some sub) : HasLabels (Tree.layOut tree) n sub.labels := by
  obtain ⟨front, back, rfl, hlabels, -⟩ := labels_subtree? h
  intro j hj
  show tree.labels[front.length + j]? = _
  rw [hlabels, List.append_assoc, List.getElem?_append_right (Nat.le_add_right _ _),
    Nat.add_sub_cancel_left, List.getElem?_append_left hj]

theorem hasLabels_mutation {mutation : TreeMutation} {tree : RoseTree RuleIdOrCustom}
    (h : mutation.rules = tree.labels) : HasLabels mutation 0 tree.labels := by
  intro j hj
  show mutation.getAt (0 + j) = _
  rw [Nat.zero_add, mutation.getAt_eq, h]

end Unparser

end Libaflmm
