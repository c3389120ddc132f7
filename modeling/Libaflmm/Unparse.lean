import Libaflmm.Loops
import Libaflmm.TreeMutations

/-!
# Writing out a tree

The text of a tree is written by a machine with a stack of what is still to be
written. A nonterminal on the stack is replaced by what the rule at the next
node has on its right-hand side, so that the nodes are gone through in their
order. The texts of the nonterminals of a script go to buffers first, and the
script is then called with these.

A script is a parameter: it may fail, which is a panic.
-/

namespace Libaflmm

/-- What a script makes of the texts of its nonterminals. -/
abbrev Scripts := RuleId → List (List UInt8) → Option (List UInt8)

def RuleIdOrCustom.data : RuleIdOrCustom → Option (List UInt8)
  | .custom _ data => some data
  | .rule _ => none

/-- What of a tree is read when it is written out. -/
class TreeLike (T : Type) where
  getRuleOrCustom : T → NodeId → Option RuleIdOrCustom

instance : TreeLike Tree where
  getRuleOrCustom tree n := tree.rules[n]?

def TreeMutation.getAt (mutation : TreeMutation) (n : NodeId) : Option RuleIdOrCustom :=
  let end0 := mutation.pre.length
  let end1 := end0 + mutation.repl.length
  let end2 := end1 + mutation.post.length
  if n < end0 then mutation.pre[n]?
  else if n < end1 then mutation.repl[n - end0]?
  else if n < end2 then mutation.post[n - end1]?
  else none

instance : TreeLike TreeMutation where
  getRuleOrCustom := TreeMutation.getAt

inductive UnparseStep where
  | term (data : List UInt8)
  | nonterm (nt : NTermId)
  | script (num : Nat) (rule : RuleId)
  | pushBuffer

def RuleChild.unparseStep : RuleChild → UnparseStep
  | .term data => .term data
  | .nTerm nt => .nonterm nt

/-- The last element of the stack comes first, and so does the last buffer. -/
structure Unparser where
  stack : List UnparseStep
  buffers : List (List UInt8)
  w : List UInt8
  i : NodeId

namespace Unparser

def write (u : Unparser) (data : List UInt8) : Unparser :=
  match u.buffers with
  | buff :: buffers => { u with buffers := (buff ++ data) :: buffers }
  | [] => { u with w := u.w ++ data }

section

variable {T : Type} [TreeLike T] (tree : T) (ctx : Context) (scripts : Scripts)

def nextRule (u : Unparser) (nt : NTermId) : Option Unparser := do
  let label ← TreeLike.getRuleOrCustom tree u.i
  let rule ← ctx.getRule label.id
  if nt = rule.nonterm then do
    let u := { u with i := u.i + 1 }
    match rule with
    | .plain r => some { u with stack := r.children.map RuleChild.unparseStep ++ u.stack }
    | .script r =>
      some { u with
        stack := r.nonterms.flatMap (fun nt => [.pushBuffer, .nonterm nt]) ++
          .script r.nonterms.length label.id :: u.stack }
    | .regExp _ => do
      let data ← label.data
      some { u with stack := .term data :: u.stack }
  else none

def runScript (u : Unparser) (num : Nat) (rule : RuleId) : Option Unparser :=
  if num ≤ u.buffers.length then do
    let bufs := (u.buffers.take num).reverse
    let res ← scripts rule bufs
    some ({ u with buffers := u.buffers.drop num }.write res)
  else none

def unparseStep (u : Unparser) : Turn Unparser (List UInt8 × NodeId) :=
  match u.stack with
  | .term data :: stack => .next ({ u with stack }.write data)
  | .nonterm nt :: stack => .ofOption (nextRule tree ctx { u with stack } nt)
  | .script num rule :: stack => .ofOption (runScript scripts { u with stack } num rule)
  | .pushBuffer :: stack => .next { u with stack, buffers := [] :: u.buffers }
  | [] => .done (u.w, u.i)

/-- The text that is written, and the node behind it. -/
def unparse (fuel : Nat) (nid : NodeId) : Option (List UInt8 × NodeId) := do
  let label ← TreeLike.getRuleOrCustom tree nid
  let rule ← ctx.getRule label.id
  Turn.loop (unparseStep tree ctx scripts) fuel ⟨[.nonterm rule.nonterm], [], [], nid⟩

end

end Unparser

/-! ## Texts -/

/-- The right-hand side of a rule, with texts for the nonterminals. -/
def RuleChild.interleave : List RuleChild → List (List UInt8) → List UInt8
  | .term data :: children, texts => data ++ interleave children texts
  | .nTerm _ :: children, text :: texts => text ++ interleave children texts
  | .nTerm _ :: children, [] => interleave children []
  | [], _ => []

def Rule.text (scripts : Scripts) (label : RuleIdOrCustom) (texts : List (List UInt8)) :
    Rule → Option (List UInt8)
  | .plain r => some (RuleChild.interleave r.children texts)
  | .script _ => scripts label.id texts
  | .regExp _ => label.data

namespace RoseTree

variable (ctx : Context) (scripts : Scripts)

mutual

/-- The text of a derivation. There is none where a script fails. -/
def text : RoseTree RuleIdOrCustom → Option (List UInt8)
  | .node label children => do
    let rule ← ctx.getRule label.id
    let texts ← textAll children
    rule.text scripts label texts

def textAll : List (RoseTree RuleIdOrCustom) → Option (List (List UInt8))
  | [] => some []
  | tree :: trees => do
    let text ← tree.text
    let texts ← textAll trees
    some (text :: texts)

end

end RoseTree

namespace Unparser

open RoseTree Turn

variable {T : Type} [TreeLike T]

/-! ## Writing -/

theorem write_write (u : Unparser) (data data' : List UInt8) :
    (u.write data).write data' = u.write (data ++ data') := by
  obtain ⟨stack, buffers, w, i⟩ := u
  cases buffers with
  | nil => simp only [write, List.append_assoc]
  | cons buff buffers => simp only [write, List.append_assoc]

/-- What is written changes the buffers and the output only. -/
theorem write_eq (buffers : List (List UInt8)) (w data : List UInt8) :
    ∃ buffers' w', ∀ (stack : List UnparseStep) (i : NodeId),
      (Unparser.mk stack buffers w i).write data = ⟨stack, buffers', w', i⟩ := by
  cases buffers with
  | nil => exact ⟨[], w ++ data, fun _ _ => rfl⟩
  | cons buff buffers => exact ⟨(buff ++ data) :: buffers, w, fun _ _ => rfl⟩

theorem write_nil (u : Unparser) : u.write [] = u := by
  obtain ⟨stack, buffers, w, i⟩ := u
  cases buffers with
  | nil => simp only [write, List.append_nil]
  | cons buff buffers => simp only [write, List.append_nil]

/-- From the node `i` on, the tree has these labels. -/
def HasLabels (tree : T) (i : NodeId) (labels : List RuleIdOrCustom) : Prop :=
  ∀ j < labels.length, TreeLike.getRuleOrCustom tree (i + j) = labels[j]?

section

variable {tree : T} {i : NodeId} {label : RuleIdOrCustom} {l l' : List RuleIdOrCustom}

theorem HasLabels.left (h : HasLabels tree i (l ++ l')) : HasLabels tree i l := by
  intro j hj
  rw [h j (by rw [List.length_append]; omega), List.getElem?_append_left hj]

theorem HasLabels.right (h : HasLabels tree i (l ++ l')) :
    HasLabels tree (i + l.length) l' := by
  intro j hj
  rw [Nat.add_assoc, h (l.length + j) (by rw [List.length_append]; omega),
    List.getElem?_append_right (Nat.le_add_right _ _), Nat.add_sub_cancel_left]

theorem HasLabels.head (h : HasLabels tree i (label :: l)) :
    TreeLike.getRuleOrCustom tree i = some label := h 0 (Nat.succ_pos _)

theorem HasLabels.tail (h : HasLabels tree i (label :: l)) : HasLabels tree (i + 1) l :=
  HasLabels.right (l := [label]) h

end

/-- A nonterminal on the stack is worked off, and the text is written that it derives here. -/
def Writes (tree : T) (ctx : Context) (scripts : Scripts) (nt : NTermId)
    (derivation : RoseTree RuleIdOrCustom) : Prop :=
  ∀ i, HasLabels tree i derivation.labels → ∀ stack buffers w,
    Leads (unparseStep tree ctx scripts) ⟨.nonterm nt :: stack, buffers, w, i⟩
      ((derivation.text ctx scripts).map
        (Unparser.mk stack buffers w (i + derivation.size)).write)

/-! ## Right-hand sides -/

variable {tree : T} {ctx : Context} {scripts : Scripts}

/-- What is on the stack behind the text of a tree is gone on with. -/
theorem leads_textAll {first : RoseTree RuleIdOrCustom} {trees : List (RoseTree RuleIdOrCustom)}
    {u : Unparser} {next : List UInt8 → Unparser} {last : List (List UInt8) → Unparser}
    (hfirst : Leads (unparseStep tree ctx scripts) u ((first.text ctx scripts).map next))
    (hrest : ∀ text, Leads (unparseStep tree ctx scripts) (next text)
      ((textAll ctx scripts trees).map fun texts => last (text :: texts))) :
    Leads (unparseStep tree ctx scripts) u ((textAll ctx scripts (first :: trees)).map last) := by
  rw [textAll]
  cases htext : first.text ctx scripts with
  | none =>
      rw [htext] at hfirst
      exact hfirst
  | some text =>
      rw [htext] at hfirst
      have hreach : Turn.Reaches (unparseStep tree ctx scripts) u (next text) := hfirst
      have hnext := Leads.of_reaches hreach (hrest text)
      rw [Option.bind_eq_bind, Option.bind_some]
      cases htexts : textAll ctx scripts trees with
      | none =>
          rw [htexts] at hnext
          exact hnext
      | some texts =>
          rw [htexts] at hnext
          exact hnext

/-- A right-hand side on the stack is written with the texts of its nonterminals. -/
theorem leads_interleave {children : List RuleChild} {trees : List (RoseTree RuleIdOrCustom)}
    (h : List.Forall₂ (Writes tree ctx scripts) (children.filterMap RuleChild.nTerm?) trees)
    {i : NodeId} (hlabels : HasLabels tree i (labelsAll trees)) (stack : List UnparseStep)
    (buffers : List (List UInt8)) (w : List UInt8) :
    Leads (unparseStep tree ctx scripts)
      ⟨children.map RuleChild.unparseStep ++ stack, buffers, w, i⟩
      ((textAll ctx scripts trees).map fun texts =>
        (Unparser.mk stack buffers w (i + sizeAll trees)).write
          (RuleChild.interleave children texts)) := by
  induction children generalizing trees i buffers w with
  | nil =>
      cases h
      simp only [textAll, Option.map_some, RuleChild.interleave, sizeAll, Nat.add_zero, write_nil]
      exact Turn.Reaches.refl _
  | cons child children ih =>
      cases child with
      | term data =>
          obtain ⟨buffers', w', hwrite⟩ := write_eq buffers w data
          have hnext := ih h hlabels buffers' w'
          simp only [← hwrite, write_write] at hnext
          exact .of_reaches (.of_next rfl) hnext
      | nTerm nt =>
          have hnonterms : List.filterMap RuleChild.nTerm? (.nTerm nt :: children) =
              nt :: children.filterMap RuleChild.nTerm? := rfl
          rw [hnonterms] at h
          cases h with
          | @cons _ first _ trees hfirst hrest =>
              rw [labelsAll] at hlabels
              have hright := hlabels.right
              rw [length_labels] at hright
              refine leads_textAll (hfirst i hlabels.left _ buffers w) fun text => ?_
              obtain ⟨buffers', w', hwrite⟩ := write_eq buffers w text
              have hnext := ih hrest hright buffers' w'
              simp only [← hwrite, write_write] at hnext
              rw [sizeAll, ← Nat.add_assoc]
              exact hnext

/-- The nonterminals of a script are written to buffers, the last of them on top. -/
theorem leads_buffers {nts : List NTermId} {trees : List (RoseTree RuleIdOrCustom)}
    (h : List.Forall₂ (Writes tree ctx scripts) nts trees) {i : NodeId}
    (hlabels : HasLabels tree i (labelsAll trees)) (stack : List UnparseStep)
    (buffers : List (List UInt8)) (w : List UInt8) :
    Leads (unparseStep tree ctx scripts)
      ⟨nts.flatMap (fun nt => [.pushBuffer, .nonterm nt]) ++ stack, buffers, w, i⟩
      ((textAll ctx scripts trees).map fun texts =>
        ⟨stack, texts.reverse ++ buffers, w, i + sizeAll trees⟩) := by
  induction h generalizing i buffers with
  | nil => exact Turn.Reaches.refl _
  | @cons nt first nts trees hfirst hrest ih =>
      rw [labelsAll] at hlabels
      have hright := hlabels.right
      rw [length_labels] at hright
      refine .of_reaches (.of_next rfl) ?_
      refine leads_textAll (hfirst i hlabels.left _ ([] :: buffers) w) fun text => ?_
      have hnext := ih hright (text :: buffers)
      simp only [List.reverse_cons, List.append_assoc, List.singleton_append, sizeAll,
        ← Nat.add_assoc]
      exact hnext

theorem length_textAll {trees : List (RoseTree RuleIdOrCustom)} {texts : List (List UInt8)}
    (h : textAll ctx scripts trees = some texts) : texts.length = trees.length := by
  induction trees generalizing texts with
  | nil =>
      obtain rfl := Option.some.inj h
      rfl
  | cons first trees ih =>
      rw [textAll] at h
      simp only [Option.bind_eq_bind, Option.bind_eq_some_iff, Option.some_inj] at h
      obtain ⟨text, -, texts, htexts, rfl⟩ := h
      rw [List.length_cons, List.length_cons, ih htexts]

/-- A script is called with the buffers of its nonterminals, which are gone then. -/
theorem runScript_eq (texts buffers : List (List UInt8)) (stack : List UnparseStep)
    (w : List UInt8) (i : NodeId) (rule : RuleId) :
    runScript scripts ⟨stack, texts.reverse ++ buffers, w, i⟩ texts.length rule =
      (scripts rule texts).map (Unparser.mk stack buffers w i).write := by
  have hlen : texts.length ≤ (texts.reverse ++ buffers).length := by
    rw [List.length_append, List.length_reverse]
    exact Nat.le_add_right _ _
  rw [runScript, if_pos hlen, ← List.length_reverse, List.take_left, List.drop_left,
    List.reverse_reverse, Option.map_eq_bind]
  rfl

/-! ## Derivations -/

/-- The rule of a node writes its text, when the children of the node do. -/
theorem writes_node {rid : RuleId} {rule : Rule} {label : RuleIdOrCustom}
    {children : List (RoseTree RuleIdOrCustom)} (hrule : ctx.getRule rid = some rule)
    (hlabelled : rule.LabelledBy rid label)
    (hchildren : List.Forall₂ (Writes tree ctx scripts) rule.nonterms children) :
    Writes tree ctx scripts rule.nonterm (.node label children) := by
  intro i hlabels stack buffers w
  have hid : ctx.getRule label.id = some rule := hlabelled.id_eq ▸ hrule
  rw [labels] at hlabels
  have hnext : nextRule tree ctx ⟨stack, buffers, w, i⟩ rule.nonterm =
      match rule with
      | .plain r => some ⟨r.children.map RuleChild.unparseStep ++ stack, buffers, w, i + 1⟩
      | .script r =>
        some ⟨r.nonterms.flatMap (fun nt => [.pushBuffer, .nonterm nt]) ++
          .script r.nonterms.length label.id :: stack, buffers, w, i + 1⟩
      | .regExp _ => label.data.map fun data => ⟨.term data :: stack, buffers, w, i + 1⟩ := by
    simp only [nextRule, hlabels.head, hid, Option.bind_eq_bind, Option.bind_some, if_true]
    cases rule with
    | plain r => rfl
    | script r => rfl
    | regExp r =>
        rw [Option.map_eq_bind]
        rfl
  have hstep : unparseStep tree ctx scripts ⟨.nonterm rule.nonterm :: stack, buffers, w, i⟩ =
      .ofOption (nextRule tree ctx ⟨stack, buffers, w, i⟩ rule.nonterm) := rfl
  rw [hnext] at hstep
  have htext : (RoseTree.node label children).text ctx scripts =
      (textAll ctx scripts children).bind (rule.text scripts label) := by
    simp only [text, hid, Option.bind_eq_bind, Option.bind_some]
  rw [htext, size, ← Nat.add_assoc]
  cases rule with
  | plain r =>
      have hnonterms : (Rule.plain r).nonterms = r.children.filterMap RuleChild.nTerm? :=
        r.nonterms_eq
      rw [hnonterms] at hchildren
      have hwritten := leads_interleave hchildren hlabels.tail stack buffers w
      refine .of_reaches (.of_next hstep) ?_
      cases htexts : textAll ctx scripts children with
      | none =>
          rw [htexts] at hwritten
          exact hwritten
      | some texts =>
          rw [htexts] at hwritten
          exact hwritten
  | script r =>
      have hbuffers := leads_buffers hchildren hlabels.tail
        (.script r.nonterms.length label.id :: stack) buffers w
      refine .of_reaches (.of_next hstep) ?_
      cases htexts : textAll ctx scripts children with
      | none =>
          rw [htexts] at hbuffers
          exact hbuffers
      | some texts =>
          rw [htexts] at hbuffers
          have hreach : Turn.Reaches (unparseStep tree ctx scripts) _ _ := hbuffers
          have hlen : texts.length = r.nonterms.length :=
            (length_textAll htexts).trans hchildren.length_eq.symm
          refine .of_reaches hreach (.of_turn (congrArg Turn.ofOption ?_))
          rw [← hlen]
          exact runScript_eq texts buffers stack w (i + 1 + sizeAll children) label.id
  | regExp r =>
      obtain ⟨data, rfl⟩ := hlabelled
      cases hchildren
      refine .of_reaches (.of_next hstep) (.of_reaches (.of_next ?_) (.refl _))
      rfl

mutual

theorem writes_of_derives {nt : NTermId} : ∀ {derivation : RoseTree RuleIdOrCustom},
    Derives ctx nt derivation → Writes tree ctx scripts nt derivation
  | .node _ _, .node hrule hlabelled hchildren =>
      writes_node hrule hlabelled (writes_of_derivesAll hchildren)

theorem writes_of_derivesAll {nts : List NTermId} :
    ∀ {derivations : List (RoseTree RuleIdOrCustom)},
      List.Forall₂ (Derives ctx) nts derivations →
        List.Forall₂ (Writes tree ctx scripts) nts derivations
  | [], .nil => .nil
  | _ :: _, .cons hfirst hrest =>
      .cons (writes_of_derives hfirst) (writes_of_derivesAll hrest)

end

/-- From a node on a tree is written out as a text, or the writing panics where there is none. -/
def WritesOut (tree : T) (ctx : Context) (scripts : Scripts) (n : NodeId)
    (text : Option (List UInt8)) (next : NodeId) : Prop :=
  match text with
  | some text => ∃ enough, ∀ fuel, enough ≤ fuel →
      unparse tree ctx scripts fuel n = some (text, next)
  | none => ∀ fuel, unparse tree ctx scripts fuel n = none

/-- A tree that has the labels of a derivation from a node on is written out from
there on, or the writing panics where the derivation has no text. -/
theorem unparse_of_hasLabels (scripts : Scripts) {nt : NTermId}
    {derivation : RoseTree RuleIdOrCustom} {n : NodeId}
    (h : Derives ctx nt derivation) (hlabels : HasLabels tree n derivation.labels) :
    WritesOut tree ctx scripts n (derivation.text ctx scripts) (n + derivation.size) := by
  have hderivation : Writes tree ctx scripts nt derivation := writes_of_derives h
  have hwrites := hderivation n hlabels [] [] []
  have hrun : ∀ fuel, unparse tree ctx scripts fuel n =
      Turn.loop (unparseStep tree ctx scripts) fuel ⟨[.nonterm nt], [], [], n⟩ := by
    intro fuel
    cases h with
    | @node rid rule label children hrule hlabelled hchildren =>
        have hid : ctx.getRule label.id = some rule := hlabelled.id_eq ▸ hrule
        rw [labels] at hlabels
        simp only [unparse, hlabels.head, hid, Option.bind_eq_bind, Option.bind_some]
  cases htext : derivation.text ctx scripts with
  | none =>
      rw [htext] at hwrites
      intro fuel
      exact (hrun fuel).trans (Turn.Ends.eq_none hwrites fuel)
  | some text =>
      rw [htext] at hwrites
      have hreach : Turn.Reaches (unparseStep tree ctx scripts) ⟨[.nonterm nt], [], [], n⟩
        ((Unparser.mk [] [] [] (n + derivation.size)).write text) := hwrites
      have hends : Ends (unparseStep tree ctx scripts) ⟨[.nonterm nt], [], [], n⟩
        (some (text, n + derivation.size)) := hreach.ends (.of_done rfl)
      obtain ⟨enough, henough⟩ := hends.enough
      exact ⟨enough, fun fuel hfuel => (hrun fuel).trans (henough fuel hfuel)⟩

end Unparser

end Libaflmm
