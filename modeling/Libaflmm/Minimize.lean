import Libaflmm.GrammarLeast
import Libaflmm.GrammarReturns
import Libaflmm.RecursionSampling
import Libaflmm.TreeMutations

/-!
# Minimising a tree

A tree is made smaller as long as a tester accepts it. `minimize_rec` replaces
the subtree of a node above by that of the node, if both have the same
nonterminal, and `minimize_tree` replaces a subtree by a new one of the least
size. Both go through the nodes of the tree, which changes under them: where a
node above has been replaced, the first goes back to it.

The loop ends. A replacement leaves fewer nodes, and without one the index
grows. What it leaves is the layout of a derivation of the same nonterminal:
the tree it was given, or that of the last mutation that was accepted.

The tester is a function on a state of its own. The set of bits is only handed
on to it.
-/

namespace Libaflmm

/-- The answer to a mutation, and the state of the tester after it. -/
abbrev Tester (σ ε : Type) := TreeMutation → σ → Except ε Bool × σ

namespace GrammarMutator

variable {σ ε R S : Type} [Rand R]

/-! ## The two functions -/

/-- The loop of `find_parent_with_nt`, for at most `fuel` nodes above. -/
def findParent (tree : Tree) (ctx : Context) (nt : NTermId) : Nat → NodeId → Option (Option NodeId)
  | 0, _ => none
  | fuel + 1, node =>
    match tree.getParent node with
    | none => some none
    | some parent => do
      let rule ← tree.getRule parent ctx
      if rule.nonterm = nt then some (some parent) else findParent tree ctx nt fuel parent

/-- A node has a greater index than its parent. -/
def findParentWithNt (tree : Tree) (node : NodeId) (ctx : Context) : Option (Option NodeId) := do
  let rule ← tree.getRule node ctx
  findParent tree ctx rule.nonterm (node + 1) node

def testAndConvert (treeA : Tree) (nA : NodeId) (treeB : Tree) (nB : NodeId) (ctx : Context)
    (tester : Tester σ ε) (s : σ) : Option (Except ε (Option Tree) × σ) := do
  let repl ← treeA.mutateReplaceFromTree nA treeB nB
  match tester repl s with
  | (.error e, s) => some (.error e, s)
  | (.ok true, s) => do
    let tree ← repl.toTree ctx
    some (.ok (some tree), s)
  | (.ok false, s) => some (.ok none, s)

inductive Ending (ε : Type) where
  | returned (complete : Bool)
  | failed (e : ε)
  | panicked

/-- How a call ends, with the tree it leaves and the index it has come to. -/
structure Minimized (ε S : Type) where
  ending : Ending ε
  tree : Tree
  index : Nat
  state : S

/-- The loop of both functions. `step` tries to replace something at a node, and
gives the new tree and the node the replacement was made at. -/
def minimizeLoop (step : Tree → NodeId → S → Option (Except ε (Option (Tree × NodeId)) × S))
    (endIndex : Nat) : Nat → Tree → Nat → S → Option (Minimized ε S)
  | 0, _, _, _ => none
  | fuel + 1, tree, i, s =>
    if i < tree.rules.length then
      match step tree i s with
      | none => some ⟨.panicked, tree, i, s⟩
      | some (.error e, s) => some ⟨.failed e, tree, i, s⟩
      | some (.ok replaced, s) =>
        let (tree, i) := replaced.getD (tree, i)
        let i := i + 1
        if i = endIndex then some ⟨.returned false, tree, i, s⟩
        else minimizeLoop step endIndex fuel tree i s
    else some ⟨.returned true, tree, i, s⟩

def recStep (ctx : Context) (tester : Tester σ ε) (tree : Tree) (n : NodeId) (s : σ) :
    Option (Except ε (Option (Tree × NodeId)) × σ) := do
  match ← findParentWithNt tree n ctx with
  | none => some (.ok none, s)
  | some parent => do
    let (replaced, s) ← testAndConvert tree parent tree n ctx tester s
    some (replaced.map (·.map (·, parent)), s)

/-- The state has the scratchpad and the generator besides that of the tester. -/
def treeStep (ctx : Context) (tester : Tester σ ε) (tree : Tree) (n : NodeId) :
    σ × Tree × R → Option (Except ε (Option (Tree × NodeId)) × σ × Tree × R)
  | (s, scratchpad, r) => do
    let rule ← tree.getRule n ctx
    let size ← tree.subtreeSize n
    let minLen ← ctx.getMinLenForNt rule.nonterm
    if minLen < size then do
      let (scratchpad, r) ← scratchpad.generateFromNt ctx minLen rule.nonterm minLen r
      let (replaced, s) ← testAndConvert tree n scratchpad 0 ctx tester s
      some (replaced.map (·.map (·, n)), s, scratchpad, r)
    else some (.ok none, s, scratchpad, r)

def minimizeRec (tree : Tree) (ctx : Context) (startIndex endIndex : Nat) (tester : Tester σ ε)
    (fuel : Nat) (s : σ) : Option (Minimized ε σ) :=
  minimizeLoop (recStep ctx tester) endIndex fuel tree startIndex s

def minimizeTree (tree : Tree) (ctx : Context) (startIndex endIndex : Nat) (tester : Tester σ ε)
    (fuel : Nat) (s : σ × Tree × R) : Option (Minimized ε (σ × Tree × R)) :=
  minimizeLoop (treeStep ctx tester) endIndex fuel tree startIndex s

/-! ## The loop -/

open RoseTree

/-- On the layout of a derivation, `step` keeps `Inv`, and what it replaces the
tree by is a smaller derivation of the same nonterminal. It panics only if
`panics` holds. -/
def StepKeeps (ctx : Context) (nt : NTermId) (Inv : Tree → S → Prop) (panics : Prop)
    (step : Tree → NodeId → S → Option (Except ε (Option (Tree × NodeId)) × S)) : Prop :=
  ∀ {tree : RoseTree RuleIdOrCustom} {i : NodeId} {s : S}, Derives ctx nt tree → i < tree.size →
    Inv (Tree.layOut tree) s →
    match step (Tree.layOut tree) i s with
    | none => panics
    | some (.ok (some (tree', _)), s') => ∃ smaller, tree' = Tree.layOut smaller ∧
        Derives ctx nt smaller ∧ smaller.size < tree.size ∧ Inv tree' s'
    | some (_, s') => Inv (Tree.layOut tree) s'

/-- How a call ends that was given a derivation of `nt` with `size` nodes. -/
structure EndsWell (ctx : Context) (nt : NTermId) (Inv : Tree → S → Prop) (panics : Prop)
    (size endIndex : Nat) (res : Minimized ε S) : Prop where
  valid : ∃ tree, res.tree = Tree.layOut tree ∧ Derives ctx nt tree ∧ tree.size ≤ size
  inv : Inv res.tree res.state
  panicked : res.ending = .panicked → panics
  stopped : res.ending = .returned false → res.index = endIndex
  complete : res.ending = .returned true → res.tree.rules.length ≤ res.index

variable {ctx : Context} {nt : NTermId} {Inv : Tree → S → Prop} {panics : Prop}
  {step : Tree → NodeId → S → Option (Except ε (Option (Tree × NodeId)) × S)} {endIndex : Nat}

theorem EndsWell.mono {size size' : Nat} {res : Minimized ε S}
    (h : EndsWell ctx nt Inv panics size endIndex res) (hle : size ≤ size') :
    EndsWell ctx nt Inv panics size' endIndex res := by
  obtain ⟨tree, htree, hderives, hsize⟩ := h.valid
  exact ⟨⟨tree, htree, hderives, hsize.trans hle⟩, h.inv, h.panicked, h.stopped, h.complete⟩

/-- A call that is over leaves the tree it has come to. -/
theorem endsWell_layOut {tree : RoseTree RuleIdOrCustom} (htree : Derives ctx nt tree) {s : S}
    (hinv : Inv (Tree.layOut tree) s) {ending : Ending ε} {i : Nat}
    (hpanics : ending = .panicked → panics) (hstop : ending = .returned false → i = endIndex)
    (hend : ending = .returned true → tree.size ≤ i) :
    EndsWell ctx nt Inv panics tree.size endIndex ⟨ending, Tree.layOut tree, i, s⟩ :=
  ⟨⟨tree, rfl, htree, Nat.le_refl _⟩, hinv, hpanics, hstop,
    fun h => (Tree.size_layOut tree).symm ▸ hend h⟩

/-- The nodes shrink, or the index comes nearer to the last one. -/
theorem minimizeLoop_endsWell (hstep : StepKeeps ctx nt Inv panics step)
    {tree : RoseTree RuleIdOrCustom} (htree : Derives ctx nt tree) (i : Nat) {s : S}
    (hinv : Inv (Tree.layOut tree) s) :
    ∃ fuel res, minimizeLoop step endIndex fuel (Tree.layOut tree) i s = some res ∧
      EndsWell ctx nt Inv panics tree.size endIndex res := by
  by_cases hi : i < tree.size
  · have hlt : i < (Tree.layOut tree).rules.length := by rwa [Tree.size_layOut]
    have hkeeps := hstep htree hi hinv
    have hgo : ∀ (next : RoseTree RuleIdOrCustom) (j : Nat) (s' : S), Derives ctx nt next →
        Inv (Tree.layOut next) s' → next.size < tree.size ∨ next = tree ∧ j = i →
        ∃ fuel res, (if j + 1 = endIndex then
            some ⟨.returned false, Tree.layOut next, j + 1, s'⟩
          else minimizeLoop step endIndex fuel (Tree.layOut next) (j + 1) s') = some res ∧
          EndsWell ctx nt Inv panics tree.size endIndex res := by
      intro next j s' hnext hinv' hcase
      have hle : next.size ≤ tree.size := by
        rcases hcase with hless | ⟨rfl, -⟩
        · exact Nat.le_of_lt hless
        · exact Nat.le_refl _
      by_cases hstop : j + 1 = endIndex
      · refine ⟨0, _, if_pos hstop, (endsWell_layOut hnext hinv' ?_ ?_ ?_).mono hle⟩
        · intro h
          cases h
        · intro _
          exact hstop
        · intro h
          cases h
      · obtain ⟨fuel, res, hrun, hres⟩ := minimizeLoop_endsWell hstep hnext (j + 1) hinv'
        exact ⟨fuel, res, by rw [if_neg hstop, hrun], hres.mono hle⟩
    cases hs : step (Tree.layOut tree) i s with
    | none =>
        rw [hs] at hkeeps
        refine ⟨1, _, by rw [minimizeLoop, if_pos hlt, hs], endsWell_layOut htree hinv ?_ ?_ ?_⟩
        · intro _
          exact hkeeps
        · intro h
          cases h
        · intro h
          cases h
    | some out =>
        obtain ⟨res, s'⟩ := out
        rw [hs] at hkeeps
        match res with
        | .error e =>
            refine ⟨1, _, by rw [minimizeLoop, if_pos hlt, hs],
              endsWell_layOut htree hkeeps ?_ ?_ ?_⟩ <;>
            · intro h
              cases h
        | .ok none =>
            obtain ⟨fuel, res, hrun, hres⟩ := hgo tree i s' htree hkeeps (.inr ⟨rfl, rfl⟩)
            exact ⟨fuel + 1, res, by rw [minimizeLoop, if_pos hlt, hs]; exact hrun, hres⟩
        | .ok (some (tree', j)) =>
            obtain ⟨smaller, rfl, hderives, hless, hinv'⟩ := hkeeps
            obtain ⟨fuel, res, hrun, hres⟩ := hgo smaller j s' hderives hinv' (.inl hless)
            exact ⟨fuel + 1, res, by rw [minimizeLoop, if_pos hlt, hs]; exact hrun, hres⟩
  · have hend : ¬ i < (Tree.layOut tree).rules.length := by rwa [Tree.size_layOut]
    refine ⟨1, _, if_neg hend, endsWell_layOut htree hinv ?_ ?_ ?_⟩
    · intro h
      cases h
    · intro h
      cases h
    · intro _
      exact Nat.le_of_not_lt hi
termination_by (tree.size, tree.size - i)
decreasing_by
  rcases hcase with hless | ⟨rfl, rfl⟩
  · exact Prod.Lex.left _ _ hless
  · exact Prod.Lex.right _ (by omega)

/-! ## The node above with the same nonterminal -/

variable {tree sub : RoseTree RuleIdOrCustom} {root : NTermId}

/-- The subtree of `node` reaches as far as `stop`, and that of the node found does, too. -/
theorem findParent_spec (htree : Derives ctx root tree) {n stop : Nat} (nt : NTermId) :
    ∀ (fuel : Nat) {node : Nat} {at_ : RoseTree RuleIdOrCustom}, node < fuel → node ≤ n →
      tree.subtree? node = some at_ → stop ≤ node + at_.size →
      findParent (Tree.layOut tree) ctx nt fuel node = some none ∨
        ∃ (parent : Nat) (above : RoseTree RuleIdOrCustom),
          findParent (Tree.layOut tree) ctx nt fuel node = some (some parent) ∧
          parent < n ∧ tree.subtree? parent = some above ∧ Derives ctx nt above ∧
          stop ≤ parent + above.size := by
  intro fuel
  induction fuel with
  | zero =>
      intro node at_ hlt
      exact absurd hlt (Nat.not_lt_zero node)
  | succ fuel ih =>
      intro node at_ hlt hle hnode hwithin
      rcases Nat.eq_zero_or_pos node with rfl | hpos
      · exact .inl rfl
      · have hrange := subtree?_within hnode
        have hsize := size_pos at_
        obtain ⟨parent, above, at', hparent, hless, habove, hat, hin⟩ :=
          subtree?_parent 0 0 hpos (show node < tree.size by omega)
        obtain rfl := Option.some.inj (hnode.symm.trans hat)
        rw [Nat.zero_add] at hparent
        obtain ⟨nt', hderives, -⟩ := htree.subtree? habove
        obtain ⟨rule, hrule, hnt⟩ := Tree.getRule_layOut habove hderives
        have hget : (Tree.layOut tree).getParent node = some parent := by
          rw [Tree.getParent, if_neg (Nat.pos_iff_ne_zero.mp hpos)]
          exact hparent
        rw [findParent, hget]
        simp only [hrule, Option.bind_eq_bind, Option.bind_some]
        by_cases hsame : rule.nonterm = nt
        · rw [if_pos hsame]
          refine .inr ⟨parent, above, rfl, by omega, habove, ?_, by omega⟩
          rw [← hsame, hnt]
          exact hderives
        · rw [if_neg hsame]
          exact ih (by omega) (by omega) habove (by omega)

theorem findParentWithNt_spec (htree : Derives ctx root tree) {n : Nat}
    (hsub : tree.subtree? n = some sub) {nt : NTermId} (hderives : Derives ctx nt sub) :
    findParentWithNt (Tree.layOut tree) n ctx = some none ∨
      ∃ parent above, findParentWithNt (Tree.layOut tree) n ctx = some (some parent) ∧
        tree.subtree? parent = some above ∧ Derives ctx nt above ∧ sub.size < above.size := by
  obtain ⟨rule, hrule, rfl⟩ := Tree.getRule_layOut hsub hderives
  have hfind : findParentWithNt (Tree.layOut tree) n ctx =
      findParent (Tree.layOut tree) ctx rule.nonterm (n + 1) n := by
    simp only [findParentWithNt, hrule, Option.bind_eq_bind, Option.bind_some]
  rw [hfind]
  refine (findParent_spec htree rule.nonterm (n + 1) (Nat.lt_succ_self n) (Nat.le_refl n) hsub
    (Nat.le_refl _)).imp_right ?_
  rintro ⟨parent, above, hparent, hlt, habove, hsame, hwithin⟩
  exact ⟨parent, above, hparent, habove, hsame, by omega⟩

/-! ## A mutation that is tested -/

/-- The tester with a record of the mutations it has accepted. -/
def recorded (tester : Tester σ ε) : Tester (σ × List TreeMutation) ε
  | mutation, (s, accepted) =>
    let (answer, s) := tester mutation s
    (answer, s, match answer with
      | .ok true => accepted ++ [mutation]
      | _ => accepted)

theorem minimizeLoop_map {S' : Type} {f : S' → S}
    {step' : Tree → NodeId → S' → Option (Except ε (Option (Tree × NodeId)) × S')}
    (hstep : ∀ tree i s, (step' tree i s).map (Prod.map id f) = step tree i (f s))
    (fuel : Nat) (tree : Tree) (i : Nat) (s : S') :
    (minimizeLoop step' endIndex fuel tree i s).map
        (fun res => ⟨res.ending, res.tree, res.index, f res.state⟩) =
      minimizeLoop step endIndex fuel tree i (f s) := by
  induction fuel generalizing tree i s with
  | zero => rfl
  | succ fuel ih =>
      rw [minimizeLoop, minimizeLoop, ← hstep]
      split
      · match step' tree i s with
        | none => rfl
        | some (.error e, s') => rfl
        | some (.ok replaced, s') =>
            simp only [Option.map_some, Prod.map_apply, id_eq]
            split
            · rfl
            · exact ih _ _ s'
      · rfl

theorem testAndConvert_recorded (treeA : Tree) (nA : NodeId) (treeB : Tree) (nB : NodeId)
    (tester : Tester σ ε) (s : σ × List TreeMutation) :
    (testAndConvert treeA nA treeB nB ctx (recorded tester) s).map (Prod.map id Prod.fst) =
      testAndConvert treeA nA treeB nB ctx tester s.1 := by
  obtain ⟨s, accepted⟩ := s
  simp only [testAndConvert, Option.bind_eq_bind, recorded]
  cases treeA.mutateReplaceFromTree nA treeB nB with
  | none => rfl
  | some repl =>
      simp only [Option.bind_some]
      match tester repl s with
      | (.error e, s') => rfl
      | (.ok false, s') => rfl
      | (.ok true, s') =>
          cases repl.toTree ctx with
          | none => rfl
          | some tree => rfl

/-- The record does not change a call. -/
theorem minimizeRec_recorded (tree : Tree) (startIndex : Nat) (tester : Tester σ ε) (fuel : Nat)
    (s : σ × List TreeMutation) :
    (minimizeRec tree ctx startIndex endIndex (recorded tester) fuel s).map
        (fun res => ⟨res.ending, res.tree, res.index, res.state.1⟩) =
      minimizeRec tree ctx startIndex endIndex tester fuel s.1 := by
  refine minimizeLoop_map (f := Prod.fst) (fun tree n s => ?_) fuel tree startIndex s
  simp only [recStep, Option.bind_eq_bind]
  match findParentWithNt tree n ctx with
  | none => rfl
  | some none => rfl
  | some (some parent) =>
      simp only [Option.bind_some, ← testAndConvert_recorded]
      cases testAndConvert tree parent tree n ctx (recorded tester) s <;> rfl

theorem minimizeTree_recorded (tree : Tree) (startIndex : Nat) (tester : Tester σ ε) (fuel : Nat)
    (s : (σ × List TreeMutation) × Tree × R) :
    (minimizeTree tree ctx startIndex endIndex (recorded tester) fuel s).map
        (fun res => ⟨res.ending, res.tree, res.index, res.state.1.1, res.state.2⟩) =
      minimizeTree tree ctx startIndex endIndex tester fuel (s.1.1, s.2) := by
  refine minimizeLoop_map (f := Prod.map Prod.fst id) (fun tree n s => ?_) fuel tree startIndex s
  obtain ⟨s, scratchpad, r⟩ := s
  simp only [treeStep, Option.bind_eq_bind, Prod.map_apply, id_eq]
  cases tree.getRule n ctx with
  | none => rfl
  | some rule =>
      cases tree.subtreeSize n with
      | none => rfl
      | some size =>
          simp only [Option.bind_some]
          cases ctx.getMinLenForNt rule.nonterm with
          | none => rfl
          | some minLen =>
              simp only [Option.bind_some]
              split
              · cases scratchpad.generateFromNt ctx minLen rule.nonterm minLen r with
                | none => rfl
                | some out =>
                    simp only [Option.bind_some, ← testAndConvert_recorded]
                    cases testAndConvert tree n out.1 0 ctx (recorded tester) s <;> rfl
              · rfl

/-- The tree is the first one, or that of the last mutation that was accepted. -/
def Left (ctx : Context) (first : Tree) (tree : Tree) (accepted : List TreeMutation) : Prop :=
  match accepted.getLast? with
  | none => tree = first
  | some mutation => mutation.toTree ctx = some tree

theorem testAndConvert_spec {other new : RoseTree RuleIdOrCustom} {n m : NodeId} {nt : NTermId}
    (htree : Derives ctx root tree) (hsub : tree.subtree? n = some sub)
    (hderives : Derives ctx nt sub) (hother : other.subtree? m = some new)
    (hnew : Derives ctx nt new) (tester : Tester σ ε) (s : σ) (accepted : List TreeMutation) :
    ∃ res s', testAndConvert (Tree.layOut tree) n (Tree.layOut other) m ctx (recorded tester)
        (s, accepted) = some (res, s') ∧
      match res with
      | .ok (some tree') => tree' = Tree.layOut (graft new tree n) ∧
          Derives ctx root (graft new tree n) ∧ ∀ first, Left ctx first tree' s'.2
      | _ => s'.2 = accepted := by
  obtain ⟨mutation, hmutation, hrules, -⟩ := Tree.mutateReplaceFromTree_layOut hsub hother
  obtain ⟨nt', hderives', hgraft⟩ := htree.subtree? hsub
  have hvalid : Derives ctx root (graft new tree n) := hgraft new (hderives'.unique hderives ▸ hnew)
  have hconvert : mutation.toTree ctx = some (Tree.layOut (graft new tree n)) := by
    rw [TreeMutation.toTree, hrules, Tree.fromRuleVec_labels hvalid]
  cases htest : tester mutation s with
  | mk answer s' =>
      simp only [testAndConvert, hmutation, recorded, htest, Option.bind_eq_bind, Option.bind_some]
      match answer with
      | .error e => exact ⟨.error e, _, rfl, rfl⟩
      | .ok false => exact ⟨.ok none, _, rfl, rfl⟩
      | .ok true =>
          simp only [hconvert, Option.bind_some]
          refine ⟨.ok (some _), _, rfl, rfl, hvalid, fun first => ?_⟩
          rw [Left, List.getLast?_concat]
          exact hconvert

/-! ## The two steps -/

/-- The tester may be asked about a subtree of the same nonterminal, which is smaller. -/
theorem recStep_keeps (tester : Tester σ ε) (first : Tree) :
    StepKeeps ctx root (fun tree s => Left ctx first tree s.2) False
      (recStep ctx (recorded tester)) := by
  rintro tree n ⟨s, accepted⟩ htree hn hleft
  obtain ⟨sub, hsub⟩ := exists_subtree? hn
  obtain ⟨nt, hderives, -⟩ := htree.subtree? hsub
  rcases findParentWithNt_spec htree hsub hderives with
    hfind | ⟨parent, above, hfind, habove, hsame, hless⟩
  · simp only [recStep, hfind, Option.bind_eq_bind, Option.bind_some]
    exact hleft
  · obtain ⟨res, ⟨s', accepted'⟩, htest, hres⟩ :=
      testAndConvert_spec htree habove hsame hsub hderives tester s accepted
    simp only [recStep, hfind, htest, Option.bind_eq_bind, Option.bind_some]
    match res with
    | .error e =>
        obtain rfl : accepted' = accepted := hres
        exact hleft
    | .ok none =>
        obtain rfl : accepted' = accepted := hres
        exact hleft
    | .ok (some tree') =>
        obtain ⟨rfl, hvalid, hlast⟩ := hres
        have hsize := size_graft habove sub
        exact ⟨_, rfl, hvalid, by omega, hlast first⟩

theorem exists_minLen (h : ctx.Exact) {nt : NTermId} (hderives : Derives ctx nt tree) :
    ∃ v, ctx.getMinLenForNt nt = some v := by
  cases hderives with
  | node hrule _ _ =>
      obtain ⟨m, v, -, -, -, hv, -⟩ := h.size_of_rule hrule
      exact ⟨v, hv⟩

/-- A new subtree is no longer than the least size, so that it is smaller. -/
theorem treeStep_keeps (h : ctx.Exact) (tester : Tester σ ε) (first : Tree) :
    StepKeeps ctx root
      (fun tree (s : (σ × List TreeMutation) × Tree × R) => Left ctx first tree s.1.2)
      (¬ ctx.DrawsSound) (treeStep ctx (recorded tester)) := by
  rintro tree n ⟨⟨s, accepted⟩, scratchpad, r⟩ htree hn hleft
  obtain ⟨sub, hsub⟩ := exists_subtree? hn
  obtain ⟨nt, hderives, -⟩ := htree.subtree? hsub
  obtain ⟨rule, hrule, rfl⟩ := Tree.getRule_layOut hsub hderives
  obtain ⟨minLen, hmin⟩ := exists_minLen h hderives
  simp only [treeStep, hrule, Tree.subtreeSize_layOut hsub, hmin, Option.bind_eq_bind,
    Option.bind_some]
  by_cases hlt : minLen < sub.size
  · rw [if_pos hlt]
    cases hgen : scratchpad.generateFromNt ctx minLen rule.nonterm minLen r with
    | none =>
        simp only [Option.bind_none]
        intro hdraws
        obtain ⟨derivation, r', hrun, -⟩ := Context.generateFromNt_spec h hdraws hmin
          (Nat.le_refl _) (h.minLen_lt hmin) scratchpad r
        cases hgen.symm.trans hrun
    | some out =>
        obtain ⟨scratchpad', r'⟩ := out
        obtain ⟨derivation, rfl, hnew, hsize⟩ := Tree.generateFromNt_eq_some h hgen
        have hroot : derivation.subtree? 0 = some derivation := by
          cases derivation with
          | node label children => rfl
        obtain ⟨res, ⟨s', accepted'⟩, htest, hres⟩ :=
          testAndConvert_spec htree hsub hderives hroot hnew tester s accepted
        simp only [Option.bind_some, htest]
        match res with
        | .error e =>
            obtain rfl : accepted' = accepted := hres
            exact hleft
        | .ok none =>
            obtain rfl : accepted' = accepted := hres
            exact hleft
        | .ok (some tree') =>
            obtain ⟨rfl, hvalid, hlast⟩ := hres
            have hgraft := size_graft hsub derivation
            exact ⟨_, rfl, hvalid, by omega, hlast first⟩
  · rw [if_neg hlt]
    exact hleft

/-! ## Minimising -/

/-- What a call leaves is a derivation of the same nonterminal with no more
nodes: that of the first tree, or of the mutation that was accepted last. It
gives up at the index it is told to stop at only, and comes to the end of the
tree otherwise. -/
theorem minimize_endsWell {ctx ctx' : Context} {rounds maxLen : Nat} (hbuilt : ctx.Built)
    (hinit : ctx.initializeWith rounds maxLen = some ctx') (htree : Derives ctx' nt tree)
    (startIndex endIndex : Nat) (tester : Tester σ ε) (s : σ) :
    (∃ fuel res, minimizeRec (Tree.layOut tree) ctx' startIndex endIndex (recorded tester) fuel
        (s, []) = some res ∧
      EndsWell ctx' nt (fun left s => Left ctx' (Tree.layOut tree) left s.2) False tree.size
        endIndex res) ∧
    ∀ (R : Type) [Rand R] (scratchpad : Tree) (r : R), ∃ fuel res,
      minimizeTree (Tree.layOut tree) ctx' startIndex endIndex (recorded tester) fuel
        ((s, []), scratchpad, r) = some res ∧
      EndsWell ctx' nt (fun left s => Left ctx' (Tree.layOut tree) left s.1.2)
        (¬ ctx'.DrawsSound) tree.size endIndex res := by
  have hexact := Context.initializeWith_exact hbuilt.invariants.1 hbuilt.invariants.2 hinit
  constructor
  · exact minimizeLoop_endsWell (recStep_keeps tester _) htree startIndex rfl
  · intro R _ scratchpad r
    exact minimizeLoop_endsWell (treeStep_keeps hexact tester _) htree startIndex rfl

open Context RecursionInfo in
theorem minimize_endsWell_sums : ∃ ctx, sums.initializeWith 10 11 = some ctx ∧
    ∃ fuel res, minimizeRec (Tree.layOut (plus one one)) ctx 0 9
        (recorded fun _ (s : Unit) => ((.ok true : Except Empty Bool), s)) fuel ((), []) =
          some res ∧
      EndsWell ctx 0 (fun left s => Left ctx (Tree.layOut (plus one one)) left s.2) False
        (plus one one).size 9 res := by
  obtain ⟨ctx, hinit, hrules⟩ : ∃ ctx, sums.initializeWith 10 11 = some ctx ∧
      sums.rules = ctx.rules := ⟨_, rfl, rfl⟩
  have hplus := derives_of_rules hrules (derives_plus derives_one derives_one)
  exact ⟨ctx, hinit, (minimize_endsWell sums_built hinit hplus 0 9 _ ()).1⟩

open Context RecursionInfo in
/-- The one node is gone through, and the call is told to stop there. -/
theorem minimizeRec_stops_at_the_end : ∃ ctx, sums.initializeWith 10 11 = some ctx ∧
    Derives ctx 0 one ∧ ∃ res, minimizeRec (Tree.layOut one) ctx 0 1
        (fun _ (s : Unit) => ((.ok true : Except Empty Bool), s)) 2 () = some res ∧
      res.tree.rules.length ≤ res.index ∧ res.ending = .returned false := by
  refine ⟨_, rfl, ?_, _, rfl, Nat.le_refl _, rfl⟩
  refine derives_of_rules ?_ derives_one
  rfl

end GrammarMutator

end Libaflmm
