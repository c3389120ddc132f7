import Libaflmm.Grammar

/-!
# Generating trees

A tree is a vector of rules in pre-order, with the size of the subtree and the
parent of every node. It is generated from the left to the right: a rule is
drawn for every nonterminal among those whose least size fits into what is left
of the length, and what a child does not use of its share is left to the next
ones.

The recursion is given a bound on its depth.
-/

namespace Libaflmm

inductive RuleIdOrCustom where
  | rule (id : RuleId)
  | custom (id : RuleId) (data : List UInt8)

structure Tree where
  rules : List RuleIdOrCustom
  sizes : List Nat
  parents : List NodeId

namespace Tree

def truncate : Tree := ⟨[], [], []⟩

/-- A node whose size and parent are not known yet. -/
def push (tree : Tree) (rule : RuleIdOrCustom) : Tree :=
  ⟨tree.rules ++ [rule], tree.sizes ++ [0], tree.parents ++ [0]⟩

def setSize (tree : Tree) (n : NodeId) (size : Nat) : Tree :=
  { tree with sizes := tree.sizes.set n size }

def setParent (tree : Tree) (n parent : NodeId) : Tree :=
  { tree with parents := tree.parents.set n parent }

end Tree

namespace Context

variable {R : Type} [Rand R] (ctx : Context)

/-! ### Drawing a rule -/

/-- The rules are in the order of their sizes, so that those that fit come
first. A rule with one option is kept with `pIncludeShortRules` percent. -/
def getApplicableRules (maxLen pIncludeShortRules : Nat) :
    List RuleId → R → Option (List RuleId × R)
  | [], r => some ([], r)
  | id :: ids, r => do
    let size ← ctx.rulesToMinSize.lookup id
    if size ≤ maxLen then do
      let options ← ctx.rulesToNumOptions.lookup id
      let (keep, r) :=
        if 1 < options then (true, r)
        else
          let (percent, r) := Rand.below ⟨100, by decide⟩ r
          (decide (percent ≤ pIncludeShortRules), r)
      let (rules, r) ← getApplicableRules maxLen pIncludeShortRules ids r
      some (if keep then id :: rules else rules, r)
    else some ([], r)

/-- The choice among the rules has a generator of its own. -/
def chooseApplicableRule (nt : NTermId) (maxLen pIncludeShortRules : Nat) (r : R) :
    Option (Option RuleId × R) := do
  let (seed, r) := Rand.next r
  let ids ← ctx.ntsToRules.lookup nt
  let (rules, r) ← ctx.getApplicableRules maxLen pIncludeShortRules ids r
  some ((Rand.chooseIter rules (RomuDuoJrRand.withSeed seed)).1, r)

def getRandomRuleForNt (nt : NTermId) (maxLen : Nat) (r : R) : Option (RuleId × R) := do
  let pIncludeShortRules := 100
  let (opt, r) ← ctx.chooseApplicableRule nt maxLen pIncludeShortRules r
  match opt with
  | some opt => some (opt, r)
  | none => do
    let (opt, r) ← ctx.chooseApplicableRule nt maxLen 100 r
    opt.map (·, r)

/-! ### Splitting the length -/

end Context

section

variable {R : Type} [Rand R]

/-- The least of `iters` draws up to `total`, and of `res`. -/
def leastProposal (total : Nat) : Nat → Nat → R → Option (Nat × R)
  | 0, res, r => some (res, r)
  | iters + 1, res, r => do
    let (proposal, r) ← Rand.between 0 total r
    leastProposal total iters (if proposal < res then proposal else res) r

/-- The number of children has to be an `i32`. -/
def simpleGetRandomLen (numberOfChildren totalRemainingLen : Nat) (r : R) : Option (Nat × R) :=
  if numberOfChildren < 2 ^ 31 then
    leastProposal totalRemainingLen (numberOfChildren - 1) totalRemainingLen r
  else none

def getRandomLen (len : Nat) (rhsOfRule : List NTermId) (r : R) : Option (Nat × R) :=
  simpleGetRandomLen rhsOfRule.length len r

end

namespace Context

variable {R : Type} [Rand R] (ctx : Context)

/-! ### Generation -/

/-- The node of a rule: that of a regular expression holds a string of it. -/
def ruleOrCustom (rid : RuleId) (r : R) : Option (RuleIdOrCustom × R) := do
  match ← ctx.getRule rid with
  | .plain _ => some (.rule rid, r)
  | .script _ => some (.rule rid, r)
  | .regExp rule => do
    let (data, r) ← generateRegex rule.hir r
    some (.custom rid data, r)

def minimalNeededLen : List NTermId → Nat → Option Nat
  | [], sum => some sum
  | nt :: nts, sum => do
    let min ← ctx.getMinLenForNt nt
    let sum ← usizeAdd sum min
    minimalNeededLen nts sum

/-- The loop over the children of a node, which generates the rule of a child
with `generate`. -/
def generateChildren (generate : RuleId → Nat → Tree → R → Option (Nat × Tree × R))
    (paren : NodeId) : List NTermId → Nat → Nat → Tree → R → Option (Nat × Tree × R)
  | [], _, totalSize, tree, r => some (totalSize, tree, r)
  | nt :: nts, remainingLen, totalSize, tree, r => do
    let (curChildMaxLen, r) ← getRandomLen remainingLen (nt :: nts) r
    let minLen ← ctx.getMinLenForNt nt
    let curChildMaxLen ← usizeAdd curChildMaxLen minLen
    let (rid, r) ← ctx.getRandomRuleForNt nt curChildMaxLen r
    let (ruleOrCustom, r) ← ctx.ruleOrCustom rid r
    if tree.rules.length = tree.sizes.length ∧ tree.sizes.length = tree.parents.length then do
      let offset := tree.rules.length
      let tree := tree.push ruleOrCustom
      let childLen ← usizeSub curChildMaxLen 1
      let (consumedLen, tree, r) ← generate rid childLen tree r
      let tree := (tree.setSize offset consumedLen).setParent offset paren
      if consumedLen ≤ curChildMaxLen ∧ minLen ≤ consumedLen then do
        let remainingLen ← usizeAdd remainingLen minLen
        let remainingLen ← usizeSub remainingLen consumedLen
        let totalSize ← usizeAdd totalSize consumedLen
        generateChildren generate paren nts remainingLen totalSize tree r
      else none
    else none

/-- `Rule::generate`, for the rule of an id. -/
def generateRule : Nat → RuleId → Nat → Tree → R → Option (Nat × Tree × R)
  | 0, _, _, _, _ => none
  | depth + 1, rid, len, tree, r => do
    let rule ← ctx.getRule rid
    let minimalNeededLen ← ctx.minimalNeededLen rule.nonterms 0
    if minimalNeededLen ≤ len then do
      let paren ← usizeSub tree.rules.length 1
      ctx.generateChildren (generateRule depth) paren rule.nonterms (len - minimalNeededLen) 1
        tree r
    else none

end Context

namespace Tree

variable {R : Type} [Rand R] (ctx : Context)

/-- The tree that was there before is dropped. -/
def generateFromRule (depth : Nat) (rid : RuleId) (maxLen : Nat) (_tree : Tree) (r : R) :
    Option (Tree × R) := do
  match ← ctx.getRule rid with
  | .regExp rule => do
    let (data, r) ← generateRegex rule.hir r
    let tree := truncate.push (.custom rid data)
    some (tree.setSize 0 tree.rules.length, r)
  | .plain _ | .script _ => do
    let (_, tree, r) ← ctx.generateRule depth rid maxLen (truncate.push (.rule rid)) r
    some (tree.setSize 0 tree.rules.length, r)

def generateFromNt (depth : Nat) (start : NTermId) (len : Nat) (tree : Tree) (r : R) :
    Option (Tree × R) := do
  let (rid, r) ← ctx.getRandomRuleForNt start len r
  let maxLen ← usizeSub len 1
  tree.generateFromRule ctx depth rid maxLen r

end Tree

end Libaflmm
