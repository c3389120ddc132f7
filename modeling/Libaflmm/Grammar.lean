import Libaflmm.HashTables
import Libaflmm.RegexMutator
import Mathlib.Data.List.Sort

/-!
# Grammars

A grammar is a list of rules, and for every nonterminal the rules that derive
it. Before trees are generated, the least size of a tree is computed for every
rule and every nonterminal, the rules of a nonterminal are put in the order of
these sizes, and the choices below every rule are counted.

The least sizes and the counts are fixed points. The loops that look for them
are given the number of rounds they may take. The arithmetic is that of a debug
build, on 64 bits: what leaves its type is a panic, and a panic is `none`.
-/

namespace Libaflmm

def usizeAdd (a b : Nat) : Option Nat := if a + b < 2 ^ 64 then some (a + b) else none

def usizeSub (a b : Nat) : Option Nat := if b ≤ a then some (a - b) else none

theorem usizeAdd_eq_some {a b c : Nat} : usizeAdd a b = some c ↔ a + b < 2 ^ 64 ∧ a + b = c := by
  simp only [usizeAdd, Option.ite_none_right_eq_some, Option.some.injEq]

theorem usizeSub_eq_some {a b c : Nat} : usizeSub a b = some c ↔ b ≤ a ∧ a - b = c := by
  simp only [usizeSub, Option.ite_none_right_eq_some, Option.some.injEq]

/-! ## Rules -/

abbrev RuleId := Nat

abbrev NodeId := Nat

abbrev NTermId := Nat

inductive RuleChild where
  | term (data : List UInt8)
  | nTerm (nt : NTermId)

def RuleChild.nTerm? : RuleChild → Option NTermId
  | .term _ => none
  | .nTerm nt => some nt

structure PlainRule where
  nonterm : NTermId
  children : List RuleChild
  nonterms : List NTermId := children.filterMap RuleChild.nTerm?
  nonterms_eq : nonterms = children.filterMap RuleChild.nTerm? := by rfl

/-- The script itself is only run when a tree is written out. -/
structure ScriptRule where
  nonterm : NTermId
  nonterms : List NTermId

structure RegExpRule where
  nonterm : NTermId
  hir : Hir
  wellFormed : hir.WellFormed

inductive Rule where
  | plain (rule : PlainRule)
  | script (rule : ScriptRule)
  | regExp (rule : RegExpRule)

namespace Rule

def nonterms : Rule → List NTermId
  | .script r => r.nonterms
  | .plain r => r.nonterms
  | .regExp _ => []

def nonterm : Rule → NTermId
  | .script r => r.nonterm
  | .plain r => r.nonterm
  | .regExp r => r.nonterm

end Rule

/-! ## Contexts -/

structure Context where
  rules : List Rule
  ntsToRules : HashMap NTermId (List RuleId)
  rulesToMinSize : HashMap RuleId Nat
  ntsToMinSize : HashMap NTermId Nat
  rulesToNumOptions : HashMap RuleId Nat
  ntsToNumOptions : HashMap NTermId Nat
  maxLen : Nat

/-- The sizes of the nonterminals on top of `res`. The outer `none` is an
overflow, the inner one a nonterminal without a size. -/
def addMinSizes (sizes : HashMap NTermId Nat) : List NTermId → Nat → Option (Option Nat)
  | [], res => some (some res)
  | nt :: nts, res =>
    match sizes.lookup nt with
    | none => some none
    | some min => do
      let res ← usizeAdd res min
      addMinSizes sizes nts res

namespace Context

def new : Context := ⟨[], ∅, ∅, ∅, ∅, ∅, 0⟩

variable (ctx : Context)

def getRule (r : RuleId) : Option Rule := ctx.rules[r]?

/-- What the functions that add a rule do with it once it is parsed. -/
def addRule (rule : Rule) : Context :=
  let rid := ctx.rules.length
  let ids := (ctx.ntsToRules.lookup rule.nonterm).getD []
  { ctx with
    rules := ctx.rules ++ [rule]
    ntsToRules := AList.insert rule.nonterm (ids ++ [rid]) ctx.ntsToRules }

/-! ### Least sizes -/

def calcMinLenForRule (r : RuleId) : Option (Option Nat) := do
  let rule ← ctx.getRule r
  addMinSizes ctx.ntsToMinSize rule.nonterms 1

/-- A rule of the `retain`, with the answer whether it stays unknown. -/
def sizeRule (rule : RuleId) (somethingChanged : Bool) : Option (Bool × Bool × Context) := do
  match ← ctx.calcMinLenForRule rule with
  | some min => do
    let nt ← (ctx.getRule rule).map Rule.nonterm
    let e := (ctx.ntsToMinSize.lookup nt).getD min
    some (false, somethingChanged || decide (min < e),
      { ctx with
        ntsToMinSize := AList.insert nt (if min < e then min else e) ctx.ntsToMinSize
        rulesToMinSize := AList.insert rule min ctx.rulesToMinSize })
  | none => some (true, somethingChanged, ctx)

end Context

def retainUnknown : List RuleId → Bool → Context → Option (List RuleId × Bool × Context)
  | [], somethingChanged, ctx => some ([], somethingChanged, ctx)
  | rule :: rules, somethingChanged, ctx => do
    let (keep, somethingChanged, ctx) ← ctx.sizeRule rule somethingChanged
    let (unknown, somethingChanged, ctx) ← retainUnknown rules somethingChanged ctx
    some (if keep then rule :: unknown else unknown, somethingChanged, ctx)

/-- A round that leaves all rules unknown is the panic of a broken grammar, so
that there are at most as many rounds as rules. -/
def sizeUnknown : Nat → List RuleId → Bool → Context → Option (Bool × Context)
  | _, [], somethingChanged, ctx => some (somethingChanged, ctx)
  | 0, _ :: _, _, _ => none
  | rounds + 1, rule :: rules, somethingChanged, ctx => do
    let (unknown, somethingChanged, ctx) ← retainUnknown (rule :: rules) somethingChanged ctx
    if (rule :: rules).length = unknown.length then none
    else sizeUnknown rounds unknown somethingChanged ctx

def calcMinLenLoop : Nat → Context → Option Context
  | 0, _ => none
  | rounds + 1, ctx => do
    let unknownRules := List.range ctx.rules.length
    let (somethingChanged, ctx) ← sizeUnknown unknownRules.length unknownRules false ctx
    if somethingChanged then calcMinLenLoop rounds ctx else some ctx

/-! ### Numbers of options -/

/-- `saturating_mul` -/
def saturatingMul (a b : Nat) : Nat := min (a * b) (2 ^ 64 - 1)

namespace Context

variable (ctx : Context)

def calcNumOptionsForRule (r : RuleId) : Option Nat := do
  let rule ← ctx.getRule r
  some (rule.nonterms.foldl
    (fun res nt => saturatingMul res ((ctx.ntsToNumOptions.lookup nt).getD 1)) 1)

end Context

def countOptions : List RuleId → Bool → Context → Option (Bool × Context)
  | [], somethingChanged, ctx => some (somethingChanged, ctx)
  | rid :: rids, somethingChanged, ctx => do
    let num ← ctx.calcNumOptionsForRule rid
    let nt ← (ctx.getRule rid).map Rule.nonterm
    let e := (ctx.ntsToNumOptions.lookup nt).getD num
    countOptions rids (somethingChanged || decide (e < num))
      { ctx with
        ntsToNumOptions := AList.insert nt (if e < num then num else e) ctx.ntsToNumOptions
        rulesToNumOptions := AList.insert rid num ctx.rulesToNumOptions }

def calcNumOptionsLoop : Nat → Context → Option Context
  | 0, _ => none
  | rounds + 1, ctx => do
    let (somethingChanged, ctx) ← countOptions (List.range ctx.rules.length) false ctx
    if somethingChanged then calcNumOptionsLoop rounds ctx else some ctx

/-! ### Initialisation -/

namespace Context

variable (ctx : Context)

/-- The order is kept among rules of one size. All rules have their sizes when
this is called. -/
def calcRuleOrder : Context :=
  let size := fun r => (ctx.rulesToMinSize.lookup r).getD 0
  { ctx with
    ntsToRules := ctx.ntsToRules.mapValues (List.insertionSort fun r1 r2 => size r1 ≤ size r2) }

def calcMinLen (rounds : Nat) : Option Context := (calcMinLenLoop rounds ctx).map calcRuleOrder

def calcNumOptions (rounds : Nat) : Option Context :=
  calcNumOptionsLoop rounds
    { ctx with
      ntsToNumOptions := ctx.ntsToRules.entries.foldl
        (fun options e => HashMap.orInsert e.1 e.2.length options) ctx.ntsToNumOptions }

/-- `initialize` -/
def initializeWith (rounds maxLen : Nat) : Option Context := do
  let ctx ← ctx.calcMinLen rounds
  let ctx ← ctx.calcNumOptions rounds
  let maxLen ← usizeAdd maxLen 2
  some { ctx with maxLen }

def getMinLenForNt (nt : NTermId) : Option Nat := ctx.ntsToMinSize.lookup nt

/-- Rules are added and tables computed in any order. -/
inductive Built : Context → Prop
  | new : Built new
  | addRule {ctx : Context} (rule : Rule) : Built ctx → Built (ctx.addRule rule)
  | initializeWith {ctx ctx' : Context} {rounds maxLen : Nat} :
      Built ctx → ctx.initializeWith rounds maxLen = some ctx' → Built ctx'

end Context

end Libaflmm
