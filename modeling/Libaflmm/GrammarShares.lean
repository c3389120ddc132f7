import Libaflmm.Derivations
import Libaflmm.GrammarDraws

/-!
# The shares of the children

What the children of a node need at least is taken off the length, and each of
them is given a part of the rest besides.
-/

namespace Libaflmm

open RoseTree

namespace Context

/-! ## What the children need -/

def minSum (ctx : Context) : List NTermId → Option Nat
  | [] => some 0
  | nt :: nts => do
    let v ← ctx.getMinLenForNt nt
    let sum ← minSum ctx nts
    some (v + sum)

variable {ctx : Context}

theorem minSum_cons {nt : NTermId} {nts : List NTermId} {needed : Nat} :
    ctx.minSum (nt :: nts) = some needed ↔
      ∃ v sum, ctx.getMinLenForNt nt = some v ∧ ctx.minSum nts = some sum ∧ v + sum = needed := by
  simp [minSum, Option.bind_eq_some_iff]

theorem minSum_of_addMinSizes {nts : List NTermId} {res m : Nat}
    (h : addMinSizes ctx.ntsToMinSize nts res = some (some m)) :
    ∃ needed, ctx.minSum nts = some needed ∧ res + needed = m := by
  induction nts generalizing res with
  | nil => exact ⟨0, rfl, by simpa [addMinSizes] using h⟩
  | cons nt nts ih =>
      obtain ⟨v, hv, -, hrest⟩ := addMinSizes_cons.mp h
      obtain ⟨sum, hsum, hm⟩ := ih hrest
      exact ⟨v + sum, minSum_cons.mpr ⟨v, sum, hv, hsum, rfl⟩, by omega⟩

theorem minimalNeededLen_eq {nts : List NTermId} {needed sum : Nat}
    (h : ctx.minSum nts = some needed) (hlt : sum + needed < 2 ^ 64) :
    ctx.minimalNeededLen nts sum = some (sum + needed) := by
  induction nts generalizing needed sum with
  | nil =>
      obtain rfl : 0 = needed := by simpa [minSum] using h
      rfl
  | cons nt nts ih =>
      obtain ⟨v, rest, hv, hrest, rfl⟩ := minSum_cons.mp h
      have hadd : usizeAdd sum v = some (sum + v) := usizeAdd_eq_some.mpr ⟨by omega, rfl⟩
      simp only [minimalNeededLen, hv, hadd, Option.bind_eq_bind, Option.bind_some]
      rw [ih hrest (by omega), Nat.add_assoc]

end Context

/-! ## The share of a child -/

section

variable {R : Type} [Rand R]

theorem leastProposal_le (total iters res : Nat) (r : R) :
    ∃ k r', leastProposal total iters res r = some (k, r') ∧ k ≤ res := by
  induction iters generalizing res r with
  | zero => exact ⟨res, r, rfl, Nat.le_refl res⟩
  | succ iters ih =>
      obtain ⟨proposal, r1, hdraw, -⟩ := Rand.between_zero_le total r
      obtain ⟨k, r', hk, hle⟩ := ih (if proposal < res then proposal else res) r1
      refine ⟨k, r', ?_, hle.trans ?_⟩
      · simp only [leastProposal, hdraw, Option.bind_eq_bind, Option.bind_some]
        exact hk
      · split
        · next hlt => exact Nat.le_of_lt hlt
        · exact Nat.le_refl res

theorem getRandomLen_le (len : Nat) {nts : List NTermId} (h : nts.length < 2 ^ 31) (r : R) :
    ∃ k r', getRandomLen len nts r = some (k, r') ∧ k ≤ len := by
  obtain ⟨k, r', hk, hle⟩ := leastProposal_le len (nts.length - 1) len r
  exact ⟨k, r', by rw [getRandomLen, simpleGetRandomLen, if_pos h, hk], hle⟩

end

namespace Context

variable {ctx : Context} {R : Type} [Rand R]

theorem ruleOrCustom_spec {rid : RuleId} {rule : Rule} (hrule : ctx.getRule rid = some rule)
    (hsound : rule.Sound) (r : R) :
    ∃ label r', ctx.ruleOrCustom rid r = some (label, r') ∧ rule.LabelledBy rid label := by
  simp only [ruleOrCustom, hrule, Option.bind_eq_bind, Option.bind_some]
  cases rule with
  | plain rule => exact ⟨_, r, rfl, rfl⟩
  | script rule => exact ⟨_, r, rfl, rfl⟩
  | regExp rule =>
      obtain ⟨⟨data, r'⟩, hdata⟩ := generateRegex_isSome rule.wellFormed hsound r
      exact ⟨.custom rid data, r', by simp only [hdata, Option.bind_some], data, rfl⟩

/-! ## The root -/

/-- A rule of children is expanded below the root. -/
theorem generateFromRule_eq {rid : RuleId} {rule : Rule} (hrule : ctx.getRule rid = some rule)
    (hkind : ∀ re, rule ≠ .regExp re) (depth maxLen : Nat) (tree : Tree) (r : R) :
    tree.generateFromRule ctx depth rid maxLen r =
      (ctx.generateRule depth rid maxLen (Tree.truncate.push (.rule rid)) r).map
        fun (_, tree, r) => (tree.setSize 0 tree.rules.length, r) := by
  cases rule with
  | regExp re => exact absurd rfl (hkind re)
  | plain plain =>
      simp only [Tree.generateFromRule, hrule, Option.bind_eq_bind, Option.bind_some]
      cases ctx.generateRule depth rid maxLen (Tree.truncate.push (.rule rid)) r <;> rfl
  | script script =>
      simp only [Tree.generateFromRule, hrule, Option.bind_eq_bind, Option.bind_some]
      cases ctx.generateRule depth rid maxLen (Tree.truncate.push (.rule rid)) r <;> rfl

end Context

end Libaflmm
