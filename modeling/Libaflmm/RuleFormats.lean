import Libaflmm.Grammar
import Libaflmm.Patterns

/-!
# Rule formats

A plain rule is written as a format: literal bytes, with a backslash before
each of their braces, and references to nonterminals in braces. The format is
cut into tokens by a regular expression, a token in braces is looked up among
the names of the context, and the others lose the backslashes before braces.

A name is the bytes of its text. A reference is first checked to be UTF-8 and
then to have the form of a name. What fails the first check fails the second
as well, and both are a panic, so there is only the second one here.
-/

namespace Libaflmm

/-! ## Names of nonterminals -/

namespace HashMap

variable {K V : Type} [DecidableEq K]

theorem orInsert_of_some {k : K} {v w : V} {m : HashMap K V} (h : m.lookup k = some w) :
    m.orInsert k v = m :=
  if_pos (AList.lookup_isSome.mp (by rw [h]; rfl))

theorem orInsert_of_none {k : K} {v : V} {m : HashMap K V} (h : m.lookup k = none) :
    m.orInsert k v = AList.insert k v m :=
  if_neg (AList.lookup_eq_none.mp h)

theorem length_insert_of_none {k : K} {v : V} {m : HashMap K V} (h : m.lookup k = none) :
    (AList.insert k v m).entries.length = m.entries.length + 1 := by
  rw [AList.entries_insert_of_notMem (AList.lookup_eq_none.mp h), List.length_cons]

end HashMap

/-- The tables of a context that name the nonterminals. Each is the inverse of
the other, and the next number is not in use. -/
structure NtNames where
  namesToNtId : HashMap (List UInt8) NTermId
  ntIdsToName : HashMap NTermId (List UInt8)
  inverse : ∀ name id, namesToNtId.lookup name = some id ↔ ntIdsToName.lookup id = some name
  fresh : ∀ id name, ntIdsToName.lookup id = some name → id < ntIdsToName.entries.length

namespace NtNames

def new : NtNames where
  namesToNtId := ∅
  ntIdsToName := ∅
  inverse _ _ := by simp
  fresh _ _ h := by simp at h

variable (ctx : NtNames)

theorem lookup_next : ctx.ntIdsToName.lookup ctx.ntIdsToName.entries.length = none := by
  cases h : ctx.ntIdsToName.lookup ctx.ntIdsToName.entries.length with
  | none => rfl
  | some name => exact absurd (ctx.fresh _ _ h) (lt_irrefl _)

/-- The number of a name, or the next one. -/
def idOf (nt : List UInt8) : NTermId :=
  (ctx.namesToNtId.lookup nt).getD ctx.ntIdsToName.entries.length

/-- Acquiring a number leaves both tables as they are for a name that has one,
and adds an entry to both otherwise. -/
theorem orInsert_cases (nt : List UInt8) :
    (ctx.namesToNtId.lookup nt = some (ctx.idOf nt) ∧
        ctx.namesToNtId.orInsert nt ctx.ntIdsToName.entries.length = ctx.namesToNtId ∧
        ctx.ntIdsToName.orInsert (ctx.idOf nt) nt = ctx.ntIdsToName) ∨
      (ctx.namesToNtId.lookup nt = none ∧ ctx.idOf nt = ctx.ntIdsToName.entries.length ∧
        ctx.namesToNtId.orInsert nt ctx.ntIdsToName.entries.length =
          AList.insert nt (ctx.idOf nt) ctx.namesToNtId ∧
        ctx.ntIdsToName.orInsert (ctx.idOf nt) nt =
          AList.insert (ctx.idOf nt) nt ctx.ntIdsToName) := by
  cases h : ctx.namesToNtId.lookup nt with
  | some id =>
      have hid : ctx.idOf nt = id := by rw [idOf, h, Option.getD_some]
      rw [hid, HashMap.orInsert_of_some h, HashMap.orInsert_of_some ((ctx.inverse nt id).mp h)]
      exact .inl ⟨rfl, rfl, rfl⟩
  | none =>
      have hid : ctx.idOf nt = ctx.ntIdsToName.entries.length := by
        rw [idOf, h, Option.getD_none]
      rw [hid, HashMap.orInsert_of_none h, HashMap.orInsert_of_none ctx.lookup_next]
      exact .inr ⟨rfl, rfl, rfl, rfl⟩

theorem inverse_orInsert (nt name : List UInt8) (id : NTermId) :
    (ctx.namesToNtId.orInsert nt ctx.ntIdsToName.entries.length).lookup name = some id ↔
      (ctx.ntIdsToName.orInsert (ctx.idOf nt) nt).lookup id = some name := by
  obtain ⟨-, h₁, h₂⟩ | ⟨hnone, hid, h₁, h₂⟩ := ctx.orInsert_cases nt
  · rw [h₁, h₂]
    exact ctx.inverse name id
  · rw [h₁, h₂, HashMap.lookup_insert, HashMap.lookup_insert]
    by_cases hname : name = nt
    · subst hname
      by_cases heq : id = ctx.idOf name
      · simp [heq]
      · -- a name without a number has no entry in the other table either
        have hother : ctx.ntIdsToName.lookup id ≠ some name := fun h => by
          simp [(ctx.inverse name id).mpr h] at hnone
        simp [heq, Ne.symm heq, hother]
    · by_cases heq : id = ctx.idOf nt
      · have hfree : ctx.namesToNtId.lookup name ≠ some id := fun h => by
          have := (ctx.inverse name id).mp h
          rw [heq, hid, ctx.lookup_next] at this
          cases this
        subst heq
        simpa [hname, Ne.symm hname] using hfree
      · simp [hname, heq, ctx.inverse]

theorem fresh_orInsert (nt : List UInt8) (id : NTermId) (name : List UInt8)
    (h : (ctx.ntIdsToName.orInsert (ctx.idOf nt) nt).lookup id = some name) :
    id < (ctx.ntIdsToName.orInsert (ctx.idOf nt) nt).entries.length := by
  obtain ⟨-, -, h₂⟩ | ⟨-, hid, -, h₂⟩ := ctx.orInsert_cases nt
  · rw [h₂] at h ⊢
    exact ctx.fresh id name h
  · rw [h₂, HashMap.lookup_insert] at h
    rw [h₂, HashMap.length_insert_of_none (hid ▸ ctx.lookup_next)]
    split at h
    · next heq => exact heq.trans hid ▸ Nat.lt_succ_self _
    · exact Nat.lt_succ_of_lt (ctx.fresh id name h)

def aquireNtId (nt : List UInt8) : NTermId × NtNames :=
  let nextId := ctx.ntIdsToName.entries.length
  let id := (ctx.namesToNtId.lookup nt).getD nextId
  (id,
    { namesToNtId := ctx.namesToNtId.orInsert nt nextId
      ntIdsToName := ctx.ntIdsToName.orInsert id nt
      inverse := ctx.inverse_orInsert nt
      fresh := ctx.fresh_orInsert nt })

end NtNames

/-! ## Reading a format -/

abbrev backslash : UInt8 := 92

abbrev openBrace : UInt8 := 123

abbrev closeBrace : UInt8 := 125

inductive TokenKind where
  | nonterm
  | literal
  deriving DecidableEq

/-- `[^}\\]` -/
def isReferenceByte (b : UInt8) : Bool := b != closeBrace && b != backslash

/-- `\{[^}\\]+\}` -/
def nontermPattern : Pattern UInt8 :=
  .seq (.one (· == openBrace)) (.seq (.plus (.one isReferenceByte)) (.one (· == closeBrace)))

/-- `[^{\\]|\\\{|\\\}|\\` -/
def literalItem : Pattern UInt8 :=
  .alt (.one fun b => b != openBrace && b != backslash)
    (.alt (.seq (.one (· == backslash)) (.one (· == openBrace)))
      (.alt (.seq (.one (· == backslash)) (.one (· == closeBrace)))
        (.one (· == backslash))))

/-- `(\{[^}\\]+\})|((?:[^{\\]|\\\{|\\\}|\\)+)` -/
def tokenizer : List (TokenKind × Pattern UInt8) :=
  [(.nonterm, nontermPattern), (.literal, .plus literalItem)]

/-- `[a-zA-Z_\-0-9]` -/
def isNameByte (b : UInt8) : Bool :=
  (97 ≤ b && b ≤ 122) || (65 ≤ b && b ≤ 90) || b == 95 || b == 45 || (48 ≤ b && b ≤ 57)

/-- `^\{([A-Z][a-zA-Z_\-0-9]*)(?::([a-zA-Z_\-0-9]*))?\}$`, the first group of it. -/
def splitNtDescription : List UInt8 → Option (List UInt8)
  | b :: c :: rest =>
    if b = openBrace ∧ 65 ≤ c ∧ c ≤ 90 then
      match rest.dropWhile isNameByte with
      | d :: more =>
        if (d = closeBrace ∧ more = []) ∨ (d = 58 ∧ more.dropWhile isNameByte = [closeBrace]) then
          some (c :: rest.takeWhile isNameByte)
        else none
      | [] => none
    else none
  | _ => none

def RuleChild.fromNt (nt : List UInt8) (ctx : NtNames) : Option (RuleChild × NtNames) := do
  let nonterm ← splitNtDescription nt
  let (id, ctx) := ctx.aquireNtId nonterm
  some (.nTerm id, ctx)

namespace Rule

def unescape : List UInt8 → List UInt8
  | b :: c :: rest =>
    if b = backslash ∧ c = openBrace then openBrace :: unescape rest
    else if b = backslash ∧ c = closeBrace then closeBrace :: unescape rest
    else b :: unescape (c :: rest)
  | bytes => bytes

def childOf : TokenKind × List UInt8 → NtNames → Option (RuleChild × NtNames)
  | (.nonterm, sub), ctx => RuleChild.fromNt sub ctx
  | (.literal, sub), ctx => some (.term (unescape sub), ctx)

def childrenOf : List (TokenKind × List UInt8) → NtNames → Option (List RuleChild × NtNames)
  | [], ctx => some ([], ctx)
  | cap :: caps, ctx => do
    let (child, ctx) ← childOf cap ctx
    let (children, ctx) ← childrenOf caps ctx
    some (child :: children, ctx)

def tokenize (format : List UInt8) (ctx : NtNames) : Option (List RuleChild × NtNames) :=
  childrenOf (Pattern.capturesIter tokenizer format) ctx

/-- `none` is the panic on a reference that is no name. -/
def fromFormat (ctx : NtNames) (nonterm format : List UInt8) : Option (PlainRule × NtNames) := do
  let (children, ctx) ← tokenize format ctx
  let (id, ctx) := ctx.aquireNtId nonterm
  some ({ nonterm := id, children }, ctx)

end Rule

end Libaflmm
