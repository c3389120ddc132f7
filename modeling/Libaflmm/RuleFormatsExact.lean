import Libaflmm.RuleFormats
import Mathlib.Data.List.Chain

/-!
# What a rule format loses

A format is read here as it is meant: escaped braces, references, and the bytes
outside them. It keeps what it should when the literals of the rule it is read
as are the escaped braces and the bytes outside, in order.

Two things are lost. A brace that opens no reference is passed over by the
tokenizer. And a backslash that ends a literal is taken, with the brace of the
reference behind it, for an escape. Otherwise a format keeps every byte, and
the children it was written from are read back.
-/

namespace Libaflmm

open Pattern

/-! ## What the literal pattern takes -/

/-- The byte that the first item of a literal stands for, and what is left. -/
def literalStep : List UInt8 → Option (UInt8 × List UInt8)
  | [] => none
  | [b] => if b = openBrace then none else some (b, [])
  | b :: c :: xs =>
    if b = openBrace then none
    else if b = backslash ∧ (c = openBrace ∨ c = closeBrace) then some (c, xs)
    else some (b, c :: xs)

/-- The literal that is taken from `xs`, without its escapes, and what is left. -/
inductive LiteralRun : List UInt8 → List UInt8 → List UInt8 → Prop
  | stop {xs} : literalStep xs = none → LiteralRun xs [] xs
  | step {xs b ys bs rest} : literalStep xs = some (b, ys) → LiteralRun ys bs rest →
      LiteralRun xs (b :: bs) rest

theorem literalStep_eq_none {xs : List UInt8} :
    literalStep xs = none ↔ ∀ b ∈ xs.head?, b = openBrace := by
  match xs with
  | [] => simp [literalStep]
  | [b] => simp [literalStep]
  | b :: c :: xs =>
      simp only [literalStep, List.head?_cons, Option.mem_some_iff, forall_eq']
      split <;> rename_i hb
      · simp [hb]
      · split <;> simp [hb]

theorem head?_rests_literalItem (xs : List UInt8) :
    (literalItem.rests xs).head? = (literalStep xs).map Prod.snd := by
  match xs with
  | [] => rfl
  | [b] =>
      by_cases hb : b = openBrace
      · subst hb
        rfl
      · by_cases hslash : b = backslash
        · subst hslash
          rfl
        · simp [literalItem, rests, literalStep, hb, hslash]
  | b :: c :: xs =>
      by_cases hb : b = openBrace
      · subst hb
        rfl
      · by_cases hslash : b = backslash
        · subst hslash
          by_cases hopen : c = openBrace
          · subst hopen
            rfl
          · by_cases hclose : c = closeBrace
            · subst hclose
              rfl
            · simp [literalItem, rests, literalStep, hb, hopen, hclose]
        · simp [literalItem, rests, literalStep, hb, hslash]

theorem literalStep_length {xs ys : List UInt8} {b : UInt8} (h : literalStep xs = some (b, ys)) :
    ys.length < xs.length := by
  have hmem : ys ∈ literalItem.rests xs :=
    List.mem_of_head? (by rw [head?_rests_literalItem, h]; rfl)
  exact (shortens_rests _).length_lt hmem

namespace LiteralRun

theorem exists_run (xs : List UInt8) : ∃ bs rest, LiteralRun xs bs rest := by
  induction hn : xs.length using Nat.strong_induction_on generalizing xs with
  | _ n ih =>
      cases h : literalStep xs with
      | none => exact ⟨[], xs, .stop h⟩
      | some p =>
          obtain ⟨b, ys⟩ := p
          obtain ⟨bs, rest, run⟩ := ih _ (hn ▸ literalStep_length h) ys rfl
          exact ⟨b :: bs, rest, .step h run⟩

theorem head?_rests {xs bs rest : List UInt8} (run : LiteralRun xs bs rest) :
    ((plus literalItem).rests xs).head?.getD xs = rest := by
  induction run with
  | stop h => rw [head?_rests_plus, head?_rests_literalItem, h]; rfl
  | step h run ih =>
      rw [head?_rests_plus, head?_rests_literalItem, h]
      exact ih

theorem suffix {xs bs rest : List UInt8} (run : LiteralRun xs bs rest) :
    ∃ taken, xs = taken ++ rest ∧ Rule.unescape taken = bs := by
  induction run with
  | stop h => exact ⟨[], rfl, rfl⟩
  | @step xs b ys bs rest h run ih =>
      obtain ⟨taken, rfl, rfl⟩ := ih
      match xs with
      | [b'] =>
          simp only [literalStep, Option.ite_none_left_eq_some, Option.some.injEq,
            Prod.mk.injEq] at h
          obtain ⟨-, rfl, hnil⟩ := h
          obtain ⟨rfl, rfl⟩ := List.append_eq_nil_iff.mp hnil.symm
          exact ⟨[b'], rfl, rfl⟩
      | b' :: c :: zs =>
          simp only [literalStep, Option.ite_none_left_eq_some] at h
          obtain ⟨-, h⟩ := h
          split at h
          · next hesc =>
              obtain ⟨rfl, rfl⟩ := Prod.mk.inj (Option.some.inj h)
              refine ⟨b' :: c :: taken, rfl, ?_⟩
              obtain ⟨rfl, rfl | rfl⟩ := hesc <;> rfl
          · next hesc =>
              obtain ⟨rfl, hcons⟩ := Prod.mk.inj (Option.some.inj h)
              -- what is taken behind the byte may end before the next one
              cases taken with
              | nil => exact ⟨[b'], by rw [hcons]; rfl, rfl⟩
              | cons d taken =>
                  obtain ⟨rfl, rfl⟩ := List.cons.inj hcons
                  rw [not_and_or, not_or] at hesc
                  refine ⟨b' :: c :: taken, rfl, ?_⟩
                  rw [Rule.unescape, if_neg (by tauto), if_neg (by tauto)]

end LiteralRun

/-! ## The tokens at the front of a format -/

theorem capture?_literal {xs bs rest : List UInt8} (run : LiteralRun xs bs rest)
    (hne : bs ≠ []) :
    ∃ taken, capture? tokenizer xs = some (.literal, taken, rest) ∧
      Rule.unescape taken = bs := by
  obtain ⟨taken, hxs, htaken⟩ := run.suffix
  refine ⟨taken, ?_, htaken⟩
  cases run with
  | stop h => exact absurd rfl hne
  | step h run =>
      have hlit : ((plus literalItem).rests xs).head? = some rest := by
        rw [head?_rests_plus, head?_rests_literalItem, h]
        exact congrArg some run.head?_rests
      have hnt : nontermPattern.rests xs = [] := by
        cases xs with
        | nil => rfl
        | cons c xs =>
            have hc : c ≠ openBrace := by
              rintro rfl
              rw [literalStep_eq_none.mpr (by simp)] at h
              cases h
            simp [nontermPattern, rests, hc]
      subst hxs
      simp [capture?, tokenizer, hnt, hlit]

/-- The name of the reference that a brace in front of `xs` opens. -/
def reference? (xs : List UInt8) : Option (List UInt8 × List UInt8) :=
  match xs.dropWhile isReferenceByte with
  | c :: rest =>
    if c = closeBrace ∧ xs.takeWhile isReferenceByte ≠ [] then
      some (xs.takeWhile isReferenceByte, rest)
    else none
  | [] => none

theorem reference?_eq_some {xs name rest : List UInt8} (h : reference? xs = some (name, rest)) :
    xs = name ++ closeBrace :: rest := by
  unfold reference? at h
  split at h
  · next c more heq =>
      obtain ⟨⟨rfl, -⟩, hfound⟩ := Option.ite_none_right_eq_some.mp h
      obtain ⟨rfl, rfl⟩ := Prod.mk.inj (Option.some.inj hfound)
      rw [← heq, List.takeWhile_append_dropWhile]
  · cases h

theorem capture?_brace (xs : List UInt8) :
    capture? tokenizer (openBrace :: xs) = (reference? xs).map fun found =>
      (.nonterm, openBrace :: found.1 ++ [closeBrace], found.2) := by
  have hlit : ((plus literalItem).rests (openBrace :: xs)).head? = none := by
    rw [head?_rests_plus, head?_rests_literalItem, literalStep_eq_none.mpr (by simp)]
    rfl
  have hnt : nontermPattern.rests (openBrace :: xs) =
      (seq (plus (one isReferenceByte)) (one (· == closeBrace))).rests xs := by
    rw [nontermPattern, rests]
    simp [rests]
  have hfirst : (nontermPattern.rests (openBrace :: xs)).head? =
      (reference? xs).map Prod.snd := by
    rw [hnt]
    cases xs with
    | nil => rfl
    | cons x xs =>
        have hpq : ∀ b, isReferenceByte b → (b == closeBrace) = false := by
          intro b hb
          simp only [isReferenceByte, Bool.and_eq_true, bne_iff_ne] at hb
          exact beq_false_of_ne hb.1
        rw [head?_rests_closed hpq]
        by_cases hx : isReferenceByte x
        · simp only [hx, if_true, reference?, List.dropWhile_cons_of_pos,
            List.takeWhile_cons_of_pos]
          split <;> simp [*]
        · rw [if_neg hx, reference?, List.takeWhile_cons_of_neg hx]
          split <;> simp
  cases href : reference? xs with
  | none =>
      rw [href] at hfirst
      simp [capture?, tokenizer, hfirst, hlit]
  | some found =>
      obtain ⟨name, rest⟩ := found
      obtain rfl := reference?_eq_some href
      rw [href] at hfirst
      have hsplit : openBrace :: (name ++ closeBrace :: rest) =
          (openBrace :: name ++ [closeBrace]) ++ rest := by simp
      simp only [capture?, tokenizer, List.findSome?_cons, hfirst, Option.map_some]
      rw [hsplit, List.length_append, Nat.add_sub_cancel, List.take_left]

/-! ## What a format means -/

inductive Piece where
  | escape (brace : UInt8)
  | reference (name : List UInt8)
  | byte (b : UInt8)
  deriving DecidableEq

/-- The bytes that a literal should have for a piece. -/
def Piece.kept : Piece → List UInt8
  | .escape brace => [brace]
  | .reference _ => []
  | .byte b => [b]

def nextPiece : List UInt8 → Option (Piece × List UInt8)
  | [] => none
  | b :: xs =>
    if b = openBrace then
      match reference? xs with
      | some (name, rest) => some (.reference name, rest)
      | none => some (.byte b, xs)
    else
      match xs with
      | c :: ys =>
        if b = backslash ∧ (c = openBrace ∨ c = closeBrace) then some (.escape c, ys)
        else some (.byte b, xs)
      | [] => some (.byte b, [])

theorem nextPiece_of_literalStep {xs ys : List UInt8} {b : UInt8}
    (h : literalStep xs = some (b, ys)) :
    ∃ piece, nextPiece xs = some (piece, ys) ∧ piece.kept = [b] ∧ piece ≠ .byte openBrace := by
  match xs with
  | [b'] =>
      simp only [literalStep, Option.ite_none_left_eq_some] at h
      obtain ⟨hb, h⟩ := h
      obtain ⟨rfl, rfl⟩ := Prod.mk.inj (Option.some.inj h)
      exact ⟨.byte b', by simp [nextPiece, hb], rfl, fun heq => hb (Piece.byte.inj heq)⟩
  | b' :: c :: zs =>
      simp only [literalStep, Option.ite_none_left_eq_some] at h
      obtain ⟨hb, h⟩ := h
      split at h
      · next hesc =>
          obtain ⟨rfl, rfl⟩ := Prod.mk.inj (Option.some.inj h)
          exact ⟨.escape c, by rw [nextPiece, if_neg hb, if_pos hesc], rfl, Piece.noConfusion⟩
      · next hesc =>
          obtain ⟨rfl, rfl⟩ := Prod.mk.inj (Option.some.inj h)
          exact ⟨.byte b', by rw [nextPiece, if_neg hb, if_neg hesc], rfl,
            fun heq => hb (Piece.byte.inj heq)⟩

theorem nextPiece_brace (xs : List UInt8) :
    nextPiece (openBrace :: xs) =
      match reference? xs with
      | some (name, rest) => some (.reference name, rest)
      | none => some (.byte openBrace, xs) := rfl

theorem nextPiece_length {xs rest : List UInt8} {piece : Piece}
    (h : nextPiece xs = some (piece, rest)) : rest.length < xs.length := by
  cases hstep : literalStep xs with
  | some p =>
      obtain ⟨b, ys⟩ := p
      obtain ⟨_, hnext, -, -⟩ := nextPiece_of_literalStep hstep
      obtain ⟨-, rfl⟩ := Prod.mk.inj (Option.some.inj (hnext.symm.trans h))
      exact literalStep_length hstep
  | none =>
      cases xs with
      | nil => cases h
      | cons b xs =>
          obtain rfl := literalStep_eq_none.mp hstep b rfl
          rw [nextPiece_brace] at h
          split at h
          · next name more href =>
              obtain ⟨-, rfl⟩ := Prod.mk.inj (Option.some.inj h)
              rw [reference?_eq_some href, List.length_cons, List.length_append, List.length_cons]
              omega
          · obtain ⟨-, rfl⟩ := Prod.mk.inj (Option.some.inj h)
            exact Nat.lt_succ_self _

def pieces (xs : List UInt8) : List Piece :=
  match _h : nextPiece xs with
  | none => []
  | some (piece, rest) => piece :: pieces rest
termination_by xs.length
decreasing_by exact nextPiece_length _h

theorem pieces_of_some {xs rest : List UInt8} {piece : Piece}
    (h : nextPiece xs = some (piece, rest)) : pieces xs = piece :: pieces rest := by
  rw [pieces]
  split
  · next h' => cases h'.symm.trans h
  · next h' =>
      obtain ⟨rfl, rfl⟩ := Prod.mk.inj (Option.some.inj (h'.symm.trans h))
      rfl

theorem pieces_nil : pieces [] = [] := by
  rw [pieces]
  rfl

/-- The pieces that a literal is made of. -/
theorem LiteralRun.pieces {xs bs rest : List UInt8} (run : LiteralRun xs bs rest) :
    ∃ ps, pieces xs = ps ++ pieces rest ∧ ps.flatMap Piece.kept = bs ∧
      .byte openBrace ∉ ps := by
  induction run with
  | stop h => exact ⟨[], rfl, rfl, List.not_mem_nil⟩
  | step h run ih =>
      obtain ⟨ps, hps, rfl, hmem⟩ := ih
      obtain ⟨piece, hnext, hkept, hne⟩ := nextPiece_of_literalStep h
      refine ⟨piece :: ps, ?_, ?_, ?_⟩
      · rw [pieces_of_some hnext, hps, List.cons_append]
      · rw [List.flatMap_cons, hkept, List.singleton_append]
      · exact List.not_mem_cons_of_ne_of_not_mem hne.symm hmem

/-! ## What is read of it -/

def tokenBytes : TokenKind × List UInt8 → List UInt8
  | (.nonterm, _) => []
  | (.literal, sub) => Rule.unescape sub

/-- The literals have the kept bytes of all pieces but the braces that open
no reference. -/
theorem tokenBytes_captures (xs : List UInt8) :
    (capturesIter tokenizer xs).flatMap tokenBytes =
      ((pieces xs).filter (· ≠ .byte openBrace)).flatMap Piece.kept := by
  induction hn : xs.length using Nat.strong_induction_on generalizing xs with
  | _ n ih =>
      subst hn
      obtain ⟨bs, rest, run⟩ := LiteralRun.exists_run xs
      cases bs with
      | cons b bs =>
          obtain ⟨taken, hcap, htaken⟩ := capture?_literal run (List.cons_ne_nil b bs)
          obtain ⟨ps, hps, hkept, hmem⟩ := run.pieces
          have hlt : rest.length < xs.length := by
            obtain ⟨hne, heq⟩ := capture?_eq_some hcap
            rw [heq, List.length_append]
            have := List.length_pos_of_ne_nil hne
            omega
          have hall : ps.filter (· ≠ .byte openBrace) = ps :=
            List.filter_eq_self.mpr fun p hp => decide_eq_true fun heq => hmem (heq ▸ hp)
          rw [capturesIter_of_some hcap, hps, List.flatMap_cons, ih _ hlt rest rfl,
            List.filter_append, hall, List.flatMap_append, hkept, tokenBytes, htaken]
      | nil =>
          cases xs with
          | nil => rw [capturesIter_nil, pieces_nil]; rfl
          | cons b xs =>
              obtain ⟨h⟩ := run
              obtain rfl := literalStep_eq_none.mp h b rfl
              cases href : reference? xs with
              | some found =>
                  obtain ⟨name, rest⟩ := found
                  have hcap := capture?_brace xs
                  rw [href, Option.map_some] at hcap
                  have hnext := nextPiece_brace xs
                  rw [href] at hnext
                  rw [capturesIter_of_some hcap, pieces_of_some hnext, List.flatMap_cons,
                    ih _ (nextPiece_length hnext) rest rfl]
                  rfl
              | none =>
                  have hcap := capture?_brace xs
                  rw [href, Option.map_none] at hcap
                  have hnext := nextPiece_brace xs
                  rw [href] at hnext
                  rw [capturesIter_of_none hcap, pieces_of_some hnext,
                    ih _ (Nat.lt_succ_self _) xs rfl, List.filter_cons_of_neg (by simp)]

/-! ## Children read back -/

/-- A child of a rule, with the name of the nonterminal it refers to. -/
inductive FormatChild where
  | literal (data : List UInt8)
  | reference (name : List UInt8)
  deriving DecidableEq

namespace FormatChild

def IsLiteral : FormatChild → Prop
  | literal _ => True
  | reference _ => False

/-- A backslash before each brace. -/
def escape (data : List UInt8) : List UInt8 :=
  data.flatMap fun b => if b = openBrace ∨ b = closeBrace then [backslash, b] else [b]

def render : FormatChild → List UInt8
  | literal data => escape data
  | reference name => openBrace :: name ++ [closeBrace]

/-- The reference `b` is read as one behind `a`. -/
def Clear (a b : FormatChild) : Prop :=
  ∀ data, a = literal data → data.getLast? = some backslash → b.IsLiteral

end FormatChild

open FormatChild

def isNtName : List UInt8 → Bool
  | [] => false
  | c :: rest => 65 ≤ c && c ≤ 90 && rest.all isNameByte

/-- Literals that are not empty, and between them references. -/
structure ChildSequence where
  children : List FormatChild
  nonempty : ∀ data, .literal data ∈ children → data ≠ []
  named : ∀ name, .reference name ∈ children → isNtName name = true
  separated : children.IsChain fun a b => a.IsLiteral → ¬ b.IsLiteral

def tokenChild : TokenKind × List UInt8 → Option FormatChild
  | (.nonterm, sub) => (splitNtDescription sub).map .reference
  | (.literal, sub) => some (.literal (Rule.unescape sub))

/-- The child with the name that the context has for its nonterminal. -/
def NtNames.childName (ctx : NtNames) : RuleChild → Option FormatChild
  | .term data => some (.literal data)
  | .nTerm nt => (ctx.ntIdsToName.lookup nt).map .reference

/-- Read back from their format, the children are those it was written from. -/
def GivesBack (ctx : NtNames) (nonterm : List UInt8) (s : ChildSequence) : Prop :=
  ∃ rule ctx', Rule.fromFormat ctx nonterm (s.children.flatMap render) = some (rule, ctx') ∧
    rule.children.map ctx'.childName = s.children.map some

/-! ## A literal behind its escapes -/

/-- Nothing that would make an escape of a backslash in front of `xs`. -/
def NoBraceFirst (xs : List UInt8) : Prop := ∀ c ∈ xs.head?, c ≠ openBrace ∧ c ≠ closeBrace

theorem literalStep_cons {b : UInt8} {xs : List UInt8} (hb : b ≠ openBrace)
    (h : b = backslash → NoBraceFirst xs) : literalStep (b :: xs) = some (b, xs) := by
  cases xs with
  | nil => exact if_neg hb
  | cons c xs =>
      have hesc : ¬(b = backslash ∧ (c = openBrace ∨ c = closeBrace)) := by
        rintro ⟨hslash, hc⟩
        obtain ⟨hopen, hclose⟩ := h hslash c rfl
        exact hc.elim hopen hclose
      rw [literalStep, if_neg hb, if_neg hesc]

theorem escape_cons (b : UInt8) (data : List UInt8) :
    escape (b :: data) =
      (if b = openBrace ∨ b = closeBrace then [backslash, b] else [b]) ++ escape data := rfl

theorem noBraceFirst_escape {data xs : List UInt8} (h : data = [] → NoBraceFirst xs) :
    NoBraceFirst (escape data ++ xs) := by
  cases data with
  | nil => exact h rfl
  | cons d data =>
      rw [escape_cons]
      split <;> rename_i hd
      · rintro c ⟨⟩
        exact ⟨by decide, by decide⟩
      · rintro c ⟨⟩
        exact not_or.mp hd

theorem LiteralRun.escape_append {xs bs rest : List UInt8} (run : LiteralRun xs bs rest)
    {data : List UInt8} (h : data.getLast? = some backslash → NoBraceFirst xs) :
    LiteralRun (escape data ++ xs) (data ++ bs) rest := by
  induction data with
  | nil => exact run
  | cons b data ih =>
      have hlast : data.getLast? = some backslash → NoBraceFirst xs := fun hd => by
        refine h ?_
        rw [List.getLast?_cons, hd, Option.getD_some]
      have hrun := ih hlast
      rw [escape_cons, List.append_assoc]
      split <;> rename_i hb
      · refine .step ?_ hrun
        obtain rfl | rfl := hb <;> rfl
      · rw [not_or] at hb
        refine .step (literalStep_cons hb.1 fun hslash => ?_) hrun
        refine noBraceFirst_escape fun hnil => h ?_
        rw [hnil, hslash]
        rfl

/-! ## A reference in its braces -/

theorem isNameByte_isReferenceByte {b : UInt8} (h : isNameByte b) : isReferenceByte b := by
  rw [isReferenceByte, Bool.and_eq_true, bne_iff_ne, bne_iff_ne]
  constructor <;>
    · rintro rfl
      revert h
      decide

theorem isNameByte_of_isNtName {name : List UInt8} (h : isNtName name) :
    ∀ b ∈ name, isNameByte b := by
  cases name with
  | nil => exact fun b hb => absurd hb List.not_mem_nil
  | cons c rest =>
      simp only [isNtName, Bool.and_eq_true, List.all_eq_true] at h
      obtain ⟨hc, hrest⟩ := h
      intro b hb
      rcases List.mem_cons.mp hb with rfl | hb
      · simp only [isNameByte, Bool.or_eq_true, Bool.and_eq_true]
        exact .inl (.inl (.inl (.inr hc)))
      · exact hrest b hb

theorem reference?_append {name : List UInt8} (h : isNtName name) (xs : List UInt8) :
    reference? (name ++ closeBrace :: xs) = some (name, xs) := by
  have hname : ∀ b ∈ name, isReferenceByte b := fun b hb =>
    isNameByte_isReferenceByte (isNameByte_of_isNtName h b hb)
  have hne : name ≠ [] := by rintro rfl; cases h
  have hclose : ¬ isReferenceByte closeBrace := by decide
  rw [reference?, List.dropWhile_append_of_pos hname, List.takeWhile_append_of_pos hname,
    List.dropWhile_cons_of_neg hclose, List.takeWhile_cons_of_neg hclose, List.append_nil]
  exact if_pos ⟨rfl, hne⟩

theorem splitNtDescription_render {name : List UInt8} (h : isNtName name) :
    splitNtDescription (openBrace :: name ++ [closeBrace]) = some name := by
  cases name with
  | nil => cases h
  | cons c rest =>
      have hrest : ∀ b ∈ rest, isNameByte b := fun b hb =>
        isNameByte_of_isNtName h b (List.mem_cons_of_mem c hb)
      simp only [isNtName, Bool.and_eq_true, decide_eq_true_eq] at h
      have hclose : ¬ isNameByte closeBrace := by decide
      rw [List.cons_append, List.cons_append, splitNtDescription, if_pos ⟨rfl, h.1⟩,
        List.dropWhile_append_of_pos hrest, List.takeWhile_append_of_pos hrest,
        List.dropWhile_cons_of_neg hclose, List.takeWhile_cons_of_neg hclose, List.append_nil]
      exact if_pos (.inl ⟨rfl, rfl⟩)

/-! ## The names along a format -/

namespace NtNames

/-- Whatever number has a name in `ctx` has it in `ctx'`. -/
def Extends (ctx ctx' : NtNames) : Prop :=
  ∀ id name, ctx.ntIdsToName.lookup id = some name → ctx'.ntIdsToName.lookup id = some name

theorem extends_aquireNtId (ctx : NtNames) (nt : List UInt8) :
    ctx.Extends (ctx.aquireNtId nt).2 := by
  intro id name h
  show (ctx.ntIdsToName.orInsert (ctx.idOf nt) nt).lookup id = some name
  obtain ⟨-, -, heq⟩ | ⟨-, hid, -, heq⟩ := ctx.orInsert_cases nt
  · rw [heq, h]
  · have hne : id ≠ ctx.idOf nt := by
      rintro rfl
      rw [hid, ctx.lookup_next] at h
      cases h
    rw [heq, HashMap.lookup_insert, if_neg hne, h]

theorem lookup_aquireNtId (ctx : NtNames) (nt : List UInt8) :
    (ctx.aquireNtId nt).2.ntIdsToName.lookup (ctx.aquireNtId nt).1 = some nt := by
  show (ctx.ntIdsToName.orInsert (ctx.idOf nt) nt).lookup (ctx.idOf nt) = some nt
  obtain ⟨hnt, -, heq⟩ | ⟨-, -, -, heq⟩ := ctx.orInsert_cases nt
  · rw [heq, ← ctx.inverse, hnt]
  · rw [heq, HashMap.lookup_insert, if_pos rfl]

end NtNames

theorem childOf_eq_some {cap : TokenKind × List UInt8} {ctx ctx' : NtNames} {child : RuleChild}
    (h : Rule.childOf cap ctx = some (child, ctx')) :
    ctx.Extends ctx' ∧ ∀ ctx'', ctx'.Extends ctx'' → ctx''.childName child = tokenChild cap := by
  obtain ⟨_ | _, sub⟩ := cap
  · obtain ⟨nonterm, hsplit, h⟩ := Option.bind_eq_some_iff.mp h
    obtain ⟨rfl, rfl⟩ := Prod.mk.inj (Option.some.inj h)
    refine ⟨ctx.extends_aquireNtId nonterm, fun ctx'' hext => ?_⟩
    have hid := hext _ _ (ctx.lookup_aquireNtId nonterm)
    show (ctx''.ntIdsToName.lookup (ctx.aquireNtId nonterm).1).map reference = _
    rw [hid, tokenChild, hsplit]
  · obtain ⟨rfl, rfl⟩ := Prod.mk.inj (Option.some.inj h)
    exact ⟨fun _ _ h => h, fun _ _ => rfl⟩

theorem childrenOf_eq_some {caps : List (TokenKind × List UInt8)} :
    ∀ {ctx ctx' : NtNames} {children : List RuleChild},
      Rule.childrenOf caps ctx = some (children, ctx') →
      ctx.Extends ctx' ∧
        ∀ ctx'', ctx'.Extends ctx'' → children.map ctx''.childName = caps.map tokenChild := by
  induction caps with
  | nil =>
      intro ctx ctx' children h
      obtain ⟨rfl, rfl⟩ := Prod.mk.inj (Option.some.inj h)
      exact ⟨fun _ _ h => h, fun _ _ => rfl⟩
  | cons cap caps ih =>
      intro ctx ctx' children h
      obtain ⟨⟨child, ctx₁⟩, hchild, h⟩ := Option.bind_eq_some_iff.mp h
      obtain ⟨⟨more, ctx₂⟩, hmore, h⟩ := Option.bind_eq_some_iff.mp h
      obtain ⟨rfl, rfl⟩ := Prod.mk.inj (Option.some.inj h)
      obtain ⟨hext₁, hname⟩ := childOf_eq_some hchild
      obtain ⟨hext₂, hnames⟩ := ih hmore
      refine ⟨fun id name h => hext₂ _ _ (hext₁ _ _ h), fun ctx'' hext => ?_⟩
      rw [List.map_cons, List.map_cons, hnames ctx'' hext,
        hname ctx'' fun id name h => hext _ _ (hext₂ _ _ h)]

theorem exists_childrenOf {caps : List (TokenKind × List UInt8)}
    (h : ∀ cap ∈ caps, (tokenChild cap).isSome) (ctx : NtNames) :
    ∃ children ctx', Rule.childrenOf caps ctx = some (children, ctx') := by
  induction caps generalizing ctx with
  | nil => exact ⟨[], ctx, rfl⟩
  | cons cap caps ih =>
      have hchild : ∃ child ctx', Rule.childOf cap ctx = some (child, ctx') := by
        obtain ⟨_ | _, sub⟩ := cap
        · obtain ⟨c, hc⟩ := Option.isSome_iff_exists.mp (h _ List.mem_cons_self)
          obtain ⟨nonterm, hsplit, -⟩ := Option.map_eq_some_iff.mp hc
          exact ⟨_, _, by rw [Rule.childOf, RuleChild.fromNt, hsplit]; rfl⟩
        · exact ⟨_, _, rfl⟩
      obtain ⟨child, ctx', hchild⟩ := hchild
      obtain ⟨children, ctx'', hmore⟩ := ih (fun c hc => h c (List.mem_cons_of_mem cap hc)) ctx'
      exact ⟨child :: children, ctx'', by rw [Rule.childrenOf, hchild]; simp [hmore]⟩

/-- A sequence is given back when the tokens of its format are its children. -/
theorem givesBack_iff_tokens {ctx : NtNames} {nonterm : List UInt8} {s : ChildSequence} :
    GivesBack ctx nonterm s ↔
      (capturesIter tokenizer (s.children.flatMap render)).map tokenChild =
        s.children.map some := by
  constructor
  · rintro ⟨rule, ctx', h, hchildren⟩
    obtain ⟨⟨children, ctx₁⟩, htok, h⟩ := Option.bind_eq_some_iff.mp h
    obtain ⟨rfl, rfl⟩ := Prod.mk.inj (Option.some.inj h)
    rw [← (childrenOf_eq_some htok).2 _ (ctx₁.extends_aquireNtId nonterm)]
    exact hchildren
  · intro h
    have hsome : ∀ cap ∈ capturesIter tokenizer (s.children.flatMap render),
        (tokenChild cap).isSome := by
      intro cap hcap
      have hmem : tokenChild cap ∈ s.children.map some := h ▸ List.mem_map_of_mem hcap
      obtain ⟨c, -, hc⟩ := List.mem_map.mp hmem
      rw [← hc]
      rfl
    obtain ⟨children, ctx', htok⟩ := exists_childrenOf hsome ctx
    refine ⟨_, _, by rw [Rule.fromFormat, Rule.tokenize, htok]; rfl, ?_⟩
    rw [← h]
    exact (childrenOf_eq_some htok).2 _ (ctx'.extends_aquireNtId nonterm)

/-! ## What is given back, and what is kept -/

theorem head?_render {cs : List FormatChild} (h : ∀ c ∈ cs.head?, ¬ c.IsLiteral) :
    literalStep (cs.flatMap render) = none := by
  cases cs with
  | nil => rfl
  | cons c cs =>
      cases c with
      | literal data => exact absurd trivial (h _ rfl)
      | reference name => exact literalStep_eq_none.mpr (by rintro b ⟨⟩; rfl)

theorem captures_reference {name : List UInt8} (h : isNtName name) (cs : List FormatChild) :
    ∃ sub, capturesIter tokenizer ((reference name :: cs).flatMap render) =
        (.nonterm, sub) :: capturesIter tokenizer (cs.flatMap render) ∧
      tokenChild (.nonterm, sub) = some (reference name) := by
  have hcap := capture?_brace (name ++ closeBrace :: cs.flatMap render)
  rw [reference?_append h, Option.map_some] at hcap
  have hrender : (reference name :: cs).flatMap render =
      openBrace :: (name ++ closeBrace :: cs.flatMap render) := by
    simp [render]
  refine ⟨_, by rw [hrender, capturesIter_of_some hcap], ?_⟩
  rw [tokenChild, splitNtDescription_render h]
  rfl

theorem captures_literal {data : List UInt8} (hne : data ≠ []) {cs : List FormatChild}
    (hcs : ∀ c ∈ cs.head?, ¬ c.IsLiteral)
    (hclear : ∀ c ∈ cs.head?, Clear (literal data) c) :
    ∃ sub, capturesIter tokenizer ((literal data :: cs).flatMap render) =
        (.literal, sub) :: capturesIter tokenizer (cs.flatMap render) ∧
      tokenChild (.literal, sub) = some (literal data) := by
  have hrun : LiteralRun (escape data ++ cs.flatMap render) (data ++ []) (cs.flatMap render) := by
    refine (LiteralRun.stop (head?_render hcs)).escape_append fun hlast => ?_
    -- a backslash at the end of the literal is also the end of the format
    cases cs with
    | nil => exact fun c hc => by cases hc
    | cons c cs => exact absurd (hclear c rfl data rfl hlast) (hcs c rfl)
  rw [List.append_nil] at hrun
  obtain ⟨taken, hcap, htaken⟩ := capture?_literal hrun hne
  refine ⟨taken, ?_, by rw [tokenChild, htaken]⟩
  rw [List.flatMap_cons, render, capturesIter_of_some hcap]

/-- A backslash in front of a reference is read as an escape of its brace. -/
theorem captures_backslash {data name : List UInt8} (hlast : data.getLast? = some backslash)
    (cs : List FormatChild) :
    ∃ sub caps, capturesIter tokenizer ((literal data :: reference name :: cs).flatMap render) =
        (.literal, sub) :: caps ∧ tokenChild (.literal, sub) ≠ some (literal data) := by
  obtain ⟨init, rfl⟩ := List.getLast?_eq_some_iff.mp hlast
  obtain ⟨bs, rest, run⟩ :=
    LiteralRun.exists_run (name ++ closeBrace :: cs.flatMap render)
  have hstep : LiteralRun
      (backslash :: openBrace :: (name ++ closeBrace :: cs.flatMap render))
      (openBrace :: bs) rest := .step rfl run
  have hrun : LiteralRun
      (escape init ++ backslash :: openBrace :: (name ++ closeBrace :: cs.flatMap render))
      (init ++ openBrace :: bs) rest := by
    refine hstep.escape_append fun _ => ?_
    rintro c ⟨⟩
    exact ⟨by decide, by decide⟩
  obtain ⟨taken, hcap, htaken⟩ := capture?_literal hrun (by simp)
  have hrender : (literal (init ++ [backslash]) :: reference name :: cs).flatMap render =
      escape init ++ backslash :: openBrace :: (name ++ closeBrace :: cs.flatMap render) := by
    rw [List.flatMap_cons, List.flatMap_cons, render, render, escape, List.flatMap_append]
    simp [escape, show ¬(backslash = openBrace ∨ backslash = closeBrace) by decide]
  refine ⟨taken, _, by rw [hrender, capturesIter_of_some hcap], fun heq => ?_⟩
  rw [tokenChild, htaken, Option.some.injEq, FormatChild.literal.injEq,
    List.append_cancel_left_eq] at heq
  cases heq

theorem tokens_render_iff {cs : List FormatChild}
    (hne : ∀ data, .literal data ∈ cs → data ≠ [])
    (hname : ∀ name, .reference name ∈ cs → isNtName name = true)
    (hsep : cs.IsChain fun a b => a.IsLiteral → ¬ b.IsLiteral) :
    (capturesIter tokenizer (cs.flatMap render)).map tokenChild = cs.map some ↔
      cs.IsChain Clear := by
  induction cs with
  | nil => exact iff_of_true rfl .nil
  | cons c cs ih =>
      obtain ⟨hhead, htail⟩ := List.isChain_cons.mp hsep
      have hcs := ih (fun d h => hne d (List.mem_cons_of_mem c h))
        (fun n h => hname n (List.mem_cons_of_mem c h)) htail
      rw [List.isChain_cons]
      cases c with
      | reference name =>
          obtain ⟨sub, hcap, htok⟩ := captures_reference (hname name List.mem_cons_self) cs
          rw [hcap, List.map_cons, List.map_cons, htok, List.cons_inj_right, hcs]
          exact (and_iff_right fun c _ _ h => by cases h).symm
      | literal data =>
          have hrefs : ∀ c ∈ cs.head?, ¬ c.IsLiteral := fun c hc => hhead c hc trivial
          by_cases hclear : ∀ c ∈ cs.head?, Clear (literal data) c
          · obtain ⟨sub, hcap, htok⟩ :=
              captures_literal (hne data List.mem_cons_self) hrefs hclear
            rw [hcap, List.map_cons, List.map_cons, htok, List.cons_inj_right, hcs]
            exact (and_iff_right hclear).symm
          · refine iff_of_false (fun heq => hclear ?_) fun h => hclear h.1
            rintro c hc d hd hlast
            obtain rfl := FormatChild.literal.inj hd
            cases cs with
            | nil => cases hc
            | cons c' cs =>
                obtain rfl := Option.some.inj hc
                cases c' with
                | literal d => exact trivial
                | reference name =>
                    obtain ⟨sub, caps, hcap, htok⟩ := captures_backslash hlast cs
                    rw [hcap, List.map_cons, List.map_cons] at heq
                    exact absurd (List.cons.inj heq).1 htok

def RuleChild.literalBytes : RuleChild → List UInt8
  | .term data => data
  | .nTerm _ => []

/-- The literals of a rule are the escaped braces and the bytes outside escapes
and references, in the order of the format. -/
def KeepsOutside (format : List UInt8) (rule : PlainRule) : Prop :=
  rule.children.flatMap RuleChild.literalBytes = (pieces format).flatMap Piece.kept

theorem literalBytes_childrenOf {caps : List (TokenKind × List UInt8)} :
    ∀ {ctx ctx' : NtNames} {children : List RuleChild},
      Rule.childrenOf caps ctx = some (children, ctx') →
      children.flatMap RuleChild.literalBytes = caps.flatMap tokenBytes := by
  induction caps with
  | nil =>
      intro ctx ctx' children h
      obtain ⟨rfl, rfl⟩ := Prod.mk.inj (Option.some.inj h)
      rfl
  | cons cap caps ih =>
      intro ctx ctx' children h
      obtain ⟨⟨child, ctx₁⟩, hchild, h⟩ := Option.bind_eq_some_iff.mp h
      obtain ⟨⟨more, ctx₂⟩, hmore, h⟩ := Option.bind_eq_some_iff.mp h
      obtain ⟨rfl, rfl⟩ := Prod.mk.inj (Option.some.inj h)
      rw [List.flatMap_cons, List.flatMap_cons, ih hmore]
      congr 1
      obtain ⟨_ | _, sub⟩ := cap
      · obtain ⟨nonterm, -, hchild⟩ := Option.bind_eq_some_iff.mp hchild
        obtain ⟨rfl, rfl⟩ := Prod.mk.inj (Option.some.inj hchild)
        rfl
      · obtain ⟨rfl, rfl⟩ := Prod.mk.inj (Option.some.inj hchild)
        rfl

theorem length_filter_brace (ps : List Piece) :
    ((ps.filter (· ≠ .byte openBrace)).flatMap Piece.kept).length + ps.count (.byte openBrace) =
      (ps.flatMap Piece.kept).length := by
  induction ps with
  | nil => rfl
  | cons p ps ih =>
      rw [List.flatMap_cons, List.length_append, ← ih]
      by_cases hp : p = .byte openBrace
      · subst hp
        rw [List.filter_cons_of_neg (by simp), List.count_cons_self, Piece.kept]
        simp only [List.length_singleton]
        omega
      · rw [List.filter_cons_of_pos (by simpa using hp), List.count_cons_of_ne hp,
          List.flatMap_cons, List.length_append]
        omega

theorem keepsOutside_iff {ctx ctx' : NtNames} {nonterm format : List UInt8} {rule : PlainRule}
    (h : Rule.fromFormat ctx nonterm format = some (rule, ctx')) :
    KeepsOutside format rule ↔ .byte openBrace ∉ pieces format := by
  obtain ⟨⟨children, ctx₁⟩, htok, h⟩ := Option.bind_eq_some_iff.mp h
  obtain ⟨rfl, rfl⟩ := Prod.mk.inj (Option.some.inj h)
  rw [KeepsOutside, literalBytes_childrenOf htok, tokenBytes_captures]
  constructor
  · intro heq
    have hlen := length_filter_brace (pieces format)
    rw [heq] at hlen
    exact List.count_eq_zero.mp (by omega)
  · intro hmem
    have hall : (pieces format).filter (· ≠ .byte openBrace) = pieces format :=
      List.filter_eq_self.mpr fun p hp => decide_eq_true fun heq => hmem (heq ▸ hp)
    rw [hall]

/-- The children are read back exactly when no literal that ends in a backslash
is followed by a reference. A format that is accepted keeps the bytes outside
its escapes and references exactly when none of them is an opening brace. -/
theorem fromFormat_losesNothing_iff (ctx : NtNames) (nonterm : List UInt8) :
    (∀ s : ChildSequence, GivesBack ctx nonterm s ↔ s.children.IsChain Clear) ∧
      ∀ format rule ctx', Rule.fromFormat ctx nonterm format = some (rule, ctx') →
        (KeepsOutside format rule ↔ .byte openBrace ∉ pieces format) :=
  ⟨fun s => givesBack_iff_tokens.trans (tokens_render_iff s.nonempty s.named s.separated),
    fun _ _ _ h => keepsOutside_iff h⟩

/-- The literal `a\` in front of a reference to `B`. -/
def backslashSequence : ChildSequence where
  children := [.literal [97, 92], .reference [66]]
  nonempty := by simp
  named := by simp [isNtName]
  separated := .cons_cons (fun _ h => h) (.singleton _)

theorem fromFormat_losesNothing_escape :
    ∃ rule ctx', Rule.fromFormat .new [70] [123, 66, 125, 97, 92, 123] = some (rule, ctx') ∧
      (KeepsOutside [123, 66, 125, 97, 92, 123] rule ↔
        .byte openBrace ∉ pieces [123, 66, 125, 97, 92, 123]) :=
  ⟨_, _, rfl, (fromFormat_losesNothing_iff .new [70]).2 [123, 66, 125, 97, 92, 123] _ _ rfl⟩

/-- `a\{B}` is read as one literal, and `{}` as its closing brace alone. -/
theorem fromFormat_loses_brace_and_backslash :
    ¬ GivesBack .new [70] backslashSequence ∧
      ∃ rule ctx', Rule.fromFormat .new [70] [123, 125] = some (rule, ctx') ∧
        ¬ KeepsOutside [123, 125] rule := by
  refine ⟨fun h => absurd (givesBack_iff_tokens.mp h) (by decide), _, _, rfl, fun h => ?_⟩
  have hfirst : nextPiece [123, 125] = some (.byte 123, [125]) := rfl
  have hsecond : nextPiece [125] = some (.byte 125, []) := rfl
  rw [KeepsOutside, pieces_of_some hfirst, pieces_of_some hsecond, pieces_nil] at h
  exact absurd h (by decide)

end Libaflmm
