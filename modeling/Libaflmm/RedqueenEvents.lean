import Libaflmm.CmpLogMap
import Libaflmm.PatternSearch
import Libaflmm.TextFields

/-!
# Events of redqueen

QEMU prints a comparison that it has seen as a line: the address, the type, the
size in bits and the two operands. A line is searched for these fields, which
may stand anywhere in it, so a line that prints no event can have a value too:
the fields at the first place where there are any decide, and what stands before
and behind them does not matter. Of operands of 8 bits the first byte is taken.
-/

namespace Libaflmm

open Text

namespace Redqueen

/-- What `\d` matches: the decimal digits of all scripts. -/
structure DecimalDigits where
  isDecimal : Char → Bool
  ascii : ∀ c, c.isDigit = true → isDecimal c = true
  notBlank : ∀ c, isDecimal c = true → isWhitespace c = false
  notSign : isDecimal '+' = false

inductive RedqueenBpType where
  | str
  | cmp
  | sub

structure RedqueenEvent where
  addr : Nat
  bpType : RedqueenBpType
  size : Nat
  lhs : List UInt8
  rhs : List UInt8
  imm : Bool

inductive RedqueenError where
  | failedToParse (line : Text)
  | unknownType
  | invalidAddress (addr : Text)
  | invalidSize (size : Text)
  | decodingLhsFailed
  | decodingRhsFailed
  | invalidRhsLength
  | invalidLhsLength
  | sizeNotImplemented (size : Nat)
  | typeNotImplemented (bpType : RedqueenBpType)

def orError {α : Type} (a : Option α) (e : RedqueenError) : Except RedqueenError α :=
  a.elim (.error e) .ok

def RedqueenBpType.new (data : Text) : Except RedqueenError RedqueenBpType :=
  if data = "STR".toList then .ok .str
  else if data = "CMP".toList then .ok .cmp
  else if data = "SUB".toList then .ok .sub
  else .error .unknownType

def isHex (c : Char) : Bool := (toDigit 16 c).isSome

def bpTypes : Pattern Char :=
  .alt (.verbatim 'C' ['M', 'P']) (.alt (.verbatim 'S' ['U', 'B']) (.verbatim 'S' ['T', 'R']))

/-- The fields of an event and what stands between them. -/
def pieces (digits : DecimalDigits) : List (Pattern Char) :=
  [.plus (.one isHex), .plus (.one isWhitespace), bpTypes,
    .plus (.one isWhitespace), .plus (.one digits.isDecimal), .plus (.one isWhitespace),
    .plus (.one isHex), .verbatim '-' []] ++ [.plus (.one isHex)]

def immediate : Pattern Char := .seq (.one isWhitespace) (.verbatim 'I' ['M', 'M'])

/-- The matches at the front, those with the flag first. -/
def matchesAt (digits : DecimalDigits) (line : Text) : List (List Text × Bool) :=
  (Pattern.splits (pieces digits) line).flatMap fun (taken, rest) =>
    (immediate.rests rest).map (fun _ => (taken, true)) ++ [(taken, false)]

def captures (digits : DecimalDigits) (line : Text) : Option (List Text × Bool) :=
  Pattern.search (matchesAt digits) line

def hexPairs : Text → Option (List UInt8)
  | a :: b :: s =>
    match parseNat 16 256 [a, b], hexPairs s with
    | some byte, some bytes => some (.ofNat byte :: bytes)
    | _, _ => none
  | _ => some []

def hexToBytes (s : Text) : Option (List UInt8) := if s.length % 2 = 0 then hexPairs s else none

namespace RedqueenEvent

def new (digits : DecimalDigits) (line : Text) : Except RedqueenError RedqueenEvent :=
  match captures digits line with
  | some ([addrS, _, typeS, _, sizeS, _, lhsS, _, rhsS], imm) => do
    let addr ← orError (parseNat 16 (2 ^ 64) addrS) (.invalidAddress addrS)
    let bpType ← RedqueenBpType.new typeS
    let size ← orError (parseNat 10 (2 ^ 64) sizeS) (.invalidSize sizeS)
    let lhs ← orError (hexToBytes lhsS) .decodingLhsFailed
    let rhs ← orError (hexToBytes rhsS) .decodingRhsFailed
    return { addr, bpType, size, lhs, rhs, imm }
  | _ => .error (.failedToParse line)

def fromBeBytes (bytes : List UInt8) : Nat := bytes.foldl (fun n b => n * 256 + b.toNat) 0

/-- The number in exactly `n` bytes. -/
def operand (n : Nat) (bytes : List UInt8) (e : RedqueenError) : Except RedqueenError Nat :=
  if bytes.length = n then .ok (fromBeBytes bytes) else .error e

def tryInto (self : RedqueenEvent) : Except RedqueenError CmpValues :=
  match self.bpType with
  | .cmp =>
    match self.size with
    | 8 => do
      let rhs ← orError self.rhs.head? .invalidRhsLength
      let lhs ← orError self.lhs.head? .invalidLhsLength
      return .u8 rhs lhs self.imm
    | 16 => do
      let rhs ← operand 2 self.rhs .invalidRhsLength
      let lhs ← operand 2 self.lhs .invalidLhsLength
      return .u16 (.ofNat rhs) (.ofNat lhs) self.imm
    | 32 => do
      let rhs ← operand 4 self.rhs .invalidRhsLength
      let lhs ← operand 4 self.lhs .invalidLhsLength
      return .u32 (.ofNat rhs) (.ofNat lhs) self.imm
    | 64 => do
      let rhs ← operand 8 self.rhs .invalidRhsLength
      let lhs ← operand 8 self.lhs .invalidLhsLength
      return .u64 (.ofNat rhs) (.ofNat lhs) self.imm
    | otherSize => .error (.sizeNotImplemented otherSize)
  | otherType => .error (.typeNotImplemented otherType)

end RedqueenEvent

/-- The value of a line, if it has one. -/
def lineValue (digits : DecimalDigits) (line : Text) : Option CmpValues :=
  (RedqueenEvent.new digits line).toOption.bind fun event => event.tryInto.toOption

/-! ## Fields -/

def Run (p : Char → Bool) (text : Text) : Prop := text ≠ [] ∧ ∀ c ∈ text, p c = true

structure Fields where
  addr : Text
  blank₁ : Text
  bpType : Text
  blank₂ : Text
  size : Text
  blank₃ : Text
  lhs : Text
  rhs : Text

namespace Fields

def pieces (f : Fields) : List Text :=
  [f.addr, f.blank₁, f.bpType, f.blank₂, f.size, f.blank₃, f.lhs, ['-'], f.rhs]

def text (f : Fields) : Text := f.pieces.flatten

structure Formed (digits : DecimalDigits) (f : Fields) : Prop where
  addr : Run isHex f.addr
  blank₁ : Run isWhitespace f.blank₁
  bpType : f.bpType = "CMP".toList ∨ f.bpType = "SUB".toList ∨ f.bpType = "STR".toList
  blank₂ : Run isWhitespace f.blank₂
  size : Run digits.isDecimal f.size
  blank₃ : Run isWhitespace f.blank₃
  lhs : Run isHex f.lhs
  rhs : Run isHex f.rhs

end Fields

/-- The second operand ends here. -/
def EndsOperand (tail : Text) : Prop := ∀ c ∈ tail.head?, isHex c = false

def isFlagged : Text → Bool
  | c :: 'I' :: 'M' :: 'M' :: _ => isWhitespace c
  | _ => false

/-- The fields stand in the line, and none do at a place before them. -/
structure FirstFields (digits : DecimalDigits) (line : Text) (f : Fields) (tail : Text) :
    Prop where
  formed : f.Formed digits
  ends : EndsOperand tail
  first : ∃ pre, line = pre ++ (f.text ++ tail) ∧
    ∀ pre₁ pre₂, pre = pre₁ ++ pre₂ → pre₂ ≠ [] → ∀ (f' : Fields) (tail' : Text),
      f'.Formed digits → pre₂ ++ (f.text ++ tail) ≠ f'.text ++ tail'

/-- The sizes that operands have. -/
inductive Width where
  | w8
  | w16
  | w32
  | w64

namespace Width

def bytes : Width → Nat
  | w8 => 1
  | w16 => 2
  | w32 => 4
  | w64 => 8

def bits (w : Width) : Nat := 8 * w.bytes

def digits (w : Width) : Nat := 2 * w.bytes

/-- The value has the second operand first: it is the one that may be constant. -/
def value : Width → Nat → Nat → Bool → CmpValues
  | w8, lhs, rhs, imm => .u8 (.ofNat rhs) (.ofNat lhs) imm
  | w16, lhs, rhs, imm => .u16 (.ofNat rhs) (.ofNat lhs) imm
  | w32, lhs, rhs, imm => .u32 (.ofNat rhs) (.ofNat lhs) imm
  | w64, lhs, rhs, imm => .u64 (.ofNat rhs) (.ofNat lhs) imm

/-- Of 8 bits there may be more digits. -/
def Takes : Width → Text → Prop
  | w8, text => text.length % 2 = 0
  | w, text => text.length = w.digits

end Width

/-- The first fields in the line are those of a comparison of one of the sizes. -/
def Yields (digits : DecimalDigits) (line : Text) (v : CmpValues) : Prop :=
  ∃ (f : Fields) (tail : Text) (w : Width), FirstFields digits line f tail ∧
    f.bpType = "CMP".toList ∧ digitsValue 16 0 f.addr < 2 ^ 64 ∧
    (∀ c ∈ f.size, c.isDigit = true) ∧ digitsValue 10 0 f.size = w.bits ∧
    w.Takes f.lhs ∧ w.Takes f.rhs ∧
    v = w.value (digitsValue 16 0 (f.lhs.take w.digits)) (digitsValue 16 0 (f.rhs.take w.digits))
      (isFlagged tail)

/-! ## Where fields stand -/

theorem matches_bpTypes {taken : Text} : bpTypes.Matches taken ↔
    taken = "CMP".toList ∨ taken = "SUB".toList ∨ taken = "STR".toList :=
  or_congr Pattern.matches_verbatim (or_congr Pattern.matches_verbatim Pattern.matches_verbatim)

theorem matches_pieces {digits : DecimalDigits} {taken : List Text} :
    List.Forall₂ Pattern.Matches (pieces digits) taken ↔
      ∃ f : Fields, f.Formed digits ∧ taken = f.pieces := by
  constructor
  · rintro (_ | ⟨haddr, _ | ⟨hblank₁, _ | ⟨htype, _ | ⟨hblank₂, _ | ⟨hsize, _ | ⟨hblank₃,
      _ | ⟨hlhs, _ | ⟨hdash, _ | ⟨hrhs, _ | _⟩⟩⟩⟩⟩⟩⟩⟩⟩)
    refine ⟨⟨_, _, _, _, _, _, _, _⟩, ⟨Pattern.matches_run.mp haddr, Pattern.matches_run.mp hblank₁,
      matches_bpTypes.mp htype, Pattern.matches_run.mp hblank₂, Pattern.matches_run.mp hsize,
      Pattern.matches_run.mp hblank₃, Pattern.matches_run.mp hlhs, Pattern.matches_run.mp hrhs⟩, ?_⟩
    rw [Pattern.matches_verbatim.mp hdash]
    rfl
  · rintro ⟨f, hf, rfl⟩
    exact .cons (Pattern.matches_run.mpr hf.addr) <| .cons (Pattern.matches_run.mpr hf.blank₁) <|
      .cons (matches_bpTypes.mpr hf.bpType) <| .cons (Pattern.matches_run.mpr hf.blank₂) <|
      .cons (Pattern.matches_run.mpr hf.size) <| .cons (Pattern.matches_run.mpr hf.blank₃) <|
      .cons (Pattern.matches_run.mpr hf.lhs) <| .cons (Pattern.matches_verbatim.mpr rfl) <|
      .cons (Pattern.matches_run.mpr hf.rhs) .nil

theorem not_isHex_of_isWhitespace {c : Char} (h : isWhitespace c = true) : isHex c = false := by
  have hcode : c.toNat ≤ 0x20 ∨ 0x85 ≤ c.toNat := by
    simp only [isWhitespace, Bool.or_eq_true, Bool.and_eq_true, decide_eq_true_eq] at h
    omega
  have hdigit : toDigit 16 c = none := by
    unfold toDigit
    dsimp only
    rw [if_neg (by omega)]
    by_cases hlower : 97 ≤ c.toNat ∧ c.toNat ≤ 122
    · omega
    · rw [if_neg hlower, if_neg (by omega)]
      rfl
  rw [isHex, hdigit]
  rfl

theorem not_isWhitespace_of_isHex {c : Char} (h : isHex c = true) : isWhitespace c = false := by
  by_contra hblank
  rw [not_isHex_of_isWhitespace (by simpa using hblank)] at h
  cases h

theorem Run.head {p : Char → Bool} {text : Text} (h : Run p text) (rest : Text) :
    ∀ c ∈ (text ++ rest).head?, p c = true := by
  obtain ⟨c, text, rfl⟩ := List.exists_cons_of_ne_nil h.1
  intro d hd
  cases hd
  exact h.2 c List.mem_cons_self

/-- A run of one kind is followed by one of another. -/
theorem Run.not_head {p q : Char → Bool} {text : Text} (h : Run q text)
    (hpq : ∀ c, q c = true → p c = false) (rest : Text) :
    ∀ c ∈ (text ++ rest).head?, p c = false :=
  fun c hc => hpq c (h.head rest c hc)

theorem run_of_all {p : Char → Bool} {text : Text} (hne : text ≠ []) (h : text.all p = true) :
    Run p text :=
  ⟨hne, List.all_eq_true.mp h⟩

theorem run_bpType {t : Text} (h : t = "CMP".toList ∨ t = "SUB".toList ∨ t = "STR".toList) :
    Run (fun c => !isWhitespace c) t := by
  rcases h with rfl | rfl | rfl
  · exact run_of_all (List.cons_ne_nil _ _) rfl
  · exact run_of_all (List.cons_ne_nil _ _) rfl
  · exact run_of_all (List.cons_ne_nil _ _) rfl

theorem Fields.text_append (f : Fields) (tail : Text) :
    f.text ++ tail = f.addr ++ (f.blank₁ ++ (f.bpType ++ (f.blank₂ ++ (f.size ++ (f.blank₃ ++
      (f.lhs ++ ('-' :: (f.rhs ++ tail)))))))) := by
  simp [Fields.text, Fields.pieces]

/-- The characters of one field tell where it ends. -/
theorem Fields.eq_of_text {digits : DecimalDigits} {f f' : Fields} {tail tail' : Text}
    (hf : f.Formed digits) (hf' : f'.Formed digits) (htail : EndsOperand tail)
    (htail' : EndsOperand tail') (h : f.text ++ tail = f'.text ++ tail') :
    f = f' ∧ tail = tail' := by
  have hblank : ∀ c, isWhitespace c = true → (!isWhitespace c) = false := by simp
  have htype : ∀ c, (!isWhitespace c) = true → isWhitespace c = false := by simp
  have hdecimal : ∀ c, isWhitespace c = true → digits.isDecimal c = false := by
    intro c hc
    by_contra hdigit
    rw [digits.notBlank c (by simpa using hdigit)] at hc
    cases hc
  have hdash : ∀ rest : Text, ∀ c ∈ ('-' :: rest).head?, isHex c = false := by
    rintro rest c hc
    cases hc
    rfl
  have hbp := run_bpType hf.bpType
  have hbp' := run_bpType hf'.bpType
  rw [f.text_append, f'.text_append] at h
  obtain ⟨haddr, h⟩ := Pattern.run_append_inj hf.addr.2 hf'.addr.2
    (hf.blank₁.not_head (fun _ => not_isHex_of_isWhitespace) _)
    (hf'.blank₁.not_head (fun _ => not_isHex_of_isWhitespace) _) h
  obtain ⟨hblank₁, h⟩ := Pattern.run_append_inj hf.blank₁.2 hf'.blank₁.2
    (hbp.not_head htype _) (hbp'.not_head htype _) h
  obtain ⟨hbpType, h⟩ := Pattern.run_append_inj hbp.2 hbp'.2
    (hf.blank₂.not_head hblank _) (hf'.blank₂.not_head hblank _) h
  obtain ⟨hblank₂, h⟩ := Pattern.run_append_inj hf.blank₂.2 hf'.blank₂.2
    (hf.size.not_head digits.notBlank _) (hf'.size.not_head digits.notBlank _) h
  obtain ⟨hsize, h⟩ := Pattern.run_append_inj hf.size.2 hf'.size.2
    (hf.blank₃.not_head hdecimal _) (hf'.blank₃.not_head hdecimal _) h
  obtain ⟨hblank₃, h⟩ := Pattern.run_append_inj hf.blank₃.2 hf'.blank₃.2
    (hf.lhs.not_head (fun _ => not_isWhitespace_of_isHex) _)
    (hf'.lhs.not_head (fun _ => not_isWhitespace_of_isHex) _) h
  obtain ⟨hlhs, h⟩ := Pattern.run_append_inj hf.lhs.2 hf'.lhs.2 (hdash _) (hdash _) h
  obtain ⟨hrhs, h⟩ := Pattern.run_append_inj hf.rhs.2 hf'.rhs.2 htail htail' (List.cons.inj h).2
  cases f
  cases f'
  simp_all

theorem mem_splits_pieces {digits : DecimalDigits} {line rest : Text} {taken : List Text} :
    (taken, rest) ∈ Pattern.splits (pieces digits) line ↔
      ∃ f : Fields, f.Formed digits ∧ taken = f.pieces ∧ line = f.text ++ rest := by
  rw [Pattern.mem_splits, matches_pieces]
  constructor
  · rintro ⟨⟨f, hf, rfl⟩, hline⟩
    exact ⟨f, hf, rfl, hline⟩
  · rintro ⟨f, hf, rfl, hline⟩
    exact ⟨⟨f, hf, rfl⟩, hline⟩

theorem rests_immediate (rest : Text) : immediate.rests rest = [] ↔ isFlagged rest = false := by
  rw [List.eq_nil_iff_forall_not_mem]
  constructor
  · intro h
    unfold isFlagged
    split
    · next c rest =>
        by_contra hblank
        refine h rest (Pattern.mem_rests.mpr ⟨[c, 'I', 'M', 'M'], ?_, rfl⟩)
        exact ⟨[c], _, ⟨c, by simpa using hblank, rfl⟩, Pattern.matches_verbatim.mpr rfl, rfl⟩
    · rfl
  · intro h ys hys
    obtain ⟨_, ⟨_, _, ⟨c, hc, rfl⟩, himm, rfl⟩, rfl⟩ := Pattern.mem_rests.mp hys
    rw [Pattern.matches_verbatim.mp himm] at h
    exact absurd (h.symm.trans (show isFlagged _ = isWhitespace c from rfl)) (by simp [hc])

/-- The flag of the first match says whether there is one behind it. -/
theorem head?_matchesAt {digits : DecimalDigits} {line : Text} {taken : List Text} {imm : Bool} :
    (matchesAt digits line).head? = some (taken, imm) ↔
      ∃ (f : Fields) (tail : Text), f.Formed digits ∧ EndsOperand tail ∧ line = f.text ++ tail ∧
        taken = f.pieces ∧ imm = isFlagged tail := by
  have hfirst : ∀ (taken : List Text) (rest : Text),
      ((immediate.rests rest).map (fun _ => (taken, true)) ++ [(taken, false)]).head? =
        some (taken, isFlagged rest) := by
    intro taken rest
    cases hflag : isFlagged rest with
    | false =>
        rw [(rests_immediate rest).mpr hflag]
        rfl
    | true =>
        cases hrests : immediate.rests rest with
        | nil => rw [(rests_immediate rest).mp hrests] at hflag; cases hflag
        | cons ys more => rfl
  have hhead : (matchesAt digits line).head? =
      (Pattern.splits (pieces digits) line).head?.map fun s => (s.1, isFlagged s.2) := by
    unfold matchesAt
    cases Pattern.splits (pieces digits) line with
    | nil => rfl
    | cons s more =>
        rw [List.flatMap_cons, List.head?_append, hfirst]
        rfl
  rw [hhead, Option.map_eq_some_iff]
  constructor
  · rintro ⟨⟨taken', tail⟩, hsplit, heq⟩
    cases heq
    obtain ⟨f, hf, rfl, hline⟩ := mem_splits_pieces.mp (List.mem_of_head? hsplit)
    exact ⟨f, tail, hf, Pattern.not_run_of_head? hsplit, hline, rfl, rfl⟩
  · rintro ⟨f, tail, hf, htail, hline, rfl, rfl⟩
    have hmem := mem_splits_pieces.mpr ⟨f, hf, rfl, hline⟩
    cases hsplit : (Pattern.splits (pieces digits) line).head? with
    | none =>
        rw [List.head?_eq_none_iff.mp hsplit] at hmem
        cases hmem
    | some s =>
        obtain ⟨f', hf', htaken, hline'⟩ := mem_splits_pieces.mp (List.mem_of_head? hsplit)
        obtain ⟨rfl, htails⟩ := Fields.eq_of_text hf hf' htail (Pattern.not_run_of_head? hsplit)
          (hline.symm.trans hline')
        exact ⟨s, rfl, by rw [htaken, htails]⟩

theorem matchesAt_eq_nil {digits : DecimalDigits} {line : Text} :
    matchesAt digits line = [] ↔
      ∀ (f : Fields) (tail : Text), f.Formed digits → line ≠ f.text ++ tail := by
  unfold matchesAt
  rw [List.flatMap_eq_nil_iff]
  constructor
  · intro h f tail hf hline
    have hnil := h _ (mem_splits_pieces.mpr ⟨f, hf, rfl, hline⟩)
    simp at hnil
  · rintro h ⟨taken, rest⟩ hsplit
    obtain ⟨f, hf, -, hline⟩ := mem_splits_pieces.mp hsplit
    exact absurd hline (h f rest hf)

theorem captures_eq_some {digits : DecimalDigits} {line : Text} {taken : List Text} {imm : Bool} :
    captures digits line = some (taken, imm) ↔
      ∃ (f : Fields) (tail : Text), FirstFields digits line f tail ∧ taken = f.pieces ∧
        imm = isFlagged tail := by
  rw [captures, Pattern.search_eq_some]
  simp only [head?_matchesAt, matchesAt_eq_nil]
  constructor
  · rintro ⟨pre, _, rfl, ⟨f, tail, hf, htail, rfl, htaken, himm⟩, hbefore⟩
    exact ⟨f, tail, ⟨hf, htail, pre, rfl, hbefore⟩, htaken, himm⟩
  · rintro ⟨f, tail, ⟨hf, htail, pre, hline, hbefore⟩, htaken, himm⟩
    exact ⟨pre, _, hline, ⟨f, tail, hf, htail, rfl, htaken, himm⟩, hbefore⟩

/-! ## Operands -/

theorem parseNat_of_isHex {bound n : Nat} (hbound : 0 < bound) {text : Text} (h : Run isHex text) :
    parseNat 16 bound text = some n ↔ digitsValue 16 0 text = n ∧ n < bound := by
  have hsign : '+' ∉ text := fun hmem => absurd (h.2 '+' hmem) (by decide)
  rw [parseNat_of_unsigned h.1 hsign, parseDigits_eq_some_iff (by omega) hbound]
  exact and_iff_right h.2

theorem parseNat_pair {a b : Char} (ha : isHex a = true) (hb : isHex b = true) :
    ∃ byte, parseNat 16 256 [a, b] = some byte ∧
      ∀ n, digitsValue 16 n [a, b] = n * 256 + (UInt8.ofNat byte).toNat := by
  obtain ⟨d, hd⟩ := Option.isSome_iff_exists.mp ha
  obtain ⟨e, he⟩ := Option.isSome_iff_exists.mp hb
  have hdlt := toDigit_lt hd
  have helt := toDigit_lt he
  have hrun : Run isHex [a, b] := ⟨List.cons_ne_nil _ _, by simp [ha, hb]⟩
  refine ⟨d * 16 + e, (parseNat_of_isHex (by omega) hrun).mpr ⟨?_, by omega⟩, fun n => ?_⟩
  · simp [digitsValue, hd, he]
  · have hbyte : (UInt8.ofNat (d * 16 + e)).toNat = d * 16 + e := by
      rw [UInt8.toNat_ofNat', Nat.mod_eq_of_lt (by omega)]
    simp only [digitsValue, List.foldl_cons, List.foldl_nil, hd, he, Option.getD_some, hbyte]
    omega

/-- The bytes of the digits, and the number that the first of them are. -/
theorem hexPairs_of_isHex : ∀ {s : Text}, (∀ c ∈ s, isHex c = true) → s.length % 2 = 0 →
    ∃ bytes, hexPairs s = some bytes ∧ s.length = 2 * bytes.length ∧
      ∀ n k, (bytes.take k).foldl (fun n b => n * 256 + b.toNat) n =
        digitsValue 16 n (s.take (2 * k))
  | [], _, _ => ⟨[], rfl, rfl, fun n k => by simp [digitsValue]⟩
  | [_], _, heven => by simp at heven
  | a :: b :: s, h, heven => by
      rw [List.forall_mem_cons, List.forall_mem_cons] at h
      have heven' : s.length % 2 = 0 := by
        rw [List.length_cons, List.length_cons] at heven
        omega
      obtain ⟨bytes, hpairs, hlen, hvalue⟩ := hexPairs_of_isHex h.2.2 heven'
      obtain ⟨byte, hbyte, hpair⟩ := parseNat_pair h.1 h.2.1
      refine ⟨.ofNat byte :: bytes, by rw [hexPairs, hbyte, hpairs], ?_, fun n k => ?_⟩
      · rw [List.length_cons, List.length_cons, List.length_cons]
        omega
      · cases k with
        | zero => rfl
        | succ k =>
            rw [List.take_succ_cons, List.foldl_cons, hvalue, ← hpair]
            rfl

theorem hexToBytes_of_isHex {s : Text} (h : Run isHex s) (heven : s.length % 2 = 0) :
    ∃ bytes, hexToBytes s = some bytes ∧ s.length = 2 * bytes.length ∧
      ∀ k, RedqueenEvent.fromBeBytes (bytes.take k) = digitsValue 16 0 (s.take (2 * k)) := by
  obtain ⟨bytes, hpairs, hlen, hvalue⟩ := hexPairs_of_isHex h.2 heven
  exact ⟨bytes, by rw [hexToBytes, if_pos heven, hpairs], hlen, hvalue 0⟩

/-! ## The value of a line -/

def Width.Fills : Width → List UInt8 → Prop
  | w8, bytes => bytes ≠ []
  | w, bytes => bytes.length = w.bytes

theorem orError_eq_ok {α : Type} {a : Option α} {e : RedqueenError} {x : α} :
    orError a e = .ok x ↔ a = some x := by
  cases a <;> simp [orError]

theorem bind_eq_ok {α β : Type} {x : Except RedqueenError α} {k : α → Except RedqueenError β}
    {b : β} : (x >>= k) = .ok b ↔ ∃ a, x = .ok a ∧ k a = .ok b := by
  cases x with
  | error e => exact iff_of_false nofun fun ⟨a, ha, _⟩ => nomatch ha
  | ok a => simp [bind, Except.bind]

theorem operand_eq_ok {n m : Nat} {bytes : List UInt8} {e : RedqueenError} :
    RedqueenEvent.operand n bytes e = .ok m ↔
      bytes.length = n ∧ RedqueenEvent.fromBeBytes bytes = m := by
  unfold RedqueenEvent.operand
  split
  · next h => simp [h]
  · next h => exact iff_of_false nofun fun h' => h h'.1

theorem exists_bits_iff {n : Nat} {u : Width} (hn : n = u.bits) {P : Width → Prop} :
    (∃ w : Width, n = w.bits ∧ P w) ↔ P u := by
  subst hn
  constructor
  · rintro ⟨w, hbits, h⟩
    have hw : u = w := by
      cases u <;> cases w <;> first | rfl | cases hbits
    exact hw ▸ h
  · exact fun h => ⟨u, rfl, h⟩

/-- Operands of more than 8 bits have exactly their bytes. -/
theorem exact_eq_ok {w : Width} (hw : w ≠ .w8) {lhs rhs : List UInt8} {imm : Bool}
    {v : CmpValues} :
    (do let r ← RedqueenEvent.operand w.bytes rhs .invalidRhsLength
        let l ← RedqueenEvent.operand w.bytes lhs .invalidLhsLength
        return w.value l r imm) = Except.ok v ↔
      w.Fills lhs ∧ w.Fills rhs ∧ v = w.value (RedqueenEvent.fromBeBytes (lhs.take w.bytes))
        (RedqueenEvent.fromBeBytes (rhs.take w.bytes)) imm := by
  have hfills : ∀ bytes, w.Fills bytes ↔ bytes.length = w.bytes := by
    intro bytes
    cases w with
    | w8 => exact absurd rfl hw
    | w16 => exact Iff.rfl
    | w32 => exact Iff.rfl
    | w64 => exact Iff.rfl
  simp only [bind_eq_ok, operand_eq_ok, hfills]
  constructor
  · rintro ⟨_, ⟨hrhs, rfl⟩, _, ⟨hlhs, rfl⟩, hv⟩
    refine ⟨hlhs, hrhs, ?_⟩
    rw [List.take_of_length_le (Nat.le_of_eq hlhs), List.take_of_length_le (Nat.le_of_eq hrhs)]
    exact (Except.ok.inj hv).symm
  · rintro ⟨hlhs, hrhs, rfl⟩
    rw [List.take_of_length_le (Nat.le_of_eq hlhs), List.take_of_length_le (Nat.le_of_eq hrhs)]
    exact ⟨_, ⟨hrhs, rfl⟩, _, ⟨hlhs, rfl⟩, rfl⟩

theorem first_eq_ok {lhs rhs : List UInt8} {imm : Bool} {v : CmpValues} :
    (do let r ← orError rhs.head? .invalidRhsLength
        let l ← orError lhs.head? .invalidLhsLength
        return CmpValues.u8 r l imm) = Except.ok v ↔
      Width.w8.Fills lhs ∧ Width.w8.Fills rhs ∧
        v = Width.w8.value (RedqueenEvent.fromBeBytes (lhs.take 1))
          (RedqueenEvent.fromBeBytes (rhs.take 1)) imm := by
  simp only [bind_eq_ok, orError_eq_ok]
  cases rhs with
  | nil => exact iff_of_false (fun ⟨_, h, _⟩ => nomatch h) fun h => h.2.1 rfl
  | cons r rhs =>
      cases lhs with
      | nil => exact iff_of_false (fun ⟨_, _, _, h, _⟩ => nomatch h) fun h => h.1 rfl
      | cons l lhs =>
          have hbyte : ∀ b : UInt8, UInt8.ofNat (0 * 256 + b.toNat) = b := by simp
          constructor
          · rintro ⟨_, hr, _, hl, hv⟩
            cases hr
            cases hl
            cases hv
            refine ⟨List.cons_ne_nil _ _, List.cons_ne_nil _ _, ?_⟩
            simp only [Width.value, RedqueenEvent.fromBeBytes, List.take_succ_cons, List.take_zero,
              List.foldl_cons, List.foldl_nil, hbyte]
          · rintro ⟨-, -, rfl⟩
            refine ⟨r, rfl, l, rfl, ?_⟩
            simp only [Width.value, RedqueenEvent.fromBeBytes, List.take_succ_cons, List.take_zero,
              List.foldl_cons, List.foldl_nil, hbyte]
            rfl

theorem tryInto_eq_ok {e : RedqueenEvent} {v : CmpValues} : e.tryInto = .ok v ↔
    e.bpType = .cmp ∧ ∃ w : Width, e.size = w.bits ∧ w.Fills e.lhs ∧ w.Fills e.rhs ∧
      v = w.value (RedqueenEvent.fromBeBytes (e.lhs.take w.bytes))
        (RedqueenEvent.fromBeBytes (e.rhs.take w.bytes)) e.imm := by
  obtain ⟨addr, bpType, size, lhs, rhs, imm⟩ := e
  cases bpType with
  | str => exact iff_of_false nofun fun h => nomatch h.1
  | sub => exact iff_of_false nofun fun h => nomatch h.1
  | cmp =>
      rw [and_iff_right rfl]
      simp only [RedqueenEvent.tryInto]
      split
      · rw [exists_bits_iff (show 8 = Width.w8.bits from rfl)]
        exact first_eq_ok
      · rw [exists_bits_iff (show 16 = Width.w16.bits from rfl)]
        exact exact_eq_ok (w := .w16) nofun
      · rw [exists_bits_iff (show 32 = Width.w32.bits from rfl)]
        exact exact_eq_ok (w := .w32) nofun
      · rw [exists_bits_iff (show 64 = Width.w64.bits from rfl)]
        exact exact_eq_ok (w := .w64) nofun
      · next h8 h16 h32 h64 =>
          refine iff_of_false nofun ?_
          rintro ⟨w, rfl, -⟩
          cases w with
          | w8 => exact h8 rfl
          | w16 => exact h16 rfl
          | w32 => exact h32 rfl
          | w64 => exact h64 rfl

theorem new_cmp {text : Text} : RedqueenBpType.new text = .ok .cmp ↔ text = "CMP".toList := by
  unfold RedqueenBpType.new
  split
  · next h =>
      subst h
      exact iff_of_false nofun (by decide)
  · split
    · next h => exact iff_of_true rfl h
    · next h =>
        refine iff_of_false ?_ h
        split <;> exact nofun

theorem Fields.pieces_injective : Function.Injective Fields.pieces := by
  rintro ⟨⟩ ⟨⟩ h
  simp_all [Fields.pieces]

theorem new_eq_ok {digits : DecimalDigits} {line : Text} {e : RedqueenEvent} :
    RedqueenEvent.new digits line = .ok e ↔ ∃ (f : Fields) (tail : Text),
      FirstFields digits line f tail ∧ parseNat 16 (2 ^ 64) f.addr = some e.addr ∧
        RedqueenBpType.new f.bpType = .ok e.bpType ∧ parseNat 10 (2 ^ 64) f.size = some e.size ∧
        hexToBytes f.lhs = some e.lhs ∧ hexToBytes f.rhs = some e.rhs ∧ e.imm = isFlagged tail := by
  unfold RedqueenEvent.new
  cases hcaptures : captures digits line with
  | none =>
      refine iff_of_false nofun ?_
      rintro ⟨f, tail, hfirst, -⟩
      rw [captures_eq_some.mpr ⟨f, tail, hfirst, rfl, rfl⟩] at hcaptures
      cases hcaptures
  | some found =>
      obtain ⟨f, tail, hfirst, htaken, himm⟩ := captures_eq_some.mp hcaptures
      obtain ⟨taken, imm⟩ := found
      dsimp only at htaken himm
      subst htaken himm
      simp only [Fields.pieces, bind_eq_ok, orError_eq_ok]
      constructor
      · rintro ⟨addr, haddr, bpType, htype, size, hsize, lhs, hlhs, rhs, hrhs, he⟩
        cases he
        exact ⟨f, tail, hfirst, haddr, htype, hsize, hlhs, hrhs, rfl⟩
      · rintro ⟨f', tail', hfirst', haddr, htype, hsize, hlhs, hrhs, himm⟩
        have hsame := (captures_eq_some.mpr ⟨f', tail', hfirst', rfl, rfl⟩).symm.trans hcaptures
        have hpair := Prod.mk.inj (Option.some.inj hsame)
        obtain rfl := Fields.pieces_injective hpair.1
        refine ⟨_, haddr, _, htype, _, hsize, _, hlhs, _, hrhs, ?_⟩
        rw [← hpair.2, ← himm]
        rfl

theorem hexToBytes_eq_some {s : Text} {bytes : List UInt8} (h : Run isHex s)
    (hbytes : hexToBytes s = some bytes) : s.length = 2 * bytes.length ∧
      ∀ k, RedqueenEvent.fromBeBytes (bytes.take k) = digitsValue 16 0 (s.take (2 * k)) := by
  have heven : s.length % 2 = 0 := by
    by_contra hodd
    rw [hexToBytes, if_neg hodd] at hbytes
    cases hbytes
  obtain ⟨bytes', hbytes', hspec⟩ := hexToBytes_of_isHex h heven
  rw [hbytes] at hbytes'
  cases hbytes'
  exact hspec

/-- The digits that an operand has are the bytes that it needs. -/
theorem takes_iff {w : Width} {s : Text} (h : Run isHex s) :
    w.Takes s ↔ ∃ bytes, hexToBytes s = some bytes ∧ w.Fills bytes := by
  have hpos := List.length_pos_of_ne_nil h.1
  constructor
  · intro htakes
    have heven : s.length % 2 = 0 := by
      cases w <;> simp only [Width.Takes, Width.digits, Width.bytes] at htakes <;> omega
    obtain ⟨bytes, hbytes, hlen, -⟩ := hexToBytes_of_isHex h heven
    refine ⟨bytes, hbytes, ?_⟩
    cases w with
    | w8 => exact List.ne_nil_of_length_pos (by omega)
    | w16 | w32 | w64 =>
        simp only [Width.Takes, Width.digits, Width.bytes, Width.Fills] at htakes ⊢
        omega
  · rintro ⟨bytes, hbytes, hfills⟩
    have hlen := (hexToBytes_eq_some h hbytes).1
    cases w with
    | w8 =>
        simp only [Width.Takes]
        omega
    | w16 | w32 | w64 =>
        simp only [Width.Takes, Width.digits, Width.bytes, Width.Fills] at hfills ⊢
        omega

theorem parseNat_size {digits : DecimalDigits} {s : Text} (h : Run digits.isDecimal s) {w : Width} :
    parseNat 10 (2 ^ 64) s = some w.bits ↔
      (∀ c ∈ s, c.isDigit = true) ∧ digitsValue 10 0 s = w.bits := by
  have hsign : '+' ∉ s := by
    intro hmem
    have hplus := h.2 '+' hmem
    rw [digits.notSign] at hplus
    cases hplus
  have hlt : w.bits < 2 ^ 64 := by
    cases w <;> simp [Width.bits, Width.bytes]
  rw [parseNat_of_unsigned h.1 hsign, parseDigits_eq_some_iff (by omega) (by omega)]
  simp only [isSome_toDigit, and_iff_left hlt]

theorem toOption_eq_some {α : Type} {x : Except RedqueenError α} {a : α} :
    x.toOption = some a ↔ x = .ok a := by
  cases x <;> simp [Except.toOption]

/-- A line has the value that its first fields have. -/
theorem lineValue_eq_some {digits : DecimalDigits} {line : Text} {v : CmpValues} :
    lineValue digits line = some v ↔ Yields digits line v := by
  unfold lineValue
  simp only [Option.bind_eq_some_iff, toOption_eq_some]
  constructor
  · rintro ⟨e, hnew, hinto⟩
    obtain ⟨f, tail, hfirst, haddr, htype, hsize, hlhs, hrhs, himm⟩ := new_eq_ok.mp hnew
    obtain ⟨hcmp, w, hbits, hfillsL, hfillsR, rfl⟩ := tryInto_eq_ok.mp hinto
    have hf := hfirst.formed
    rw [hbits] at hsize
    rw [hcmp] at htype
    obtain ⟨hdigits, hvalue⟩ := (parseNat_size hf.size).mp hsize
    have haddr' := (parseNat_of_isHex (by omega) hf.addr).mp haddr
    refine ⟨f, tail, w, hfirst, new_cmp.mp htype, haddr'.1 ▸ haddr'.2, hdigits, hvalue,
      (takes_iff hf.lhs).mpr ⟨_, hlhs, hfillsL⟩, (takes_iff hf.rhs).mpr ⟨_, hrhs, hfillsR⟩, ?_⟩
    rw [(hexToBytes_eq_some hf.lhs hlhs).2, (hexToBytes_eq_some hf.rhs hrhs).2, himm]
    rfl
  · rintro ⟨f, tail, w, hfirst, htype, haddr, hdigits, hvalue, htakesL, htakesR, rfl⟩
    have hf := hfirst.formed
    obtain ⟨lhs, hlhs, hfillsL⟩ := (takes_iff hf.lhs).mp htakesL
    obtain ⟨rhs, hrhs, hfillsR⟩ := (takes_iff hf.rhs).mp htakesR
    refine ⟨⟨digitsValue 16 0 f.addr, .cmp, w.bits, lhs, rhs, isFlagged tail⟩,
      new_eq_ok.mpr ⟨f, tail, hfirst, ?_, new_cmp.mpr htype, ?_, hlhs, hrhs, rfl⟩,
      tryInto_eq_ok.mpr ⟨rfl, w, rfl, hfillsL, hfillsR, ?_⟩⟩
    · exact (parseNat_of_isHex (by omega) hf.addr).mpr ⟨rfl, haddr⟩
    · exact (parseNat_size hf.size).mpr ⟨hdigits, hvalue⟩
    · rw [(hexToBytes_eq_some hf.lhs hlhs).2, (hexToBytes_eq_some hf.rhs hrhs).2]
      rfl

end Redqueen

end Libaflmm
