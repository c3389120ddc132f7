import Libaflmm.LossyText
import Libaflmm.Store
import Libaflmm.TextFields

/-!
# Escapes in the tokens of a dictionary

An item is decoded byte by byte. Bytes of characters outside of ASCII are
never taken for a backslash, a mark or a digit, so that the loop reads whole
characters. Where the item ends is not looked at: an escape that is cut off
there is dropped.
-/

namespace Libaflmm

open Text

/-! ## The loop -/

namespace StrDecode

def fromHex (hex : UInt8) : Result UInt8 :=
  if 48 ≤ hex ∧ hex ≤ 57 then .ok (hex - 48)
  else if 65 ≤ hex ∧ hex ≤ 70 then .ok (hex - 55)
  else if 97 ≤ hex ∧ hex ≤ 102 then .ok (hex - 87)
  else .error (.illegalArgument "Invalid hex character")

structure Decoder where
  token : List UInt8
  takeNext : Bool
  takeNextTwo : Nat
  decoded : UInt8

def backslash : UInt8 := 92

/-- One turn of the loop. Two digits of four bits do not overflow. -/
def decodeByte (d : Decoder) (c : UInt8) : Result Decoder :=
  if d.takeNextTwo = 1 then do
    let digit ← fromHex c
    return { d with decoded := digit <<< 4, takeNextTwo := 2 }
  else if d.takeNextTwo = 2 then do
    let decoded := d.decoded + (← fromHex c)
    return { d with decoded, token := d.token ++ [decoded], takeNextTwo := 0 }
  else if c ≠ backslash ∨ d.takeNext then
    if d.takeNext ∧ (c = 120 ∨ c = 88) then
      return { d with takeNextTwo := 1, takeNext := false }
    else return { d with token := d.token ++ [c], takeNext := false }
  else return { d with takeNext := true }

def decodeBytes (d : Decoder) (item : List UInt8) : Result Decoder := item.foldlM decodeByte d

end StrDecode

open StrDecode

def strDecode (item : Text) : Result (List UInt8) := do
  let d ← decodeBytes ⟨[], false, 0, 0⟩ (encode item)
  return d.token

/-! ## The grammar -/

namespace StrDecode

/-- What makes of an escape one with two digits. -/
def IsMark (c : Char) : Prop := c = 'x' ∨ c = 'X'

/-- The bytes that a text of whole escapes and plain characters stands for. -/
inductive Reads : Text → List UInt8 → Prop
  | nil : Reads [] []
  | plain {c : Char} {item : Text} {token : List UInt8} (hc : c ≠ '\\') (h : Reads item token) :
      Reads (c :: item) (String.utf8EncodeChar c ++ token)
  | escape {c : Char} {item : Text} {token : List UInt8} (hc : ¬IsMark c)
      (h : Reads item token) : Reads ('\\' :: c :: item) (String.utf8EncodeChar c ++ token)
  | hex {x a b : Char} {high low : Nat} {item : Text} {token : List UInt8} (hx : IsMark x)
      (ha : toDigit 16 a = some high) (hb : toDigit 16 b = some low) (h : Reads item token) :
      Reads ('\\' :: x :: a :: b :: item) (UInt8.ofNat (16 * high + low) :: token)

/-- An escape that is cut off. -/
inductive Truncated : Text → Prop
  | backslash : Truncated ['\\']
  | mark {x : Char} (hx : IsMark x) : Truncated ['\\', x]
  | digit {x a : Char} {high : Nat} (hx : IsMark x) (ha : toDigit 16 a = some high) :
      Truncated ['\\', x, a]

/-- An escape with something else for a digit, and what follows it. -/
inductive Malformed : Text → Prop
  | first {x a : Char} {rest : Text} (hx : IsMark x) (ha : toDigit 16 a = none) :
      Malformed ('\\' :: x :: a :: rest)
  | second {x a b : Char} {high : Nat} {rest : Text} (hx : IsMark x)
      (ha : toDigit 16 a = some high) (hb : toDigit 16 b = none) :
      Malformed ('\\' :: x :: a :: b :: rest)

/-- Behind a backslash there is an escape, whole or not. -/
theorem escape_cases (item : Text) :
    Truncated ('\\' :: item) ∨ Malformed ('\\' :: item) ∨
      ∃ escape rest read, item = escape ++ rest ∧
        ∀ pre token, Reads pre token → Reads ('\\' :: (escape ++ pre)) (read ++ token) := by
  match item with
  | [] => exact .inl .backslash
  | x :: item =>
      by_cases hx : IsMark x
      · match item with
        | [] => exact .inl (.mark hx)
        | [a] =>
            cases ha : toDigit 16 a with
            | none => exact .inr (.inl (.first hx ha))
            | some high => exact .inl (.digit hx ha)
        | a :: b :: rest =>
            cases ha : toDigit 16 a with
            | none => exact .inr (.inl (.first hx ha))
            | some high =>
                cases hb : toDigit 16 b with
                | none => exact .inr (.inl (.second hx ha hb))
                | some low =>
                    exact .inr (.inr ⟨[x, a, b], rest, [UInt8.ofNat (16 * high + low)], rfl,
                      fun _ _ h => .hex hx ha hb h⟩)
      · exact .inr (.inr ⟨[x], item, String.utf8EncodeChar x, rfl,
          fun _ _ h => .escape hx h⟩)

/-- Every item is read up to its end, or to an escape that is not whole. -/
theorem exists_reads (item : Text) :
    ∃ pre token tail, item = pre ++ tail ∧ Reads pre token ∧
      (tail = [] ∨ Truncated tail ∨ Malformed tail) := by
  induction hn : item.length using Nat.strong_induction_on generalizing item with
  | _ n ih =>
      subst hn
      cases item with
      | nil => exact ⟨[], [], [], rfl, .nil, .inl rfl⟩
      | cons c item =>
          by_cases hc : c = '\\'
          · subst hc
            rcases escape_cases item with htail | htail | ⟨escape, rest, read, rfl, hreads⟩
            · exact ⟨[], [], _, rfl, .nil, .inr (.inl htail)⟩
            · exact ⟨[], [], _, rfl, .nil, .inr (.inr htail)⟩
            · have hlt : rest.length < ('\\' :: (escape ++ rest)).length := by
                rw [List.length_cons, List.length_append]
                omega
              obtain ⟨pre, token, tail, rfl, hpre, htail⟩ := ih rest.length hlt rest rfl
              refine ⟨_, read ++ token, tail, ?_, hreads pre token hpre, htail⟩
              rw [List.cons_append, List.append_assoc]
          · obtain ⟨pre, token, tail, rfl, hpre, htail⟩ :=
              ih item.length (Nat.lt_succ_self _) item rfl
            exact ⟨_, _, tail, rfl, .plain hc hpre, htail⟩

/-! ## Characters as bytes -/

theorem utf8EncodeChar_cases (c : Char) :
    (c.toNat < 128 ∧ String.utf8EncodeChar c = [UInt8.ofNat c.toNat]) ∨
      (128 ≤ c.toNat ∧ ∀ b ∈ String.utf8EncodeChar c, 128 ≤ b.toNat) := by
  rw [String.utf8EncodeChar]
  have htoNat : c.val.toNat = c.toNat := rfl
  simp only [htoNat]
  split
  · exact .inl ⟨by omega, rfl⟩
  · refine .inr ⟨by omega, ?_⟩
    repeat' split
    all_goals
      simp only [List.mem_cons, List.not_mem_nil, or_false]
      intro b hb
      rcases hb with rfl | rfl | rfl | rfl <;>
        simp only [UInt8.toNat_ofNat'] <;> omega

/-- A byte of ASCII is written for its own character only. -/
theorem mem_utf8EncodeChar {b : UInt8} {c : Char} (hb : b.toNat < 128) :
    b ∈ String.utf8EncodeChar c ↔ c.toNat = b.toNat := by
  rcases utf8EncodeChar_cases c with ⟨hlt, heq⟩ | ⟨hle, hbytes⟩
  · rw [heq, List.mem_singleton, ← UInt8.toNat_inj, UInt8.toNat_ofNat']
    omega
  · constructor
    · intro hmem
      have := hbytes b hmem
      omega
    · omega

theorem backslash_not_mem {c : Char} (h : c ≠ '\\') : backslash ∉ String.utf8EncodeChar c := by
  rw [mem_utf8EncodeChar (by decide)]
  exact fun heq => h (Char.toNat_inj.mp heq)

theorem fromHex_ascii : ∀ n : Fin 128,
    fromHex (UInt8.ofNat n) =
      match toDigit 16 (Char.ofNat n) with
      | some d => .ok (UInt8.ofNat d)
      | none => .error (.illegalArgument "Invalid hex character") := by
  decide +kernel

theorem fromHex_of_le {b : UInt8} (h : 128 ≤ b.toNat) :
    fromHex b = .error (.illegalArgument "Invalid hex character") := by
  simp only [fromHex, UInt8.le_iff_toNat_le, UInt8.reduceToNat]
  rw [if_neg (by omega), if_neg (by omega), if_neg (by omega)]

theorem encode_digit {a : Char} {d : Nat} (h : toDigit 16 a = some d) :
    ∃ b, String.utf8EncodeChar a = [b] ∧ fromHex b = .ok (UInt8.ofNat d) := by
  rcases utf8EncodeChar_cases a with ⟨hlt, heq⟩ | ⟨hle, -⟩
  · refine ⟨_, heq, ?_⟩
    have hhex := fromHex_ascii ⟨a.toNat, hlt⟩
    rwa [Char.ofNat_toNat, h] at hhex
  · rw [toDigit] at h
    grind

theorem encode_not_digit {a : Char} (h : toDigit 16 a = none) :
    ∃ b bytes, String.utf8EncodeChar a = b :: bytes ∧
      fromHex b = .error (.illegalArgument "Invalid hex character") := by
  rcases utf8EncodeChar_cases a with ⟨hlt, heq⟩ | ⟨hle, hbytes⟩
  · refine ⟨_, [], heq, ?_⟩
    have hhex := fromHex_ascii ⟨a.toNat, hlt⟩
    rwa [Char.ofNat_toNat, h] at hhex
  · obtain ⟨b, bytes, heq⟩ := List.exists_cons_of_ne_nil (String.utf8EncodeChar_ne_nil (c := a))
    exact ⟨b, bytes, heq, fromHex_of_le (hbytes b (heq ▸ List.mem_cons_self))⟩

/-! ## The loop reads characters -/

section

variable {d d' : Decoder} {c : UInt8} {bytes token : List UInt8} {decoded : UInt8}

theorem decodeBytes_cons (h : decodeByte d c = .ok d') :
    decodeBytes d (c :: bytes) = decodeBytes d' bytes := by
  rw [decodeBytes, List.foldlM_cons, h]
  rfl

theorem decodeBytes_cons_error {e : Error} (h : decodeByte d c = .error e) :
    decodeBytes d (c :: bytes) = .error e := by
  rw [decodeBytes, List.foldlM_cons, h]
  rfl

theorem decodeByte_plain (h : c ≠ backslash) :
    decodeByte ⟨token, false, 0, decoded⟩ c = .ok ⟨token ++ [c], false, 0, decoded⟩ := by
  simp [decodeByte, h]
  rfl

theorem decodeBytes_plain {pre : List UInt8} (h : backslash ∉ pre) :
    decodeBytes ⟨token, false, 0, decoded⟩ (pre ++ bytes) =
      decodeBytes ⟨token ++ pre, false, 0, decoded⟩ bytes := by
  induction pre generalizing token with
  | nil => rw [List.nil_append, List.append_nil]
  | cons b pre ih =>
      rw [List.mem_cons, not_or] at h
      rw [List.cons_append, decodeBytes_cons (decodeByte_plain (Ne.symm h.1)), ih h.2,
        List.append_assoc, List.singleton_append]

theorem decodeBytes_backslash :
    decodeBytes ⟨token, false, 0, decoded⟩ (backslash :: bytes) =
      decodeBytes ⟨token, true, 0, decoded⟩ bytes :=
  decodeBytes_cons rfl

theorem decodeBytes_mark {x : Char} (hx : IsMark x) :
    decodeBytes ⟨token, true, 0, decoded⟩ (String.utf8EncodeChar x ++ bytes) =
      decodeBytes ⟨token, false, 1, decoded⟩ bytes := by
  rcases hx with rfl | rfl
  · exact decodeBytes_cons rfl
  · exact decodeBytes_cons rfl

theorem decodeBytes_escape {c : Char} (hc : ¬IsMark c) :
    decodeBytes ⟨token, true, 0, decoded⟩ (String.utf8EncodeChar c ++ bytes) =
      decodeBytes ⟨token ++ String.utf8EncodeChar c, false, 0, decoded⟩ bytes := by
  have hfirst {b : UInt8} (hb : b ∈ String.utf8EncodeChar c) :
      decodeByte ⟨token, true, 0, decoded⟩ b = .ok ⟨token ++ [b], false, 0, decoded⟩ := by
    have hmark : ¬(b = 120 ∨ b = 88) := by
      rintro (rfl | rfl)
      · exact hc (.inl (Char.toNat_inj.mp ((mem_utf8EncodeChar (by decide)).mp hb)))
      · exact hc (.inr (Char.toNat_inj.mp ((mem_utf8EncodeChar (by decide)).mp hb)))
    simp [decodeByte, hmark]
    rfl
  rcases utf8EncodeChar_cases c with ⟨-, heq⟩ | ⟨-, hbytes⟩
  · rw [heq, List.singleton_append]
    exact decodeBytes_cons (hfirst (heq ▸ List.mem_cons_self))
  · obtain ⟨b, rest, heq⟩ := List.exists_cons_of_ne_nil (String.utf8EncodeChar_ne_nil (c := c))
    have hrest : backslash ∉ rest := fun hmem =>
      absurd (hbytes backslash (heq ▸ List.mem_cons_of_mem b hmem)) (by decide)
    rw [heq, List.cons_append, decodeBytes_cons (hfirst (heq ▸ List.mem_cons_self)),
      decodeBytes_plain hrest, List.append_assoc, List.singleton_append]

theorem decodeBytes_first {a : Char} {high : Nat} (ha : toDigit 16 a = some high) :
    decodeBytes ⟨token, false, 1, decoded⟩ (String.utf8EncodeChar a ++ bytes) =
      decodeBytes ⟨token, false, 2, UInt8.ofNat high <<< 4⟩ bytes := by
  obtain ⟨b, heq, hhex⟩ := encode_digit ha
  rw [heq]
  refine decodeBytes_cons ?_
  simp [decodeByte, hhex]

theorem decodeBytes_second {b : Char} {low : Nat} (hb : toDigit 16 b = some low) :
    decodeBytes ⟨token, false, 2, decoded⟩ (String.utf8EncodeChar b ++ bytes) =
      decodeBytes ⟨token ++ [decoded + UInt8.ofNat low], false, 0, decoded + UInt8.ofNat low⟩
        bytes := by
  obtain ⟨c, heq, hhex⟩ := encode_digit hb
  rw [heq]
  refine decodeBytes_cons ?_
  simp [decodeByte, hhex]

theorem decodeBytes_not_digit {a : Char} (ha : toDigit 16 a = none) {takeNextTwo : Nat}
    (htwo : takeNextTwo = 1 ∨ takeNextTwo = 2) :
    decodeBytes ⟨token, false, takeNextTwo, decoded⟩ (String.utf8EncodeChar a ++ bytes) =
      .error (.illegalArgument "Invalid hex character") := by
  obtain ⟨b, rest, heq, hhex⟩ := encode_not_digit ha
  rw [heq]
  refine decodeBytes_cons_error ?_
  rcases htwo with rfl | rfl
  · simp [decodeByte, hhex]
  · simp [decodeByte, hhex]

end

theorem toDigit_lt {radix d : Nat} {c : Char} (h : toDigit radix c = some d) : d < radix := by
  rw [toDigit] at h
  exact of_decide_eq_true (Option.filter_eq_some_iff.mp h).2

theorem nibbles : ∀ high low : Fin 16,
    UInt8.ofNat high <<< 4 + UInt8.ofNat low = UInt8.ofNat (16 * high + low) := by
  decide +kernel

/-! ## What is decoded -/

theorem encode_backslash (item : Text) : encode ('\\' :: item) = backslash :: encode item := rfl

theorem Reads.decodeBytes {pre : Text} {read : List UInt8} (h : Reads pre read)
    (token : List UInt8) (decoded : UInt8) (bytes : List UInt8) :
    ∃ decoded', decodeBytes ⟨token, false, 0, decoded⟩ (encode pre ++ bytes) =
      decodeBytes ⟨token ++ read, false, 0, decoded'⟩ bytes := by
  induction h generalizing token decoded with
  | nil => exact ⟨decoded, by rw [List.append_nil]; rfl⟩
  | @plain c item read hc _ ih =>
      obtain ⟨decoded', hrest⟩ := ih (token ++ String.utf8EncodeChar c) decoded
      refine ⟨decoded', ?_⟩
      rw [encode_cons, List.append_assoc, decodeBytes_plain (backslash_not_mem hc), hrest,
        List.append_assoc]
  | @escape c item read hc _ ih =>
      obtain ⟨decoded', hrest⟩ := ih (token ++ String.utf8EncodeChar c) decoded
      refine ⟨decoded', ?_⟩
      rw [encode_backslash, encode_cons, List.cons_append, List.append_assoc,
        decodeBytes_backslash, decodeBytes_escape hc, hrest, List.append_assoc]
  | @hex x a b high low item read hx ha hb _ ih =>
      obtain ⟨decoded', hrest⟩ := ih (token ++ [UInt8.ofNat (16 * high + low)])
        (UInt8.ofNat (16 * high + low))
      refine ⟨decoded', ?_⟩
      have hvalue : UInt8.ofNat high <<< 4 + UInt8.ofNat low = UInt8.ofNat (16 * high + low) :=
        nibbles ⟨high, toDigit_lt ha⟩ ⟨low, toDigit_lt hb⟩
      rw [encode_backslash, encode_cons, encode_cons, encode_cons, List.cons_append,
        List.append_assoc, List.append_assoc, List.append_assoc, decodeBytes_backslash,
        decodeBytes_mark hx, decodeBytes_first ha, decodeBytes_second hb, hvalue, hrest,
        List.append_assoc, List.singleton_append]

/-- What a cut escape leaves is not the state between two characters. -/
theorem Truncated.decodeBytes {tail : Text} (h : Truncated tail) (token : List UInt8)
    (decoded : UInt8) :
    ∃ d, decodeBytes ⟨token, false, 0, decoded⟩ (encode tail) = .ok d ∧ d.token = token ∧
      (d.takeNext = true ∨ d.takeNextTwo ≠ 0) := by
  cases h with
  | backslash => exact ⟨_, rfl, rfl, .inl rfl⟩
  | @mark x hx =>
      refine ⟨⟨token, false, 1, decoded⟩, ?_, rfl, .inr Nat.one_ne_zero⟩
      exact decodeBytes_backslash.trans (decodeBytes_mark hx)
  | @digit x a high hx ha =>
      refine ⟨⟨token, false, 2, UInt8.ofNat high <<< 4⟩, ?_, rfl, .inr (Nat.succ_ne_zero 1)⟩
      exact decodeBytes_backslash.trans ((decodeBytes_mark hx).trans (decodeBytes_first ha))

theorem Malformed.decodeBytes {tail : Text} (h : Malformed tail) (token : List UInt8)
    (decoded : UInt8) :
    decodeBytes ⟨token, false, 0, decoded⟩ (encode tail) =
      .error (.illegalArgument "Invalid hex character") := by
  cases h with
  | first hx ha =>
      exact decodeBytes_backslash.trans
        ((decodeBytes_mark hx).trans (decodeBytes_not_digit ha (.inl rfl)))
  | second hx ha hb =>
      exact decodeBytes_backslash.trans ((decodeBytes_mark hx).trans
        ((decodeBytes_first ha).trans (decodeBytes_not_digit hb (.inr rfl))))

end StrDecode

theorem strDecode_of_reads {item : Text} {token : List UInt8} (h : Reads item token) :
    strDecode item = .ok token := by
  obtain ⟨decoded, hrun⟩ := h.decodeBytes [] 0 []
  rw [List.append_nil] at hrun
  rw [strDecode, hrun]
  rfl

/-- The item ends within an escape. -/
def EndsInEscape (item : Text) : Prop :=
  ∃ pre token tail, item = pre ++ tail ∧ Reads pre token ∧ Truncated tail

/-- Such an escape is dropped. -/
theorem strDecode_of_truncated {pre tail : Text} {token : List UInt8} (h : Reads pre token)
    (htail : Truncated tail) : strDecode (pre ++ tail) = .ok token := by
  obtain ⟨decoded, hrun⟩ := h.decodeBytes [] 0 (encode tail)
  obtain ⟨d, htruncated, htoken, -⟩ := htail.decodeBytes token decoded
  rw [strDecode, encode_append, hrun, List.nil_append, htruncated]
  exact congrArg _ htoken

theorem strDecode_of_malformed {pre tail : Text} {token : List UInt8} (h : Reads pre token)
    (htail : Malformed tail) :
    strDecode (pre ++ tail) = .error (.illegalArgument "Invalid hex character") := by
  obtain ⟨decoded, hrun⟩ := h.decodeBytes [] 0 (encode tail)
  rw [strDecode, encode_append, hrun, htail.decodeBytes]
  rfl

/-- What ends within an escape is not a text of whole ones. -/
theorem not_reads_of_endsInEscape {item : Text} {token : List UInt8} (h : EndsInEscape item) :
    ¬Reads item token := by
  rintro hreads
  obtain ⟨pre, read, tail, rfl, hpre, htail⟩ := h
  obtain ⟨decoded, hwhole⟩ := hreads.decodeBytes [] 0 []
  obtain ⟨decoded', hrun⟩ := hpre.decodeBytes [] 0 (encode tail)
  obtain ⟨d, htruncated, -, hstate⟩ := htail.decodeBytes read decoded'
  rw [List.append_nil, encode_append, hrun, List.nil_append, htruncated] at hwhole
  obtain rfl := Except.ok.inj hwhole
  rcases hstate with hstate | hstate
  · exact Bool.false_ne_true hstate
  · exact hstate rfl

/-- The item is decoded exactly when it is of the grammar, to the bytes that
it stands for. -/
def DecodesGrammar (item : Text) : Prop := ∀ token, strDecode item = .ok token ↔ Reads item token

theorem decodesGrammar_iff (item : Text) : DecodesGrammar item ↔ ¬EndsInEscape item := by
  constructor
  · intro h hends
    obtain ⟨pre, token, tail, rfl, hpre, htail⟩ := id hends
    exact not_reads_of_endsInEscape hends ((h token).mp (strDecode_of_truncated hpre htail))
  · intro h token
    refine ⟨fun hdecode => ?_, strDecode_of_reads⟩
    obtain ⟨pre, read, tail, rfl, hpre, rfl | htail | htail⟩ := exists_reads item
    · rw [List.append_nil] at hdecode ⊢
      obtain rfl := Except.ok.inj ((strDecode_of_reads hpre).symm.trans hdecode)
      exact hpre
    · exact absurd ⟨pre, read, tail, rfl, hpre, htail⟩ h
    · rw [strDecode_of_malformed hpre htail] at hdecode
      cases hdecode

/-! ## Escaping -/

namespace StrDecode

/-- A byte as two digits, unless it is to be kept and stands for itself. -/
def escapeByte (keep : UInt8 → Bool) (b : UInt8) : Text :=
  if keep b ∧ b < 128 ∧ b ≠ backslash then [Char.ofNat b.toNat]
  else ['\\', 'x', Nat.digitChar (b.toNat / 16), Nat.digitChar (b.toNat % 16)]

def escaped (keep : UInt8 → Bool) (token : List UInt8) : Text := token.flatMap (escapeByte keep)

theorem reads_escapeByte (keep : UInt8 → Bool) (b : UInt8) {item : Text} {token : List UInt8}
    (h : Reads item token) : Reads (escapeByte keep b ++ item) (b :: token) := by
  rw [escapeByte]
  split
  · next hkeep =>
      obtain ⟨-, hlt, hne⟩ := hkeep
      have hvalue : (Char.ofNat b.toNat).toNat = b.toNat :=
        LossyText.toNat_ofNat_of_lt hlt
      have hc : Char.ofNat b.toNat ≠ '\\' := fun heq => by
        rw [heq] at hvalue
        exact hne (UInt8.toNat_inj.mp hvalue.symm)
      have hbytes : String.utf8EncodeChar (Char.ofNat b.toNat) = [b] := by
        rcases utf8EncodeChar_cases (Char.ofNat b.toNat) with ⟨-, heq⟩ | ⟨hle, -⟩
        · rw [heq, hvalue, UInt8.ofNat_toNat]
        · rw [hvalue] at hle
          exact absurd hle (Nat.not_le.mpr hlt)
      have hplain := Reads.plain hc h
      rwa [hbytes] at hplain
  · have hlt := b.toNat_lt
    have hhigh := toDigit_digitChar ⟨b.toNat / 16, by omega⟩
    have hlow := toDigit_digitChar ⟨b.toNat % 16, by omega⟩
    have hhex := Reads.hex (.inl rfl) hhigh hlow h
    rwa [Nat.div_add_mod, UInt8.ofNat_toNat] at hhex

theorem reads_escaped (keep : UInt8 → Bool) (token : List UInt8) :
    Reads (escaped keep token) token := by
  induction token with
  | nil => exact .nil
  | cons b token ih => exact reads_escapeByte keep b ih

end StrDecode

/-- **Escapes are decoded as they are read**, unless the item ends within one;
and what was escaped is decoded to what it was. -/
theorem strDecode_grammar (item : Text) (keep : UInt8 → Bool) (token : List UInt8) :
    (DecodesGrammar item ↔ ¬EndsInEscape item) ∧ strDecode (escaped keep token) = .ok token :=
  ⟨decodesGrammar_iff item, strDecode_of_reads (reads_escaped keep token)⟩

/-- The escape that ends after one digit is dropped. -/
theorem strDecode_drops_escape : ¬DecodesGrammar ['a', '\\', 'x', '4'] := by
  intro h
  refine (decodesGrammar_iff _).mp h ?_
  exact ⟨['a'], _, _, rfl, .plain (by decide) .nil, .digit (.inl rfl) rfl⟩

end Libaflmm
