import Mathlib.Tactic.Common

/-!
# Lines of text with fields

Text is a list of characters, and a file a list of bytes. Lines are read up to
and with their end; fields are split at a separator, trimmed, and parsed as
numbers. What was written as a number is parsed as that number, and a separator
splits text behind the first field when the field has no part of it.
-/

namespace Libaflmm

abbrev Text := List Char

namespace Text

/-! ## Splitting -/

def consHead (c : Char) : List Text → List Text
  | [] => [[c]]
  | piece :: pieces => (c :: piece) :: pieces

/-- The pieces of the text after the first `skip` characters. -/
def splitSkip (separator : Text) : Nat → Text → List Text
  | _, [] => [[]]
  | skip + 1, _ :: text => splitSkip separator skip text
  | 0, c :: text =>
    if separator.isPrefixOf (c :: text) then
      [] :: splitSkip separator (separator.length - 1) text
    else consHead c (splitSkip separator 0 text)

/-- `str::split` -/
def split (separator text : Text) : List Text := splitSkip separator 0 text

theorem splitSkip_append (separator a b : Text) :
    splitSkip separator a.length (a ++ b) = splitSkip separator 0 b := by
  induction a with
  | nil => rfl
  | cons c a ih => exact ih

/-- A separator splits behind a field that has no first character of it. -/
theorem split_behind {c : Char} {a : Text} (h : c ∉ a) (separator b : Text) :
    split (c :: separator) (a ++ (c :: separator ++ b)) = a :: split (c :: separator) b := by
  induction a with
  | nil =>
      have hprefix : (c :: separator).isPrefixOf (c :: (separator ++ b)) = true := by
        rw [List.isPrefixOf_iff_prefix]
        exact List.prefix_append (c :: separator) b
      rw [split, List.nil_append, List.cons_append, splitSkip, if_pos hprefix]
      exact congrArg _ (splitSkip_append _ separator b)
  | cons d a ih =>
      have hne : ¬ (c :: separator).isPrefixOf (d :: (a ++ (c :: separator ++ b))) = true := by
        rw [List.isPrefixOf_iff_prefix, List.cons_prefix_cons]
        rintro ⟨rfl, -⟩
        exact h List.mem_cons_self
      rw [split, List.cons_append, splitSkip, if_neg hne]
      have hrest := ih fun hmem => h (List.mem_cons_of_mem d hmem)
      rw [split] at hrest
      rw [hrest]
      rfl

theorem split_eq_self {separator text : Text} (h : ¬ separator <:+: text) :
    split separator text = [text] := by
  induction text with
  | nil => rfl
  | cons c text ih =>
      rw [List.infix_cons_iff, not_or] at h
      have hne : ¬ separator.isPrefixOf (c :: text) = true := by
        rw [List.isPrefixOf_iff_prefix]
        exact h.1
      have hrest := ih h.2
      rw [split] at hrest
      rw [split, splitSkip, if_neg hne, hrest]
      rfl

/-- The first piece ends before the separator. -/
theorem exists_split {separator text : Text} (hne : separator ≠ []) (h : separator <:+: text) :
    ∃ piece pieces, split separator text = piece :: pieces ∧
      piece.length + separator.length ≤ text.length := by
  induction text with
  | nil => exact absurd (List.infix_nil.mp h) hne
  | cons c text ih =>
      rw [split, splitSkip]
      by_cases hprefix : separator.isPrefixOf (c :: text) = true
      · rw [if_pos hprefix]
        refine ⟨[], _, rfl, ?_⟩
        have hle := (List.isPrefixOf_iff_prefix.mp hprefix).length_le
        simpa using hle
      · rw [if_neg hprefix]
        have hinfix := (List.infix_cons_iff.mp h).resolve_left
          (mt List.isPrefixOf_iff_prefix.mpr hprefix)
        obtain ⟨piece, pieces, hsplit, hle⟩ := ih hinfix
        rw [split] at hsplit
        rw [hsplit]
        refine ⟨c :: piece, pieces, rfl, ?_⟩
        rw [List.length_cons, List.length_cons]
        omega

/-! ## Trimming -/

/-- `char::is_whitespace` -/
def isWhitespace (c : Char) : Bool :=
  let n := c.toNat
  (0x9 ≤ n && n ≤ 0xD) || n = 0x20 || n = 0x85 || n = 0xA0 || n = 0x1680 ||
    (0x2000 ≤ n && n ≤ 0x200A) || n = 0x2028 || n = 0x2029 || n = 0x202F || n = 0x205F || n = 0x3000

/-- `str::trim` -/
def trim (text : Text) : Text :=
  ((text.dropWhile isWhitespace).reverse.dropWhile isWhitespace).reverse

theorem length_trim_le (text : Text) : (trim text).length ≤ text.length := by
  rw [trim, List.length_reverse]
  have hinner := (List.dropWhile_sublist isWhitespace (l := text)).length_le
  have houter := (List.dropWhile_sublist isWhitespace
    (l := (text.dropWhile isWhitespace).reverse)).length_le
  rw [List.length_reverse] at houter
  exact Nat.le_trans houter hinner

theorem trim_append_whitespace {c : Char} (h : isWhitespace c = true) (text : Text) :
    trim (text ++ [c]) = trim text := by
  rw [trim, trim, List.dropWhile_append]
  split
  · next hnil =>
      rw [List.isEmpty_iff] at hnil
      simp [hnil, h]
  · rw [List.reverse_append, List.reverse_singleton, List.singleton_append,
      List.dropWhile_cons_of_pos h]

theorem trim_of_forall {text : Text} (h : ∀ c ∈ text, isWhitespace c = false) :
    trim text = text := by
  have hdrop : ∀ l : Text, (∀ c ∈ l, isWhitespace c = false) → l.dropWhile isWhitespace = l := by
    intro l hl
    cases l with
    | nil => rfl
    | cons c l =>
        rw [List.dropWhile_cons_of_neg]
        simp [hl c List.mem_cons_self]
  rw [trim, hdrop text h, hdrop _ fun c hc => h c (List.mem_reverse.mp hc), List.reverse_reverse]

/-! ## Numbers -/

/-- `char::to_digit` -/
def toDigit (radix : Nat) (c : Char) : Option Nat :=
  let n := c.toNat
  let d := if 48 ≤ n ∧ n ≤ 57 then some (n - 48)
    else if 97 ≤ n ∧ n ≤ 122 then some (n - 97 + 10)
    else if 65 ≤ n ∧ n ≤ 90 then some (n - 65 + 10)
    else none
  d.filter (· < radix)

def parseDigits (radix bound : Nat) : Nat → Text → Option Nat
  | n, [] => some n
  | n, c :: text =>
    (toDigit radix c).bind fun d =>
      if n * radix + d < bound then parseDigits radix bound (n * radix + d) text else none

/-- `from_str_radix` of an unsigned integer. -/
def parseNat (radix bound : Nat) : Text → Option Nat
  | [] => none
  | ['+'] => none
  | '+' :: text => parseDigits radix bound 0 text
  | text => parseDigits radix bound 0 text

theorem toDigit_digitChar : ∀ d : Fin 16, toDigit 16 (Nat.digitChar d) = some d.val := by decide

theorem toDigit_digitChar_ten : ∀ d : Fin 10, toDigit 10 (Nat.digitChar d) = some d.val := by
  decide

theorem toDigit_of_isDigit {c : Char} (h : c.isDigit = true) :
    toDigit 10 c = some (c.toNat - 48) := by
  have hrange : 48 ≤ c.toNat ∧ c.toNat ≤ 57 := by
    simpa [Char.isDigit, UInt32.le_iff_toNat_le] using h
  have hlt : c.toNat - 48 < 10 := by omega
  simp [toDigit, hrange, hlt]

theorem isDigit_of_toDigit {c : Char} {d : Nat} (h : toDigit 10 c = some d) :
    c.isDigit = true := by
  unfold toDigit at h
  obtain ⟨hsome, hlt⟩ := Option.filter_eq_some_iff.mp h
  have hlt := of_decide_eq_true hlt
  simp only [Char.isDigit, ge_iff_le, UInt32.le_iff_toNat_le, Bool.and_eq_true, decide_eq_true_eq]
  split at hsome
  · next hrange => exact hrange
  · split at hsome
    · cases hsome
      omega
    · split at hsome
      · cases hsome
        omega
      · cases hsome

theorem isSome_toDigit {c : Char} : (toDigit 10 c).isSome = true ↔ c.isDigit = true := by
  constructor
  · intro h
    obtain ⟨d, hd⟩ := Option.isSome_iff_exists.mp h
    exact isDigit_of_toDigit hd
  · exact fun h => Option.isSome_of_eq_some (toDigit_of_isDigit h)

theorem toDigit_lt {radix : Nat} {c : Char} {d : Nat} (h : toDigit radix c = some d) :
    d < radix := of_decide_eq_true (Option.filter_eq_some_iff.mp h).2

theorem parseDigits_append (radix bound n : Nat) (a b : Text) :
    parseDigits radix bound n (a ++ b) =
      (parseDigits radix bound n a).bind fun m => parseDigits radix bound m b := by
  induction a generalizing n with
  | nil => rfl
  | cons c a ih =>
      rw [List.cons_append, parseDigits, parseDigits]
      cases toDigit radix c with
      | none => rfl
      | some d =>
          dsimp only [Option.bind_some]
          split
          · exact ih _
          · rfl

theorem parseDigits_toDigits {radix bound n : Nat} (hradix : 1 < radix)
    (hdigit : ∀ d < radix, toDigit radix (Nat.digitChar d) = some d) (hn : n < bound) :
    parseDigits radix bound 0 (Nat.toDigits radix n) = some n := by
  induction n using Nat.strongRecOn with
  | ind n ih =>
      rw [Nat.toDigits_eq_if hradix]
      split
      · next hlt => simp [parseDigits, hdigit n hlt, hn]
      · next hle =>
          have hpos : 0 < n := by omega
          have hdiv : n / radix < n := Nat.div_lt_self hpos hradix
          have hmod : n % radix < radix := Nat.mod_lt n (by omega)
          have hvalue : n / radix * radix + n % radix = n := by
            rw [Nat.mul_comm]
            exact Nat.div_add_mod n radix
          rw [parseDigits_append, ih (n / radix) hdiv (Nat.lt_trans hdiv hn)]
          simp [parseDigits, hdigit _ hmod, hvalue, hn]

theorem mem_toDigits {radix n : Nat} (hradix : 1 < radix) {c : Char}
    (h : c ∈ Nat.toDigits radix n) : ∃ d < radix, c = Nat.digitChar d := by
  induction n using Nat.strongRecOn with
  | ind n ih =>
      rw [Nat.toDigits_eq_if hradix] at h
      split at h
      · next hlt => exact ⟨n, hlt, List.mem_singleton.mp h⟩
      · next hle =>
          rcases List.mem_append.mp h with h | h
          · exact ih _ (Nat.div_lt_self (by omega) hradix) h
          · exact ⟨n % radix, Nat.mod_lt n (by omega), List.mem_singleton.mp h⟩

/-- The number that the digits denote, read behind those of `n`. -/
def digitsValue (radix n : Nat) (text : Text) : Nat :=
  text.foldl (fun n c => n * radix + (toDigit radix c).getD 0) n

theorem le_digitsValue {radix : Nat} (hradix : 0 < radix) (n : Nat) (text : Text) :
    n ≤ digitsValue radix n text := by
  induction text generalizing n with
  | nil => exact Nat.le_refl n
  | cons c text ih =>
      have hmul := Nat.le_mul_of_pos_right n hradix
      have hstep := ih (n * radix + (toDigit radix c).getD 0)
      rw [digitsValue, List.foldl_cons, ← digitsValue]
      omega

/-- Digits are parsed if the number that they denote is less than the bound. -/
theorem parseDigits_eq_some_iff {radix bound n m : Nat} (hradix : 0 < radix) {text : Text}
    (hn : n < bound) : parseDigits radix bound n text = some m ↔
      (∀ c ∈ text, (toDigit radix c).isSome) ∧ digitsValue radix n text = m ∧ m < bound := by
  induction text generalizing n with
  | nil =>
      constructor
      · rintro h
        cases h
        exact ⟨nofun, rfl, hn⟩
      · rintro ⟨-, rfl, -⟩
        rfl
  | cons c text ih =>
      rw [parseDigits, digitsValue, List.foldl_cons, ← digitsValue, List.forall_mem_cons]
      cases hc : toDigit radix c with
      | none => simp
      | some d =>
          rw [Option.bind_some, Option.getD_some]
          by_cases hlt : n * radix + d < bound
          · rw [if_pos hlt, ih hlt]
            simp only [Option.isSome_some, true_and]
          · rw [if_neg hlt]
            refine iff_of_false nofun ?_
            rintro ⟨-, rfl, hbound⟩
            exact hlt (Nat.lt_of_le_of_lt (le_digitsValue hradix _ text) hbound)

/-- No digit is a sign, a separator or a blank. -/
def IsPlain (c : Char) : Prop := c ≠ '+' ∧ c ≠ ',' ∧ c ≠ '\n' ∧ isWhitespace c = false

theorem isPlain_digitChar : ∀ d : Fin 16, IsPlain (Nat.digitChar d) := by
  unfold IsPlain
  decide

theorem isPlain_of_mem_toDigits {radix n : Nat} (hradix : 1 < radix) (hle : radix ≤ 16) {c : Char}
    (h : c ∈ Nat.toDigits radix n) : IsPlain c := by
  obtain ⟨d, hd, rfl⟩ := mem_toDigits hradix h
  exact isPlain_digitChar ⟨d, Nat.lt_of_lt_of_le hd hle⟩

theorem parseNat_of_unsigned {radix bound : Nat} {text : Text} (hne : text ≠ [])
    (h : '+' ∉ text) : parseNat radix bound text = parseDigits radix bound 0 text := by
  cases text with
  | nil => exact absurd rfl hne
  | cons c text =>
      have hc : c ≠ '+' := fun heq => h (heq ▸ List.mem_cons_self)
      rw [parseNat]
      · exact nofun
      · exact fun heq => hc (List.cons.inj heq).1
      · exact fun rest heq => hc (List.cons.inj heq).1

theorem parseNat_of_isPlain {radix bound : Nat} {text : Text} (hne : text ≠ [])
    (h : ∀ c ∈ text, IsPlain c) : parseNat radix bound text = parseDigits radix bound 0 text :=
  parseNat_of_unsigned hne fun hsign => (h '+' hsign).1 rfl

theorem parseNat_toDigits {radix bound n : Nat} (hradix : 1 < radix) (hle : radix ≤ 16)
    (hdigit : ∀ d < radix, toDigit radix (Nat.digitChar d) = some d) (hn : n < bound) :
    parseNat radix bound (Nat.toDigits radix n) = some n := by
  rw [parseNat_of_isPlain Nat.toDigits_ne_nil fun c hc => isPlain_of_mem_toDigits hradix hle hc]
  exact parseDigits_toDigits hradix hdigit hn

/-- A number in decimal digits. -/
def dec (n : Nat) : Text := Nat.toDigits 10 n

/-- A number in hexadecimal digits. -/
def hex (n : Nat) : Text := Nat.toDigits 16 n

/-- A number in decimal digits, at least `width` of them. -/
def decPadded (width n : Nat) : Text := List.replicate (width - (dec n).length) '0' ++ dec n

theorem parseNat_dec {bound n : Nat} (h : n < bound) : parseNat 10 bound (dec n) = some n :=
  parseNat_toDigits (by omega) (by omega) (fun d hd => toDigit_digitChar_ten ⟨d, hd⟩) h

theorem parseNat_hex {bound n : Nat} (h : n < bound) : parseNat 16 bound (hex n) = some n :=
  parseNat_toDigits (by omega) (by omega) (fun d hd => toDigit_digitChar ⟨d, hd⟩) h

theorem isPlain_dec {n : Nat} : ∀ c ∈ dec n, IsPlain c :=
  fun _ hc => isPlain_of_mem_toDigits (by omega) (by omega) hc

theorem isPlain_hex {n : Nat} : ∀ c ∈ hex n, IsPlain c :=
  fun _ hc => isPlain_of_mem_toDigits (by omega) (by omega) hc

theorem isPlain_decPadded {width n : Nat} : ∀ c ∈ decPadded width n, IsPlain c := by
  intro c hc
  rcases List.mem_append.mp hc with hc | hc
  · rw [List.eq_of_mem_replicate hc]
    exact isPlain_digitChar 0
  · exact isPlain_dec c hc

theorem parseDigits_zeros {bound : Nat} (hbound : 0 < bound) (k : Nat) (text : Text) :
    parseDigits 10 bound 0 (List.replicate k '0' ++ text) = parseDigits 10 bound 0 text := by
  induction k with
  | zero => rfl
  | succ k ih =>
      have hzero : toDigit 10 '0' = some 0 := rfl
      rw [List.replicate_succ, List.cons_append, parseDigits, hzero]
      simpa [hbound] using ih

theorem parseNat_decPadded {width bound n : Nat} (h : n < bound) :
    parseNat 10 bound (decPadded width n) = some n := by
  have hne : decPadded width n ≠ [] := by
    rw [decPadded]
    exact fun heq => Nat.toDigits_ne_nil (List.append_eq_nil_iff.mp heq).2
  rw [parseNat_of_isPlain hne isPlain_decPadded, decPadded,
    parseDigits_zeros (Nat.lt_of_le_of_lt (Nat.zero_le n) h)]
  exact (parseNat_of_isPlain Nat.toDigits_ne_nil isPlain_dec).symm.trans (parseNat_dec h)

/-! ## Bytes -/

def encode (text : Text) : List UInt8 := text.flatMap String.utf8EncodeChar

/-- `String::from_utf8` -/
def decode (bytes : List UInt8) : Option Text := bytes.toByteArray.utf8Decode?.map Array.toList

/-- The bytes up to and with the first newline, and those behind it. -/
def splitLine : List UInt8 → List UInt8 × List UInt8
  | [] => ([], [])
  | c :: bytes => if c = 10 then ([c], bytes) else (c :: (splitLine bytes).1, (splitLine bytes).2)

theorem encode_cons (c : Char) (text : Text) :
    encode (c :: text) = String.utf8EncodeChar c ++ encode text := List.flatMap_cons

theorem encode_append (a b : Text) : encode (a ++ b) = encode a ++ encode b :=
  List.flatMap_append

theorem decode_encode (text : Text) : decode (encode text) = some text := by
  have hdecode := List.utf8Decode?_utf8Encode (l := text)
  rw [List.utf8Encode] at hdecode
  rw [decode, encode, hdecode]
  rfl

theorem newline_not_mem_encodeChar {c : Char} (h : c ≠ '\n') :
    10 ∉ String.utf8EncodeChar c := by
  have hvalue : c.val.toNat ≠ 10 := fun heq => h (Char.toNat_inj.mp heq)
  rw [String.utf8EncodeChar]
  repeat' split
  all_goals
    simp only [List.mem_cons, List.not_mem_nil, or_false, ← UInt8.toNat_inj, UInt8.toNat_ofNat',
      UInt8.reduceToNat]
    omega

theorem newline_not_mem_encode {text : Text} (h : '\n' ∉ text) : 10 ∉ encode text := by
  rw [encode, List.mem_flatMap]
  rintro ⟨c, hc, hmem⟩
  exact newline_not_mem_encodeChar (fun heq => h (heq ▸ hc)) hmem

theorem splitLine_append {line : List UInt8} (h : 10 ∉ line) (rest : List UInt8) :
    splitLine (line ++ 10 :: rest) = (line ++ [10], rest) := by
  induction line with
  | nil => rfl
  | cons c line ih =>
      rw [List.cons_append, splitLine, if_neg fun heq : c = 10 => h (heq ▸ List.mem_cons_self),
        ih fun hmem => h (List.mem_cons_of_mem c hmem)]
      rfl

/-- **A line of text is read as it was written.** -/
theorem splitLine_encode {text : Text} (h : '\n' ∉ text) (rest : List UInt8) :
    splitLine (encode (text ++ ['\n']) ++ rest) = (encode (text ++ ['\n']), rest) := by
  have hline := splitLine_append (newline_not_mem_encode h) rest
  have hnewline : encode ['\n'] = [10] := rfl
  rw [encode_append, hnewline, List.append_assoc]
  exact hline

end Text

end Libaflmm
