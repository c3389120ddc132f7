import Mathlib.Data.List.AList
import Libaflmm.Autodict
import Libaflmm.RedqueenResults
import Libaflmm.StrDecode

/-!
# Dictionary files

Each line has at most one token, in quotes. Where the item ends is looked up
among the characters of the line under an index that counts bytes, which is
the same for ASCII only.
-/

namespace Libaflmm

namespace Text

/-! ## Positions of bytes -/

/-- `str::len` -/
def byteLen (text : Text) : Nat := (encode text).length

/-- `str::find` -/
def find (c : Char) (text : Text) : Option Nat :=
  if c ∈ text then some (byteLen (text.takeWhile (· ≠ c))) else none

/-- `chars().nth` -/
def nth (text : Text) (n : Nat) : Option Char := text[n]?

/-- What follows the first bytes, if they end between two characters. -/
def dropBytes : Nat → Text → Option Text
  | 0, text => some text
  | _ + 1, [] => none
  | n + 1, c :: text =>
    if c.utf8Size ≤ n + 1 then dropBytes (n + 1 - c.utf8Size) text else none

def takeBytes : Nat → Text → Option Text
  | 0, _ => some []
  | _ + 1, [] => none
  | n + 1, c :: text =>
    if c.utf8Size ≤ n + 1 then (takeBytes (n + 1 - c.utf8Size) text).map (c :: ·) else none

/-- `str::get` of a range. -/
def getBytes (text : Text) (start stop : Nat) : Option Text :=
  if start ≤ stop then (dropBytes start text).bind (takeBytes (stop - start)) else none

def IsAscii (text : Text) : Prop := ∀ c ∈ text, c.toNat < 128

theorem utf8Size_eq_one_iff {c : Char} : c.utf8Size = 1 ↔ c.toNat < 128 := by
  rw [Char.utf8Size_eq_one_iff, UInt32.le_iff_toNat_le]
  exact Nat.lt_succ_iff.symm

theorem byteLen_cons (c : Char) (text : Text) :
    byteLen (c :: text) = c.utf8Size + byteLen text := by
  rw [byteLen, encode_cons, List.length_append, String.length_utf8EncodeChar, byteLen]

theorem length_le_byteLen (text : Text) : text.length ≤ byteLen text := by
  induction text with
  | nil => exact Nat.le_refl 0
  | cons c text ih =>
      have hsize := c.utf8Size_pos
      rw [byteLen_cons, List.length_cons]
      omega

/-- As many bytes as characters are there for ASCII only. -/
theorem byteLen_eq_length_iff {text : Text} : byteLen text = text.length ↔ IsAscii text := by
  induction text with
  | nil => exact iff_of_true rfl fun c hc => absurd hc List.not_mem_nil
  | cons c text ih =>
      have hsize := c.utf8Size_pos
      have hle := length_le_byteLen text
      rw [IsAscii, List.forall_mem_cons, ← utf8Size_eq_one_iff, byteLen_cons, List.length_cons]
      rw [IsAscii] at ih
      rw [← ih]
      omega

section

variable {text : Text} (h : IsAscii text) (n : Nat)
include h

theorem dropBytes_of_isAscii (hn : n ≤ text.length) : dropBytes n text = some (text.drop n) := by
  induction text generalizing n with
  | nil =>
      obtain rfl := Nat.le_zero.mp hn
      rfl
  | cons c text ih =>
      rw [IsAscii, List.forall_mem_cons] at h
      cases n with
      | zero => rfl
      | succ n =>
          rw [dropBytes, utf8Size_eq_one_iff.mpr h.1, if_pos (Nat.le_add_left 1 n),
            Nat.add_sub_cancel]
          exact ih h.2 n (Nat.le_of_succ_le_succ hn)

theorem takeBytes_of_isAscii (hn : n ≤ text.length) : takeBytes n text = some (text.take n) := by
  induction text generalizing n with
  | nil =>
      obtain rfl := Nat.le_zero.mp hn
      rfl
  | cons c text ih =>
      rw [IsAscii, List.forall_mem_cons] at h
      cases n with
      | zero => rfl
      | succ n =>
          rw [takeBytes, utf8Size_eq_one_iff.mpr h.1, if_pos (Nat.le_add_left 1 n),
            Nat.add_sub_cancel, ih h.2 n (Nat.le_of_succ_le_succ hn)]
          rfl

end

/-- The range of an ASCII text is that of its characters. -/
theorem getBytes_of_isAscii {text : Text} (h : IsAscii text) {start stop : Nat}
    (hstart : start ≤ stop) (hstop : stop ≤ text.length) :
    getBytes text start stop = some ((text.drop start).take (stop - start)) := by
  have hdrop : IsAscii (text.drop start) := fun c hc => h c (List.mem_of_mem_drop hc)
  rw [getBytes, if_pos hstart, dropBytes_of_isAscii h start (by omega), Option.bind_some,
    takeBytes_of_isAscii hdrop _ (by rw [List.length_drop]; omega)]

end Text

open Text

/-! ## The lines -/

namespace Tokens

def illegalLine (line : Text) : Error := .illegalArgument ("Illegal line: " ++ String.ofList line)

/-- Empty, or a comment. -/
def IsSkipped (line : Text) : Prop := line = [] ∨ line.head? = some '#'

instance : DecidablePred IsSkipped := fun _ => inferInstanceAs (Decidable (_ ∨ _))

/-- The token of a trimmed line, if it has one. The closing quote is looked
for at the index of the last byte. -/
def parseLine (line : Text) : Result (Option (List UInt8)) :=
  if IsSkipped line then .ok none
  else
    match find '"' line with
    | none => .error (illegalLine line)
    | some posQuote =>
      if nth line (byteLen line - 1) ≠ some '"' then .error (illegalLine line)
      else
        match getBytes line (posQuote + 1) (byteLen line - 1) with
        | none => .error (illegalLine line)
        | some item =>
          if item = [] then .ok none
          else
            match strDecode item with
            | .ok token => .ok (some token)
            | .error _ =>
              .error (.illegalArgument ("Illegal line (hex decoding): " ++ String.ofList line))

def addLines (t : Tokens) : List Text → Result Unit × Tokens
  | [] => (.ok (), t)
  | line :: lines =>
    match parseLine (trim line) with
    | .error e => (.error e, t)
    | .ok none => addLines t lines
    | .ok (some token) => addLines (t.addToken token) lines

/-- The file is what opening it gives. -/
def addFromFile (t : Tokens) (file : Except IoError Text) : Result Unit × Tokens :=
  match file with
  | .error err => (.error (.ofIo err), t)
  | .ok data => t.addLines (Redqueen.lines data)

/-! ## What the lines should be -/

/-- A prefix without quotes, and an item in quotes up to the end of the line. -/
def HasItem (line item : Text) : Prop :=
  line.head? ≠ some '#' ∧ ∃ pre, '"' ∉ pre ∧ line = pre ++ '"' :: (item ++ ['"'])

theorem HasItem.not_isSkipped {line item : Text} (h : HasItem line item) : ¬IsSkipped line := by
  obtain ⟨hhead, pre, -, rfl⟩ := h
  rintro (hnil | hcomment)
  · exact absurd hnil (by simp)
  · exact hhead hcomment

theorem find_of_not_mem {c : Char} {pre : Text} (h : c ∉ pre) (rest : Text) :
    find c (pre ++ c :: rest) = some (byteLen pre) := by
  have hpre : (pre ++ c :: rest).takeWhile (· ≠ c) = pre := by
    rw [List.takeWhile_append_of_pos fun d hd => decide_eq_true (ne_of_mem_of_not_mem hd h),
      List.takeWhile_cons_of_neg (by simp), List.append_nil]
  rw [find, if_pos (List.mem_append_right _ List.mem_cons_self), hpre]

theorem exists_find {c : Char} {line : Text} {n : Nat} (h : find c line = some n) :
    ∃ pre rest, c ∉ pre ∧ line = pre ++ c :: rest ∧ n = byteLen pre := by
  rw [find] at h
  split at h
  · next hmem =>
      obtain ⟨pre, rest, rfl, hpre⟩ := List.eq_append_cons_of_mem hmem
      refine ⟨pre, rest, hpre, rfl, ?_⟩
      have hfind := find_of_not_mem hpre rest
      rw [find, if_pos hmem] at hfind
      exact Option.some.inj (h.symm.trans hfind)
  · cases h

/-- The bytes are counted right for ASCII only. -/
theorem isAscii_of_nth {line : Text} (hne : line ≠ [])
    (h : nth line (byteLen line - 1) = some '"') : IsAscii line := by
  obtain ⟨hlt, -⟩ := List.getElem?_eq_some_iff.mp h
  have hpos := List.length_pos_iff.mpr hne
  have hle := length_le_byteLen line
  exact byteLen_eq_length_iff.mp (by omega)

theorem getLast?_item (pre item : Text) (c : Char) :
    (pre ++ '"' :: (item ++ [c])).getLast? = some c := by
  rw [← List.cons_append, ← List.append_assoc, List.getLast?_concat]

theorem getBytes_item {pre item : Text} (h : IsAscii (pre ++ '"' :: (item ++ ['"']))) :
    getBytes (pre ++ '"' :: (item ++ ['"'])) (byteLen pre + 1)
      (byteLen (pre ++ '"' :: (item ++ ['"'])) - 1) = some item := by
  have hpre : byteLen pre = pre.length :=
    byteLen_eq_length_iff.mpr fun c hc => h c (List.mem_append_left _ hc)
  have hlen : (pre ++ '"' :: (item ++ ['"'])).length = pre.length + 1 + item.length + 1 := by
    simp only [List.length_append, List.length_cons, List.length_nil]
    omega
  have hdrop : (pre ++ '"' :: (item ++ ['"'])).drop (pre.length + 1) = item ++ ['"'] := by
    rw [List.drop_append]
    simp
  rw [byteLen_eq_length_iff.mpr h, hpre, hlen, Nat.add_sub_cancel,
    getBytes_of_isAscii h (Nat.le_add_right ..) (by omega), hdrop, Nat.add_sub_cancel_left,
    List.take_left]

theorem parseLine_of_isSkipped {line : Text} (h : IsSkipped line) : parseLine line = .ok none :=
  if_pos h

theorem parseLine_of_hasItem {line item : Text} (h : HasItem line item) (hascii : IsAscii line) :
    parseLine line =
      if item = [] then .ok none
      else
        match strDecode item with
        | .ok token => .ok (some token)
        | .error _ =>
          .error (.illegalArgument ("Illegal line (hex decoding): " ++ String.ofList line)) := by
  have hskipped := h.not_isSkipped
  obtain ⟨-, pre, hpre, rfl⟩ := h
  have hclosing : nth (pre ++ '"' :: (item ++ ['"']))
      (byteLen (pre ++ '"' :: (item ++ ['"'])) - 1) = some '"' := by
    rw [byteLen_eq_length_iff.mpr hascii, nth, ← List.getLast?_eq_getElem?, getLast?_item]
  rw [parseLine, if_neg hskipped]
  simp only [find_of_not_mem hpre, if_neg (not_not.mpr hclosing), getBytes_item hascii]

/-- What is accepted is a line of the grammar. -/
theorem hasItem_of_parseLine {line : Text} {token : Option (List UInt8)}
    (h : parseLine line = .ok token) (hskipped : ¬IsSkipped line) :
    IsAscii line ∧ ∃ item, HasItem line item := by
  rw [parseLine, if_neg hskipped] at h
  split at h
  · cases h
  · next posQuote hfind =>
      split at h
      · cases h
      · next hclosing =>
          rw [not_not] at hclosing
          have hne : line ≠ [] := fun hnil => hskipped (.inl hnil)
          have hascii := isAscii_of_nth hne hclosing
          obtain ⟨pre, rest, hpre, rfl, rfl⟩ := exists_find hfind
          refine ⟨hascii, ?_⟩
          rcases List.eq_nil_or_concat' rest with rfl | ⟨item, c, rfl⟩
          · -- there is one quote only, and no range behind it
            have hpre' : byteLen pre = pre.length :=
              byteLen_eq_length_iff.mpr fun c hc => hascii c (List.mem_append_left _ hc)
            have hnone : getBytes (pre ++ ['"']) (byteLen pre + 1)
                (byteLen (pre ++ ['"']) - 1) = none := by
              rw [getBytes, byteLen_eq_length_iff.mpr hascii, hpre', List.length_append,
                List.length_singleton, Nat.add_sub_cancel, if_neg (Nat.not_succ_le_self _)]
            rw [hnone] at h
            cases h
          · rw [byteLen_eq_length_iff.mpr hascii, nth, ← List.getLast?_eq_getElem?,
              getLast?_item] at hclosing
            obtain rfl := Option.some.inj hclosing
            exact ⟨item, fun hhead => hskipped (.inr hhead), pre, hpre, rfl⟩

/-- A line of the grammar, with an item that can be decoded. -/
def IsLine (line : Text) : Prop :=
  IsSkipped line ∨ ∃ item token, HasItem line item ∧ strDecode item = .ok token

/-- What is decoded from the items of some lines that are not empty. -/
inductive Items : List Text → List (List UInt8) → Prop
  | nil : Items [] []
  | skip {line : Text} {lines : List Text} {tokens : List (List UInt8)}
      (hline : IsSkipped line ∨ HasItem line []) (h : Items lines tokens) :
      Items (line :: lines) tokens
  | item {line item : Text} {token : List UInt8} {lines : List Text} {tokens : List (List UInt8)}
      (hline : HasItem line item) (hne : item ≠ []) (hdecode : strDecode item = .ok token)
      (h : Items lines tokens) : Items (line :: lines) (token :: tokens)

theorem exists_items {lines : List Text} (h : ∀ line ∈ lines, IsLine line) :
    ∃ tokens, Items lines tokens := by
  induction lines with
  | nil => exact ⟨[], .nil⟩
  | cons line lines ih =>
      rw [List.forall_mem_cons] at h
      obtain ⟨tokens, hitems⟩ := ih h.2
      rcases h.1 with hskip | ⟨item, token, hitem, hdecode⟩
      · exact ⟨tokens, .skip (.inl hskip) hitems⟩
      · by_cases hne : item = []
        · subst hne
          exact ⟨tokens, .skip (.inr hitem) hitems⟩
        · exact ⟨token :: tokens, .item hitem hne hdecode hitems⟩

/-- The items of the lines are of ASCII. -/
def AsciiItems (lines : List Text) : Prop :=
  ∀ line ∈ lines, ∀ item, HasItem line item → IsAscii line

theorem addLines_of_items {lines : List Text} {tokens : List (List UInt8)}
    (h : Items (lines.map trim) tokens) (hascii : AsciiItems (lines.map trim)) (t : Tokens) :
    t.addLines lines = (.ok (), t.addTokens tokens) := by
  induction lines generalizing tokens t with
  | nil =>
      cases h
      rfl
  | cons line lines ih =>
      rw [List.map_cons] at h hascii
      rw [AsciiItems, List.forall_mem_cons] at hascii
      cases h with
      | skip hline h =>
          have hparse : parseLine (trim line) = .ok none := by
            rcases hline with hskip | hempty
            · exact parseLine_of_isSkipped hskip
            · rw [parseLine_of_hasItem hempty (hascii.1 _ hempty), if_pos rfl]
          rw [addLines, hparse]
          exact ih h hascii.2 t
      | @item _ item token _ tokens hline hne hdecode h =>
          have hparse : parseLine (trim line) = .ok (some token) := by
            rw [parseLine_of_hasItem hline (hascii.1 _ hline), if_neg hne, hdecode]
          rw [addLines, hparse]
          exact ih h hascii.2 (t.addToken token)

/-- What stops at no line has met lines of the grammar only, in ASCII where
they have an item. -/
theorem of_addLines_ok {lines : List Text} {t : Tokens} (h : (t.addLines lines).1 = .ok ()) :
    ∀ line ∈ lines, IsLine (trim line) ∧ (¬IsSkipped (trim line) → IsAscii (trim line)) := by
  induction lines generalizing t with
  | nil => exact fun line hline => absurd hline List.not_mem_nil
  | cons line lines ih =>
      rw [List.forall_mem_cons]
      rw [addLines] at h
      have hline {token : Option (List UInt8)} (hparse : parseLine (trim line) = .ok token) :
          IsLine (trim line) ∧ (¬IsSkipped (trim line) → IsAscii (trim line)) := by
        by_cases hskipped : IsSkipped (trim line)
        · exact ⟨.inl hskipped, fun hnot => absurd hskipped hnot⟩
        · obtain ⟨hascii, item, hitem⟩ := hasItem_of_parseLine hparse hskipped
          refine ⟨.inr ⟨item, ?_⟩, fun _ => hascii⟩
          rw [parseLine_of_hasItem hitem hascii] at hparse
          split at hparse
          · next hempty => exact ⟨[], hitem, hempty ▸ rfl⟩
          · cases hdecode : strDecode item with
            | ok token => exact ⟨token, hitem, rfl⟩
            | error e =>
                rw [hdecode] at hparse
                cases hparse
      split at h
      · cases h
      · next hparse => exact ⟨hline hparse, ih h⟩
      · next token hparse => exact ⟨hline hparse, ih h⟩

/-- A line with an item that is not of ASCII is not read. -/
theorem addLines_not_isAscii {lines : List Text} {line item : Text} (hmem : line ∈ lines)
    (hitem : HasItem (trim line) item) (hascii : ¬IsAscii (trim line)) (t : Tokens) :
    (t.addLines lines).1 ≠ .ok () :=
  fun h => hascii ((of_addLines_ok h line hmem).2 hitem.not_isSkipped)

/-! ## The tokens gained -/

theorem addTokens_tokensVec (t : Tokens) (tokens : List (List UInt8)) :
    (t.addTokens tokens).tokensVec =
      t.tokensVec ++ (tokens.filter fun token => token ∉ t.tokensSet).eraseDups := by
  induction tokens generalizing t with
  | nil => exact (List.append_nil _).symm
  | cons token tokens ih =>
      have hmem (other : List UInt8) :
          other ∈ (t.addToken token).tokensSet ↔ other = token ∨ other ∈ t.tokensSet := by
        rw [addToken]
        dsimp only [HashSet.insertNew]
        split <;> exact AList.mem_insert _
      rw [addTokens, List.foldl_cons, ← addTokens, ih]
      by_cases hknown : token ∈ t.tokensSet
      · have hvec : (t.addToken token).tokensVec = t.tokensVec := by
          simp [addToken, HashSet.insertNew, hknown]
        have hrest : (tokens.filter fun other => other ∉ (t.addToken token).tokensSet) =
            tokens.filter fun other => other ∉ t.tokensSet := by
          refine List.filter_congr fun other _ => ?_
          rw [decide_eq_decide, hmem, not_or, and_iff_right_iff_imp]
          rintro hother rfl
          exact hother hknown
        rw [hvec, hrest, List.filter_cons_of_neg (by simpa using hknown)]
      · have hvec : (t.addToken token).tokensVec = t.tokensVec ++ [token] := by
          simp [addToken, HashSet.insertNew, hknown]
        have hrest : (tokens.filter fun other => other ∉ (t.addToken token).tokensSet) =
            (tokens.filter fun other => other ∉ t.tokensSet).filter fun other =>
              !other == token := by
          rw [List.filter_filter]
          refine List.filter_congr fun other _ => ?_
          rw [Bool.eq_iff_iff]
          simp [hmem]
        rw [hvec, hrest, List.filter_cons_of_pos (by simpa using hknown), List.eraseDups_cons,
          List.append_assoc, List.singleton_append]

end Tokens

open Tokens

/-- **A dictionary file is read line by line**, where the items are of ASCII:
every line has to be of the grammar, and what is gained is what their items
are decoded to, in their order and as far as it was not known. -/
theorem addFromFile_grammar (t : Tokens) (data : Text)
    (hascii : AsciiItems ((Redqueen.lines data).map trim)) :
    ((t.addFromFile (.ok data)).1 = .ok () ↔ ∀ line ∈ Redqueen.lines data, IsLine (trim line)) ∧
      ((t.addFromFile (.ok data)).1 = .ok () →
        ∃ tokens, Items ((Redqueen.lines data).map trim) tokens ∧
          (t.addFromFile (.ok data)).2.tokensVec =
            t.tokensVec ++ (tokens.filter fun token => token ∉ t.tokensSet).eraseDups) := by
  have hlines : (t.addFromFile (.ok data)).1 = .ok () →
      ∀ line ∈ Redqueen.lines data, IsLine (trim line) :=
    fun h line hline => (of_addLines_ok h line hline).1
  have hitems (h : ∀ line ∈ Redqueen.lines data, IsLine (trim line)) :
      ∃ tokens, Items ((Redqueen.lines data).map trim) tokens :=
    exists_items (List.forall_mem_map.mpr h)
  refine ⟨⟨hlines, fun h => ?_⟩, fun h => ?_⟩
  · obtain ⟨tokens, htokens⟩ := hitems h
    exact congrArg Prod.fst (addLines_of_items htokens hascii t)
  · obtain ⟨tokens, htokens⟩ := hitems (hlines h)
    refine ⟨tokens, htokens, ?_⟩
    rw [← addTokens_tokensVec]
    exact congrArg (fun result => result.2.tokensVec) (addLines_of_items htokens hascii t)

/-- A file with a comment and an item. -/
theorem addFromFile_grammar_comment :
    ((Tokens.new.addFromFile (.ok "# a\n k=\"\\x41b\" ".toList)).1 = .ok () ↔
        ∀ line ∈ Redqueen.lines "# a\n k=\"\\x41b\" ".toList, IsLine (trim line)) ∧
      ((Tokens.new.addFromFile (.ok "# a\n k=\"\\x41b\" ".toList)).1 = .ok () →
        ∃ tokens, Items ((Redqueen.lines "# a\n k=\"\\x41b\" ".toList).map trim) tokens ∧
          (Tokens.new.addFromFile (.ok "# a\n k=\"\\x41b\" ".toList)).2.tokensVec =
            Tokens.new.tokensVec ++
              (tokens.filter fun token => token ∉ Tokens.new.tokensSet).eraseDups) := by
  have hascii : ((Redqueen.lines "# a\n k=\"\\x41b\" ".toList).map trim).all
      (fun line => line.all fun c => decide (c.toNat < 128)) = true := by
    decide
  refine addFromFile_grammar Tokens.new _ fun line hline _ _ c hc => ?_
  exact of_decide_eq_true (List.all_eq_true.mp (List.all_eq_true.mp hascii line hline) c hc)

/-- A line has the form of one, whatever its item is decoded to. -/
def HasForm (line : Text) : Prop := IsSkipped line ∨ ∃ item, HasItem line item

/-- An item with an escape that is not one is an error. -/
theorem illegal_escape_rejected :
    ¬∀ (t : Tokens) (data : Text), (t.addFromFile (.ok data)).1 = .ok () ↔
      ∀ line ∈ Redqueen.lines data, HasForm (trim line) := by
  intro h
  have hform : ∀ line ∈ Redqueen.lines "\"\\xzz\"".toList, HasForm (trim line) := by
    intro line hline
    obtain rfl := List.mem_singleton.mp hline
    exact .inr ⟨['\\', 'x', 'z', 'z'], by decide, [], List.not_mem_nil, rfl⟩
  have haccepted := (h Tokens.new _).mpr hform
  exact absurd haccepted (by decide)

end Libaflmm
