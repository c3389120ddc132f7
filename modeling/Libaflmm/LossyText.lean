import Mathlib.Tactic.Common

/-!
# Text from bytes

What is no UTF-8 becomes a replacement character, one for every longest part of
a character. A byte below 128 stands for itself whatever is around it, so text
can be split at it before or after the bytes are decoded.
-/

namespace Libaflmm

namespace LossyText

def replacement : Char := Char.ofNat 0xFFFD

/-- The bytes that may follow the first byte of a character, as ranges. -/
def following (b : UInt8) : Option (List (UInt8 × UInt8)) :=
  if b < 0x80 then some []
  else if 0xC2 ≤ b ∧ b ≤ 0xDF then some [(0x80, 0xBF)]
  else if b = 0xE0 then some [(0xA0, 0xBF), (0x80, 0xBF)]
  else if b = 0xED then some [(0x80, 0x9F), (0x80, 0xBF)]
  else if 0xE1 ≤ b ∧ b ≤ 0xEF then some [(0x80, 0xBF), (0x80, 0xBF)]
  else if b = 0xF0 then some [(0x90, 0xBF), (0x80, 0xBF), (0x80, 0xBF)]
  else if b = 0xF4 then some [(0x80, 0x8F), (0x80, 0xBF), (0x80, 0xBF)]
  else if 0xF1 ≤ b ∧ b ≤ 0xF3 then some [(0x80, 0xBF), (0x80, 0xBF), (0x80, 0xBF)]
  else none

/-- How many bytes are as they may be. -/
def matched : List (UInt8 × UInt8) → List UInt8 → Nat
  | r :: rs, c :: cs => if r.1 ≤ c ∧ c ≤ r.2 then matched rs cs + 1 else 0
  | _, _ => 0

/-- The bits of the first byte, and six of every other one. -/
def scalar (b : UInt8) (cs : List UInt8) : Nat :=
  cs.foldl (fun n c => n * 64 + c.toNat % 64)
    (match cs.length with
      | 0 => b.toNat
      | 1 => b.toNat % 32
      | 2 => b.toNat % 16
      | _ => b.toNat % 8)

/-- The first character, and how many bytes after the first one are used up. -/
def firstChar (b : UInt8) (rest : List UInt8) : Char × Nat :=
  match following b with
  | none => (replacement, 0)
  | some rs =>
    (if matched rs rest = rs.length then Char.ofNat (scalar b (rest.take rs.length))
      else replacement, matched rs rest)

/-- The text of the bytes after the first `used` ones. -/
def decodeFrom : Nat → List UInt8 → List Char
  | _, [] => []
  | used + 1, _ :: rest => decodeFrom used rest
  | 0, b :: rest => (firstChar b rest).1 :: decodeFrom (firstChar b rest).2 rest

def fromUtf8Lossy (bytes : List UInt8) : List Char := decodeFrom 0 bytes

/-- `str::split_once` -/
def splitOnce (c : Char) : List Char → Option (List Char × List Char)
  | [] => none
  | d :: text => if d = c then some ([], text) else (splitOnce c text).map fun r => (d :: r.1, r.2)

/-! ## Bytes below 128 -/

theorem following_of_lt {b : UInt8} (h : b < 0x80) : following b = some [] := if_pos h

theorem le_of_following {b : UInt8} {rs : List (UInt8 × UInt8)} (h : following b = some rs) :
    ∀ r ∈ rs, 0x80 ≤ r.1 := by
  rw [following] at h
  repeat' split at h
  case' isFalse.isFalse.isFalse.isFalse.isFalse.isFalse.isFalse.isFalse => contradiction
  all_goals
    obtain rfl := Option.some.inj h
    exact fun r hr => of_decide_eq_true (List.all_eq_true.mp
      (show List.all _ (fun r : UInt8 × UInt8 => decide (0x80 ≤ r.1)) = true from rfl) r hr)

theorem matched_le (rs : List (UInt8 × UInt8)) (cs : List UInt8) : matched rs cs ≤ cs.length := by
  induction rs generalizing cs with
  | nil => exact Nat.zero_le _
  | cons r rs ih =>
      cases cs with
      | nil => exact Nat.le_refl 0
      | cons c cs =>
          rw [matched]
          split
          · exact Nat.succ_le_succ (ih cs)
          · exact Nat.zero_le _

theorem matched_append {rs : List (UInt8 × UInt8)} {c : UInt8} (hc : c < 0x80)
    (h : ∀ r ∈ rs, 0x80 ≤ r.1) (xs ys : List UInt8) :
    matched rs (xs ++ c :: ys) = matched rs xs := by
  induction rs generalizing xs with
  | nil => cases xs <;> rfl
  | cons r rs ih =>
      cases xs with
      | nil =>
          have hlt := UInt8.lt_of_lt_of_le hc (h r List.mem_cons_self)
          rw [List.nil_append, matched, if_neg fun hin => UInt8.not_le.mpr hlt hin.1]
          rfl
      | cons x xs =>
          have hrs := ih (fun q hq => h q (List.mem_cons_of_mem r hq)) xs
          simp only [List.cons_append, matched, hrs]

theorem firstChar_append (b : UInt8) {c : UInt8} (hc : c < 0x80) (xs ys : List UInt8) :
    firstChar b (xs ++ c :: ys) = firstChar b xs := by
  rw [firstChar, firstChar]
  cases hfollow : following b with
  | none => rfl
  | some rs =>
      have hmatched := matched_append hc (le_of_following hfollow) xs ys
      simp only [hmatched]
      split
      · next hall =>
          have hle := matched_le rs xs
          rw [List.take_append_of_le_length (by omega)]
      · rfl

theorem firstChar_snd_le (b : UInt8) (rest : List UInt8) : (firstChar b rest).2 ≤ rest.length := by
  rw [firstChar]
  cases following b with
  | none => exact Nat.zero_le _
  | some rs => exact matched_le rs rest

theorem firstChar_of_lt {b : UInt8} (hb : b < 0x80) (rest : List UInt8) :
    firstChar b rest = (Char.ofNat b.toNat, 0) := by
  cases rest <;> simp [firstChar, following_of_lt hb, matched, scalar]

theorem decodeFrom_append {c : UInt8} (hc : c < 0x80) {xs : List UInt8} {used : Nat}
    (hused : used ≤ xs.length) (ys : List UInt8) :
    decodeFrom used (xs ++ c :: ys) = decodeFrom used xs ++ decodeFrom 0 (c :: ys) := by
  induction xs generalizing used with
  | nil =>
      obtain rfl := Nat.le_zero.mp hused
      rfl
  | cons x xs ih =>
      cases used with
      | succ used => exact ih (Nat.le_of_succ_le_succ hused)
      | zero =>
          rw [List.cons_append, decodeFrom, decodeFrom, firstChar_append x hc,
            ih (firstChar_snd_le x xs), List.cons_append]

theorem fromUtf8Lossy_cons {c : UInt8} (hc : c < 0x80) (ys : List UInt8) :
    fromUtf8Lossy (c :: ys) = Char.ofNat c.toNat :: fromUtf8Lossy ys := by
  rw [fromUtf8Lossy, decodeFrom, firstChar_of_lt hc]
  rfl

/-- **Text is decoded on both sides of a byte below 128.** -/
theorem fromUtf8Lossy_append {c : UInt8} (hc : c < 0x80) (xs ys : List UInt8) :
    fromUtf8Lossy (xs ++ c :: ys) =
      fromUtf8Lossy xs ++ Char.ofNat c.toNat :: fromUtf8Lossy ys := by
  rw [← fromUtf8Lossy_cons hc]
  exact decodeFrom_append hc (Nat.zero_le _) ys

/-! ## Splitting -/

theorem matched_cons {r : UInt8 × UInt8} {rs : List (UInt8 × UInt8)} {cs : List UInt8}
    (h : matched (r :: rs) cs = (r :: rs).length) :
    ∃ c cs', cs = c :: cs' ∧ r.1 ≤ c ∧ c ≤ r.2 ∧ matched rs cs' = rs.length := by
  cases cs with
  | nil => cases h
  | cons c cs =>
      rw [matched] at h
      split at h
      · next hin => exact ⟨c, cs, rfl, hin.1, hin.2, Nat.succ.inj h⟩
      · cases h

/-- No character is written in more bytes than it needs. -/
theorem le_scalar {b : UInt8} (hb : ¬ b < 0x80) {rs : List (UInt8 × UInt8)} {rest : List UInt8}
    (hfollow : following b = some rs) (hall : matched rs rest = rs.length) :
    0x80 ≤ scalar b (rest.take rs.length) := by
  simp only [following, if_neg hb] at hfollow
  repeat' split at hfollow
  case' isFalse.isFalse.isFalse.isFalse.isFalse.isFalse.isFalse => contradiction
  all_goals
    next hrange =>
      obtain rfl := Option.some.inj hfollow
      obtain ⟨c, cs, rfl, hle, hge, hall⟩ := matched_cons hall
      first
      | obtain ⟨d, ds, rfl, -, -, hall⟩ := matched_cons hall
      | skip
      first
      | obtain ⟨e, es, rfl, -, -, -⟩ := matched_cons hall
      | skip
      simp only [UInt8.le_iff_toNat_le, ← UInt8.toNat_inj] at hle hge hrange
      simp only [List.length_cons, List.length_nil, List.take_succ_cons, List.take_zero, scalar,
        List.foldl_cons, List.foldl_nil]
      simp at hle hge hrange
      omega

theorem toNat_ofNat (n : Nat) : (Char.ofNat n).toNat = if n.isValidChar then n else 0 := by
  by_cases h : n.isValidChar
  · rw [if_pos h, Char.ofNat, dif_pos h]
    rfl
  · rw [if_neg h, Char.ofNat, dif_neg h]
    rfl

theorem toNat_ofNat_of_lt {c : UInt8} (hc : c < 0x80) : (Char.ofNat c.toNat).toNat = c.toNat := by
  have hlt : c.toNat < 128 := UInt8.lt_iff_toNat_lt.mp hc
  rw [toNat_ofNat, if_pos (show c.toNat.isValidChar from .inl (by omega))]

theorem ofNat_ne_of_le {n : Nat} {c : UInt8} (hn : 0x80 ≤ n) (hc : c < 0x80) (hne : c ≠ 0) :
    Char.ofNat n ≠ Char.ofNat c.toNat := by
  intro heq
  have hlt : c.toNat < 128 := UInt8.lt_iff_toNat_lt.mp hc
  have hpos : c.toNat ≠ 0 := fun hzero => hne (UInt8.toNat_inj.mp hzero)
  have hval := congrArg Char.toNat heq
  rw [toNat_ofNat, toNat_ofNat_of_lt hc] at hval
  split at hval <;> omega

theorem firstChar_ne {b c : UInt8} (hc : c < 0x80) (hne : c ≠ 0) (hbc : b ≠ c)
    (rest : List UInt8) : (firstChar b rest).1 ≠ Char.ofNat c.toNat := by
  have hreplaced : replacement ≠ Char.ofNat c.toNat := ofNat_ne_of_le (by decide) hc hne
  by_cases hb : b < 0x80
  · rw [firstChar_of_lt hb]
    intro heq
    have hval := congrArg Char.toNat heq
    rw [toNat_ofNat_of_lt hb, toNat_ofNat_of_lt hc, UInt8.toNat_inj] at hval
    exact hbc hval
  · rw [firstChar]
    cases hfollow : following b with
    | none => exact hreplaced
    | some rs =>
        dsimp only
        split
        · next hall => exact ofNat_ne_of_le (le_scalar hb hfollow hall) hc hne
        · exact hreplaced

/-- A character below 128 is that of a byte. -/
theorem not_mem_fromUtf8Lossy {c : UInt8} (hc : c < 0x80) (hne : c ≠ 0) {xs : List UInt8}
    (h : c ∉ xs) : Char.ofNat c.toNat ∉ fromUtf8Lossy xs := by
  suffices hfrom : ∀ used, Char.ofNat c.toNat ∉ decodeFrom used xs from hfrom 0
  induction xs with
  | nil => exact fun used hmem => by cases used <;> cases hmem
  | cons x xs ih =>
      have hxs := ih fun hmem => h (List.mem_cons_of_mem x hmem)
      intro used hmem
      cases used with
      | succ used => exact hxs used hmem
      | zero =>
          rw [decodeFrom, List.mem_cons] at hmem
          rcases hmem with heq | hmem
          · exact firstChar_ne hc hne (fun hxc => h (hxc ▸ List.mem_cons_self)) xs heq.symm
          · exact hxs _ hmem

theorem splitOnce_of_not_mem {c : Char} {text : List Char} (h : c ∉ text) :
    splitOnce c text = none := by
  induction text with
  | nil => rfl
  | cons d text ih =>
      rw [splitOnce, if_neg fun heq : d = c => h (heq ▸ List.mem_cons_self),
        ih fun hmem => h (List.mem_cons_of_mem d hmem)]
      rfl

theorem splitOnce_append {c : Char} {text : List Char} (h : c ∉ text) (rest : List Char) :
    splitOnce c (text ++ c :: rest) = some (text, rest) := by
  induction text with
  | nil => exact if_pos rfl
  | cons d text ih =>
      rw [List.cons_append, splitOnce,
        if_neg fun heq : d = c => h (heq ▸ List.mem_cons_self),
        ih fun hmem => h (List.mem_cons_of_mem d hmem)]
      rfl

/-- **Bytes are split as their text is.** -/
theorem splitOnce_fromUtf8Lossy {c : UInt8} (hc : c < 0x80) (hne : c ≠ 0) {xs : List UInt8}
    (h : c ∉ xs) (ys : List UInt8) :
    splitOnce (Char.ofNat c.toNat) (fromUtf8Lossy (xs ++ c :: ys)) =
      some (fromUtf8Lossy xs, fromUtf8Lossy ys) := by
  rw [fromUtf8Lossy_append hc]
  exact splitOnce_append (not_mem_fromUtf8Lossy hc hne h) _

/-! ## One character for every byte -/

theorem length_decodeFrom_le (used : Nat) (xs : List UInt8) :
    (decodeFrom used xs).length ≤ xs.length - used := by
  induction xs generalizing used with
  | nil => cases used <;> exact Nat.zero_le _
  | cons x xs ih =>
      cases used with
      | zero =>
          have hle := ih (firstChar x xs).2
          rw [decodeFrom, List.length_cons, List.length_cons]
          omega
      | succ used =>
          have hle := ih used
          rw [decodeFrom, List.length_cons]
          omega

theorem firstChar_of_not_lt {b : UInt8} (hb : ¬ b < 0x80) {rest : List UInt8}
    (hused : (firstChar b rest).2 = 0) : (firstChar b rest).1 = replacement := by
  rw [firstChar] at hused ⊢
  cases hfollow : following b with
  | none => rfl
  | some rs =>
      rw [hfollow] at hused
      cases rs with
      | nil =>
          -- only a byte below 128 is a character of its own
          rw [following, if_neg hb] at hfollow
          repeat' split at hfollow
          all_goals cases hfollow
      | cons r rs => exact if_neg fun hall => Nat.succ_ne_zero _ (hall.symm.trans hused)

/-- **Bytes and characters are as many** just when all bytes are below 128. -/
theorem fromUtf8Lossy_eq_map_iff {xs : List UInt8} :
    fromUtf8Lossy xs = xs.map (fun c => Char.ofNat c.toNat) ↔ ∀ c ∈ xs, c < 0x80 := by
  induction xs with
  | nil => simp [fromUtf8Lossy, decodeFrom]
  | cons x xs ih =>
      rw [List.forall_mem_cons]
      constructor
      · intro heq
        rw [fromUtf8Lossy, decodeFrom, List.map_cons] at heq
        obtain ⟨hchar, hrest⟩ := List.cons.inj heq
        have hused : (firstChar x xs).2 = 0 := by
          have hle := length_decodeFrom_le (firstChar x xs).2 xs
          have hsnd := firstChar_snd_le x xs
          rw [hrest, List.length_map] at hle
          omega
        have hx : x < 0x80 := by
          by_contra hx
          have hlt := x.toNat_lt
          have hval := congrArg Char.toNat ((firstChar_of_not_lt hx hused).symm.trans hchar)
          rw [toNat_ofNat, if_pos (.inl (by omega))] at hval
          exact absurd hval (Nat.ne_of_gt (Nat.lt_trans hlt (by decide)))
        rw [hused] at hrest
        exact ⟨hx, ih.mp hrest⟩
      · rintro ⟨hx, hxs⟩
        rw [fromUtf8Lossy_cons hx, ih.mpr hxs, List.map_cons]

end LossyText

end Libaflmm
