import Libaflmm.StringOrder
import Mathlib.Algebra.Ring.Int.Defs
import Mathlib.Data.List.TakeWhile

/-!
# The hook that reads a number

`atoi` takes the string as a slice, without the terminator, and indexes it to skip
white space and a sign: where the index is the length it panics, as any index of a
slice that is out of bounds. What it reads is accumulated in a `c_uint`.
-/

namespace Libaflmm

namespace Hooks

/-- `slice[i]`, which panics where there is no such element. -/
def indexSlice (p : HookPtr) (len i : Nat) : Hook Nat :=
  if i < len then readChar 1 p i else .ofFn fun _ => none

def IsSpace (c : Nat) : Prop :=
  c = 0x20 ∨ c = 0xc ∨ c = 0xa ∨ c = 0xd ∨ c = 0x9 ∨ c = 0xb

instance (c : Nat) : Decidable (IsSpace c) := inferInstanceAs (Decidable (_ ∨ _))

/-- `while ws.contains(&slice[i]) { i += 1 }`; there are `rest` elements from `i`
on. -/
def skipSpace (p : HookPtr) (len : Nat) : Nat → Nat → Hook Nat
  | 0, i => indexSlice p len i
  | rest + 1, i => do
    if IsSpace (← indexSlice p len i) then skipSpace p len rest (i + 1) else pure i

/-- The sign, and the index behind it. -/
def readSign (p : HookPtr) (len i : Nat) : Hook (Bool × Nat) := do
  if (← indexSlice p len i) = 0x2d then pure (true, i + 1)
  else if (← indexSlice p len i) = 0x2b then pure (false, i + 1)
  else pure (false, i)

def IsDigit (c : Nat) : Prop := 48 ≤ c ∧ c ≤ 57

instance (c : Nat) : Decidable (IsDigit c) := inferInstanceAs (Decidable (_ ∧ _))

/-- The loop over the elements that are left. -/
def accumulate (p : HookPtr) : Nat → Nat → Nat → Hook Nat
  | 0, _, val => pure val
  | rest + 1, i, val => do
    let c ← readChar 1 p i
    if IsDigit c then
      if 2 ^ 32 ≤ val * 10 then asanPanic "atoi - overflow #1"
      else if 2 ^ 32 ≤ val * 10 + (c - 48) then asanPanic "atoi - overflow #2"
      else accumulate p rest (i + 1) (val * 10 + (c - 48))
    else pure val

/-- The value as a `c_int`. -/
def signed (negative : Bool) (val : Nat) : Hook Int :=
  if val = 0 then pure 0
  else if negative then
    if 2 ^ 31 < val then asanPanic "atoi - overflow #3" else pure (-(val - 1 : Nat) - 1)
  else if 2 ^ 31 - 1 < val then asanPanic "atoi - overflow #4"
  else pure val

def atoi (fuel s : Nat) : Hook Int :=
  if s = 0 then asanPanic "atoi - s is null"
  else do
    let len ← scan 1 ⟨0, s⟩ fuel 0
    asanLoad ⟨0, s⟩ 0 (len + 1)
    let i ← skipSpace ⟨0, s⟩ len len 0
    let (negative, i) ← readSign ⟨0, s⟩ len i
    let val ← accumulate ⟨0, s⟩ (len - i) i 0
    signed negative val

/-! ## In C -/

/-- The number that decimal digits, which follow on `val`, stand for. -/
def number (val : Nat) (digits : List Nat) : Nat :=
  digits.foldl (fun val c => val * 10 + (c - 48)) val

/-- The value of the digits a text starts with, behind a sign. -/
def digitsValue (text : List Nat) : Nat := number 0 (text.takeWhile fun c => IsDigit c)

/-- The value of a text that starts with an optional sign and digits. -/
def signedValue : List Nat → Int
  | [] => 0
  | c :: text =>
    if c = 0x2d then -digitsValue text
    else if c = 0x2b then digitsValue text
    else digitsValue (c :: text)

/-- The value of the longest prefix that is white space and a number; 0 where it has
no digits. -/
def textValue (text : List Nat) : Int := signedValue (text.dropWhile fun c => IsSpace c)

def FitsInt (v : Int) : Prop := -2 ^ 31 ≤ v ∧ v < 2 ^ 31

/-- The call returns `v`, or panics when that is no `c_int`. -/
def Answers (x : Option (Except HookStop Int × HookState)) (v : Int) : Prop :=
  (FitsInt v ∧ ∃ t, x = some (.ok v, t)) ∨
    (¬ FitsInt v ∧ ∃ msg t, x = some (.error (.panic msg), t))

/-! ## What the loops do -/

section

variable {p : HookPtr} {len : Nat}

theorem run_indexSlice {i : Nat} {s : HookState} (h : i < len) :
    (indexSlice p len i).run s =
      some (.ok (charAt 1 s.mem p.addr i), s.logged [.read p (1 * i) 1]) := by
  rw [indexSlice, if_pos h]
  rfl

theorem run_indexSlice_of_le {i : Nat} {s : HookState} (h : len ≤ i) :
    (indexSlice p len i).run s = none := by
  rw [indexSlice, if_neg (Nat.not_lt.mpr h)]
  rfl

/-- White space up to the end of the slice: the loop panics. -/
theorem run_skipSpace_of_blank (rest i : Nat) (s : HookState) (hrest : i + rest = len)
    (h : ((chars 1 s.mem p.addr len).drop i).dropWhile (fun c => IsSpace c) = []) :
    (skipSpace p len rest i).run s = none := by
  induction rest generalizing i s with
  | zero => exact run_indexSlice_of_le (Nat.le_of_eq hrest.symm)
  | succ rest ih =>
      have hi : i < len := by omega
      rw [drop_chars hi] at h
      rw [skipSpace, Call.run_bind_of_ok (run_indexSlice hi)]
      by_cases hspace : IsSpace (charAt 1 s.mem p.addr i)
      · rw [if_pos hspace]
        refine ih (i + 1) _ (by omega) ?_
        rw [List.dropWhile_cons_of_pos (by simpa using hspace)] at h
        exact h
      · rw [List.dropWhile_cons_of_neg (by simpa using hspace)] at h
        exact absurd h (List.cons_ne_nil _ _)

/-- Otherwise it stops at the first character that is no white space. -/
theorem run_skipSpace (rest i : Nat) (s : HookState) (hrest : i + rest = len)
    (h : ((chars 1 s.mem p.addr len).drop i).dropWhile (fun c => IsSpace c) ≠ []) :
    ∃ j events, (skipSpace p len rest i).run s = some (.ok j, s.logged events) ∧ j < len ∧
      (chars 1 s.mem p.addr len).drop j =
        ((chars 1 s.mem p.addr len).drop i).dropWhile (fun c => IsSpace c) := by
  induction rest generalizing i s with
  | zero =>
      rw [drop_chars_of_le (by omega)] at h
      exact absurd rfl h
  | succ rest ih =>
      have hi : i < len := by omega
      rw [drop_chars hi] at h ⊢
      rw [skipSpace, Call.run_bind_of_ok (run_indexSlice hi)]
      by_cases hspace : IsSpace (charAt 1 s.mem p.addr i)
      · rw [if_pos hspace]
        rw [List.dropWhile_cons_of_pos (by simpa using hspace)] at h ⊢
        obtain ⟨j, events, hrun, hj, hdrop⟩ := ih (i + 1) (s.logged [.read p (1 * i) 1])
          (by omega) h
        rw [logged_logged] at hrun
        exact ⟨j, _, hrun, hj, hdrop⟩
      · rw [if_neg hspace, List.dropWhile_cons_of_neg (by simpa using hspace)]
        exact ⟨i, _, rfl, hi, drop_chars hi⟩

/-- The sign is read where there is a character. -/
theorem run_readSign {i : Nat} (s : HookState) (hi : i < len) : ∃ negative j events,
    (readSign p len i).run s = some (.ok (negative, j), s.logged events) ∧ j ≤ len ∧
      signedValue ((chars 1 s.mem p.addr len).drop i) =
        (if negative then -1 else 1) * digitsValue ((chars 1 s.mem p.addr len).drop j) := by
  rw [drop_chars hi, readSign, Call.run_bind_of_ok (run_indexSlice hi), signedValue]
  by_cases hminus : charAt 1 s.mem p.addr i = 0x2d
  · rw [if_pos hminus, if_pos hminus]
    exact ⟨true, i + 1, _, rfl, hi, Int.neg_eq_neg_one_mul _⟩
  rw [if_neg hminus, if_neg hminus, Call.run_bind_of_ok (run_indexSlice hi), logged_logged,
    mem_logged]
  by_cases hplus : charAt 1 s.mem p.addr i = 0x2b
  · rw [if_pos hplus, if_pos hplus]
    exact ⟨false, i + 1, _, rfl, hi, (Int.one_mul _).symm⟩
  · rw [if_neg hplus, if_neg hplus]
    refine ⟨false, i, _, rfl, Nat.le_of_lt hi, ?_⟩
    rw [← drop_chars hi]
    exact (Int.one_mul _).symm

theorem le_number (val : Nat) (digits : List Nat) : val ≤ number val digits := by
  induction digits generalizing val with
  | nil => exact Nat.le_refl val
  | cons c digits ih =>
      have h := ih (val * 10 + (c - 48))
      rw [number, List.foldl_cons]
      rw [number] at h
      omega

/-- **The digits are accumulated**, or do not fit 32 bits. -/
theorem run_accumulate (rest i val : Nat) (s : HookState) (hrest : i + rest = len)
    (hval : val < 2 ^ 32) :
    (number val (((chars 1 s.mem p.addr len).drop i).takeWhile fun c => IsDigit c) < 2 ^ 32 ∧
      ∃ events, (accumulate p rest i val).run s = some (.ok
        (number val (((chars 1 s.mem p.addr len).drop i).takeWhile fun c => IsDigit c)),
        s.logged events)) ∨
    (2 ^ 32 ≤ number val (((chars 1 s.mem p.addr len).drop i).takeWhile fun c => IsDigit c) ∧
      ∃ msg t, (accumulate p rest i val).run s = some (.error (.panic msg), t)) := by
  induction rest generalizing i val s with
  | zero =>
      rw [drop_chars_of_le (by omega)]
      exact .inl ⟨hval, [], rfl⟩
  | succ rest ih =>
      have hi : i < len := by omega
      rw [drop_chars hi, accumulate, Call.run_bind_of_ok (run_readChar p i s)]
      by_cases hdigit : IsDigit (charAt 1 s.mem p.addr i)
      · rw [if_pos hdigit, List.takeWhile_cons_of_pos (by simpa using hdigit), number,
          List.foldl_cons]
        have hle := le_number (val * 10 + (charAt 1 s.mem p.addr i - 48))
          (((chars 1 s.mem p.addr len).drop (i + 1)).takeWhile fun c => IsDigit c)
        by_cases hmul : 2 ^ 32 ≤ val * 10
        · rw [if_pos hmul]
          exact .inr ⟨by rw [number] at hle; omega, _, _, rfl⟩
        by_cases hadd : 2 ^ 32 ≤ val * 10 + (charAt 1 s.mem p.addr i - 48)
        · rw [if_neg hmul, if_pos hadd]
          exact .inr ⟨Nat.le_trans hadd hle, _, _, rfl⟩
        rw [if_neg hmul, if_neg hadd]
        rcases ih (i + 1) _ (s.logged [.read p (1 * i) 1]) (by omega) (Nat.lt_of_not_le hadd)
          with ⟨hlt, events, hrun⟩ | ⟨hge, msg, t, hrun⟩
        · rw [logged_logged] at hrun
          exact .inl ⟨hlt, _, hrun⟩
        · exact .inr ⟨hge, msg, t, hrun⟩
      · rw [if_neg hdigit, List.takeWhile_cons_of_neg (by simpa using hdigit)]
        exact .inl ⟨hval, _, rfl⟩

/-- A `c_uint` and its sign as a `c_int`. -/
theorem answers_signed (negative : Bool) (val : Nat) (s : HookState) :
    Answers ((signed negative val).run s) ((if negative then -1 else 1) * val) := by
  rw [signed]
  by_cases hzero : val = 0
  · rw [if_pos hzero, hzero]
    refine .inl ⟨?_, s, ?_⟩
    · cases negative with
      | false => exact ⟨by decide, by decide⟩
      | true => exact ⟨by decide, by decide⟩
    · rw [Int.natCast_zero, Int.mul_zero]
      rfl
  rw [if_neg hzero]
  cases negative with
  | true =>
      rw [if_pos rfl, if_pos rfl]
      by_cases hbig : 2 ^ 31 < val
      · rw [if_pos hbig]
        refine .inr ⟨fun hfits => ?_, _, _, rfl⟩
        have := hfits.1
        omega
      · rw [if_neg hbig]
        refine .inl ⟨⟨by omega, by omega⟩, s, ?_⟩
        rw [show (-1 : Int) * val = -(val - 1 : Nat) - 1 by omega]
        rfl
  | false =>
      rw [if_neg Bool.false_ne_true, if_neg Bool.false_ne_true, Int.one_mul]
      by_cases hbig : 2 ^ 31 - 1 < val
      · rw [if_pos hbig]
        refine .inr ⟨fun hfits => ?_, _, _, rfl⟩
        have := hfits.2
        omega
      · rw [if_neg hbig]
        exact .inl ⟨⟨by omega, by omega⟩, s, rfl⟩

end

end Hooks

/-- A string. -/
structure CString where
  mem : Nat → UInt8
  addr : Nat
  len : Nat
  addr_ne : addr ≠ 0
  endsAt : Hooks.EndsAt 1 mem addr len

namespace CString

open Hooks

def text (str : CString) : List Nat := chars 1 str.mem str.addr str.len

/-- `atoi` returns the value of the string, or panics when that is no `c_int`; it
does nothing else. -/
def ParsesLikeC (str : CString) : Prop :=
  ∃ enough, ∀ fuel, enough ≤ fuel →
    Answers ((atoi fuel str.addr).run ⟨str.mem, []⟩) (textValue str.text)

variable {str : CString}

/-- What is left to do when the string has been loaded. -/
theorem run_atoi {fuel : Nat} (hfuel : str.len < fuel) : ∃ events,
    (atoi fuel str.addr).run ⟨str.mem, []⟩ =
      (do
        let i ← skipSpace ⟨0, str.addr⟩ str.len str.len 0
        let (negative, i) ← readSign ⟨0, str.addr⟩ str.len i
        let val ← accumulate ⟨0, str.addr⟩ (str.len - i) i 0
        signed negative val : Hook Int).run ((⟨str.mem, []⟩ : HookState).logged events) := by
  refine ⟨[.load ⟨0, str.addr⟩ 0 (str.len + 1)] ++ readsFrom 1 ⟨0, str.addr⟩ 0 (str.len + 1), ?_⟩
  rw [atoi, if_neg str.addr_ne, Call.run_bind_of_ok (EndsAt.run_scan (by exact str.endsAt) hfuel)]
  rfl

/-- **A string of white space**: the call panics at an index. -/
theorem run_atoi_of_blank (h : str.text.dropWhile (fun c => IsSpace c) = []) {fuel : Nat}
    (hfuel : str.len < fuel) : (atoi fuel str.addr).run ⟨str.mem, []⟩ = none := by
  obtain ⟨events, hrun⟩ := run_atoi hfuel
  have hskip : (skipSpace ⟨0, str.addr⟩ str.len str.len 0).run
      ((⟨str.mem, []⟩ : HookState).logged events) = none :=
    run_skipSpace_of_blank str.len 0 _ (Nat.zero_add _) h
  rw [hrun, Call.run_bind, hskip]
  rfl

/-- **Any other string** is read as C says. -/
theorem answers_atoi (h : str.text.dropWhile (fun c => IsSpace c) ≠ []) {fuel : Nat}
    (hfuel : str.len < fuel) :
    Answers ((atoi fuel str.addr).run ⟨str.mem, []⟩) (textValue str.text) := by
  obtain ⟨events, hrun⟩ := run_atoi hfuel
  obtain ⟨i, skipped, hskip, hi, hdrop⟩ := run_skipSpace (p := ⟨0, str.addr⟩) str.len 0
    ((⟨str.mem, []⟩ : HookState).logged events) (Nat.zero_add _) h
  obtain ⟨negative, j, sign, hsign, hj, hvalue⟩ := run_readSign (p := ⟨0, str.addr⟩)
    (((⟨str.mem, []⟩ : HookState).logged events).logged skipped) hi
  have htext : textValue str.text = (if negative then -1 else 1) *
      digitsValue ((chars 1 str.mem str.addr str.len).drop j) :=
    (congrArg signedValue hdrop.symm).trans hvalue
  rw [hrun, Call.run_bind_of_ok hskip, Call.run_bind_of_ok hsign, htext]
  rcases run_accumulate (p := ⟨0, str.addr⟩) (str.len - j) j 0
      ((((⟨str.mem, []⟩ : HookState).logged events).logged skipped).logged sign)
      (Nat.add_sub_of_le hj) (Nat.two_pow_pos 32) with
    ⟨-, digits, hdigits⟩ | ⟨hbig, msg, t, hpanic⟩
  · rw [Call.run_bind_of_ok hdigits]
    exact answers_signed negative _ _
  · rw [Call.run_bind_of_error hpanic]
    refine .inr ⟨fun hfits => ?_, msg, t, rfl⟩
    have hbig' : 2 ^ 32 ≤ digitsValue ((chars 1 str.mem str.addr str.len).drop j) := hbig
    obtain ⟨hlow, hhigh⟩ := hfits
    cases negative with
    | true =>
        rw [if_pos rfl] at hlow
        omega
    | false =>
        rw [if_neg Bool.false_ne_true] at hhigh
        omega

/-- **Exactly when `atoi` reads a string as C does**: it has a character that is no
white space. -/
theorem parsesLikeC_iff (str : CString) : str.ParsesLikeC ↔ ∃ c ∈ str.text, ¬ IsSpace c := by
  have hblank : str.text.dropWhile (fun c => IsSpace c) ≠ [] ↔ ∃ c ∈ str.text, ¬ IsSpace c := by
    rw [Ne, List.dropWhile_eq_nil_iff]
    simp only [decide_eq_true_eq, not_forall, exists_prop]
  rw [← hblank]
  constructor
  · rintro ⟨enough, hanswers⟩ h
    have hnone := run_atoi_of_blank h (Nat.lt_of_lt_of_le (Nat.lt_succ_self str.len)
      (Nat.le_max_right enough (str.len + 1)))
    rcases hanswers _ (Nat.le_max_left enough (str.len + 1)) with ⟨-, t, hrun⟩ | ⟨-, msg, t, hrun⟩
    · rw [hnone] at hrun
      cases hrun
    · rw [hnone] at hrun
      cases hrun
  · intro h
    exact ⟨str.len + 1, fun fuel hfuel => answers_atoi h hfuel⟩

/-- `""` -/
def empty : CString where
  mem _ := 0
  addr := 24
  len := 0
  addr_ne := by decide
  endsAt := ⟨fun _ hi => absurd hi (Nat.not_lt_zero _), rfl⟩

theorem not_parsesLikeC_empty : ¬ empty.ParsesLikeC := by
  rintro ⟨enough, hanswers⟩
  have hnone : (atoi (enough + 1) empty.addr).run ⟨empty.mem, []⟩ = none :=
    run_atoi_of_blank rfl (Nat.succ_pos enough)
  have hanswer := hanswers _ (Nat.le_succ enough)
  rw [hnone] at hanswer
  rcases hanswer with ⟨-, t, hrun⟩ | ⟨-, msg, t, hrun⟩
  · cases hrun
  · cases hrun

end CString

end Libaflmm
