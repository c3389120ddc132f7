import Libaflmm.StringSearch

/-!
# What the comparing hooks answer

A comparison walks two strings until they differ. `strcmp` and `strncmp` compare
bytes as `u8`, `strcasecmp` and `strncasecmp` as `c_char`, which is signed;
`wcscmp` compares characters as `wchar_t`, which is signed, and `wcsncmp` as
`u32`.
-/

namespace Libaflmm

/-! ## Lexicographic signs -/

/-- The order of two lists of keys: the first pair that differs decides, and a
proper prefix is smaller. -/
def lexSign (key : Nat → Int) : List Nat → List Nat → Int
  | [], [] => 0
  | [], _ :: _ => -1
  | _ :: _, [] => 1
  | x :: xs, y :: ys =>
    if key x < key y then -1 else if key y < key x then 1 else lexSign key xs ys

/-- The first pair with different keys. -/
def firstDiffering (key : Nat → Int) : List Nat → List Nat → Option (Nat × Nat)
  | x :: xs, y :: ys => if key x = key y then firstDiffering key xs ys else some (x, y)
  | _, _ => none

section

variable {key key' : Nat → Int} {xs ys : List Nat}

theorem firstDiffering_mem {x y : Nat} (h : firstDiffering key xs ys = some (x, y)) :
    x ∈ xs ∧ y ∈ ys ∧ key x ≠ key y := by
  induction xs, ys using firstDiffering.induct key with
  | case1 x' xs y' ys heq ih =>
      rw [firstDiffering, if_pos heq] at h
      obtain ⟨hx, hy, hne⟩ := ih h
      exact ⟨List.mem_cons_of_mem _ hx, List.mem_cons_of_mem _ hy, hne⟩
  | case2 x' xs y' ys hne =>
      rw [firstDiffering, if_neg hne] at h
      obtain ⟨rfl, rfl⟩ := Prod.mk.inj (Option.some.inj h)
      exact ⟨List.mem_cons_self, List.mem_cons_self, hne⟩
  | case3 xs ys hnil =>
      rw [firstDiffering] at h
      · cases h
      · exact hnil

theorem lexSign_cons_of_eq {x y : Nat} (h : key x = key y) :
    lexSign key (x :: xs) (y :: ys) = lexSign key xs ys := by
  rw [lexSign, if_neg (Int.not_lt.mpr (Int.le_of_eq h.symm)),
    if_neg (Int.not_lt.mpr (Int.le_of_eq h))]

theorem lexSign_cons_of_ne {x y : Nat} (h : key x ≠ key y) :
    lexSign key (x :: xs) (y :: ys) = if key x < key y then -1 else 1 := by
  rw [lexSign]
  split
  · rfl
  · rw [if_pos (by omega)]

theorem sign_eq_iff {p q : Prop} [Decidable p] [Decidable q] :
    (if p then (-1 : Int) else 1) = (if q then -1 else 1) ↔ (p ↔ q) := by
  by_cases hp : p
  · by_cases hq : q
    · rw [if_pos hp, if_pos hq]
      exact iff_of_true rfl (iff_of_true hp hq)
    · rw [if_pos hp, if_neg hq]
      exact iff_of_false (by decide) fun h => hq (h.mp hp)
  · by_cases hq : q
    · rw [if_neg hp, if_pos hq]
      exact iff_of_false (by decide) fun h => hp (h.mpr hq)
    · rw [if_neg hp, if_neg hq]
      exact iff_of_true rfl (iff_of_false hp hq)

/-- **Two keys that tell the same characters apart** give the same sign exactly
when they order the first pair that differs alike. -/
theorem lexSign_eq_iff
    (hkeys : ∀ x ∈ xs, ∀ y ∈ ys, key x = key y ↔ key' x = key' y) :
    lexSign key xs ys = lexSign key' xs ys ↔
      ∀ x y, firstDiffering key xs ys = some (x, y) → (key x < key y ↔ key' x < key' y) := by
  induction xs, ys using firstDiffering.induct key with
  | case1 x xs y ys heq ih =>
      have heq' := (hkeys x List.mem_cons_self y List.mem_cons_self).mp heq
      rw [lexSign_cons_of_eq heq, lexSign_cons_of_eq heq', firstDiffering, if_pos heq]
      refine ih fun a ha b hb => ?_
      exact hkeys a (List.mem_cons_of_mem x ha) b (List.mem_cons_of_mem y hb)
  | case2 x xs y ys hne =>
      have hne' := mt (hkeys x List.mem_cons_self y List.mem_cons_self).mpr hne
      rw [lexSign_cons_of_ne hne, lexSign_cons_of_ne hne', firstDiffering, if_neg hne, sign_eq_iff]
      constructor
      · intro hiff a b hab
        obtain ⟨rfl, rfl⟩ := Prod.mk.inj (Option.some.inj hab)
        exact hiff
      · intro hall
        exact hall x y rfl
  | case3 xs ys hnil =>
      refine iff_of_true ?_ fun x y h => ?_
      · cases xs with
        | nil => cases ys <;> rfl
        | cons x xs =>
            cases ys with
            | nil => rfl
            | cons y ys => exact absurd rfl (hnil x xs y ys rfl)
      · rw [firstDiffering] at h
        · cases h
        · exact hnil

end

namespace Hooks

/-- The hooks that compare two whole strings of characters of `w` bytes. -/
def compareStrings (name first second : String) (w : Nat) (k : Nat → Int) (fuel cs ct : Nat) :
    Hook Int :=
  if cs = 0 then asanPanic s!"{name} - {first} is null"
  else if ct = 0 then asanPanic s!"{name} - {second} is null"
  else do
    let csLen ← scan w ⟨0, cs⟩ fuel 0
    let ctLen ← scan w ⟨1, ct⟩ fuel 0
    asanLoad ⟨0, cs⟩ 0 (w * (csLen + 1))
    asanLoad ⟨1, ct⟩ 0 (w * (ctLen + 1))
    compareChars w k ⟨0, cs⟩ ⟨1, ct⟩ csLen ctLen (max csLen ctLen) 0

def strcmp (fuel cs ct : Nat) : Hook Int :=
  compareStrings "strcmp" "cs" "ct" 1 (fun c => c) fuel cs ct

def strcasecmp (fuel s1 s2 : Nat) : Hook Int :=
  compareStrings "strcasecmp" "s1" "s2" 1 (fun c => toUpper c.toInt8.toInt) fuel s1 s2

/-- On `wchar_t`, which is `i32`. -/
def wcscmp (fuel cs ct : Nat) : Hook Int :=
  compareStrings "wcscmp" "cs" "ct" 4 (fun c => c.toInt32.toInt) fuel cs ct

/-- The characters of a string. -/
def chars (w : Nat) (mem : Nat → UInt8) (addr len : Nat) : List Nat :=
  (List.range len).map (charAt w mem addr)

section

variable {w : Nat} {mem : Nat → UInt8} {addr len i : Nat}

theorem length_chars : (chars w mem addr len).length = len := by
  rw [chars, List.length_map, List.length_range]

theorem drop_chars_of_le (h : len ≤ i) : (chars w mem addr len).drop i = [] :=
  List.drop_eq_nil_of_le (length_chars.symm ▸ h)

theorem drop_chars (h : i < len) : (chars w mem addr len).drop i =
    charAt w mem addr i :: (chars w mem addr len).drop (i + 1) := by
  rw [List.drop_eq_getElem_cons (length_chars.symm ▸ h)]
  simp [chars]

end

theorem mem_logged (new : List HookEvent) (s : HookState) : (s.logged new).mem = s.mem := rfl

/-- **The loop answers the sign** of what is left. -/
theorem run_compareChars_lexSign {w : Nat} {k : Nat → Int} {p q : HookPtr} {pLen qLen : Nat}
    (rest i : Nat) (s : HookState) (hrest : max pLen qLen = i + rest) : ∃ events,
    (compareChars w k p q pLen qLen rest i).run s =
      some (.ok (lexSign k ((chars w s.mem p.addr pLen).drop i)
        ((chars w s.mem q.addr qLen).drop i)), s.logged events) := by
  induction rest generalizing i s with
  | zero =>
      refine ⟨[], ?_⟩
      rw [drop_chars_of_le (by omega), drop_chars_of_le (by omega)]
      rfl
  | succ rest ih =>
      rw [compareChars]
      by_cases hp : pLen ≤ i
      · rw [if_pos hp, drop_chars_of_le hp, drop_chars (by omega)]
        exact ⟨[], rfl⟩
      by_cases hq : qLen ≤ i
      · rw [if_neg hp, if_pos hq, drop_chars_of_le hq, drop_chars (by omega)]
        exact ⟨[], rfl⟩
      rw [if_neg hp, if_neg hq, Call.run_bind_of_ok (run_readChar p i s),
        Call.run_bind_of_ok (run_readChar q i _), logged_logged, drop_chars (Nat.lt_of_not_le hp),
        drop_chars (Nat.lt_of_not_le hq), lexSign, mem_logged]
      split
      · exact ⟨_, rfl⟩
      split
      · exact ⟨_, rfl⟩
      obtain ⟨events, hrun⟩ := ih (i + 1)
        (s.logged ([.read q (w * i) w] ++ [.read p (w * i) w])) (by omega)
      exact ⟨_, hrun.trans (by rw [logged_logged, mem_logged])⟩

/-- A string of `len` characters of `w` bytes, and its terminator. -/
def EndsAt (w : Nat) (mem : Nat → UInt8) (addr len : Nat) : Prop :=
  (∀ i < len, charAt w mem addr i ≠ 0) ∧ charAt w mem addr len = 0

section

variable {w : Nat} {mem : Nat → UInt8} {addr len cs ct csLen ctLen : Nat} {k : Nat → Int}

theorem EndsAt.lenFrom_eq (h : EndsAt w mem addr len) (rest : Nat) :
    lenFrom w mem addr rest 0 = min len rest := by
  by_cases hlen : len < rest
  · rw [Nat.min_eq_left (Nat.le_of_lt hlen), lenFrom_eq_iff hlen]
    exact ⟨h.2, h.1⟩
  · rw [Nat.min_eq_right (Nat.le_of_not_lt hlen)]
    refine Nat.le_antisymm (lenFrom_le rest 0) (Nat.le_of_not_lt fun hlt => ?_)
    have hzero := charAt_lenFrom hlt
    rw [Nat.zero_add] at hzero
    exact h.1 _ (by omega) hzero

theorem EndsAt.run_scan {p : HookPtr} {fuel : Nat} {s : HookState}
    (h : EndsAt w s.mem p.addr len) (hfuel : len < fuel) :
    (scan w p fuel 0).run s = some (.ok len, s.logged (readsFrom w p 0 (len + 1))) := by
  rw [Hooks.run_scan, h.lenFrom_eq, Nat.min_eq_left (Nat.le_of_lt hfuel), if_pos hfuel,
    Nat.zero_add, Nat.min_eq_left hfuel]

theorem run_compareStrings (name first second : String) (hcs : cs ≠ 0) (hct : ct ≠ 0)
    (hfirst : EndsAt w mem cs csLen) (hsecond : EndsAt w mem ct ctLen) {fuel : Nat}
    (hfuel : max csLen ctLen < fuel) : ∃ t,
    (compareStrings name first second w k fuel cs ct).run ⟨mem, []⟩ =
      some (.ok (lexSign k (chars w mem cs csLen) (chars w mem ct ctLen)), t) := by
  let scanned : HookState := ((⟨mem, []⟩ : HookState).logged
    (readsFrom w ⟨0, cs⟩ 0 (csLen + 1))).logged (readsFrom w ⟨1, ct⟩ 0 (ctLen + 1))
  let loaded : HookState := scanned.logged
    ([.load ⟨1, ct⟩ 0 (w * (ctLen + 1))] ++ [.load ⟨0, cs⟩ 0 (w * (csLen + 1))])
  have hstart : (compareStrings name first second w k fuel cs ct).run ⟨mem, []⟩ =
      (compareChars w k ⟨0, cs⟩ ⟨1, ct⟩ csLen ctLen (max csLen ctLen) 0).run loaded := by
    rw [compareStrings, if_neg hcs, if_neg hct]
    rw [Call.run_bind_of_ok (EndsAt.run_scan (by exact hfirst)
      (Nat.lt_of_le_of_lt (Nat.le_max_left _ _) hfuel))]
    rw [Call.run_bind_of_ok (EndsAt.run_scan (by exact hsecond)
      (Nat.lt_of_le_of_lt (Nat.le_max_right _ _) hfuel))]
    rfl
  obtain ⟨events, hrun⟩ := run_compareChars_lexSign (max csLen ctLen) 0 loaded
    (Nat.zero_add _).symm
  exact ⟨_, hstart.trans hrun⟩

/-- The strings are compared up to the bound. -/
theorem run_compareHook_lexSign (name first second : String) (hcs : cs ≠ 0) (hct : ct ≠ 0)
    (hfirst : EndsAt w mem cs csLen) (hsecond : EndsAt w mem ct ctLen) (n : Nat) : ∃ t,
    (compareHook name first second w k cs ct n).run ⟨mem, []⟩ =
      some (.ok (lexSign k (chars w mem cs (min csLen n)) (chars w mem ct (min ctLen n))), t) := by
  by_cases hn : n = 0
  · subst hn
    rw [compareHook, if_pos rfl, Nat.min_zero, Nat.min_zero]
    exact ⟨_, rfl⟩
  · let scanned : HookState := ((⟨mem, []⟩ : HookState).logged
      (readsFrom w ⟨0, cs⟩ 0 (min (min csLen n + 1) n))).logged
      (readsFrom w ⟨1, ct⟩ 0 (min (min ctLen n + 1) n))
    let loaded : HookState := scanned.logged
      ([.load ⟨1, ct⟩ 0 ((min ctLen n + 1) * w)] ++ [.load ⟨0, cs⟩ 0 ((min csLen n + 1) * w)])
    have hstart : (compareHook name first second w k cs ct n).run ⟨mem, []⟩ =
        (compareChars w k ⟨0, cs⟩ ⟨1, ct⟩ (min csLen n) (min ctLen n)
          (max (min csLen n) (min ctLen n)) 0).run loaded := by
      rw [compareHook, if_neg hn, if_neg hcs, if_neg hct,
        Call.run_bind_of_ok (run_scanBounded _ _ _ _),
        Call.run_bind_of_ok (run_scanBounded _ _ _ _),
        mem_logged, hfirst.lenFrom_eq, hsecond.lenFrom_eq, Nat.zero_add, Nat.zero_add]
      rfl
    obtain ⟨events, hrun⟩ := run_compareChars_lexSign (max (min csLen n) (min ctLen n)) 0 loaded
      (Nat.zero_add _).symm
    exact ⟨_, hstart.trans hrun⟩

end

end Hooks

/-! ## In C -/

/-- To which case letters are folded before they are compared. -/
inductive CaseFolding
  | lower | upper
deriving DecidableEq

def CaseFolding.apply : CaseFolding → Nat → Nat
  | lower, c => if 65 ≤ c ∧ c ≤ 90 then c + 32 else c
  | upper, c => if 97 ≤ c ∧ c ≤ 122 then c - 32 else c

def IsLetter (c : Nat) : Prop := 65 ≤ c ∧ c ≤ 90 ∨ 97 ≤ c ∧ c ≤ 122

/-- One of the characters between the upper and the lower case letters. -/
def BetweenCases (c : Nat) : Prop := 91 ≤ c ∧ c ≤ 96

/-- Two bytes in whose order signed and unsigned characters agree, and the two
cases, when `fold` is not the case of the hooks. -/
def SameOrder (fold : CaseFolding) (c d : Nat) : Prop :=
  (c < 128 ↔ d < 128) ∧
    (fold = .lower → ¬ (IsLetter c ∧ BetweenCases d) ∧ ¬ (IsLetter d ∧ BetweenCases c))

/-- What `strcasecmp` and `strncasecmp` compare. -/
def upperKey (c : Nat) : Int := Hooks.toUpper c.toInt8.toInt

theorem upperKey_of_lt {c : Nat} (h : c < 256) :
    upperKey c = if 128 ≤ c then (c : Int) - 256 else if 97 ≤ c ∧ c ≤ 122 then (c : Int) - 32
      else c := by
  have hbmod : c.toInt8.toInt = (c : Int).bmod 256 := Int8.toInt_ofNat'
  rw [Int.bmod_def] at hbmod
  rw [upperKey, Hooks.toUpper]
  split <;> split <;> omega

/-- The characters, by what the hooks and `fold` make of them. -/
theorem upperKey_cases (fold : CaseFolding) {c : Nat} (h : c < 256) :
    (c < 65 ∧ upperKey c = c ∧ fold.apply c = c) ∨
    (65 ≤ c ∧ c ≤ 90 ∧ upperKey c = c ∧ fold.apply c = if fold = .lower then c + 32 else c) ∨
    (91 ≤ c ∧ c ≤ 96 ∧ upperKey c = c ∧ fold.apply c = c) ∨
    (97 ≤ c ∧ c ≤ 122 ∧ upperKey c = (c : Int) - 32 ∧
      fold.apply c = if fold = .lower then c else c - 32) ∨
    (123 ≤ c ∧ c < 128 ∧ upperKey c = c ∧ fold.apply c = c) ∨
    (128 ≤ c ∧ upperKey c = (c : Int) - 256 ∧ fold.apply c = c) := by
  rw [upperKey_of_lt h]
  cases fold with
  | lower =>
      simp only [CaseFolding.apply, if_true]
      split_ifs <;> omega
  | upper =>
      simp only [CaseFolding.apply, reduceCtorEq, if_false]
      split_ifs <;> omega

/-- The same characters are equal but for their case. -/
theorem upperKey_eq_iff (fold : CaseFolding) {c d : Nat} (hc : c < 256) (hd : d < 256) :
    upperKey c = upperKey d ↔ (fold.apply c : Int) = fold.apply d := by
  have hcc := upperKey_cases fold hc
  have hdd := upperKey_cases fold hd
  cases fold with
  | lower =>
      simp only [if_true] at hcc hdd
      omega
  | upper =>
      simp only [reduceCtorEq, if_false] at hcc hdd
      omega

theorem sameOrder_iff (fold : CaseFolding) {c d : Nat} (hc : c < 256) (hd : d < 256) :
    (upperKey c < upperKey d ↔ (fold.apply c : Int) < fold.apply d) ↔ SameOrder fold c d := by
  have hcc := upperKey_cases fold hc
  have hdd := upperKey_cases fold hd
  cases fold with
  | lower =>
      simp only [if_true] at hcc hdd
      simp only [SameOrder, IsLetter, BetweenCases, forall_const]
      omega
  | upper =>
      simp only [reduceCtorEq, if_false] at hcc hdd
      simp only [SameOrder, reduceCtorEq, false_imp_iff, and_true]
      omega

/-- Two strings of characters of `w` bytes. -/
structure StringPair (w : Nat) where
  mem : Nat → UInt8
  cs : Nat
  ct : Nat
  csLen : Nat
  ctLen : Nat
  cs_ne : cs ≠ 0
  ct_ne : ct ≠ 0
  first : Hooks.EndsAt w mem cs csLen
  second : Hooks.EndsAt w mem ct ctLen

inductive CompareHook
  | strcmp
  | strncmp (n : Nat)
  | strcasecmp
  | strncasecmp (n : Nat)

namespace CompareHook

def call (hook : CompareHook) (fuel cs ct : Nat) : Hook Int :=
  match hook with
  | strcmp => Hooks.strcmp fuel cs ct
  | strncmp n => Hooks.strncmp cs ct n
  | strcasecmp => Hooks.strcasecmp fuel cs ct
  | strncasecmp n => Hooks.strncasecmp cs ct n

/-- How many characters of a string are compared. -/
def compared (hook : CompareHook) (len : Nat) : Nat :=
  match hook with
  | strcmp | strcasecmp => len
  | strncmp n | strncasecmp n => min len n

def folds : CompareHook → Bool
  | strcmp | strncmp _ => false
  | strcasecmp | strncasecmp _ => true

/-- What C compares: unsigned characters. -/
def cKey (hook : CompareHook) (fold : CaseFolding) (c : Nat) : Int :=
  if hook.folds then fold.apply c else c

end CompareHook

namespace StringPair

open Hooks

variable {w : Nat}

/-- The call returns `r`. -/
def Returns (pair : StringPair w) (call : Nat → Hook Int) (r : Int) : Prop :=
  ∃ enough, ∀ fuel, enough ≤ fuel → ∃ t, (call fuel).run ⟨pair.mem, []⟩ = some (.ok r, t)

theorem Returns.iff {pair : StringPair w} {call : Nat → Hook Int} {r r' : Int}
    (h : pair.Returns call r) : pair.Returns call r' ↔ r = r' := by
  constructor
  · rintro ⟨enough', hrun'⟩
    obtain ⟨enough, hrun⟩ := h
    obtain ⟨t, ht⟩ := hrun _ (Nat.le_max_left enough enough')
    obtain ⟨t', ht'⟩ := hrun' _ (Nat.le_max_right enough enough')
    obtain ⟨hr, -⟩ := Prod.mk.inj (Option.some.inj (ht.symm.trans ht'))
    exact Except.ok.inj hr
  · rintro rfl
    exact h

/-- The sign that C gives to the strings. -/
def cSign (pair : StringPair 1) (hook : CompareHook) (fold : CaseFolding) : Int :=
  lexSign (hook.cKey fold) (chars 1 pair.mem pair.cs (hook.compared pair.csLen))
    (chars 1 pair.mem pair.ct (hook.compared pair.ctLen))

/-- The first pair of characters, among those compared, that differs but for the
case of the two. -/
def differing (pair : StringPair 1) (hook : CompareHook) : Option (Nat × Nat) :=
  firstDiffering upperKey (chars 1 pair.mem pair.cs (hook.compared pair.csLen))
    (chars 1 pair.mem pair.ct (hook.compared pair.ctLen))

/-- `wcscmp`, and `wcsncmp` with a bound that is large enough, return the same. -/
def WideAgrees (pair : StringPair 4) : Prop :=
  ∃ r, pair.Returns (fun fuel => wcscmp fuel pair.cs pair.ct) r ∧
    ∃ enough, ∀ n, enough ≤ n → pair.Returns (fun _ => wcsncmp pair.cs pair.ct n) r

theorem lt_of_mem_chars {mem : Nat → UInt8} {addr len c : Nat} (h : c ∈ chars 1 mem addr len) :
    c < 256 := by
  obtain ⟨i, -, rfl⟩ := List.mem_map.mp h
  rw [CopyCall.charAt_one]
  exact UInt8.toNat_lt _

/-- **What the hooks answer.** -/
theorem returns_call (pair : StringPair 1) (hook : CompareHook) :
    pair.Returns (fun fuel => hook.call fuel pair.cs pair.ct)
      (lexSign (if hook.folds then upperKey else fun c => c)
        (chars 1 pair.mem pair.cs (hook.compared pair.csLen))
        (chars 1 pair.mem pair.ct (hook.compared pair.ctLen))) := by
  cases hook with
  | strcmp => exact ⟨_, fun fuel hfuel =>
      run_compareStrings "strcmp" "cs" "ct" pair.cs_ne pair.ct_ne pair.first pair.second hfuel⟩
  | strncmp n => exact ⟨0, fun _ _ =>
      run_compareHook_lexSign "strncmp" "cs" "ct" pair.cs_ne pair.ct_ne pair.first pair.second n⟩
  | strcasecmp => exact ⟨_, fun fuel hfuel =>
      run_compareStrings "strcasecmp" "s1" "s2" pair.cs_ne pair.ct_ne pair.first pair.second hfuel⟩
  | strncasecmp n => exact ⟨0, fun _ _ =>
      run_compareHook_lexSign "strncasecmp" "s1" "s2" pair.cs_ne pair.ct_ne pair.first pair.second
        n⟩

theorem returns_cSign_iff (pair : StringPair 1) (hook : CompareHook) (fold : CaseFolding) :
    pair.Returns (fun fuel => hook.call fuel pair.cs pair.ct) (pair.cSign hook fold) ↔
      (hook.folds → ∀ c d, pair.differing hook = some (c, d) → SameOrder fold c d) := by
  rw [(pair.returns_call hook).iff, cSign]
  have hkey : hook.cKey fold =
      if hook.folds then fun c => (fold.apply c : Int) else fun c => c := by
    funext c
    rw [CompareHook.cKey]
    split
    · rfl
    · rfl
  rw [hkey]
  cases hook.folds with
  | false => exact iff_of_true rfl (fun h => absurd h Bool.false_ne_true)
  | true =>
      rw [if_pos rfl, if_pos rfl, lexSign_eq_iff, forall_prop_of_true rfl]
      · refine forall_congr' fun c => forall_congr' fun d => forall_congr' fun h => ?_
        obtain ⟨hc, hd, -⟩ := firstDiffering_mem h
        exact sameOrder_iff fold (lt_of_mem_chars hc) (lt_of_mem_chars hd)
      · intro c hc d hd
        exact upperKey_eq_iff fold (lt_of_mem_chars hc) (lt_of_mem_chars hd)

/-- The first pair of wide characters that differs. -/
def wideDiffering (pair : StringPair 4) : Option (Nat × Nat) :=
  firstDiffering (fun c => c) (chars 4 pair.mem pair.cs pair.csLen)
    (chars 4 pair.mem pair.ct pair.ctLen)

theorem lt_of_mem_wideChars {mem : Nat → UInt8} {addr len c : Nat} (h : c ∈ chars 4 mem addr len) :
    c < 2 ^ 32 := by
  obtain ⟨i, -, rfl⟩ := List.mem_map.mp h
  have hbyte : ∀ k, (mem (addr + 4 * i + k)).toNat < 256 := fun k => UInt8.toNat_lt _
  have h0 := hbyte 0
  have h1 := hbyte 1
  have h2 := hbyte 2
  have h3 := hbyte 3
  simp only [charAt, List.range_succ, List.range_zero, List.nil_append, List.map_append,
    List.map_cons, List.map_nil, List.sum_append, List.sum_cons, List.sum_nil]
  omega

/-- `wchar_t` and `u32` order two characters alike when their top bits are equal. -/
theorem toInt32_lt_iff {c d : Nat} (hc : c < 2 ^ 32) (hd : d < 2 ^ 32) :
    ((c : Int) < d ↔ c.toInt32.toInt < d.toInt32.toInt) ↔ (c < 2 ^ 31 ↔ d < 2 ^ 31) := by
  have hbmod : ∀ e : Nat, e.toInt32.toInt = (e : Int).bmod (2 ^ 32) := fun _ => Int32.toInt_ofNat'
  rw [hbmod, hbmod, Int.bmod_def, Int.bmod_def]
  omega

theorem toInt32_eq_iff {c d : Nat} (hc : c < 2 ^ 32) (hd : d < 2 ^ 32) :
    (c : Int) = d ↔ c.toInt32.toInt = d.toInt32.toInt := by
  have hbmod : ∀ e : Nat, e.toInt32.toInt = (e : Int).bmod (2 ^ 32) := fun _ => Int32.toInt_ofNat'
  rw [hbmod, hbmod, Int.bmod_def, Int.bmod_def]
  omega

theorem wideAgrees_iff (pair : StringPair 4) :
    pair.WideAgrees ↔ ∀ c d, pair.wideDiffering = some (c, d) → (c < 2 ^ 31 ↔ d < 2 ^ 31) := by
  have hwcs : pair.Returns (fun fuel => wcscmp fuel pair.cs pair.ct)
      (lexSign (fun c => c.toInt32.toInt) (chars 4 pair.mem pair.cs pair.csLen)
        (chars 4 pair.mem pair.ct pair.ctLen)) :=
    ⟨_, fun fuel hfuel =>
      run_compareStrings "wcscmp" "cs" "ct" pair.cs_ne pair.ct_ne pair.first pair.second hfuel⟩
  have hwcsn : ∀ n, pair.csLen ≤ n → pair.ctLen ≤ n →
      pair.Returns (fun _ => wcsncmp pair.cs pair.ct n)
        (lexSign (fun c => c) (chars 4 pair.mem pair.cs pair.csLen)
          (chars 4 pair.mem pair.ct pair.ctLen)) := by
    intro n hcs hct
    refine ⟨0, fun _ _ => ?_⟩
    have hrun := run_compareHook_lexSign (k := fun c => (c : Int)) "wcsncmp" "cs" "ct" pair.cs_ne
      pair.ct_ne pair.first pair.second n
    rw [Nat.min_eq_left hcs, Nat.min_eq_left hct] at hrun
    exact hrun
  have hsign : pair.WideAgrees ↔
      lexSign (fun c => (c : Int)) (chars 4 pair.mem pair.cs pair.csLen)
        (chars 4 pair.mem pair.ct pair.ctLen) =
      lexSign (fun c => c.toInt32.toInt) (chars 4 pair.mem pair.cs pair.csLen)
        (chars 4 pair.mem pair.ct pair.ctLen) := by
    constructor
    · rintro ⟨r, hr, enough, hn⟩
      let n := max enough (max pair.csLen pair.ctLen)
      have hlen := Nat.le_trans (Nat.le_max_left pair.csLen pair.ctLen)
        (Nat.le_max_right enough (max pair.csLen pair.ctLen))
      have hlen' := Nat.le_trans (Nat.le_max_right pair.csLen pair.ctLen)
        (Nat.le_max_right enough (max pair.csLen pair.ctLen))
      have hbound := hn n (Nat.le_max_left _ _)
      exact ((hwcsn n hlen hlen').iff.mp hbound).trans (hwcs.iff.mp hr).symm
    · intro heq
      refine ⟨_, hwcs, max pair.csLen pair.ctLen, fun n hn => ?_⟩
      rw [← heq]
      exact hwcsn n (Nat.le_trans (Nat.le_max_left _ _) hn) (Nat.le_trans (Nat.le_max_right _ _) hn)
  rw [hsign, lexSign_eq_iff]
  · refine forall_congr' fun c => forall_congr' fun d => forall_congr' fun h => ?_
    obtain ⟨hc, hd, -⟩ := firstDiffering_mem h
    exact toInt32_lt_iff (lt_of_mem_wideChars hc) (lt_of_mem_wideChars hd)
  · intro c hc d hd
    exact toInt32_eq_iff (lt_of_mem_wideChars hc) (lt_of_mem_wideChars hd)

/-- **Exactly when the hooks order strings as C does**, and the two for wide
strings agree. -/
theorem comparesLikeC_iff (pair : StringPair 1) (wide : StringPair 4) (hook : CompareHook)
    (fold : CaseFolding) :
    (pair.Returns (fun fuel => hook.call fuel pair.cs pair.ct) (pair.cSign hook fold) ↔
      (hook.folds → ∀ c d, pair.differing hook = some (c, d) → SameOrder fold c d)) ∧
    (wide.WideAgrees ↔
      ∀ c d, wide.wideDiffering = some (c, d) → (c < 2 ^ 31 ↔ d < 2 ^ 31)) :=
  ⟨returns_cSign_iff pair hook fold, wideAgrees_iff wide⟩

/-- The strings `"\x80"` and `"a"`. -/
def highByte : StringPair 1 where
  mem a := if a = 16 then 0x80 else if a = 32 then 0x61 else 0
  cs := 16
  ct := 32
  csLen := 1
  ctLen := 1
  cs_ne := by decide
  ct_ne := by decide
  first := by
    refine ⟨fun i hi => ?_, by decide⟩
    obtain rfl := Nat.lt_one_iff.mp hi
    decide
  second := by
    refine ⟨fun i hi => ?_, by decide⟩
    obtain rfl := Nat.lt_one_iff.mp hi
    decide

/-- The first string is smaller for `strcasecmp`, and greater in C. -/
theorem not_returns_highByte : ¬ ∃ fold : CaseFolding,
    highByte.Returns (fun fuel => CompareHook.strcasecmp.call fuel highByte.cs highByte.ct)
      (highByte.cSign .strcasecmp fold) := by
  rintro ⟨fold, h⟩
  rw [(highByte.returns_call .strcasecmp).iff] at h
  cases fold with
  | lower => exact absurd h (by decide)
  | upper => exact absurd h (by decide)

end StringPair

end Libaflmm
