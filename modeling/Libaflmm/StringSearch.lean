import Libaflmm.StringCopies

/-!
# The hooks that look for a character

The bytes of a string are compared as `c_char`, which is signed, and those of a
buffer as `u8`; both are widened to `c_int` and compared with the argument as it
is. C converts the argument to a character first, and counts the terminator as
part of the string.
-/

namespace Libaflmm

namespace Hooks

/-- `position` on the bytes left, the next one with the number `pos`; `index` says
where it lies. -/
def position (key : Nat → Int) (c : Int32) (p : HookPtr) (index : Nat → Nat) :
    Nat → Nat → Hook (Option Nat)
  | 0, _ => pure none
  | rest + 1, pos => do
    if key (← readChar 1 p (index pos)) = c.toInt then pure (some pos)
    else position key c p index rest (pos + 1)

/-- The hooks that search a string; `index` maps a position to an index, given the
length. -/
def searchString (name : String) (index : Nat → Nat → Nat) (missing : Nat → Nat)
    (fuel cs : Nat) (c : Int32) : Hook Nat :=
  if cs = 0 then asanPanic s!"{name} - cs is null"
  else do
    let len ← scan 1 ⟨0, cs⟩ fuel 0
    asanLoad ⟨0, cs⟩ 0 (len + 1)
    match ← position (fun x => x.toInt8.toInt) c ⟨0, cs⟩ (index len) len 0 with
    | some pos => return cs + index len pos
    | none => return missing len

def strchr (fuel cs : Nat) (c : Int32) : Hook Nat :=
  searchString "strchr" (fun _ pos => pos) (fun _ => 0) fuel cs c

def strrchr (fuel cs : Nat) (c : Int32) : Hook Nat :=
  searchString "strrchr" (fun len pos => len - pos - 1) (fun _ => 0) fuel cs c

def strchrnul (fuel cs : Nat) (c : Int32) : Hook Nat :=
  searchString "strchrnul" (fun _ pos => pos) (fun len => cs + len) fuel cs c

/-- The hooks that search a buffer. -/
def searchMemory (name : String) (index : Nat → Nat → Nat) (cx : Nat) (c : Int32) (n : Nat) :
    Hook Nat :=
  if n = 0 then pure 0
  else if cx = 0 then asanPanic s!"{name} - cx is null"
  else do
    asanLoad ⟨0, cx⟩ 0 n
    match ← position (fun x => x) c ⟨0, cx⟩ (index n) n 0 with
    | some pos => return cx + index n pos
    | none => return 0

def memchr (cx : Nat) (c : Int32) (n : Nat) : Hook Nat :=
  searchMemory "memchr" (fun _ pos => pos) cx c n

def memrchr (cx : Nat) (c : Int32) (n : Nat) : Hook Nat :=
  searchMemory "memrchr" (fun len pos => len - pos - 1) cx c n

/-! ## Positions -/

/-- `r` is the address of the first index below `n` with `P`, in the order
`before`, or is `missing` where there is none. -/
def Selects (before : Nat → Nat → Prop) (P : Nat → Prop) (addr n missing r : Nat) : Prop :=
  (∃ i < n, P i ∧ (∀ j < n, P j → ¬ before j i) ∧ r = addr + i) ∨
    ((∀ i < n, ¬ P i) ∧ r = missing)

section

variable {before : Nat → Nat → Prop} {P Q : Nat → Prop} {addr n missing r : Nat}

theorem Selects.congr (h : Selects before P addr n missing r) (hPQ : ∀ i < n, P i ↔ Q i) :
    Selects before Q addr n missing r := by
  rcases h with ⟨i, hi, hP, hfirst, rfl⟩ | ⟨hnone, rfl⟩
  · exact .inl ⟨i, hi, (hPQ i hi).mp hP, fun j hj hQ => hfirst j hj ((hPQ j hj).mpr hQ), rfl⟩
  · exact .inr ⟨fun i hi hQ => hnone i hi ((hPQ i hi).mpr hQ), rfl⟩

/-- One more index, which does not count. -/
theorem selects_succ (hn : ¬ Q n) :
    Selects before Q addr (n + 1) missing r ↔ Selects before Q addr n missing r := by
  have hlt {i : Nat} (hi : i < n + 1) (hQ : Q i) : i < n :=
    Nat.lt_of_le_of_ne (Nat.le_of_lt_succ hi) fun heq => hn (heq ▸ hQ)
  constructor
  · rintro (⟨i, hi, hQ, hfirst, rfl⟩ | ⟨hnone, rfl⟩)
    · exact .inl ⟨i, hlt hi hQ, hQ, fun j hj => hfirst j (Nat.lt_succ_of_lt hj), rfl⟩
    · exact .inr ⟨fun i hi => hnone i (Nat.lt_succ_of_lt hi), rfl⟩
  · rintro (⟨i, hi, hQ, hfirst, rfl⟩ | ⟨hnone, rfl⟩)
    · exact .inl ⟨i, Nat.lt_succ_of_lt hi, hQ, fun j hj hQj => hfirst j (hlt hj hQj) hQj, rfl⟩
    · exact .inr ⟨fun i hi hQ => hnone i (hlt hi hQ) hQ, rfl⟩

/-- What is selected by `P`, which is `Q` or holds nowhere, is selected by `Q`
exactly when it is `Q`, or that holds nowhere either. -/
theorem Selects.iff {R : Prop} (h : Selects before P addr n missing r)
    (hP : ∀ i < n, P i ↔ R ∧ Q i) (hmissing : ∀ i < n, addr + i ≠ missing) :
    Selects before Q addr n missing r ↔ R ∨ ∀ i < n, ¬ Q i := by
  constructor
  · intro hQ
    by_cases hR : R
    · exact .inl hR
    · rcases h with ⟨i, hi, hPi, -, -⟩ | ⟨-, rfl⟩
      · exact absurd ((hP i hi).mp hPi).1 hR
      · rcases hQ with ⟨i, hi, -, -, heq⟩ | ⟨hnone, -⟩
        · exact absurd heq.symm (hmissing i hi)
        · exact .inr hnone
  · rintro (hR | hnone)
    · exact h.congr fun i hi => (hP i hi).trans (and_iff_right hR)
    · rcases h with ⟨i, hi, hPi, -, -⟩ | ⟨-, rfl⟩
      · exact absurd ((hP i hi).mp hPi).2 (hnone i hi)
      · exact .inr ⟨hnone, rfl⟩

end

/-- The search goes through the bytes in the order of `pos`. -/
theorem run_position {key : Nat → Int} {c : Int32} {p : HookPtr} {index : Nat → Nat}
    (rest pos : Nat) (s : HookState) : ∃ o events,
    (position key c p index rest pos).run s = some (.ok o, s.logged events) ∧
      match o with
      | some q => pos ≤ q ∧ q < pos + rest ∧ key (charAt 1 s.mem p.addr (index q)) = c.toInt ∧
          ∀ j, pos ≤ j → j < q → key (charAt 1 s.mem p.addr (index j)) ≠ c.toInt
      | none => ∀ j, pos ≤ j → j < pos + rest →
          key (charAt 1 s.mem p.addr (index j)) ≠ c.toInt := by
  induction rest generalizing pos s with
  | zero =>
      refine ⟨none, [], rfl, fun j hle hlt => ?_⟩
      omega
  | succ rest ih =>
      rw [position, Call.run_bind_of_ok (run_readChar p (index pos) s)]
      by_cases hc : key (charAt 1 s.mem p.addr (index pos)) = c.toInt
      · rw [if_pos hc]
        refine ⟨some pos, _, rfl, Nat.le_refl pos, by omega, hc, fun j hle hlt => ?_⟩
        omega
      · rw [if_neg hc]
        obtain ⟨o, events, hrun, ho⟩ := ih (pos + 1) (s.logged [.read p (1 * index pos) 1])
        rw [logged_logged] at hrun
        refine ⟨o, _, hrun, ?_⟩
        cases o with
        | some q =>
            obtain ⟨hle, hlt, hq, hfirst⟩ := ho
            refine ⟨by omega, by omega, hq, fun j hle hlt => ?_⟩
            rcases Nat.eq_or_lt_of_le hle with rfl | hgt
            · exact hc
            · exact hfirst j hgt hlt
        | none =>
            intro j hle hlt
            rcases Nat.eq_or_lt_of_le hle with rfl | hgt
            · exact hc
            · exact ho j hgt (by omega)

/-- Positions and indices below `n` are mapped to each other, and the order of the
positions is the order `before` of the indices. -/
structure Walks (before : Nat → Nat → Prop) (index : Nat → Nat) (n : Nat) : Prop where
  lt : ∀ i < n, index i < n
  invol : ∀ i < n, index (index i) = i
  order : ∀ i < n, ∀ j < n, before (index i) (index j) ↔ i < j

theorem walks_forwards (n : Nat) : Walks (· < ·) (fun pos => pos) n :=
  ⟨fun _ hi => hi, fun _ _ => rfl, fun _ _ _ _ => Iff.rfl⟩

theorem walks_backwards (n : Nat) : Walks (· > ·) (fun pos => n - pos - 1) n := by
  refine ⟨fun i hi => ?_, fun i hi => ?_, fun i hi j hj => ?_⟩
  · omega
  · omega
  · show n - i - 1 > n - j - 1 ↔ i < j
    omega

theorem run_position_selects {before : Nat → Nat → Prop} {key : Nat → Int} {c : Int32}
    {p : HookPtr} {index : Nat → Nat} {n : Nat} (hwalk : Walks before index n) (missing : Nat)
    (s : HookState) : ∃ o events,
      (position key c p index n 0).run s = some (.ok o, s.logged events) ∧
      Selects before (fun i => key (charAt 1 s.mem p.addr i) = c.toInt) p.addr n missing
        (match o with
          | some pos => p.addr + index pos
          | none => missing) := by
  obtain ⟨o, events, hrun, ho⟩ := @run_position key c p index n 0 s
  refine ⟨o, events, hrun, ?_⟩
  cases o with
  | some q =>
      obtain ⟨-, hq, hkey, hfirst⟩ := ho
      rw [Nat.zero_add] at hq
      refine .inl ⟨index q, hwalk.lt q hq, hkey, fun j hj hkeyj hbefore => ?_, rfl⟩
      rw [← hwalk.invol j hj, hwalk.order _ (hwalk.lt j hj) q hq] at hbefore
      refine hfirst (index j) (Nat.zero_le _) hbefore ?_
      rw [hwalk.invol j hj]
      exact hkeyj
  | none =>
      refine .inr ⟨fun i hi hkey => ?_, rfl⟩
      refine ho (index i) (Nat.zero_le _) ?_ ?_
      · rw [Nat.zero_add]
        exact hwalk.lt i hi
      · rw [hwalk.invol i hi]
        exact hkey

section

variable {before : Nat → Nat → Prop} {index : Nat → Nat → Nat} {mem : Nat → UInt8} {addr len : Nat}

theorem run_searchString (name : String) (missing : Nat → Nat) (c : Int32) (haddr : addr ≠ 0)
    (hstring : StringAt mem addr len) (hwalk : Walks before (index len) len) : ∃ r t,
    (∀ fuel, len + 1 ≤ fuel →
      (searchString name index missing fuel addr c).run ⟨mem, []⟩ = some (.ok r, t)) ∧
    Selects before (fun i => (charAt 1 mem addr i).toInt8.toInt = c.toInt) addr len
      (missing len) r := by
  let loaded : HookState :=
    ((⟨mem, []⟩ : HookState).logged (readsFrom 1 ⟨0, addr⟩ 0 (len + 1))).logged
      [.load ⟨0, addr⟩ 0 (len + 1)]
  obtain ⟨o, events, hrun, hselects⟩ := @run_position_selects before
    (fun x => x.toInt8.toInt) c ⟨0, addr⟩ (index len) len hwalk (missing len) loaded
  refine ⟨_, loaded.logged events, fun fuel hfuel => ?_, hselects⟩
  rw [searchString, if_neg haddr]
  rw [Call.run_bind_of_ok (CopyCall.run_scan_of_stringAt (by exact hstring) hfuel)]
  refine (Call.run_bind_of_ok (t := loaded) rfl).trans ?_
  rw [Call.run_bind_of_ok hrun]
  cases o with
  | some pos => rfl
  | none => rfl

theorem run_searchMemory (name : String) (c : Int32) (haddr : 0 < len → addr ≠ 0)
    (hwalk : Walks before (index len) len) : ∃ r t,
    (searchMemory name index addr c len).run ⟨mem, []⟩ = some (.ok r, t) ∧
    Selects before (fun i => (charAt 1 mem addr i : Int) = c.toInt) addr len 0 r := by
  by_cases hlen : len = 0
  · subst hlen
    refine ⟨0, ⟨mem, []⟩, ?_, .inr ⟨fun i hi => absurd hi (Nat.not_lt_zero i), rfl⟩⟩
    rw [searchMemory, if_pos rfl]
    rfl
  · let loaded : HookState := (⟨mem, []⟩ : HookState).logged [.load ⟨0, addr⟩ 0 len]
    obtain ⟨o, events, hrun, hselects⟩ := @run_position_selects before
      (fun x => x) c ⟨0, addr⟩ (index len) len hwalk 0 loaded
    refine ⟨_, loaded.logged events, ?_, hselects⟩
    rw [searchMemory, if_neg hlen, if_neg (haddr (Nat.pos_of_ne_zero hlen))]
    refine (Call.run_bind_of_ok (t := loaded) rfl).trans ?_
    rw [Call.run_bind_of_ok hrun]
    cases o with
    | some pos => rfl
    | none => rfl

end

end Hooks

/-! ## In C -/

inductive SearchHook
  | strchr | strrchr | strchrnul | memchr | memrchr
deriving DecidableEq

namespace SearchHook

def ofString : SearchHook → Bool
  | strchr | strrchr | strchrnul => true
  | memchr | memrchr => false

/-- The order in which the bytes are looked at. -/
def before : SearchHook → Nat → Nat → Prop
  | strchr | strchrnul | memchr => (· < ·)
  | strrchr | memrchr => (· > ·)

end SearchHook

/-- A call for the string of `len` characters, or the buffer of `len` bytes, at
`addr`. -/
structure SearchCall where
  hook : SearchHook
  mem : Nat → UInt8
  addr : Nat
  len : Nat
  c : Int32
  valid : if hook.ofString then addr ≠ 0 ∧ StringAt mem addr len else 0 < len → addr ≠ 0

namespace SearchCall

open Hooks

def call (s : SearchCall) (fuel : Nat) : Hook Nat :=
  match s.hook with
  | .strchr => Hooks.strchr fuel s.addr s.c
  | .strrchr => Hooks.strrchr fuel s.addr s.c
  | .strchrnul => Hooks.strchrnul fuel s.addr s.c
  | .memchr => Hooks.memchr s.addr s.c s.len
  | .memrchr => Hooks.memrchr s.addr s.c s.len

/-- The byte is the argument, converted to a character. -/
def Wanted (s : SearchCall) (i : Nat) : Prop :=
  ((s.mem (s.addr + i)).toNat : Int) = s.c.toInt % 256

/-- How many bytes C looks at. -/
def count (s : SearchCall) : Nat := if s.hook.ofString then s.len + 1 else s.len

/-- What C returns where there is no such byte. -/
def missing (s : SearchCall) : Nat := if s.hook = .strchrnul then s.addr + s.len else 0

/-- The call returns what C says. -/
def MatchesC (s : SearchCall) : Prop :=
  ∃ enough r t, (∀ fuel, enough ≤ fuel → (s.call fuel).run ⟨s.mem, []⟩ = some (.ok r, t)) ∧
    Selects s.hook.before s.Wanted s.addr s.count s.missing r

/-- The argument is one that the bytes are widened to. -/
def IsChar (s : SearchCall) : Prop :=
  if s.hook.ofString then -128 ≤ s.c.toInt ∧ s.c.toInt ≤ 127
  else 0 ≤ s.c.toInt ∧ s.c.toInt ≤ 255

variable {s : SearchCall}

/-- What the hooks compare. -/
def key (s : SearchCall) (x : Nat) : Int := if s.hook.ofString then x.toInt8.toInt else x

theorem key_eq_iff (i : Nat) :
    s.key (charAt 1 s.mem s.addr i) = s.c.toInt ↔ s.IsChar ∧ s.Wanted i := by
  rw [CopyCall.charAt_one, key, IsChar, Wanted]
  have hlt := (s.mem (s.addr + i)).toNat_lt
  cases s.hook.ofString with
  | true =>
      rw [if_pos rfl, if_pos rfl]
      have hbmod : (s.mem (s.addr + i)).toNat.toInt8.toInt =
          ((s.mem (s.addr + i)).toNat : Int).bmod 256 := Int8.toInt_ofNat'
      rw [hbmod, Int.bmod_def]
      omega
  | false =>
      rw [if_neg Bool.false_ne_true, if_neg Bool.false_ne_true]
      omega

/-- **The call returns** what is selected by the comparison it makes. -/
theorem run_call (s : SearchCall) : ∃ r t,
    (∀ fuel, s.len + 1 ≤ fuel → (s.call fuel).run ⟨s.mem, []⟩ = some (.ok r, t)) ∧
    Selects s.hook.before (fun i => s.key (charAt 1 s.mem s.addr i) = s.c.toInt) s.addr s.len
      s.missing r := by
  obtain ⟨hook, mem, addr, len, c, valid⟩ := s
  cases hook with
  | strchr => exact run_searchString "strchr" _ c valid.1 valid.2 (walks_forwards len)
  | strrchr => exact run_searchString "strrchr" _ c valid.1 valid.2 (walks_backwards len)
  | strchrnul => exact run_searchString "strchrnul" _ c valid.1 valid.2 (walks_forwards len)
  | memchr =>
      obtain ⟨r, t, hrun, hselects⟩ := @run_searchMemory _ (fun _ pos => pos) mem addr len
        "memchr" c valid (walks_forwards len)
      exact ⟨r, t, fun _ _ => hrun, hselects⟩
  | memrchr =>
      obtain ⟨r, t, hrun, hselects⟩ := @run_searchMemory _ (fun len pos => len - pos - 1) mem addr
        len "memrchr" c valid (walks_backwards len)
      exact ⟨r, t, fun _ _ => hrun, hselects⟩

theorem matchesC_of_run {enough r : Nat} {t : HookState}
    (hrun : ∀ fuel, enough ≤ fuel → (s.call fuel).run ⟨s.mem, []⟩ = some (.ok r, t)) :
    s.MatchesC ↔ Selects s.hook.before s.Wanted s.addr s.count s.missing r := by
  constructor
  · rintro ⟨enough', r', t', hrun', hselects⟩
    have hboth := (hrun _ (Nat.le_max_left enough enough')).symm.trans
      (hrun' _ (Nat.le_max_right enough enough'))
    obtain ⟨hr, -⟩ := Prod.mk.inj (Option.some.inj hboth)
    obtain rfl := Except.ok.inj hr
    exact hselects
  · intro hselects
    exact ⟨enough, r, t, hrun, hselects⟩

theorem addr_ne_zero (h : 0 < s.count) : s.addr ≠ 0 := by
  have hvalid := s.valid
  rw [count] at h
  split at h
  · next hstring =>
      rw [if_pos hstring] at hvalid
      exact hvalid.1
  · next hbuffer =>
      rw [if_neg hbuffer] at hvalid
      exact hvalid h

/-- The terminator is wanted exactly when the argument becomes 0. -/
theorem wanted_terminator (h : s.hook.ofString) : s.Wanted s.len ↔ s.c.toInt % 256 = 0 := by
  have hvalid := s.valid
  rw [if_pos h] at hvalid
  rw [Wanted, hvalid.2.2]
  exact eq_comm

theorem not_wanted_of_lt (h : s.hook.ofString) (hc : s.c.toInt % 256 = 0) {i : Nat}
    (hi : i < s.len) : ¬ s.Wanted i := by
  have hvalid := s.valid
  rw [if_pos h] at hvalid
  intro hwanted
  rw [Wanted, hc] at hwanted
  refine hvalid.2.1 i hi (UInt8.toNat_inj.mp ?_)
  exact Int.ofNat_eq_zero.mp hwanted

/-- Whether the terminator counts matters to `strchr` and `strrchr` only. -/
theorem selects_count_iff (r : Nat) (hchr : s.hook = .strchr ∨ s.hook = .strrchr →
      s.c.toInt % 256 ≠ 0) :
    Selects s.hook.before s.Wanted s.addr s.count s.missing r ↔
      Selects s.hook.before s.Wanted s.addr s.len s.missing r := by
  by_cases hstring : s.hook.ofString
  · rw [count, if_pos hstring]
    by_cases hc : s.c.toInt % 256 = 0
    · have hnul : s.hook = .strchrnul := by
        cases hhook : s.hook with
        | strchr => exact absurd hc (hchr (.inl hhook))
        | strrchr => exact absurd hc (hchr (.inr hhook))
        | strchrnul => rfl
        | memchr => rw [hhook] at hstring; cases hstring
        | memrchr => rw [hhook] at hstring; cases hstring
      have hnone : ∀ i < s.len, ¬ s.Wanted i := fun i hi => not_wanted_of_lt hstring hc hi
      rw [missing, if_pos hnul, hnul]
      constructor
      · rintro (⟨i, hi, hwanted, -, rfl⟩ | ⟨hnone', -⟩)
        · refine .inr ⟨hnone, ?_⟩
          rcases Nat.eq_or_lt_of_le (Nat.le_of_lt_succ hi) with rfl | hlt
          · rfl
          · exact absurd hwanted (hnone i hlt)
        · exact absurd ((wanted_terminator hstring).mpr hc) (hnone' s.len (Nat.lt_succ_self _))
      · rintro (⟨i, hi, hwanted, -, -⟩ | ⟨-, rfl⟩)
        · exact absurd hwanted (hnone i hi)
        · refine .inl ⟨s.len, Nat.lt_succ_self _, (wanted_terminator hstring).mpr hc, ?_, rfl⟩
          intro j _ hwanted hlt
          exact hnone j hlt hwanted
    · exact selects_succ (mt (wanted_terminator hstring).mp hc)
  · rw [count, if_neg hstring]

/-- `strchr` and `strrchr` do not find the terminator. -/
theorem not_selects_terminator {P : Nat → Prop} {r : Nat}
    (hchr : s.hook = .strchr ∨ s.hook = .strrchr) (hc : s.c.toInt % 256 = 0)
    (h : Selects s.hook.before P s.addr s.len s.missing r) (hP : ∀ i, P i → s.Wanted i) :
    ¬ Selects s.hook.before s.Wanted s.addr s.count s.missing r := by
  have hstring : s.hook.ofString := by
    rcases hchr with hhook | hhook
    · rw [hhook]; rfl
    · rw [hhook]; rfl
  have hmissing : s.missing = 0 := by
    rw [missing, if_neg]
    rcases hchr with hhook | hhook
    · rw [hhook]; exact SearchHook.noConfusion
    · rw [hhook]; exact SearchHook.noConfusion
  have hr : r = 0 := by
    rcases h with ⟨i, hi, hPi, -, -⟩ | ⟨-, heq⟩
    · exact absurd (hP i hPi) (not_wanted_of_lt hstring hc hi)
    · exact heq.trans hmissing
  have hcount : s.count = s.len + 1 := if_pos hstring
  rintro (⟨i, hi, -, -, heq⟩ | ⟨hnone, -⟩)
  · exact addr_ne_zero (Nat.zero_lt_of_lt hi) (by omega)
  · refine hnone s.len ?_ ((wanted_terminator hstring).mpr hc)
    rw [hcount]
    exact Nat.lt_succ_self _

/-- **Exactly when a search returns what C says**: the argument is a character as
the bytes are widened, or does not occur; and it is not the terminator that is
looked for by `strchr` or `strrchr`. -/
theorem matchesC_iff (s : SearchCall) : s.MatchesC ↔
    (s.hook = .strchr ∨ s.hook = .strrchr → s.c.toInt % 256 ≠ 0) ∧
      (s.IsChar ∨ ∀ i < s.len, ¬ s.Wanted i) := by
  obtain ⟨r, t, hrun, hselects⟩ := s.run_call
  rw [matchesC_of_run hrun]
  by_cases hchr : s.hook = .strchr ∨ s.hook = .strrchr → s.c.toInt % 256 ≠ 0
  · rw [selects_count_iff r hchr, and_iff_right hchr]
    refine hselects.iff (fun i _ => key_eq_iff i) fun i hi => ?_
    have hpos : 0 < s.count := by
      rw [count]
      split
      · exact Nat.succ_pos _
      · exact Nat.zero_lt_of_lt hi
    have haddr := addr_ne_zero hpos
    rw [missing]
    split
    · omega
    · omega
  · obtain ⟨hhook, hc⟩ := Classical.not_imp.mp hchr
    refine iff_of_false ?_ fun h => hchr h.1
    exact not_selects_terminator hhook (not_not.mp hc) hselects fun i hi => ((key_eq_iff i).mp hi).2

/-- `strchr("a", 0)` -/
def strchrZero : SearchCall where
  hook := .strchr
  mem := Function.update (fun _ => 0) 16 97
  addr := 16
  len := 1
  c := 0
  valid := by
    refine ⟨by decide, fun i hi => ?_, rfl⟩
    obtain rfl := Nat.lt_one_iff.mp hi
    decide

theorem not_matchesC_strchrZero : ¬ strchrZero.MatchesC := by
  obtain ⟨r, t, hrun, hselects⟩ := strchrZero.run_call
  rw [matchesC_of_run hrun]
  exact not_selects_terminator (.inl rfl) rfl hselects fun i hi => ((key_eq_iff i).mp hi).2

end SearchCall

end Libaflmm
