import Libaflmm.StringHooks

/-!
# What the bounded hooks access

Of an argument with a bound a function may access the characters below the
bound, up to and with the terminator. The loops stop in time, but what is
passed to `asan_load` afterwards counts a terminator in every case; and
`strnlen` and `strncat` look for the terminator without a bound.
-/

namespace Libaflmm

/-- A call of one of the hooks; `dest` is the block that `strndup` is given. -/
inductive BoundedHook
  | strncmp (cs ct n : Nat)
  | strncasecmp (s1 s2 n : Nat)
  | wcsncmp (cs ct n : Nat)
  | strndup (cs n dest : Nat)
  | strnlen (cs maxlen : Nat)
  | strncat (s ct n : Nat)

namespace BoundedHook

open Hooks

def call (fuel : Nat) : BoundedHook → Hook Unit
  | strncmp cs ct n => (fun _ => ()) <$> Hooks.strncmp cs ct n
  | strncasecmp s1 s2 n => (fun _ => ()) <$> Hooks.strncasecmp s1 s2 n
  | wcsncmp cs ct n => (fun _ => ()) <$> Hooks.wcsncmp cs ct n
  | strndup cs n dest => (fun _ => ()) <$> Hooks.strndup cs n dest
  | strnlen cs maxlen => (fun _ => ()) <$> Hooks.strnlen fuel cs maxlen
  | strncat s ct n => (fun _ => ()) <$> Hooks.strncat fuel s ct n

/-- The bytes of a character. -/
def width : BoundedHook → Nat
  | wcsncmp .. => 4
  | _ => 1

/-- The bound of an argument. The string that `strncat` appends to has none. -/
def bound : BoundedHook → Nat → Option Nat
  | strncmp _ _ n, _ => some n
  | strncasecmp _ _ n, _ => some n
  | wcsncmp _ _ n, _ => some n
  | strndup _ n _, _ => some n
  | strnlen _ maxlen, _ => some maxlen
  | strncat _ _ n, arg => if arg = 0 then none else some n

/-- The character may be accessed: it is below the bound, and no terminator is
before it. -/
def MayAccess (h : BoundedHook) (mem : Nat → UInt8) (p : HookPtr) (i : Nat) : Prop :=
  (∀ n, h.bound p.arg = some n → i < n) ∧ ∀ j < i, charAt h.width mem p.addr j ≠ 0

/-- The bytes that are read, or passed to `asan_load`, may be accessed. -/
def Allowed (h : BoundedHook) (mem : Nat → UInt8) : HookEvent → Prop
  | .read p offset len => ∀ o, offset ≤ o → o < offset + len → h.MayAccess mem p (o / h.width)
  | .load p offset len => ∀ o, offset ≤ o → o < offset + len → h.MayAccess mem p (o / h.width)
  | _ => True

/-- Whatever a hook has done at any time is allowed. -/
def StaysInBounds (h : BoundedHook) (mem : Nat → UInt8) : Prop :=
  ∀ fuel r t, (h.call fuel).run ⟨mem, []⟩ = some (r, t) → ∀ e ∈ t.events, h.Allowed mem e

/-- There is a terminator below the bound. -/
def EndsBelow (w : Nat) (mem : Nat → UInt8) (addr n : Nat) : Prop :=
  ∃ i < n, charAt w mem addr i = 0

/-- The strings end below the bound, or are not looked at. -/
def Ended (mem : Nat → UInt8) : BoundedHook → Prop
  | strncmp cs ct n => n = 0 ∨ cs = 0 ∨ ct = 0 ∨ EndsBelow 1 mem cs n ∧ EndsBelow 1 mem ct n
  | strncasecmp s1 s2 n => n = 0 ∨ s1 = 0 ∨ s2 = 0 ∨ EndsBelow 1 mem s1 n ∧ EndsBelow 1 mem s2 n
  | wcsncmp cs ct n => n = 0 ∨ cs = 0 ∨ ct = 0 ∨ EndsBelow 4 mem cs n ∧ EndsBelow 4 mem ct n
  | strndup cs n _ => cs = 0 ∨ EndsBelow 1 mem cs n
  | strnlen cs maxlen => maxlen = 0 ∨ cs = 0 ∨ EndsBelow 1 mem cs maxlen
  | strncat s ct n =>
      n = 0 ∨ s = 0 ∨ ct = 0 ∨ (∀ i, charAt 1 mem s i ≠ 0) ∨ EndsBelow 1 mem ct n

section

variable {w : Nat} {mem : Nat → UInt8} {addr n : Nat}

theorem endsBelow_iff : EndsBelow w mem addr n ↔ lenFrom w mem addr n 0 < n := by
  constructor
  · rintro ⟨i, hi, hzero⟩
    by_contra hnot
    have hlt : i < lenFrom w mem addr n 0 := Nat.lt_of_lt_of_le hi (Nat.le_of_not_lt hnot)
    refine charAt_of_lt_lenFrom hlt ?_
    rwa [Nat.zero_add]
  · intro hlt
    refine ⟨_, hlt, ?_⟩
    have hzero := charAt_lenFrom hlt
    rwa [Nat.zero_add] at hzero

variable {h : BoundedHook} {p : HookPtr}

/-- The characters that may be accessed, when there is a bound. -/
theorem mayAccess_iff (hb : h.bound p.arg = some n) (i : Nat) : h.MayAccess mem p i ↔
    i < n ∧ i ≤ lenFrom h.width mem p.addr n 0 := by
  simp only [MayAccess, hb, Option.some_inj, forall_eq']
  refine and_congr_right fun hi => ?_
  constructor
  · intro hne
    by_contra hnot
    have hlt := Nat.lt_of_not_le hnot
    refine hne _ hlt ?_
    have hzero := charAt_lenFrom (Nat.lt_trans hlt hi)
    rwa [Nat.zero_add] at hzero
  · intro hle j hj
    have hne := charAt_of_lt_lenFrom (w := h.width) (Nat.lt_of_lt_of_le hj hle)
    rwa [Nat.zero_add] at hne

theorem allowed_read (hw : 0 < h.width) {i : Nat} :
    h.Allowed mem (.read p (h.width * i) h.width) ↔ h.MayAccess mem p i := by
  constructor
  · intro hall
    have hfirst := hall (h.width * i) (Nat.le_refl _) (by omega)
    rwa [Nat.mul_div_cancel_left _ hw] at hfirst
  · intro hmay o hle hlt
    have hdiv : o / h.width = i := by
      refine Nat.div_eq_of_lt_le ?_ ?_
      · rwa [Nat.mul_comm]
      · rwa [Nat.succ_mul, Nat.mul_comm]
    rwa [hdiv]

theorem allowed_load (hw : 0 < h.width) {count : Nat} :
    h.Allowed mem (.load p 0 (count * h.width)) ↔ ∀ i < count, h.MayAccess mem p i := by
  constructor
  · intro hall i hi
    have hlt : h.width * i < 0 + count * h.width := by
      rw [Nat.zero_add, Nat.mul_comm]
      exact Nat.mul_lt_mul_of_pos_right hi hw
    have hfirst := hall (h.width * i) (Nat.zero_le _) hlt
    rwa [Nat.mul_div_cancel_left _ hw] at hfirst
  · intro hmay o _ hlt
    rw [Nat.zero_add] at hlt
    exact hmay _ (Nat.div_lt_of_lt_mul (by rwa [Nat.mul_comm]))

/-- The reads of a loop, when there is a bound. -/
theorem allowed_readsFrom (hw : 0 < h.width) (hb : h.bound p.arg = some n) {count : Nat}
    (hcount : count ≤ n) (hlen : count ≤ lenFrom h.width mem p.addr n 0 + 1) :
    ∀ e ∈ readsFrom h.width p 0 count, h.Allowed mem e := by
  intro e he
  obtain ⟨i, -, hi, rfl⟩ := mem_readsFrom.mp he
  rw [allowed_read hw, mayAccess_iff hb]
  omega

/-! ## Comparing -/

theorem run_compareChars (w : Nat) (key : Nat → Int) (p q : HookPtr) (pLen qLen rest i : Nat)
    (s : HookState) :
    ∃ r new, (compareChars w key p q pLen qLen rest i).run s = some (.ok r, s.logged new) ∧
      ∀ e ∈ new, ∃ j, j < pLen ∧ j < qLen ∧
        (e = .read p (w * j) w ∨ e = .read q (w * j) w) := by
  induction rest generalizing i s with
  | zero => exact ⟨0, [], rfl, fun e he => absurd he List.not_mem_nil⟩
  | succ rest ih =>
      rw [compareChars]
      by_cases hp : pLen ≤ i
      · rw [if_pos hp]
        exact ⟨-1, [], rfl, fun e he => absurd he List.not_mem_nil⟩
      by_cases hq : qLen ≤ i
      · rw [if_neg hp, if_pos hq]
        exact ⟨1, [], rfl, fun e he => absurd he List.not_mem_nil⟩
      rw [if_neg hp, if_neg hq, Call.run_bind_of_ok (run_readChar p i s),
        Call.run_bind_of_ok (run_readChar q i _), logged_logged]
      have hboth : ∀ e ∈ ([.read q (w * i) w] ++ [.read p (w * i) w] : List HookEvent),
          ∃ j, j < pLen ∧ j < qLen ∧ (e = .read p (w * j) w ∨ e = .read q (w * j) w) := by
        intro e he
        refine ⟨i, Nat.lt_of_not_le hp, Nat.lt_of_not_le hq, ?_⟩
        simpa [or_comm] using he
      split
      · exact ⟨-1, _, rfl, hboth⟩
      split
      · exact ⟨1, _, rfl, hboth⟩
      obtain ⟨r, new, hrun, hnew⟩ := ih (i + 1)
        (s.logged ([.read q (w * i) w] ++ [.read p (w * i) w]))
      refine ⟨r, new ++ ([.read q (w * i) w] ++ [.read p (w * i) w]), ?_, fun e he => ?_⟩
      · rw [hrun, logged_logged]
      · rcases List.mem_append.mp he with he | he
        · exact hnew e he
        · exact hboth e he

theorem run_compareHook (name first second : String) (w : Nat) (key : Nat → Int) {cs ct n : Nat}
    (hn : n ≠ 0) (hcs : cs ≠ 0) (hct : ct ≠ 0) (mem : Nat → UInt8) :
    ∃ r new, (compareHook name first second w key cs ct n).run ⟨mem, []⟩ = some (.ok r,
      ⟨mem, new ++ ([.load ⟨1, ct⟩ 0 ((lenFrom w mem ct n 0 + 1) * w),
        .load ⟨0, cs⟩ 0 ((lenFrom w mem cs n 0 + 1) * w)] ++
        (readsFrom w ⟨1, ct⟩ 0 (min (lenFrom w mem ct n 0 + 1) n) ++
          readsFrom w ⟨0, cs⟩ 0 (min (lenFrom w mem cs n 0 + 1) n)))⟩) ∧
      ∀ e ∈ new, ∃ j, j < lenFrom w mem cs n 0 ∧ j < lenFrom w mem ct n 0 ∧
        (e = .read ⟨0, cs⟩ (w * j) w ∨ e = .read ⟨1, ct⟩ (w * j) w) := by
  obtain ⟨r, new, hrun, hnew⟩ := run_compareChars w key ⟨0, cs⟩ ⟨1, ct⟩ (lenFrom w mem cs n 0)
    (lenFrom w mem ct n 0) (max (lenFrom w mem cs n 0) (lenFrom w mem ct n 0)) 0
    ⟨mem, [.load ⟨1, ct⟩ 0 ((lenFrom w mem ct n 0 + 1) * w),
        .load ⟨0, cs⟩ 0 ((lenFrom w mem cs n 0 + 1) * w)] ++
        (readsFrom w ⟨1, ct⟩ 0 (min (lenFrom w mem ct n 0 + 1) n) ++
          readsFrom w ⟨0, cs⟩ 0 (min (lenFrom w mem cs n 0 + 1) n))⟩
  refine ⟨r, new, ?_, hnew⟩
  rw [compareHook, if_neg hn, if_neg hcs, if_neg hct,
    Call.run_bind_of_ok (run_scanBounded _ _ _ _), Call.run_bind_of_ok (run_scanBounded _ _ _ _),
    logged_logged]
  simp only [HookState.logged, List.append_nil, Nat.zero_add]
  exact hrun

/-- The comparison of two strings. -/
theorem compareHook_staysInBounds (hw : 0 < h.width) {name first second : String}
    {key : Nat → Int} {cs ct : Nat} (hb : ∀ arg, h.bound arg = some n)
    (hcall : ∀ fuel, h.call fuel =
      (fun _ => ()) <$> compareHook name first second h.width key cs ct n) :
    h.StaysInBounds mem ↔ n = 0 ∨ cs = 0 ∨ ct = 0 ∨
      EndsBelow h.width mem cs n ∧ EndsBelow h.width mem ct n := by
  simp only [StaysInBounds, hcall, Call.run_map]
  by_cases hn : n = 0
  · refine iff_of_true (fun _ r t hrun e he => ?_) (.inl hn)
    rw [compareHook, if_pos hn] at hrun
    obtain ⟨-, rfl⟩ := Prod.mk.inj (Option.some.inj hrun)
    cases he
  by_cases hcs : cs = 0
  · refine iff_of_true (fun _ r t hrun e he => ?_) (.inr (.inl hcs))
    rw [compareHook, if_neg hn, if_pos hcs] at hrun
    obtain ⟨-, rfl⟩ := Prod.mk.inj (Option.some.inj hrun)
    cases he
  by_cases hct : ct = 0
  · refine iff_of_true (fun _ r t hrun e he => ?_) (.inr (.inr (.inl hct)))
    rw [compareHook, if_neg hn, if_neg hcs, if_pos hct] at hrun
    obtain ⟨-, rfl⟩ := Prod.mk.inj (Option.some.inj hrun)
    cases he
  rw [or_iff_right hn, or_iff_right hcs, or_iff_right hct, endsBelow_iff, endsBelow_iff]
  obtain ⟨r₀, new, hrun₀, hnew⟩ :=
    run_compareHook name first second h.width key hn hcs hct mem
  rw [hrun₀]
  constructor
  · intro hall
    have hevents := hall 0 _ _ rfl
    have hloadCs := hevents (.load ⟨0, cs⟩ 0 ((lenFrom h.width mem cs n 0 + 1) * h.width))
      (by simp)
    have hloadCt := hevents (.load ⟨1, ct⟩ 0 ((lenFrom h.width mem ct n 0 + 1) * h.width))
      (by simp)
    rw [allowed_load hw] at hloadCs hloadCt
    have hlastCs := (mayAccess_iff (hb _) _).mp (hloadCs _ (Nat.lt_succ_self _))
    have hlastCt := (mayAccess_iff (hb _) _).mp (hloadCt _ (Nat.lt_succ_self _))
    exact ⟨hlastCs.1, hlastCt.1⟩
  · rintro ⟨hltCs, hltCt⟩ _ r t hrun
    obtain ⟨-, rfl⟩ := Prod.mk.inj (Option.some.inj hrun)
    intro e he
    rcases List.mem_append.mp he with he | he
    · obtain ⟨j, hjCs, hjCt, rfl | rfl⟩ := hnew e he
      · rw [allowed_read hw, mayAccess_iff (hb _)]
        exact ⟨by omega, Nat.le_of_lt hjCs⟩
      · rw [allowed_read hw, mayAccess_iff (hb _)]
        exact ⟨by omega, Nat.le_of_lt hjCt⟩
    rcases List.mem_append.mp he with he | he
    · rcases List.mem_cons.mp he with rfl | he
      · rw [allowed_load hw]
        intro i hi
        rw [mayAccess_iff (hb _)]
        dsimp only
        omega
      · obtain rfl := List.mem_singleton.mp he
        rw [allowed_load hw]
        intro i hi
        rw [mayAccess_iff (hb _)]
        dsimp only
        omega
    rcases List.mem_append.mp he with he | he
    · exact allowed_readsFrom hw (hb _) (Nat.min_le_right _ _) (Nat.min_le_left _ _) e he
    · exact allowed_readsFrom hw (hb _) (Nat.min_le_right _ _) (Nat.min_le_left _ _) e he

/-! ## The other hooks -/

/-- A character of one byte is a byte. -/
theorem allowed_bytes {k : BoundedHook} (hw : k.width = 1) {count : Nat} :
    k.Allowed mem (.load p 0 count) ↔ ∀ i < count, k.MayAccess mem p i := by
  have hload : k.Allowed mem (.load p 0 (count * k.width)) ↔ _ := allowed_load (hw ▸ Nat.one_pos)
  rwa [hw, Nat.mul_one] at hload

theorem run_strndup {cs : Nat} (hcs : cs ≠ 0) (n dest : Nat) (mem : Nat → UInt8) :
    ∃ m, (Hooks.strndup cs n dest).run ⟨mem, []⟩ = some (.ok dest,
      ⟨m, [.write ⟨2, dest⟩ (lenFrom 1 mem cs n 0) 1,
        .write ⟨2, dest⟩ 0 (lenFrom 1 mem cs n 0 + 1),
        .read ⟨0, cs⟩ 0 (lenFrom 1 mem cs n 0 + 1), .alloc (lenFrom 1 mem cs n 0 + 1) 0,
        .load ⟨0, cs⟩ 0 (lenFrom 1 mem cs n 0 + 1)] ++
        readsFrom 1 ⟨0, cs⟩ 0 (min (lenFrom 1 mem cs n 0 + 1) n)⟩) := by
  rw [Hooks.strndup, if_neg hcs, Call.run_bind_of_ok (run_scanBounded _ _ _ _), Nat.zero_add]
  simp only [HookState.logged, List.append_nil]
  exact ⟨_, rfl⟩

theorem strndup_staysInBounds (cs n dest : Nat) (mem : Nat → UInt8) :
    (strndup cs n dest).StaysInBounds mem ↔ cs = 0 ∨ EndsBelow 1 mem cs n := by
  simp only [StaysInBounds, call, Call.run_map]
  by_cases hcs : cs = 0
  · refine iff_of_true (fun _ r t hrun e he => ?_) (.inl hcs)
    rw [Hooks.strndup, if_pos hcs] at hrun
    split at hrun
    · obtain ⟨-, rfl⟩ := Prod.mk.inj (Option.some.inj hrun)
      rcases List.mem_cons.mp he with rfl | he
      · trivial
      · obtain rfl := List.mem_singleton.mp he
        trivial
    · obtain ⟨-, rfl⟩ := Prod.mk.inj (Option.some.inj hrun)
      cases he
  obtain ⟨m, hrun₀⟩ := run_strndup hcs n dest mem
  rw [or_iff_right hcs, endsBelow_iff, hrun₀]
  have hb : (strndup cs n dest).bound 0 = some n := rfl
  constructor
  · intro hall
    have hload := hall 0 _ _ rfl (.load ⟨0, cs⟩ 0 (lenFrom 1 mem cs n 0 + 1)) (by simp)
    rw [allowed_bytes rfl] at hload
    exact ((mayAccess_iff hb _).mp (hload _ (Nat.lt_succ_self _))).1
  · intro hlt _ r t hrun e he
    obtain ⟨-, rfl⟩ := Prod.mk.inj (Option.some.inj hrun)
    have hload : (strndup cs n dest).Allowed mem (.load ⟨0, cs⟩ 0 (lenFrom 1 mem cs n 0 + 1)) := by
      rw [allowed_bytes rfl]
      intro i hi
      rw [mayAccess_iff hb]
      exact ⟨by omega, Nat.le_of_lt_succ hi⟩
    simp only [List.cons_append, List.nil_append, List.mem_cons] at he
    rcases he with rfl | rfl | rfl | rfl | rfl | he
    · trivial
    · trivial
    · exact hload
    · trivial
    · exact hload
    · exact allowed_readsFrom (h := strndup cs n dest) Nat.one_pos hb (Nat.min_le_right _ _)
        (Nat.min_le_left _ _) e he

theorem lenFrom_le_of_charAt {i fuel : Nat} (hzero : charAt w mem addr i = 0) :
    lenFrom w mem addr fuel 0 ≤ i := by
  by_contra hnot
  have hne := charAt_of_lt_lenFrom (Nat.lt_of_not_le hnot)
  rw [Nat.zero_add] at hne
  exact hne hzero

/-- A loop without a bound goes past a bound without a terminator. -/
theorem le_lenFrom_of_not_endsBelow {fuel : Nat} (hends : ¬ EndsBelow w mem addr n)
    (hn : n ≤ fuel) : n ≤ lenFrom w mem addr fuel 0 := by
  by_contra hnot
  have hlt := Nat.lt_of_not_le hnot
  have hzero := charAt_lenFrom (Nat.lt_of_lt_of_le hlt hn)
  rw [Nat.zero_add] at hzero
  exact hends ⟨_, hlt, hzero⟩

theorem lenFrom_le_of_endsBelow {fuel : Nat} (hends : EndsBelow w mem addr n) :
    lenFrom w mem addr fuel 0 ≤ lenFrom w mem addr n 0 := by
  have hzero := charAt_lenFrom (endsBelow_iff.mp hends)
  rw [Nat.zero_add] at hzero
  exact lenFrom_le_of_charAt hzero

/-- The reads of a loop without a bound, as those of one with a bound. -/
theorem allowed_reads_of_endsBelow (hw : 0 < h.width) (hb : h.bound p.arg = some n)
    (hends : EndsBelow h.width mem p.addr n) (fuel : Nat) :
    ∀ e ∈ readsFrom h.width p 0 (min (lenFrom h.width mem p.addr fuel 0 + 1) fuel),
      h.Allowed mem e := by
  have hle : lenFrom h.width mem p.addr fuel 0 ≤ _ := lenFrom_le_of_endsBelow hends
  have hlt := endsBelow_iff.mp hends
  exact allowed_readsFrom hw hb (by omega) (by omega)

/-- The read of the first character past a bound. -/
theorem read_mem_of_not_endsBelow (hends : ¬ EndsBelow w mem p.addr n) {fuel : Nat}
    (hn : n < fuel) :
    .read p (w * n) w ∈ readsFrom w p 0 (min (lenFrom w mem p.addr fuel 0 + 1) fuel) := by
  have hle := le_lenFrom_of_not_endsBelow hends (Nat.le_of_lt hn)
  exact mem_readsFrom.mpr ⟨n, Nat.zero_le n, by omega, rfl⟩

theorem run_strnlen {cs maxlen : Nat} (hmaxlen : maxlen ≠ 0) (hcs : cs ≠ 0) (fuel : Nat)
    (mem : Nat → UInt8) :
    ∃ r, (Hooks.strnlen fuel cs maxlen).run ⟨mem, []⟩ = some (r,
      ⟨mem, (if lenFrom 1 mem cs fuel 0 < fuel then
          [.load ⟨0, cs⟩ 0 (min (lenFrom 1 mem cs fuel 0 + 1) maxlen)] else []) ++
        readsFrom 1 ⟨0, cs⟩ 0 (min (lenFrom 1 mem cs fuel 0 + 1) fuel)⟩) := by
  rw [Hooks.strnlen, if_neg hmaxlen, if_neg hcs]
  by_cases hlt : lenFrom 1 mem cs fuel 0 < fuel
  · have hscan := run_scan (w := 1) ⟨0, cs⟩ fuel 0 ⟨mem, []⟩
    rw [if_pos hlt] at hscan ⊢
    rw [Call.run_bind_of_ok hscan, Nat.zero_add]
    simp only [HookState.logged, List.append_nil]
    split
    · next hbelow =>
        have hmin : min (lenFrom 1 mem cs fuel 0 + 1) maxlen = lenFrom 1 mem cs fuel 0 + 1 :=
          Nat.min_eq_left hbelow
        rw [hmin]
        exact ⟨_, rfl⟩
    · next hbelow =>
        have hmin : min (lenFrom 1 mem cs fuel 0 + 1) maxlen = maxlen :=
          Nat.min_eq_right (Nat.le_succ_of_le (Nat.le_of_not_lt hbelow))
        rw [hmin]
        exact ⟨_, rfl⟩
  · have hscan := run_scan (w := 1) ⟨0, cs⟩ fuel 0 ⟨mem, []⟩
    rw [if_neg hlt] at hscan ⊢
    rw [Call.run_bind_of_error hscan]
    simp only [HookState.logged, List.append_nil]
    exact ⟨_, rfl⟩

theorem strnlen_staysInBounds (cs maxlen : Nat) (mem : Nat → UInt8) :
    (strnlen cs maxlen).StaysInBounds mem ↔ maxlen = 0 ∨ cs = 0 ∨ EndsBelow 1 mem cs maxlen := by
  simp only [StaysInBounds, call, Call.run_map]
  by_cases hmaxlen : maxlen = 0
  · refine iff_of_true (fun _ r t hrun e he => ?_) (.inl hmaxlen)
    rw [Hooks.strnlen, if_pos hmaxlen] at hrun
    obtain ⟨-, rfl⟩ := Prod.mk.inj (Option.some.inj hrun)
    cases he
  by_cases hcs : cs = 0
  · refine iff_of_true (fun _ r t hrun e he => ?_) (.inr (.inl hcs))
    rw [Hooks.strnlen, if_neg hmaxlen, if_pos hcs] at hrun
    obtain ⟨-, rfl⟩ := Prod.mk.inj (Option.some.inj hrun)
    cases he
  rw [or_iff_right hmaxlen, or_iff_right hcs]
  have hb : (strnlen cs maxlen).bound 0 = some maxlen := rfl
  constructor
  · intro hall
    by_contra hends
    obtain ⟨r, hrun⟩ := run_strnlen hmaxlen hcs (maxlen + 1) mem
    have hread := hall (maxlen + 1) _ _ (by rw [hrun]; rfl) (.read ⟨0, cs⟩ (1 * maxlen) 1)
      (List.mem_append_right _ (read_mem_of_not_endsBelow hends (Nat.lt_succ_self _)))
    have hlast := (mayAccess_iff hb _).mp ((allowed_read (h := strnlen cs maxlen) Nat.one_pos).mp
      hread)
    exact Nat.lt_irrefl maxlen hlast.1
  · intro hends fuel r t hrun e he
    obtain ⟨r₀, hrun₀⟩ := run_strnlen hmaxlen hcs fuel mem
    rw [hrun₀] at hrun
    obtain ⟨-, rfl⟩ := Prod.mk.inj (Option.some.inj hrun)
    rcases List.mem_append.mp he with he | he
    · have hle : lenFrom 1 mem cs fuel 0 ≤ lenFrom 1 mem cs maxlen 0 :=
        lenFrom_le_of_endsBelow hends
      split at he
      · obtain rfl := List.mem_singleton.mp he
        rw [allowed_bytes rfl]
        intro i hi
        rw [mayAccess_iff hb]
        exact ⟨by omega, Nat.le_trans (by omega) hle⟩
      · cases he
    · exact allowed_reads_of_endsBelow (h := strnlen cs maxlen) (p := ⟨0, cs⟩) Nat.one_pos hb hends
        fuel e he

/-- What is left of a call of `strncat` after the loops. -/
theorem run_strncat {s ct n : Nat} (hn : n ≠ 0) (hs : s ≠ 0) (hct : ct ≠ 0) (fuel : Nat)
    (mem : Nat → UInt8) :
    ∃ r m new, (Hooks.strncat fuel s ct n).run ⟨mem, []⟩ = some (r,
      ⟨m, new ++ ((if lenFrom 1 mem s fuel 0 < fuel then
          readsFrom 1 ⟨1, ct⟩ 0 (min (lenFrom 1 mem ct fuel 0 + 1) fuel) else []) ++
        readsFrom 1 ⟨0, s⟩ 0 (min (lenFrom 1 mem s fuel 0 + 1) fuel))⟩) ∧
      ∀ e ∈ new, (strncat s ct n).Allowed mem e := by
  have hscan := run_scan (w := 1) ⟨0, s⟩ fuel 0 ⟨mem, []⟩
  rw [Hooks.strncat, if_neg hn, if_neg hs, if_neg hct]
  by_cases hlt : lenFrom 1 mem s fuel 0 < fuel
  · rw [if_pos hlt] at hscan ⊢
    have hscan' := run_scan (w := 1) ⟨1, ct⟩ fuel 0 (HookState.logged
      (readsFrom 1 ⟨0, s⟩ 0 (min (lenFrom 1 mem s fuel 0 + 1) fuel)) ⟨mem, []⟩)
    rw [Call.run_bind_of_ok hscan]
    by_cases hlt' : lenFrom 1 mem ct fuel 0 < fuel
    · rw [logged_logged] at hscan'
      simp only [HookState.logged, List.append_nil, if_pos hlt', Nat.zero_add] at hscan'
      simp only [HookState.logged, List.append_nil]
      rw [Call.run_bind_of_ok hscan', Nat.zero_add]
      refine ⟨_, _, [.write ⟨0, s⟩ (lenFrom 1 mem s fuel 0 + min (lenFrom 1 mem ct fuel 0) n + 1) 1,
        .write ⟨0, s⟩ (lenFrom 1 mem s fuel 0) (min (lenFrom 1 mem ct fuel 0) n),
        .read ⟨1, ct⟩ 0 (min (lenFrom 1 mem ct fuel 0) n),
        .load ⟨1, ct⟩ 0 (min (lenFrom 1 mem ct fuel 0) n),
        .store ⟨0, s⟩ (lenFrom 1 mem s fuel 0) (min (lenFrom 1 mem ct fuel 0) n + 1)],
        rfl, ?_⟩
      -- what is copied is a part of what the loop has read
      have hload : (strncat s ct n).Allowed mem
          (.load ⟨1, ct⟩ 0 (min (lenFrom 1 mem ct fuel 0) n)) := by
        rw [allowed_bytes rfl]
        refine fun i hi => ⟨fun n' hn' => ?_, fun j hj => ?_⟩
        · obtain rfl := Option.some.inj hn'
          omega
        · have hlen : j < lenFrom 1 mem ct fuel 0 := by omega
          have hne := charAt_of_lt_lenFrom hlen
          rwa [Nat.zero_add] at hne
      intro e he
      simp only [List.mem_cons, List.not_mem_nil, or_false] at he
      rcases he with rfl | rfl | rfl | rfl | rfl
      · trivial
      · trivial
      · exact hload
      · exact hload
      · trivial
    · rw [logged_logged] at hscan'
      simp only [HookState.logged, List.append_nil, if_neg hlt'] at hscan'
      simp only [HookState.logged, List.append_nil]
      rw [Call.run_bind_of_error hscan']
      exact ⟨_, _, [], rfl, fun e he => absurd he List.not_mem_nil⟩
  · rw [if_neg hlt] at hscan ⊢
    rw [Call.run_bind_of_error hscan]
    simp only [HookState.logged, List.append_nil]
    exact ⟨_, _, [], rfl, fun e he => absurd he List.not_mem_nil⟩

theorem strncat_staysInBounds (s ct n : Nat) (mem : Nat → UInt8) :
    (strncat s ct n).StaysInBounds mem ↔
      n = 0 ∨ s = 0 ∨ ct = 0 ∨ (∀ i, charAt 1 mem s i ≠ 0) ∨ EndsBelow 1 mem ct n := by
  simp only [StaysInBounds, call, Call.run_map]
  by_cases hn : n = 0
  · refine iff_of_true (fun _ r t hrun e he => ?_) (.inl hn)
    rw [Hooks.strncat, if_pos hn] at hrun
    obtain ⟨-, rfl⟩ := Prod.mk.inj (Option.some.inj hrun)
    cases he
  by_cases hs : s = 0
  · refine iff_of_true (fun _ r t hrun e he => ?_) (.inr (.inl hs))
    rw [Hooks.strncat, if_neg hn, if_pos hs] at hrun
    obtain ⟨-, rfl⟩ := Prod.mk.inj (Option.some.inj hrun)
    cases he
  by_cases hct : ct = 0
  · refine iff_of_true (fun _ r t hrun e he => ?_) (.inr (.inr (.inl hct)))
    rw [Hooks.strncat, if_neg hn, if_neg hs, if_pos hct] at hrun
    obtain ⟨-, rfl⟩ := Prod.mk.inj (Option.some.inj hrun)
    cases he
  rw [or_iff_right hn, or_iff_right hs, or_iff_right hct]
  have hb : (strncat s ct n).bound 1 = some n := rfl
  constructor
  · intro hall
    by_contra hnot
    obtain ⟨hterminated, hends⟩ := not_or.mp hnot
    push Not at hterminated
    obtain ⟨i, hi⟩ := hterminated
    -- enough for the first loop to end and for the second one to pass the bound
    obtain ⟨r, m, new, hrun, -⟩ := run_strncat hn hs hct (i + n + 1) mem
    have hlt : lenFrom 1 mem s (i + n + 1) 0 < i + n + 1 := by
      have hle : lenFrom 1 mem s (i + n + 1) 0 ≤ i := lenFrom_le_of_charAt hi
      omega
    rw [if_pos hlt] at hrun
    have hmem := read_mem_of_not_endsBelow (w := 1) (p := ⟨1, ct⟩) hends
      (show n < i + n + 1 by omega)
    have hread := hall (i + n + 1) _ _ (by rw [hrun]; rfl) _
      (List.mem_append_right _ (List.mem_append_left _ hmem))
    have hlast := (mayAccess_iff hb _).mp ((allowed_read (h := strncat s ct n) Nat.one_pos).mp
      hread)
    exact Nat.lt_irrefl n hlast.1
  · intro hor fuel r t hrun e he
    obtain ⟨r₀, m, new, hrun₀, hnew⟩ := run_strncat hn hs hct fuel mem
    rw [hrun₀] at hrun
    obtain ⟨-, rfl⟩ := Prod.mk.inj (Option.some.inj hrun)
    rcases List.mem_append.mp he with he | he
    · exact hnew e he
    rcases List.mem_append.mp he with he | he
    · split at he
      · next hlt =>
          rcases hor with hendless | hends
          · refine absurd ?_ (hendless (lenFrom 1 mem s fuel 0))
            simpa using charAt_lenFrom hlt
          · exact allowed_reads_of_endsBelow (h := strncat s ct n) (p := ⟨1, ct⟩) Nat.one_pos hb
              hends fuel e he
      · cases he
    · -- the string that is appended to has no bound
      obtain ⟨i, -, hi, rfl⟩ := mem_readsFrom.mp he
      refine (allowed_read (h := strncat s ct n) Nat.one_pos).mpr
        ⟨fun n' hn' => (nomatch hn'), fun j hj => ?_⟩
      have hlen : j < lenFrom 1 mem s fuel 0 := by omega
      have hne := charAt_of_lt_lenFrom hlen
      rwa [Nat.zero_add] at hne

/-- **What is read and passed to `asan_load`** is within the bound, and before
or at the terminator, just for the calls whose strings end below the bound. -/
theorem staysInBounds_iff_ended (h : BoundedHook) (mem : Nat → UInt8) :
    h.StaysInBounds mem ↔ h.Ended mem := by
  cases h with
  | strncmp cs ct n =>
      exact compareHook_staysInBounds (h := strncmp cs ct n) Nat.one_pos (fun _ => rfl)
        (fun _ => rfl)
  | strncasecmp s1 s2 n =>
      exact compareHook_staysInBounds (h := strncasecmp s1 s2 n) Nat.one_pos (fun _ => rfl)
        (fun _ => rfl)
  | wcsncmp cs ct n =>
      exact compareHook_staysInBounds (h := wcsncmp cs ct n) (Nat.succ_pos 3) (fun _ => rfl)
        (fun _ => rfl)
  | strndup cs n dest => exact strndup_staysInBounds cs n dest mem
  | strnlen cs maxlen => exact strnlen_staysInBounds cs maxlen mem
  | strncat s ct n => exact strncat_staysInBounds s ct n mem

/-- Two buffers of one byte that is no terminator are compared: the byte after
each of them is passed to `asan_load`. -/
theorem not_staysInBounds_unterminated :
    ¬ (strncmp 1 2 1).StaysInBounds (fun _ => 97) := by
  rw [StaysInBounds]
  intro hall
  have hload := hall 0 _ _ rfl (.load ⟨0, 1⟩ 0 2) (by decide) 1 (Nat.zero_le 1) (by decide)
  exact absurd (hload.1 1 rfl) (by decide)

end

end BoundedHook

end Libaflmm
