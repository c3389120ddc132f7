import Libaflmm.StringHooks

/-!
# What the copying hooks leave

In C all three copy as much of the source as there is and as the bound allows,
and then write terminators: `strncat` one behind the string that was there,
`strncpy` and `stpncpy` up to the bound. Every byte that is written was passed
to `asan_store` before.
-/

namespace Libaflmm

inductive CopyHook
  | strncat | strncpy | stpncpy
deriving DecidableEq

structure CopyCall where
  hook : CopyHook
  dst : Nat
  src : Nat
  n : Nat

/-- A string of `len` characters, and its terminator. -/
def StringAt (mem : Nat → UInt8) (addr len : Nat) : Prop :=
  (∀ i < len, mem (addr + i) ≠ 0) ∧ mem (addr + len) = 0

def Within (first len a : Nat) : Prop := first ≤ a ∧ a < first + len

/-- The byte was written. -/
def Written (events : List HookEvent) (a : Nat) : Prop :=
  ∃ p offset len, .write p offset len ∈ events ∧ Within (p.addr + offset) len a

/-- The byte was passed to `asan_store`. -/
def Stored (events : List HookEvent) (a : Nat) : Prop :=
  ∃ p offset len, .store p offset len ∈ events ∧ Within (p.addr + offset) len a

/-- Before a byte is written it is passed to `asan_store`. -/
def Covered : List HookEvent → Prop
  | [] => True
  | .write p offset len :: older =>
      (∀ a, Within (p.addr + offset) len a → Stored older a) ∧ Covered older
  | _ :: older => Covered older

namespace CopyCall

open Hooks

def call (c : CopyCall) (fuel : Nat) : Hook Nat :=
  match c.hook with
  | .strncat => Hooks.strncat fuel c.dst c.src c.n
  | .strncpy => Hooks.strncpy c.dst c.src c.n
  | .stpncpy => Hooks.stpncpy fuel c.dst c.src c.n

/-! ## In C -/

/-- The first byte that C writes. -/
def first (c : CopyCall) (dstLen : Nat) : Nat :=
  if c.hook = .strncat then c.dst + dstLen else c.dst

/-- How many bytes C writes. -/
def count (c : CopyCall) (srcLen : Nat) : Nat :=
  if c.hook = .strncat then min c.n srcLen + 1 else c.n

/-- The memory that C leaves. -/
def leaves (c : CopyCall) (mem : Nat → UInt8) (dstLen srcLen a : Nat) : UInt8 :=
  if c.first dstLen ≤ a ∧ a < c.first dstLen + c.count srcLen then
    if a < c.first dstLen + min c.n srcLen then mem (c.src + (a - c.first dstLen)) else 0
  else mem a

/-- `stpncpy` returns the address of the first terminator, or of the byte behind
the last one that is written. -/
def returns (c : CopyCall) (srcLen : Nat) : Nat :=
  if c.hook = .stpncpy then c.dst + min c.n srcLen else c.dst

/-- A call that returned `r` has done what C says. -/
structure DoneAsInC (c : CopyCall) (mem : Nat → UInt8) (dstLen srcLen r : Nat)
    (t : HookState) : Prop where
  returned : r = c.returns srcLen
  left : t.mem = c.leaves mem dstLen srcLen
  inside : ∀ a, Written t.events a → Within (c.first dstLen) (c.count srcLen) a
  written : c.hook ≠ .strncat → ∀ a, Within (c.first dstLen) (c.count srcLen) a →
    Written t.events a
  covered : Covered t.events

/-- The call returns, and has done what C says. -/
def MatchesC (c : CopyCall) (mem : Nat → UInt8) (dstLen srcLen : Nat) : Prop :=
  ∃ enough r t, (∀ fuel, enough ≤ fuel → (c.call fuel).run ⟨mem, []⟩ = some (.ok r, t)) ∧
    c.DoneAsInC mem dstLen srcLen r t

/-- The bound is not above the length of the source; of `strncat`, it is zero. -/
def Fits (c : CopyCall) (srcLen : Nat) : Prop :=
  if c.hook = .strncat then c.n = 0 else c.n ≤ srcLen

section

variable {c : CopyCall} {mem : Nat → UInt8} {dstLen srcLen : Nat}

theorem charAt_one (mem : Nat → UInt8) (addr i : Nat) :
    charAt 1 mem addr i = (mem (addr + i)).toNat := by
  simp [charAt]

theorem charAt_one_eq_zero {addr i : Nat} : charAt 1 mem addr i = 0 ↔ mem (addr + i) = 0 := by
  rw [charAt_one, ← UInt8.toNat_inj]
  rfl

/-- The loops count the characters of a string. -/
theorem lenFrom_of_stringAt {addr len : Nat} (h : StringAt mem addr len) (rest : Nat) :
    lenFrom 1 mem addr rest 0 = min len rest := by
  by_cases hlen : len < rest
  · rw [Nat.min_eq_left (Nat.le_of_lt hlen), lenFrom_eq_iff hlen]
    exact ⟨charAt_one_eq_zero.mpr h.2, fun j hj => mt charAt_one_eq_zero.mp (h.1 j hj)⟩
  · have hle : lenFrom 1 mem addr rest 0 ≤ rest := lenFrom_le rest 0
    rw [Nat.min_eq_right (Nat.le_of_not_lt hlen)]
    by_contra hne
    have hlt := Nat.lt_of_le_of_ne hle hne
    have hzero := charAt_lenFrom hlt
    rw [Nat.zero_add, charAt_one_eq_zero] at hzero
    exact h.1 _ (by omega) hzero

theorem run_scan_of_stringAt {p : HookPtr} {len fuel : Nat} {s : HookState}
    (h : StringAt s.mem p.addr len) (hfuel : len < fuel) :
    (scan 1 p fuel 0).run s = some (.ok len, s.logged (readsFrom 1 p 0 (len + 1))) := by
  rw [run_scan, lenFrom_of_stringAt h, Nat.min_eq_left (Nat.le_of_lt hfuel), if_pos hfuel,
    Nat.zero_add, Nat.min_eq_left hfuel]

theorem matchesC_of_run {enough r : Nat} {t : HookState}
    (hrun : ∀ fuel, enough ≤ fuel → (c.call fuel).run ⟨mem, []⟩ = some (.ok r, t)) :
    c.MatchesC mem dstLen srcLen ↔ c.DoneAsInC mem dstLen srcLen r t := by
  constructor
  · rintro ⟨enough', r', t', hrun', hdone⟩
    have hboth := (hrun _ (Nat.le_max_left enough enough')).symm.trans
      (hrun' _ (Nat.le_max_right enough enough'))
    obtain ⟨hr, rfl⟩ := Prod.mk.inj (Option.some.inj hboth)
    obtain rfl := Except.ok.inj hr
    exact hdone
  · exact fun hdone => ⟨enough, r, t, hrun, hdone⟩

/-! ## What was written -/

theorem written_write {p : HookPtr} {offset len a : Nat} {events : List HookEvent} :
    Written (.write p offset len :: events) a ↔
      Within (p.addr + offset) len a ∨ Written events a := by
  simp [Written, or_and_right, exists_or]

theorem written_cons {e : HookEvent} (he : ∀ p offset len, e ≠ .write p offset len)
    {events : List HookEvent} {a : Nat} : Written (e :: events) a ↔ Written events a := by
  constructor
  · rintro ⟨p, offset, len, hmem, hin⟩
    rcases List.mem_cons.mp hmem with heq | hmem
    · exact absurd heq.symm (he p offset len)
    · exact ⟨p, offset, len, hmem, hin⟩
  · exact fun ⟨p, offset, len, hmem, hin⟩ => ⟨p, offset, len, List.mem_cons_of_mem _ hmem, hin⟩

theorem not_written_readsFrom {p : HookPtr} {i count a : Nat} :
    ¬ Written (readsFrom 1 p i count) a := by
  rintro ⟨q, offset, len, hmem, -⟩
  obtain ⟨j, -, -, he⟩ := mem_readsFrom.mp hmem
  cases he

theorem covered_of_not_written {events : List HookEvent} (h : ∀ a, ¬ Written events a) :
    Covered events := by
  induction events with
  | nil => trivial
  | cons e older ih =>
      cases e with
      | write p offset len =>
          exact ⟨fun a ha => absurd (written_write.mpr (.inl ha)) (h a),
            ih fun a ha => h a (written_write.mpr (.inr ha))⟩
      | load p offset len => exact ih fun a ha => h a ((written_cons (by simp)).mpr ha)
      | store p offset len => exact ih fun a ha => h a ((written_cons (by simp)).mpr ha)
      | read p offset len => exact ih fun a ha => h a ((written_cons (by simp)).mpr ha)
      | alloc len align => exact ih fun a ha => h a ((written_cons (by simp)).mpr ha)

theorem covered_readsFrom {p : HookPtr} {i count : Nat} : Covered (readsFrom 1 p i count) :=
  covered_of_not_written fun _ => not_written_readsFrom

/-- Nothing was done. -/
theorem doneAsInC_nil {mem : Nat → UInt8} (hn : c.n = 0)
    (hdst : c.hook = .strncat → StringAt mem c.dst dstLen) :
    c.DoneAsInC mem dstLen srcLen c.dst ⟨mem, []⟩ where
  returned := by simp [returns, hn]
  left := by
    funext a
    rw [leaves]
    split
    · next hin =>
        by_cases hcat : c.hook = .strncat
        · -- the terminator that is there
          simp only [first, count, hcat, if_true, hn, Nat.zero_min, Nat.zero_add, Nat.add_zero]
            at hin ⊢
          rw [if_neg (by omega), ← (hdst hcat).2]
          exact congrArg mem (by omega)
        · simp only [count, hcat, if_false, hn] at hin
          omega
    · rfl
  inside := fun a ⟨p, offset, len, hmem, _⟩ => (nomatch hmem)
  written := fun hcat a hin => by
    simp only [Within, count, hcat, if_false, hn] at hin
    omega
  covered := trivial

/-! ## The three hooks -/

variable {dst src n : Nat}

theorem run_strncpy (hn : n ≠ 0) (hdst : dst ≠ 0) (hsrc : src ≠ 0)
    (hstr : StringAt mem src srcLen) : (Hooks.strncpy dst src n).run ⟨mem, []⟩ = some (.ok dst,
      ⟨copied mem src dst (min srcLen n), .write ⟨0, dst⟩ 0 (min srcLen n) ::
        .read ⟨1, src⟩ 0 (min srcLen n) :: .load ⟨1, src⟩ 0 (min srcLen n) ::
        .store ⟨0, dst⟩ 0 (min srcLen n) ::
        readsFrom 1 ⟨1, src⟩ 0 (min (min srcLen n + 1) n)⟩) := by
  rw [Hooks.strncpy, if_neg hn, if_neg hdst, if_neg hsrc,
    Call.run_bind_of_ok (run_scanBounded _ _ _ _), lenFrom_of_stringAt hstr, Nat.zero_add]
  simp only [HookState.logged, List.append_nil]
  rfl

theorem run_stpncpy {fuel : Nat} (hn : n ≠ 0) (hdst : dst ≠ 0) (hsrc : src ≠ 0)
    (hstr : StringAt mem src srcLen) (hfuel : srcLen < fuel) :
    (Hooks.stpncpy fuel dst src n).run ⟨mem, []⟩ = some (.ok (dst + n),
      ⟨filled (copied mem src dst (min (srcLen + 1) n)) (dst + min (srcLen + 1) n) 0
          (n - min (srcLen + 1) n),
        .write ⟨0, dst⟩ (min (srcLen + 1) n) (n - min (srcLen + 1) n) ::
        .write ⟨0, dst⟩ 0 (min (srcLen + 1) n) :: .read ⟨1, src⟩ 0 (min (srcLen + 1) n) ::
        .store ⟨0, dst⟩ 0 n :: .load ⟨1, src⟩ 0 (srcLen + 1) ::
        readsFrom 1 ⟨1, src⟩ 0 (srcLen + 1)⟩) := by
  rw [Hooks.stpncpy, if_neg hn, if_neg hdst, if_neg hsrc,
    Call.run_bind_of_ok (run_scan_of_stringAt hstr hfuel)]
  simp only [HookState.logged, List.append_nil]
  rfl

theorem run_strncat {fuel : Nat} (hn : n ≠ 0) (hdst : dst ≠ 0) (hsrc : src ≠ 0)
    (hcat : StringAt mem dst dstLen) (hstr : StringAt mem src srcLen) (hlt : dstLen < fuel)
    (hfuel : srcLen < fuel) :
    (Hooks.strncat fuel dst src n).run ⟨mem, []⟩ = some (.ok dst,
      ⟨filled (copied mem src (dst + dstLen) (min srcLen n))
          (dst + (dstLen + min srcLen n + 1)) 0 1,
        .write ⟨0, dst⟩ (dstLen + min srcLen n + 1) 1 ::
        .write ⟨0, dst⟩ dstLen (min srcLen n) :: .read ⟨1, src⟩ 0 (min srcLen n) ::
        .load ⟨1, src⟩ 0 (min srcLen n) :: .store ⟨0, dst⟩ dstLen (min srcLen n + 1) ::
        (readsFrom 1 ⟨1, src⟩ 0 (srcLen + 1) ++ readsFrom 1 ⟨0, dst⟩ 0 (dstLen + 1))⟩) := by
  have hscan : (scan 1 ⟨1, src⟩ fuel 0).run (HookState.logged
      (readsFrom 1 ⟨0, dst⟩ 0 (dstLen + 1)) ⟨mem, []⟩) = _ :=
    run_scan_of_stringAt hstr hfuel
  rw [Hooks.strncat, if_neg hn, if_neg hdst, if_neg hsrc,
    Call.run_bind_of_ok (run_scan_of_stringAt hcat hlt), Call.run_bind_of_ok hscan, logged_logged]
  simp only [HookState.logged, List.append_nil]
  rfl

/-- What a hook that copies and then fills has written. -/
theorem written_copy_fill {p q : HookPtr} {o len o' len' a : Nat} {events : List HookEvent}
    (h : ∀ a, ¬ Written events a) :
    Written (.write p o len :: .write p o' len' :: .read q 0 len' :: events) a ↔
      Within (p.addr + o) len a ∨ Within (p.addr + o') len' a := by
  rw [written_write, written_write, written_cons (by simp)]
  simp [h a]

/-- No terminators are written. -/
theorem strncpy_matchesC (hdst : dst ≠ 0) (hsrc : src ≠ 0) (hstr : StringAt mem src srcLen) :
    (CopyCall.mk .strncpy dst src n).MatchesC mem dstLen srcLen ↔ n ≤ srcLen := by
  by_cases hn : n = 0
  · have hrun : ∀ fuel, 0 ≤ fuel →
        ((CopyCall.mk .strncpy dst src n).call fuel).run ⟨mem, []⟩ = some (.ok dst, ⟨mem, []⟩) := by
      intro fuel _
      rw [call, Hooks.strncpy, if_pos hn]
      rfl
    rw [matchesC_of_run hrun]
    exact iff_of_true (doneAsInC_nil hn (fun hcat => (nomatch hcat))) (by omega)
  have hrun : ∀ fuel, 0 ≤ fuel →
      ((CopyCall.mk .strncpy dst src n).call fuel).run ⟨mem, []⟩ = _ :=
    fun _ _ => run_strncpy hn hdst hsrc hstr
  rw [matchesC_of_run hrun]
  have hwritten : ∀ a, Written (.write ⟨0, dst⟩ 0 (min srcLen n) ::
      .read ⟨1, src⟩ 0 (min srcLen n) :: .load ⟨1, src⟩ 0 (min srcLen n) ::
      .store ⟨0, dst⟩ 0 (min srcLen n) ::
      readsFrom 1 ⟨1, src⟩ 0 (min (min srcLen n + 1) n)) a ↔ Within dst (min srcLen n) a := by
    intro a
    rw [written_write, written_cons (by simp), written_cons (by simp), written_cons (by simp)]
    exact or_iff_left not_written_readsFrom
  constructor
  · intro hdone
    by_contra hlt
    -- the terminator at the end of the source is not written
    have hlast := (hwritten (dst + srcLen)).mp (hdone.written (by simp) (dst + srcLen)
      ⟨Nat.le_add_right dst srcLen, Nat.add_lt_add_left (Nat.lt_of_not_le hlt) dst⟩)
    simp only [Within] at hlast
    omega
  · intro hle
    rw [Nat.min_eq_right hle] at hwritten ⊢
    refine ⟨rfl, ?_, fun a ha => (hwritten a).mp ha, fun _ a hin => (hwritten a).mpr hin, ?_⟩
    · funext a
      simp only [copied, leaves, first, count, reduceCtorEq, if_false, Nat.min_eq_left hle]
      split
      · next hin => rw [if_pos hin.2]
      · rfl
    · exact ⟨fun a ha => ⟨⟨0, dst⟩, 0, n, by simp, ha⟩, covered_readsFrom⟩

/-- The address behind the last byte is returned. -/
theorem stpncpy_matchesC (hdst : dst ≠ 0) (hsrc : src ≠ 0) (hstr : StringAt mem src srcLen) :
    (CopyCall.mk .stpncpy dst src n).MatchesC mem dstLen srcLen ↔ n ≤ srcLen := by
  by_cases hn : n = 0
  · have hrun : ∀ fuel, 0 ≤ fuel →
        ((CopyCall.mk .stpncpy dst src n).call fuel).run ⟨mem, []⟩ = some (.ok dst, ⟨mem, []⟩) := by
      intro fuel _
      rw [call, Hooks.stpncpy, if_pos hn]
      rfl
    rw [matchesC_of_run hrun]
    exact iff_of_true (doneAsInC_nil hn (fun hcat => (nomatch hcat))) (by omega)
  have hrun : ∀ fuel, srcLen + 1 ≤ fuel →
      ((CopyCall.mk .stpncpy dst src n).call fuel).run ⟨mem, []⟩ = _ :=
    fun _ hfuel => run_stpncpy hn hdst hsrc hstr hfuel
  rw [matchesC_of_run hrun]
  constructor
  · intro hdone
    have hreturned := hdone.returned
    simp only [returns, if_true] at hreturned
    omega
  · intro hle
    have hmin : min (srcLen + 1) n = n := Nat.min_eq_right (Nat.le_succ_of_le hle)
    rw [hmin, Nat.sub_self]
    have hwritten : ∀ a, Written (.write ⟨0, dst⟩ n 0 :: .write ⟨0, dst⟩ 0 n ::
        .read ⟨1, src⟩ 0 n :: .store ⟨0, dst⟩ 0 n :: .load ⟨1, src⟩ 0 (srcLen + 1) ::
        readsFrom 1 ⟨1, src⟩ 0 (srcLen + 1)) a ↔ Within dst n a := by
      intro a
      rw [written_copy_fill fun a => by
        rw [written_cons (by simp), written_cons (by simp)]
        exact not_written_readsFrom]
      simp only [Within]
      omega
    refine ⟨?_, ?_, fun a ha => (hwritten a).mp ha, fun _ a hin => (hwritten a).mpr hin, ?_⟩
    · simp only [returns, if_true, Nat.min_eq_left hle]
    · funext a
      simp only [filled, copied, leaves, first, count, reduceCtorEq, if_false, Nat.min_eq_left hle]
      rw [if_neg (by omega)]
      split
      · next hin => rw [if_pos hin.2]
      · rfl
    · have hstored : ∀ a, Within dst n a → Stored (.store ⟨0, dst⟩ 0 n ::
          .load ⟨1, src⟩ 0 (srcLen + 1) :: readsFrom 1 ⟨1, src⟩ 0 (srcLen + 1)) a :=
        fun a ha => ⟨⟨0, dst⟩, 0, n, List.mem_cons_self, ha⟩
      refine ⟨fun a ha => ?_, fun a ha => ?_, covered_readsFrom⟩
      · simp only [Within] at ha
        omega
      · obtain ⟨p, o, len, hmem, hin⟩ := hstored a ha
        exact ⟨p, o, len, List.mem_cons_of_mem _ hmem, hin⟩

/-- The terminator is written one byte too far. -/
theorem strncat_matchesC (hdst : dst ≠ 0) (hsrc : src ≠ 0) (hcat : StringAt mem dst dstLen)
    (hstr : StringAt mem src srcLen) :
    (CopyCall.mk .strncat dst src n).MatchesC mem dstLen srcLen ↔ n = 0 := by
  by_cases hn : n = 0
  · have hrun : ∀ fuel, 0 ≤ fuel →
        ((CopyCall.mk .strncat dst src n).call fuel).run ⟨mem, []⟩ = some (.ok dst, ⟨mem, []⟩) := by
      intro fuel _
      rw [call, Hooks.strncat, if_pos hn]
      rfl
    rw [matchesC_of_run hrun]
    exact iff_of_true (doneAsInC_nil hn (fun _ => hcat)) hn
  refine iff_of_false ?_ hn
  have hrun : ∀ fuel, max (dstLen + 1) (srcLen + 1) ≤ fuel →
      ((CopyCall.mk .strncat dst src n).call fuel).run ⟨mem, []⟩ = _ :=
    fun _ hfuel => run_strncat hn hdst hsrc hcat hstr (by omega) (by omega)
  rw [matchesC_of_run hrun]
  intro hdone
  have hin := hdone.inside (dst + (dstLen + min srcLen n + 1))
    (written_write.mpr (.inl ⟨Nat.le_refl _, Nat.lt_succ_self _⟩))
  simp only [Within, first, count, if_true, Nat.min_comm] at hin
  omega

/-- **The copying hooks match C** just for the calls whose bound is not above the
length of the source, or, of `strncat`, is zero. -/
theorem matchesC_iff_fits {c : CopyCall} (hdst : c.dst ≠ 0) (hsrc : c.src ≠ 0)
    (hstr : StringAt mem c.src srcLen) (hcat : c.hook = .strncat → StringAt mem c.dst dstLen) :
    c.MatchesC mem dstLen srcLen ↔ c.Fits srcLen := by
  obtain ⟨hook, dst, src, n⟩ := c
  cases hook with
  | strncat => exact strncat_matchesC hdst hsrc (hcat rfl) hstr
  | strncpy => exact strncpy_matchesC hdst hsrc hstr
  | stpncpy => exact stpncpy_matchesC hdst hsrc hstr

/-- A source of one character, and a bound of one. -/
theorem matchesC_one :
    (CopyCall.mk .strncpy 10 1 1).MatchesC (fun a => if a = 1 then 97 else 0) 0 1 :=
  (matchesC_iff_fits (Nat.succ_ne_zero 9) Nat.one_ne_zero
    ⟨fun i hi => by simp [Nat.lt_one_iff.mp hi], rfl⟩ (by simp)).mpr (Nat.le_refl 1)

/-- With an empty source and a bound of one no hook does what C says. -/
theorem not_matchesC_empty :
    ¬ (CopyCall.mk .strncat 10 1 1).MatchesC (fun _ => 0) 0 0 ∧
    ¬ (CopyCall.mk .strncpy 10 1 1).MatchesC (fun _ => 0) 0 0 ∧
    ¬ (CopyCall.mk .stpncpy 10 1 1).MatchesC (fun _ => 0) 0 0 := by
  have hempty : ∀ addr, StringAt (fun _ => 0) addr 0 :=
    fun addr => ⟨fun i hi => absurd hi (Nat.not_lt_zero i), rfl⟩
  refine ⟨fun h => ?_, fun h => ?_, fun h => ?_⟩
  · exact absurd ((strncat_matchesC (Nat.succ_ne_zero 9) Nat.one_ne_zero (hempty _)
      (hempty _)).mp h) Nat.one_ne_zero
  · exact absurd ((strncpy_matchesC (Nat.succ_ne_zero 9) Nat.one_ne_zero (hempty _)).mp h)
      (Nat.not_succ_le_zero 0)
  · exact absurd ((stpncpy_matchesC (Nat.succ_ne_zero 9) Nat.one_ne_zero (hempty _)).mp h)
      (Nat.not_succ_le_zero 0)

end

end CopyCall

end Libaflmm
