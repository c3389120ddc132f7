import Libaflmm.Calls
import Mathlib.Algebra.GroupWithZero.Nat
import Mathlib.Tactic.Common

/-!
# Hooks of string functions with a bound

A hook reads and writes the memory of the program itself, and passes the bytes
it is about to use to `asan_load` and `asan_store`, which report those that are
poisoned. Everything it does is an event; a hook that does not return has
called `asan_panic`, or has used up its fuel in a loop that looks for a
terminator.

Events name the argument they go through and count bytes from it: what a
function may access is said argument by argument.
-/

namespace Libaflmm

/-- The argument with the number `arg`, and its value. -/
structure HookPtr where
  arg : Nat
  addr : Nat
deriving DecidableEq

inductive HookEvent
  | load (p : HookPtr) (offset len : Nat)
  | store (p : HookPtr) (offset len : Nat)
  | read (p : HookPtr) (offset len : Nat)
  | write (p : HookPtr) (offset len : Nat)
  | alloc (len align : Nat)
deriving DecidableEq

structure HookState where
  mem : Nat → UInt8
  /-- newest first -/
  events : List HookEvent

inductive HookStop
  | panic (msg : String)
  | endless
deriving DecidableEq

abbrev Hook (α : Type) := Call HookStop HookState α

def HookState.logged (new : List HookEvent) (s : HookState) : HookState :=
  { s with events := new ++ s.events }

namespace Hooks

def log (e : HookEvent) : Hook Unit := .update (HookState.logged [e])

def asanPanic {α : Type} (msg : String) : Hook α := .ofResult (.error (.panic msg))

def asanLoad (p : HookPtr) (offset len : Nat) : Hook Unit := log (.load p offset len)

def asanStore (p : HookPtr) (offset len : Nat) : Hook Unit := log (.store p offset len)

/-- The character with the index, of `w` bytes. -/
def charAt (w : Nat) (mem : Nat → UInt8) (addr i : Nat) : Nat :=
  ((List.range w).map fun k => (mem (addr + w * i + k)).toNat * 256 ^ k).sum

def readChar (w : Nat) (p : HookPtr) (i : Nat) : Hook Nat := do
  log (.read p (w * i) w)
  .read fun s => charAt w s.mem p.addr i

/-- `while *p.add(len) != 0 { len += 1 }` -/
def scan (w : Nat) (p : HookPtr) : Nat → Nat → Hook Nat
  | 0, _ => .ofResult (.error .endless)
  | fuel + 1, len => do
    if (← readChar w p len) ≠ 0 then scan w p fuel (len + 1) else pure len

/-- `while len < n && *p.add(len) != 0 { len += 1 }`, with what is left up to `n`. -/
def scanBounded (w : Nat) (p : HookPtr) : Nat → Nat → Hook Nat
  | 0, len => pure len
  | rest + 1, len => do
    if (← readChar w p len) ≠ 0 then scanBounded w p rest (len + 1) else pure len

/-- The memory after `len` bytes from `src` on were copied to `dst`, which they may
overlap. -/
def copied (mem : Nat → UInt8) (src dst len : Nat) (a : Nat) : UInt8 :=
  if dst ≤ a ∧ a < dst + len then mem (src + (a - dst)) else mem a

/-- The memory after `len` bytes from `dst` on were set. -/
def filled (mem : Nat → UInt8) (dst : Nat) (v : UInt8) (len : Nat) (a : Nat) : UInt8 :=
  if dst ≤ a ∧ a < dst + len then v else mem a

/-- `copy(src, dst.add(offset), len)` -/
def copy (src dst : HookPtr) (offset len : Nat) : Hook Unit := do
  log (.read src 0 len)
  log (.write dst offset len)
  .update fun s => { s with mem := copied s.mem src.addr (dst.addr + offset) len }

/-- `write_bytes(dst.add(offset), v, len)` -/
def writeBytes (dst : HookPtr) (offset : Nat) (v : UInt8) (len : Nat) : Hook Unit := do
  log (.write dst offset len)
  .update fun s => { s with mem := filled s.mem (dst.addr + offset) v len }

/-! ## Copying -/

def strncat (fuel s ct n : Nat) : Hook Nat :=
  if n = 0 then pure s
  else if s = 0 then asanPanic "strncat - s is null"
  else if ct = 0 then asanPanic "strncat - ct is null"
  else do
    let sLen ← scan 1 ⟨0, s⟩ fuel 0
    let ctLen ← scan 1 ⟨1, ct⟩ fuel 0
    let cLen := min ctLen n
    asanStore ⟨0, s⟩ sLen (cLen + 1)
    asanLoad ⟨1, ct⟩ 0 cLen
    copy ⟨1, ct⟩ ⟨0, s⟩ sLen cLen
    writeBytes ⟨0, s⟩ (sLen + cLen + 1) 0 1
    return s

def strncpy (dst src n : Nat) : Hook Nat :=
  if n = 0 then pure dst
  else if dst = 0 then asanPanic "strncpy - dst is null"
  else if src = 0 then asanPanic "strncpy - src is null"
  else do
    let len ← scanBounded 1 ⟨1, src⟩ n 0
    asanStore ⟨0, dst⟩ 0 len
    asanLoad ⟨1, src⟩ 0 len
    copy ⟨1, src⟩ ⟨0, dst⟩ 0 len
    return dst

def stpncpy (fuel dst src dsize : Nat) : Hook Nat :=
  if dsize = 0 then pure dst
  else if dst = 0 then asanPanic "stpncpy - dst is null"
  else if src = 0 then asanPanic "stpncpy - src is null"
  else do
    let len ← scan 1 ⟨1, src⟩ fuel 0
    asanLoad ⟨1, src⟩ 0 (len + 1)
    asanStore ⟨0, dst⟩ 0 dsize
    let dlen := min (len + 1) dsize
    copy ⟨1, src⟩ ⟨0, dst⟩ 0 dlen
    writeBytes ⟨0, dst⟩ dlen 0 (dsize - dlen)
    return dst + dsize

/-- `dest` is what `asan_alloc` answers. -/
def strndup (cs n dest : Nat) : Hook Nat :=
  if cs = 0 then
    if n = 0 then do
      log (.alloc 1 0)
      writeBytes ⟨2, dest⟩ 0 0 1
      return dest
    else asanPanic "strndup - cs is null"
  else do
    let len ← scanBounded 1 ⟨0, cs⟩ n 0
    asanLoad ⟨0, cs⟩ 0 (len + 1)
    log (.alloc (len + 1) 0)
    copy ⟨0, cs⟩ ⟨2, dest⟩ 0 (len + 1)
    writeBytes ⟨2, dest⟩ len 0 1
    return dest

/-! ## Comparing and counting -/

/-- The loop over the characters that are left, the next one with the index `i`. -/
def compareChars (w : Nat) (key : Nat → Int) (p q : HookPtr) (pLen qLen : Nat) :
    Nat → Nat → Hook Int
  | 0, _ => pure 0
  | rest + 1, i =>
    if pLen ≤ i then pure (-1)
    else if qLen ≤ i then pure 1
    else do
      let c ← readChar w p i
      let d ← readChar w q i
      if key c < key d then pure (-1)
      else if key d < key c then pure 1
      else compareChars w key p q pLen qLen rest (i + 1)

/-- The hooks that compare two strings of characters of `w` bytes. -/
def compareHook (name first second : String) (w : Nat) (key : Nat → Int) (cs ct n : Nat) :
    Hook Int :=
  if n = 0 then pure 0
  else if cs = 0 then asanPanic s!"{name} - {first} is null"
  else if ct = 0 then asanPanic s!"{name} - {second} is null"
  else do
    let csLen ← scanBounded w ⟨0, cs⟩ n 0
    let ctLen ← scanBounded w ⟨1, ct⟩ n 0
    asanLoad ⟨0, cs⟩ 0 ((csLen + 1) * w)
    asanLoad ⟨1, ct⟩ 0 ((ctLen + 1) * w)
    compareChars w key ⟨0, cs⟩ ⟨1, ct⟩ csLen ctLen (max csLen ctLen) 0

def strncmp (cs ct n : Nat) : Hook Int := compareHook "strncmp" "cs" "ct" 1 (fun c => c) cs ct n

/-- On `c_char`, which is signed. -/
def toUpper (c : Int) : Int := if 97 ≤ c ∧ c ≤ 122 then c - 97 + 65 else c

def strncasecmp (s1 s2 n : Nat) : Hook Int :=
  compareHook "strncasecmp" "s1" "s2" 1 (fun c => toUpper c.toInt8.toInt) s1 s2 n

def wcsncmp (cs ct n : Nat) : Hook Int := compareHook "wcsncmp" "cs" "ct" 4 (fun c => c) cs ct n

def strnlen (fuel cs maxlen : Nat) : Hook Nat :=
  if maxlen = 0 then pure 0
  else if cs = 0 then asanPanic "strnlen - cs is null"
  else do
    let len ← scan 1 ⟨0, cs⟩ fuel 0
    if len < maxlen then do
      asanLoad ⟨0, cs⟩ 0 (len + 1)
      return len
    else do
      asanLoad ⟨0, cs⟩ 0 maxlen
      return maxlen

/-! ## What the loops do -/

/-- The characters before the first terminator, from the index `a` on and among
`rest`. -/
def lenFrom (w : Nat) (mem : Nat → UInt8) (addr : Nat) : Nat → Nat → Nat
  | 0, _ => 0
  | rest + 1, a => if charAt w mem addr a ≠ 0 then lenFrom w mem addr rest (a + 1) + 1 else 0

/-- The reads of the characters from the index `a` on, newest first. -/
def readsFrom (w : Nat) (p : HookPtr) (a count : Nat) : List HookEvent :=
  ((List.range' a count).map fun i => .read p (w * i) w).reverse

section

variable {w : Nat} {mem : Nat → UInt8} {addr : Nat}

theorem lenFrom_le (rest a : Nat) : lenFrom w mem addr rest a ≤ rest := by
  induction rest generalizing a with
  | zero => exact Nat.le_refl 0
  | succ rest ih =>
      rw [lenFrom]
      split
      · exact Nat.succ_le_succ (ih (a + 1))
      · exact Nat.zero_le _

theorem charAt_of_lt_lenFrom {rest a j : Nat} (h : j < lenFrom w mem addr rest a) :
    charAt w mem addr (a + j) ≠ 0 := by
  induction rest generalizing a j with
  | zero => exact absurd h (Nat.not_lt_zero j)
  | succ rest ih =>
      rw [lenFrom] at h
      split at h
      · next hne =>
          cases j with
          | zero => exact hne
          | succ j =>
              rw [← Nat.succ_add_eq_add_succ]
              exact ih (Nat.lt_of_succ_lt_succ h)
      · exact absurd h (Nat.not_lt_zero j)

theorem charAt_lenFrom {rest a : Nat} (h : lenFrom w mem addr rest a < rest) :
    charAt w mem addr (a + lenFrom w mem addr rest a) = 0 := by
  induction rest generalizing a with
  | zero => exact absurd h (Nat.not_lt_zero _)
  | succ rest ih =>
      rw [lenFrom] at h ⊢
      split at h
      · next hne =>
          rw [if_pos hne, ← Nat.succ_add_eq_add_succ]
          exact ih (Nat.lt_of_succ_lt_succ h)
      · next heq =>
          rw [if_neg heq]
          exact not_not.mp heq

theorem lenFrom_eq_iff {rest k : Nat} (hk : k < rest) : lenFrom w mem addr rest 0 = k ↔
    charAt w mem addr k = 0 ∧ ∀ j < k, charAt w mem addr j ≠ 0 := by
  constructor
  · rintro rfl
    refine ⟨?_, fun j hj => ?_⟩
    · simpa using charAt_lenFrom hk
    · simpa using charAt_of_lt_lenFrom hj
  · rintro ⟨hzero, hne⟩
    rcases Nat.lt_trichotomy (lenFrom w mem addr rest 0) k with hlt | heq | hgt
    · refine absurd ?_ (hne _ hlt)
      simpa using charAt_lenFrom (Nat.lt_trans hlt hk)
    · exact heq
    · refine absurd hzero ?_
      simpa using charAt_of_lt_lenFrom hgt

theorem readsFrom_succ (p : HookPtr) (a count : Nat) :
    readsFrom w p a (count + 1) = readsFrom w p (a + 1) count ++ [.read p (w * a) w] := by
  simp [readsFrom, List.range'_succ]

theorem mem_readsFrom {p : HookPtr} {a count : Nat} {e : HookEvent} :
    e ∈ readsFrom w p a count ↔ ∃ i, a ≤ i ∧ i < a + count ∧ e = .read p (w * i) w := by
  simp only [readsFrom, List.mem_reverse, List.mem_map, List.mem_range'_1]
  exact ⟨fun ⟨i, hi, he⟩ => ⟨i, hi.1, hi.2, he.symm⟩,
    fun ⟨i, hle, hlt, he⟩ => ⟨i, ⟨hle, hlt⟩, he.symm⟩⟩

theorem logged_logged (new new' : List HookEvent) (s : HookState) :
    (s.logged new).logged new' = s.logged (new' ++ new) := by
  simp [HookState.logged]

theorem run_readChar (p : HookPtr) (i : Nat) (s : HookState) :
    (readChar w p i).run s =
      some (.ok (charAt w s.mem p.addr i), s.logged [.read p (w * i) w]) := rfl

/-- **The bounded loop** stops at the first terminator, or at the bound. -/
theorem run_scanBounded (p : HookPtr) (rest a : Nat) (s : HookState) :
    (scanBounded w p rest a).run s = some (.ok (a + lenFrom w s.mem p.addr rest a),
      s.logged (readsFrom w p a (min (lenFrom w s.mem p.addr rest a + 1) rest))) := by
  induction rest generalizing a s with
  | zero => rfl
  | succ rest ih =>
      rw [scanBounded, Call.run_bind_of_ok (run_readChar p a s), lenFrom]
      split
      · rw [ih, logged_logged, Nat.succ_add_eq_add_succ, Nat.succ_min_succ, readsFrom_succ]
        rfl
      · rw [Nat.zero_add, Nat.min_eq_left (by omega), readsFrom_succ]
        rfl

/-- **The loop without a bound** stops at the first terminator. -/
theorem run_scan (p : HookPtr) (fuel a : Nat) (s : HookState) :
    (scan w p fuel a).run s = some
      (if lenFrom w s.mem p.addr fuel a < fuel then .ok (a + lenFrom w s.mem p.addr fuel a)
        else .error .endless,
      s.logged (readsFrom w p a (min (lenFrom w s.mem p.addr fuel a + 1) fuel))) := by
  induction fuel generalizing a s with
  | zero => rfl
  | succ fuel ih =>
      rw [scan, Call.run_bind_of_ok (run_readChar p a s), lenFrom]
      split
      · rw [ih, logged_logged, Nat.succ_add_eq_add_succ, Nat.succ_min_succ, readsFrom_succ]
        simp only [Nat.succ_lt_succ_iff]
        rfl
      · rw [Nat.zero_add, Nat.min_eq_left (by omega), readsFrom_succ, if_pos (Nat.succ_pos _)]
        rfl

end

end Hooks

end Libaflmm
