import Libaflmm.CmpLogMap

/-!
# The hooks of routines

A hook gets the addresses of two buffers, C strings or strings of the C++
library, asks how much of them can be read, and logs as much of both. The hook
with a length logs what it is given although less may be readable, and the one
for two strings of LLVM takes them for strings of GCC. Of a string of GCC half of
the length is looked at, and a short one is taken for one in its object.

A read where there is nothing is `none`, and so is a write behind the slot.
-/

namespace Libaflmm

namespace RoutineHooks

/-- The memory of the target, and what is asked about it. -/
structure System where
  memory : Nat → Option UInt8
  asanRegionIsPoisoned : Nat → Nat → Bool
  write : Nat → Nat → Int
  pageShift : Nat

/-- A length as a `long`. -/
def asLong (len : Nat) : Int := if len < 2 ^ 63 then len else len - 2 ^ 64

/-- The end of the page of the address. -/
def System.page (sys : System) (ptr : Nat) : Nat :=
  ptr / 2 ^ sys.pageShift * 2 ^ sys.pageShift + 2 ^ sys.pageShift

def areaIsValid (sys : System) (ptr len : Nat) : Nat :=
  if ptr = 0 ∨ sys.asanRegionIsPoisoned ptr len = true then 0
  else
    let validLen := sys.write ptr len
    if validLen ≤ 0 ∨ validLen > asLong len then 0
    else if sys.page ptr > ptr + len then validLen.toNat
    -- The rest of the first page: of the next one nothing is known.
    else sys.page ptr - ptr

/-- A system whose answers are trusted. -/
structure Target extends System where
  trusted : ∀ ptr len i, i < areaIsValid toSystem ptr len → (memory (ptr + i)).isSome = true

def readBytes (memory : Nat → Option UInt8) (ptr : Nat) : Nat → Option (List UInt8)
  | 0 => some []
  | len + 1 =>
    match memory ptr, readBytes memory (ptr + 1) len with
    | some byte, some bytes => some (byte :: bytes)
    | _, _ => none

def readWord (memory : Nat → Option UInt8) (ptr size : Nat) : Option Nat :=
  (readBytes memory ptr size).map ofLeBytes

def strnlen (memory : Nat → Option UInt8) (ptr : Nat) : Nat → Option Nat
  | 0 => some 0
  | n + 1 =>
    match memory ptr with
    | some byte => if byte = 0 then some 0 else (strnlen memory (ptr + 1) n).map (· + 1)
    | none => none

/-- What a hook has come to: the `len` bytes at both addresses are logged, of
which `l1` and `l2` bytes have been found valid. -/
inductive Outcome where
  | skipped
  | logged (ptr1 ptr2 len l1 l2 : Nat)

section

variable (sys : System) (enabled : Bool)

def routines (ptr1 ptr2 : Nat) : Outcome :=
  if !enabled then .skipped
  else
    let l1 := areaIsValid sys ptr1 cmplogRtnLen
    if l1 = 0 then .skipped
    else
      let l2 := areaIsValid sys ptr2 cmplogRtnLen
      if l2 = 0 then .skipped else .logged ptr1 ptr2 (min l1 l2) l1 l2

def routinesLen (ptr1 ptr2 len : Nat) : Outcome :=
  if !enabled then .skipped
  else
    let l1 := areaIsValid sys ptr1 len
    if l1 = 0 then .skipped
    else
      let l2 := areaIsValid sys ptr2 len
      if l2 = 0 then .skipped
      else .logged ptr1 ptr2 (if len ≥ cmplogRtnLen then cmplogRtnLen - 1 else len) l1 l2

def rtnHook (ptr1 ptr2 : Nat) : Outcome := routines sys enabled ptr1 ptr2

/-- The length is ignored. -/
def rtnHookN (ptr1 ptr2 _len : Nat) : Outcome := rtnHook sys enabled ptr1 ptr2

/-- The end of the hooks for C strings, of which the longer one has `l` bytes. -/
def stringsChecked (ptr1 ptr2 l : Nat) : Outcome :=
  let l1 := areaIsValid sys ptr1 (l + 1)
  let l := min l l1
  let l2 := areaIsValid sys ptr2 (l + 1)
  let l := min l l2
  if l < 2 then .skipped else .logged ptr1 ptr2 l l1 l2

/-- The hooks for C strings, of which at most `n` bytes are looked at. -/
def stringHook (n : Nat) (longer : Nat → Nat → Nat) (ptr1 ptr2 : Nat) : Option Outcome :=
  if !enabled then some .skipped
  else if ptr1 = 0 ∨ ptr2 = 0 then some .skipped
  else do
    let len1 ← strnlen sys.memory ptr1 n
    let len2 ← strnlen sys.memory ptr2 n
    some (stringsChecked sys ptr1 ptr2 (longer len1 len2))

def rtnHookStr : Nat → Nat → Option Outcome :=
  stringHook sys enabled 30 fun len1 len2 => max (len1 + 1) (len2 + 1)

def rtnHookStrn (ptr1 ptr2 len : Nat) : Option Outcome :=
  stringHook sys enabled (min len 31) max ptr1 ptr2

def getGccStdstring (string : Nat) : Option Nat := do
  let len ← readWord sys.memory (string + 8) 4
  if len < 16 then some (string + 16) else readWord sys.memory string 8

def getLlvmStdstring (string : Nat) : Option Nat := do
  let flags ← sys.memory string
  if flags &&& 1 ≠ 0 then readWord sys.memory (string + 16) 8 else some (string + 1)

/-- The hooks for a string of the library, whose characters `get` finds, and a C
string. -/
def stdstringCstring (get : Nat → Option Nat) (stdstring cstring : Nat) : Option Outcome :=
  if !enabled then some .skipped
  else if areaIsValid sys stdstring 32 = 0 then some .skipped
  else
    let l1 := areaIsValid sys cstring cmplogRtnLen
    if l1 = 0 then some .skipped
    else do
      let stringPtr ← get stdstring
      let l2 := areaIsValid sys stringPtr cmplogRtnLen
      if l2 = 0 then some .skipped
      else some (.logged stringPtr cstring (min 31 (min l1 l2)) l2 l1)

def stdstringStdstring (get : Nat → Option Nat) (stdstring1 stdstring2 : Nat) : Option Outcome :=
  if !enabled then some .skipped
  else if areaIsValid sys stdstring1 32 = 0 then some .skipped
  else if areaIsValid sys stdstring2 32 = 0 then some .skipped
  else do
    let stringPtr1 ← get stdstring1
    let l1 := areaIsValid sys stringPtr1 cmplogRtnLen
    if l1 = 0 then some .skipped
    else do
      let stringPtr2 ← get stdstring2
      let l2 := areaIsValid sys stringPtr2 cmplogRtnLen
      if l2 = 0 then some .skipped
      else some (.logged stringPtr1 stringPtr2 (min 31 (min l1 l2)) l1 l2)

def gccStdstringCstring : Nat → Nat → Option Outcome :=
  stdstringCstring sys enabled (getGccStdstring sys)

def gccStdstringStdstring : Nat → Nat → Option Outcome :=
  stdstringStdstring sys enabled (getGccStdstring sys)

def llvmStdstringCstring : Nat → Nat → Option Outcome :=
  stdstringCstring sys enabled (getLlvmStdstring sys)

/-- The strings are looked at as those of GCC. -/
def llvmStdstringStdstring : Nat → Nat → Option Outcome :=
  stdstringStdstring sys enabled (getGccStdstring sys)

end

/-! ## Strings of the libraries -/

/-- A string of `libstdc++`: a pointer to the characters, which may be in the
object behind it, and their number. -/
structure GccString (memory : Nat → Option UInt8) where
  addr : Nat
  data : Nat
  length : Nat
  object : ∀ i < 32, (memory (addr + i)).isSome = true
  pointer : readWord memory addr 8 = some data
  size : readWord memory (addr + 8) 8 = some length
  characters : ∀ i < length, (memory (data + i)).isSome = true

/-- A string of `libc++`: the lowest bit says whether the characters are in the
object, behind the first byte. -/
structure LlvmString (memory : Nat → Option UInt8) where
  addr : Nat
  data : Nat
  length : Nat
  flags : UInt8
  object : ∀ i < 24, (memory (addr + i)).isSome = true
  first : memory addr = some flags
  layout : if flags &&& 1 ≠ 0 then
      readWord memory (addr + 16) 8 = some data ∧ readWord memory (addr + 8) 8 = some length
    else data = addr + 1 ∧ length = flags.toNat / 2
  characters : ∀ i < length, (memory (data + i)).isSome = true

/-- A call of a hook. -/
inductive HookCall (memory : Nat → Option UInt8) where
  | routines (ptr1 ptr2 : Nat)
  | routinesLen (ptr1 ptr2 len : Nat)
  | rtnHook (ptr1 ptr2 : Nat)
  | rtnHookN (ptr1 ptr2 len : Nat)
  | rtnHookStr (ptr1 ptr2 : Nat)
  | rtnHookStrn (ptr1 ptr2 len : Nat)
  | gccStdstringCstring (stdstring : GccString memory) (cstring : Nat)
  | gccStdstringStdstring (stdstring1 stdstring2 : GccString memory)
  | llvmStdstringCstring (stdstring : LlvmString memory) (cstring : Nat)
  | llvmStdstringStdstring (stdstring1 stdstring2 : LlvmString memory)

namespace HookCall

variable {t : Target} {w : Nat}

def outcome (enabled : Bool) : HookCall t.memory → Option Outcome
  | routines ptr1 ptr2 => some (RoutineHooks.routines t.toSystem enabled ptr1 ptr2)
  | routinesLen ptr1 ptr2 len => some (RoutineHooks.routinesLen t.toSystem enabled ptr1 ptr2 len)
  | rtnHook ptr1 ptr2 => some (RoutineHooks.rtnHook t.toSystem enabled ptr1 ptr2)
  | rtnHookN ptr1 ptr2 len => some (RoutineHooks.rtnHookN t.toSystem enabled ptr1 ptr2 len)
  | rtnHookStr ptr1 ptr2 => RoutineHooks.rtnHookStr t.toSystem enabled ptr1 ptr2
  | rtnHookStrn ptr1 ptr2 len => RoutineHooks.rtnHookStrn t.toSystem enabled ptr1 ptr2 len
  | gccStdstringCstring s cstring =>
    RoutineHooks.gccStdstringCstring t.toSystem enabled s.addr cstring
  | gccStdstringStdstring s1 s2 =>
    RoutineHooks.gccStdstringStdstring t.toSystem enabled s1.addr s2.addr
  | llvmStdstringCstring s cstring =>
    RoutineHooks.llvmStdstringCstring t.toSystem enabled s.addr cstring
  | llvmStdstringStdstring s1 s2 =>
    RoutineHooks.llvmStdstringStdstring t.toSystem enabled s1.addr s2.addr

/-- `cmplog_routines_checked` copies the bytes at both addresses. -/
def copy (memory : Nat → Option UInt8) (k : Fin w) (log : CmpLog w) (ptr1 ptr2 len : Nat) :
    Option (CmpLog w) :=
  match readBytes memory ptr1 len, readBytes memory ptr2 len with
  | some v0, some v1 =>
    if h : v1.length = v0.length ∧ 0 < v0.length ∧ v0.length ≤ cmplogRtnLen then
      some (cmplogRoutinesChecked k ⟨v0, v1, h.1, h.2.1, h.2.2⟩ log)
    else none
  | _, _ => none

def run (call : HookCall t.memory) (k : Fin w) (log : CmpLog w) : Option (CmpLog w) :=
  match call.outcome log.enabled with
  | none => none
  | some .skipped => some log
  | some (.logged ptr1 ptr2 len _ _) => copy t.memory k log ptr1 ptr2 len

/-- Where the characters are that should be logged. -/
def sources : HookCall t.memory → Nat × Nat
  | routines ptr1 ptr2 | routinesLen ptr1 ptr2 _ | rtnHook ptr1 ptr2 | rtnHookN ptr1 ptr2 _
  | rtnHookStr ptr1 ptr2 | rtnHookStrn ptr1 ptr2 _ => (ptr1, ptr2)
  | gccStdstringCstring s cstring => (s.data, cstring)
  | gccStdstringStdstring s1 s2 => (s1.data, s2.data)
  | llvmStdstringCstring s cstring => (s.data, cstring)
  | llvmStdstringStdstring s1 s2 => (s1.data, s2.data)

/-- The bytes are in a slot of the row, and all other slots are as before. -/
def Logs (k : Fin w) (log log' : CmpLog w) (v0 v1 : List UInt8) : Prop :=
  ∃ slot < cmplogMapRtnH,
    ((log'.map.vals k).routine slot).v0.take v0.length = v0 ∧
      ((log'.map.vals k).routine slot).v1.take v1.length = v1 ∧
      ∀ k' j, k' ≠ k ∨ j ≠ slot →
        (log'.map.vals k').routine j = (log.map.vals k').routine j

/-- A hook that logs has copied bytes found valid, at most a slot of them, from
where the characters are. -/
def CopiesValidated (call : HookCall t.memory) (k : Fin w) (log : CmpLog w) : Prop :=
  match call.outcome log.enabled with
  | none => False
  | some .skipped => call.run k log = some log
  | some (.logged ptr1 ptr2 len l1 l2) =>
    len ≤ l1 ∧ len ≤ l2 ∧ len ≤ cmplogRtnLen ∧ (ptr1, ptr2) = call.sources ∧
      ∃ v0 v1 log', readBytes t.memory ptr1 len = some v0 ∧ readBytes t.memory ptr2 len = some v1 ∧
        call.run k log = some log' ∧ Logs k log log' v0 v1

end HookCall

/-! ## What the hooks rely on -/

/-- What is looked at of a C string of at most `n` bytes can be read. -/
def ReadsString (memory : Nat → Option UInt8) (ptr n : Nat) : Prop :=
  ∀ i < n, (∀ j < i, memory (ptr + j) ≠ some 0) → (memory (ptr + i)).isSome = true

/-- The bytes that are logged of `len` have been written, or are before the end
of the page where the others cross it. -/
def FoundWhole (sys : System) (ptr len : Nat) : Prop :=
  if sys.page ptr > ptr + len then (min len 31 : Nat) ≤ sys.write ptr len
  else ptr + min len 31 ≤ sys.page ptr

/-- What is taken for the characters of the string. -/
def GccString.reading {memory : Nat → Option UInt8} (s : GccString memory) : Nat :=
  if s.length % 2 ^ 32 < 16 then s.addr + 16 else s.data

/-- What would be the characters if this were a string of GCC. -/
def LlvmString.reading {memory : Nat → Option UInt8} (s : LlvmString memory) : Nat :=
  if (readWord memory (s.addr + 8) 4).getD 0 < 16 then s.addr + 16
  else (readWord memory s.addr 8).getD 0

/-- When a hook that is enabled logs the right bytes. -/
def HookCall.Validates {t : Target} : HookCall t.memory → Prop
  | routines _ _ | rtnHook _ _ | rtnHookN _ _ _ | llvmStdstringCstring _ _ => True
  | routinesLen ptr1 ptr2 len =>
    areaIsValid t.toSystem ptr1 len ≠ 0 → areaIsValid t.toSystem ptr2 len ≠ 0 →
      FoundWhole t.toSystem ptr1 len ∧ FoundWhole t.toSystem ptr2 len
  | rtnHookStr ptr1 ptr2 =>
    ptr1 ≠ 0 → ptr2 ≠ 0 → ReadsString t.memory ptr1 30 ∧ ReadsString t.memory ptr2 30
  | rtnHookStrn ptr1 ptr2 len =>
    ptr1 ≠ 0 → ptr2 ≠ 0 →
      ReadsString t.memory ptr1 (min len 31) ∧ ReadsString t.memory ptr2 (min len 31)
  | gccStdstringCstring s cstring =>
    areaIsValid t.toSystem s.addr 32 ≠ 0 → areaIsValid t.toSystem cstring 32 ≠ 0 →
      areaIsValid t.toSystem s.reading 32 ≠ 0 → s.reading = s.data
  | gccStdstringStdstring s1 s2 =>
    areaIsValid t.toSystem s1.addr 32 ≠ 0 → areaIsValid t.toSystem s2.addr 32 ≠ 0 →
      areaIsValid t.toSystem s1.reading 32 ≠ 0 → areaIsValid t.toSystem s2.reading 32 ≠ 0 →
        s1.reading = s1.data ∧ s2.reading = s2.data
  | llvmStdstringStdstring s1 s2 =>
    areaIsValid t.toSystem s1.addr 32 ≠ 0 → areaIsValid t.toSystem s2.addr 32 ≠ 0 →
      areaIsValid t.toSystem s1.reading 32 ≠ 0 → areaIsValid t.toSystem s2.reading 32 ≠ 0 →
        s1.reading = s1.data ∧ s2.reading = s2.data

/-! ## Reads -/

theorem asLong_le (len : Nat) : asLong len ≤ len := by
  unfold asLong
  split <;> omega

theorem System.lt_page (sys : System) (ptr : Nat) : ptr < sys.page ptr :=
  Nat.lt_div_mul_add (Nat.two_pow_pos sys.pageShift)

theorem areaIsValid_le (sys : System) (ptr len : Nat) : areaIsValid sys ptr len ≤ len := by
  have hlong := asLong_le len
  unfold areaIsValid
  dsimp only
  split
  · exact Nat.zero_le len
  · split
    · exact Nat.zero_le len
    · split <;> omega

/-- A found area has the bytes that are logged just if they are found whole. -/
theorem min_le_areaIsValid {sys : System} {ptr len : Nat} (h : areaIsValid sys ptr len ≠ 0) :
    min len 31 ≤ areaIsValid sys ptr len ↔ FoundWhole sys ptr len := by
  revert h
  unfold areaIsValid FoundWhole
  dsimp only
  split
  · exact fun h => absurd rfl h
  · split
    · exact fun h => absurd rfl h
    · have hpage := sys.lt_page ptr
      intro _
      split <;> omega

theorem readBytes_of_forall {memory : Nat → Option UInt8} {ptr len : Nat}
    (h : ∀ i < len, (memory (ptr + i)).isSome = true) :
    ∃ bytes, readBytes memory ptr len = some bytes ∧ bytes.length = len := by
  induction len generalizing ptr with
  | zero => exact ⟨[], rfl, rfl⟩
  | succ len ih =>
      obtain ⟨byte, hbyte⟩ := Option.isSome_iff_exists.mp (h 0 (Nat.succ_pos len))
      have hrest (i : Nat) (hi : i < len) : (memory (ptr + 1 + i)).isSome = true := by
        rw [Nat.add_assoc, Nat.add_comm 1 i]
        exact h (i + 1) (Nat.succ_lt_succ hi)
      obtain ⟨bytes, hbytes, hlen⟩ := ih hrest
      refine ⟨byte :: bytes, ?_, congrArg (· + 1) hlen⟩
      rw [readBytes, show memory ptr = some byte from hbyte, hbytes]

theorem not_readsString_of_none {memory : Nat → Option UInt8} {ptr : Nat}
    (h : memory ptr = none) (n : Nat) : ¬ ReadsString memory ptr (n + 1) := by
  intro hreads
  have hfirst := hreads 0 (Nat.succ_pos n) nofun
  rw [Nat.add_zero, h] at hfirst
  cases hfirst

theorem readsString_of_zero {memory : Nat → Option UInt8} {ptr : Nat}
    (h : memory ptr = some 0) (n : Nat) : ReadsString memory ptr n := by
  intro i _ hbefore
  cases i with
  | zero =>
      rw [Nat.add_zero, h]
      rfl
  | succ i => exact absurd h (hbefore 0 (Nat.succ_pos i))

theorem readsString_succ {memory : Nat → Option UInt8} {ptr n : Nat} {byte : UInt8}
    (h : memory ptr = some byte) (hne : byte ≠ 0) :
    ReadsString memory ptr (n + 1) ↔ ReadsString memory (ptr + 1) n := by
  have hplace (i : Nat) : ptr + 1 + i = ptr + (i + 1) := by omega
  constructor
  · intro hreads i hi hbefore
    rw [hplace]
    refine hreads (i + 1) (Nat.succ_lt_succ hi) fun j hj => ?_
    cases j with
    | zero =>
        rw [Nat.add_zero, h]
        exact fun heq => hne (Option.some.inj heq)
    | succ j =>
        rw [← hplace]
        exact hbefore j (Nat.lt_of_succ_lt_succ hj)
  · intro hreads i hi hbefore
    cases i with
    | zero =>
        rw [Nat.add_zero, h]
        rfl
    | succ i =>
        rw [← hplace]
        refine hreads i (Nat.lt_of_succ_lt_succ hi) fun j hj => ?_
        rw [hplace]
        exact hbefore (j + 1) (Nat.succ_lt_succ hj)

theorem strnlen_isSome {memory : Nat → Option UInt8} {ptr n : Nat} :
    (strnlen memory ptr n).isSome = true ↔ ReadsString memory ptr n := by
  induction n generalizing ptr with
  | zero => exact iff_of_true rfl nofun
  | succ n ih =>
      rw [strnlen]
      cases hbyte : memory ptr with
      | none => exact iff_of_false nofun (not_readsString_of_none hbyte n)
      | some byte =>
          by_cases hzero : byte = 0
          · subst hzero
            exact iff_of_true rfl (readsString_of_zero hbyte (n + 1))
          · dsimp only
            rw [if_neg hzero, Option.isSome_map, ih, readsString_succ hbyte hzero]

theorem strnlen_le {memory : Nat → Option UInt8} {ptr n len : Nat}
    (h : strnlen memory ptr n = some len) : len ≤ n := by
  induction n generalizing ptr len with
  | zero =>
      cases h
      exact Nat.le_refl 0
  | succ n ih =>
      rw [strnlen] at h
      split at h
      · split at h
        · cases h
          exact Nat.zero_le _
        · obtain ⟨m, hm, rfl⟩ := Option.map_eq_some_iff.mp h
          exact Nat.succ_le_succ (ih hm)
      · cases h

theorem readBytes_take {memory : Nat → Option UInt8} {ptr m n : Nat} {bytes : List UInt8}
    (h : readBytes memory ptr (m + n) = some bytes) :
    readBytes memory ptr m = some (bytes.take m) := by
  induction m generalizing ptr bytes with
  | zero => rfl
  | succ m ih =>
      rw [Nat.add_right_comm, readBytes] at h
      split at h
      · next byte rest hbyte hrest =>
          cases h
          rw [readBytes, hbyte, ih hrest]
          rfl
      · cases h

theorem ofLeBytes_take (bytes : List UInt8) (n : Nat) :
    ofLeBytes (bytes.take n) = ofLeBytes bytes % 256 ^ n := by
  induction n generalizing bytes with
  | zero => exact (Nat.mod_one _).symm
  | succ n ih =>
      cases bytes with
      | nil => exact (Nat.zero_mod _).symm
      | cons byte bytes =>
          rw [List.take_succ_cons, ofLeBytes, ofLeBytes, ih, Nat.pow_succ', Nat.mod_mul,
            Nat.add_mul_mod_self_left, Nat.mod_eq_of_lt byte.toNat_lt,
            Nat.add_mul_div_left _ _ (by decide), Nat.div_eq_of_lt byte.toNat_lt, Nat.zero_add]

/-- The first half of a word. -/
theorem readWord_half {memory : Nat → Option UInt8} {ptr n : Nat}
    (h : readWord memory ptr 8 = some n) : readWord memory ptr 4 = some (n % 2 ^ 32) := by
  obtain ⟨bytes, hbytes, rfl⟩ := Option.map_eq_some_iff.mp h
  rw [readWord, readBytes_take (m := 4) (n := 4) hbytes, Option.map_some, ofLeBytes_take]
  rfl

theorem readWord_isSome {memory : Nat → Option UInt8} {ptr size : Nat}
    (h : ∀ i < size, (memory (ptr + i)).isSome = true) :
    (readWord memory ptr size).isSome = true := by
  obtain ⟨bytes, hbytes, -⟩ := readBytes_of_forall h
  rw [readWord, hbytes]
  rfl

/-! ## Strings -/

theorem getGccStdstring_gcc {sys : System} (s : GccString sys.memory) :
    getGccStdstring sys s.addr = some s.reading := by
  rw [getGccStdstring, readWord_half s.size, s.pointer, GccString.reading]
  exact (apply_ite some _ _ _).symm

theorem getLlvmStdstring_llvm {sys : System} (s : LlvmString sys.memory) :
    getLlvmStdstring sys s.addr = some s.data := by
  have hlayout := s.layout
  rw [getLlvmStdstring, s.first]
  split at hlayout
  · next hlong => exact (if_pos hlong).trans hlayout.1
  · next hshort => exact (if_neg hshort).trans (congrArg some hlayout.1.symm)

theorem getGccStdstring_llvm {sys : System} (s : LlvmString sys.memory) :
    getGccStdstring sys s.addr = some s.reading := by
  have hword (pos size : Nat) (h : pos + size ≤ 24) :
      ∃ n, readWord sys.memory (s.addr + pos) size = some n :=
    Option.isSome_iff_exists.mp (readWord_isSome fun i hi => by
      rw [Nat.add_assoc]
      exact s.object (pos + i) (by omega))
  obtain ⟨len, hlen⟩ := hword 8 4 (by decide)
  obtain ⟨pointer, hpointer⟩ := hword 0 8 (by decide)
  rw [Nat.add_zero] at hpointer
  rw [getGccStdstring, LlvmString.reading, hlen, hpointer]
  exact (apply_ite some _ _ _).symm

/-! ## What the hooks come to -/

/-- What is logged has been asked about. -/
def Outcome.Asked (sys : System) : Outcome → Prop
  | skipped => True
  | logged ptr1 ptr2 len l1 l2 =>
    0 < len ∧ (∃ n, l1 = areaIsValid sys ptr1 n) ∧ ∃ n, l2 = areaIsValid sys ptr2 n

/-- What is logged is of the right strings, valid, and no more than a slot. -/
def Outcome.Within (sources : Nat × Nat) : Outcome → Prop
  | skipped => True
  | logged ptr1 ptr2 len l1 l2 =>
    len ≤ l1 ∧ len ≤ l2 ∧ len ≤ cmplogRtnLen ∧ (ptr1, ptr2) = sources

section

variable {sys : System} {enabled : Bool}

theorem routines_spec (ptr1 ptr2 : Nat) : (routines sys enabled ptr1 ptr2).Asked sys ∧
    (routines sys enabled ptr1 ptr2).Within (ptr1, ptr2) := by
  unfold routines
  dsimp only
  split
  · exact ⟨trivial, trivial⟩
  · split
    · exact ⟨trivial, trivial⟩
    · split
      · exact ⟨trivial, trivial⟩
      · exact ⟨⟨by omega, ⟨_, rfl⟩, _, rfl⟩, Nat.min_le_left .., Nat.min_le_right ..,
          (Nat.min_le_left ..).trans (areaIsValid_le ..), rfl⟩

theorem routinesLen_spec (ptr1 ptr2 len : Nat) :
    (routinesLen sys enabled ptr1 ptr2 len).Asked sys ∧
      ((routinesLen sys enabled ptr1 ptr2 len).Within (ptr1, ptr2) ↔
        (enabled = true → areaIsValid sys ptr1 len ≠ 0 → areaIsValid sys ptr2 len ≠ 0 →
          FoundWhole sys ptr1 len ∧ FoundWhole sys ptr2 len)) := by
  unfold routinesLen
  dsimp only
  split
  · next hoff => exact ⟨trivial, iff_of_true trivial fun hon => absurd hon (by simpa using hoff)⟩
  · next hon =>
      split
      · next h1 => exact ⟨trivial, iff_of_true trivial fun _ hne => absurd h1 hne⟩
      · next h1 =>
          split
          · next h2 => exact ⟨trivial, iff_of_true trivial fun _ _ hne => absurd h2 hne⟩
          · next h2 =>
              have hlen : (if len ≥ cmplogRtnLen then cmplogRtnLen - 1 else len) = min len 31 := by
                unfold cmplogRtnLen
                split <;> omega
              have hle1 := areaIsValid_le sys ptr1 len
              rw [hlen, ← min_le_areaIsValid h1, ← min_le_areaIsValid h2]
              refine ⟨⟨by omega, ⟨_, rfl⟩, _, rfl⟩, ?_⟩
              constructor
              · rintro ⟨hl1, hl2, -, -⟩ _ _ _
                exact ⟨hl1, hl2⟩
              · intro h
                obtain ⟨hl1, hl2⟩ := h (by simpa using hon) h1 h2
                exact ⟨hl1, hl2, (Nat.min_le_right ..).trans (by decide), rfl⟩

theorem stringsChecked_spec {ptr1 ptr2 l : Nat} (h : l ≤ 31) :
    (stringsChecked sys ptr1 ptr2 l).Asked sys ∧
      (stringsChecked sys ptr1 ptr2 l).Within (ptr1, ptr2) := by
  unfold stringsChecked
  dsimp only
  split
  · exact ⟨trivial, trivial⟩
  · exact ⟨⟨by omega, ⟨_, rfl⟩, _, rfl⟩, (Nat.min_le_left ..).trans (Nat.min_le_right ..),
      Nat.min_le_right .., ((Nat.min_le_left ..).trans (Nat.min_le_left ..)).trans
        (h.trans (by decide)), rfl⟩

/-- A hook for C strings has read both of them. -/
theorem stringHook_eq_some {n : Nat} {longer : Nat → Nat → Nat} {ptr1 ptr2 : Nat}
    (hlonger : ∀ len1 ≤ n, ∀ len2 ≤ n, longer len1 len2 ≤ 31)
    (hreads : enabled = true → ptr1 ≠ 0 → ptr2 ≠ 0 →
      ReadsString sys.memory ptr1 n ∧ ReadsString sys.memory ptr2 n) :
    ∃ o, stringHook sys enabled n longer ptr1 ptr2 = some o ∧ o.Asked sys ∧
      o.Within (ptr1, ptr2) := by
  unfold stringHook
  split
  · exact ⟨_, rfl, trivial, trivial⟩
  · next hon =>
      split
      · exact ⟨_, rfl, trivial, trivial⟩
      · next hptr =>
          have ⟨hne1, hne2⟩ := not_or.mp hptr
          obtain ⟨hreads1, hreads2⟩ := hreads (by simpa using hon) hne1 hne2
          obtain ⟨len1, hlen1⟩ := Option.isSome_iff_exists.mp (strnlen_isSome.mpr hreads1)
          obtain ⟨len2, hlen2⟩ := Option.isSome_iff_exists.mp (strnlen_isSome.mpr hreads2)
          refine ⟨stringsChecked sys ptr1 ptr2 (longer len1 len2), ?_,
            stringsChecked_spec (hlonger len1 (strnlen_le hlen1) len2 (strnlen_le hlen2))⟩
          rw [hlen1, hlen2]
          rfl

theorem reads_of_stringHook {n : Nat} {longer : Nat → Nat → Nat} {ptr1 ptr2 : Nat} {o : Outcome}
    (h : stringHook sys enabled n longer ptr1 ptr2 = some o) (hon : enabled = true)
    (hne1 : ptr1 ≠ 0) (hne2 : ptr2 ≠ 0) :
    ReadsString sys.memory ptr1 n ∧ ReadsString sys.memory ptr2 n := by
  rw [stringHook, hon, if_neg (by decide), if_neg (not_or.mpr ⟨hne1, hne2⟩)] at h
  obtain ⟨len1, hlen1, h⟩ := Option.bind_eq_some_iff.mp h
  obtain ⟨len2, hlen2, -⟩ := Option.bind_eq_some_iff.mp h
  exact ⟨strnlen_isSome.mp (Option.isSome_of_mem hlen1),
    strnlen_isSome.mp (Option.isSome_of_mem hlen2)⟩

/-- A hook for a string of a library and a C string, where `get` finds `reading`. -/
theorem stdstringCstring_spec {get : Nat → Option Nat} {stdstring cstring reading : Nat}
    (hget : get stdstring = some reading) (data : Nat) :
    ∃ o, stdstringCstring sys enabled get stdstring cstring = some o ∧ o.Asked sys ∧
      (o.Within (data, cstring) ↔
        (enabled = true → areaIsValid sys stdstring 32 ≠ 0 → areaIsValid sys cstring 32 ≠ 0 →
          areaIsValid sys reading 32 ≠ 0 → reading = data)) := by
  unfold stdstringCstring
  rw [hget]
  split
  · next hoff =>
      exact ⟨_, rfl, trivial, iff_of_true trivial fun hon => absurd hon (by simpa using hoff)⟩
  · next hon =>
      split
      · next h0 => exact ⟨_, rfl, trivial, iff_of_true trivial fun _ hne => absurd h0 hne⟩
      · next h0 =>
          dsimp only
          split
          · next h1 => exact ⟨_, rfl, trivial, iff_of_true trivial fun _ _ hne => absurd h1 hne⟩
          · next h1 =>
              rw [Option.bind_eq_bind, Option.bind_some]
              split
              · next h2 =>
                  exact ⟨_, rfl, trivial, iff_of_true trivial fun _ _ _ hne => absurd h2 hne⟩
              · next h2 =>
                  refine ⟨_, rfl, ⟨by omega, ⟨_, rfl⟩, _, rfl⟩, ?_⟩
                  unfold Outcome.Within cmplogRtnLen
                  constructor
                  · rintro ⟨-, -, -, hsources⟩ _ _ _ _
                    exact congrArg Prod.fst hsources
                  · intro h
                    have hreading := h (by simpa using hon) h0 h1 h2
                    exact ⟨by omega, by omega, by omega, congrArg (·, cstring) hreading⟩

theorem stdstringStdstring_spec {get : Nat → Option Nat}
    {stdstring1 stdstring2 reading1 reading2 : Nat} (hget1 : get stdstring1 = some reading1)
    (hget2 : get stdstring2 = some reading2) (data1 data2 : Nat) :
    ∃ o, stdstringStdstring sys enabled get stdstring1 stdstring2 = some o ∧ o.Asked sys ∧
      (o.Within (data1, data2) ↔
        (enabled = true → areaIsValid sys stdstring1 32 ≠ 0 → areaIsValid sys stdstring2 32 ≠ 0 →
          areaIsValid sys reading1 32 ≠ 0 → areaIsValid sys reading2 32 ≠ 0 →
            reading1 = data1 ∧ reading2 = data2)) := by
  unfold stdstringStdstring
  rw [hget1, hget2]
  split
  · next hoff =>
      exact ⟨_, rfl, trivial, iff_of_true trivial fun hon => absurd hon (by simpa using hoff)⟩
  · next hon =>
      split
      · next h0 => exact ⟨_, rfl, trivial, iff_of_true trivial fun _ hne => absurd h0 hne⟩
      · next h0 =>
          split
          · next h0' => exact ⟨_, rfl, trivial, iff_of_true trivial fun _ _ hne => absurd h0' hne⟩
          · next h0' =>
              rw [Option.bind_eq_bind, Option.bind_some]
              dsimp only
              split
              · next h1 =>
                  exact ⟨_, rfl, trivial, iff_of_true trivial fun _ _ _ hne => absurd h1 hne⟩
              · next h1 =>
                  rw [Option.bind_some]
                  split
                  · next h2 =>
                      exact ⟨_, rfl, trivial,
                        iff_of_true trivial fun _ _ _ _ hne => absurd h2 hne⟩
                  · next h2 =>
                      refine ⟨_, rfl, ⟨by omega, ⟨_, rfl⟩, _, rfl⟩, ?_⟩
                      unfold Outcome.Within cmplogRtnLen
                      constructor
                      · rintro ⟨-, -, -, hsources⟩ _ _ _ _ _
                        exact Prod.mk.inj hsources
                      · intro h
                        obtain ⟨h1', h2'⟩ := h (by simpa using hon) h0 h0' h1 h2
                        exact ⟨by omega, by omega, by omega, by rw [h1', h2']⟩

end

/-! ## What is logged -/

namespace HookCall

variable {t : Target} {w : Nat} {k : Fin w} {log : CmpLog w}

theorem logs_cmplogRoutinesChecked (args : RoutineArgs) :
    Logs k log (cmplogRoutinesChecked k args log) args.v0 args.v1 := by
  have hle1 := args.sameLength.le.trans args.le
  obtain ⟨slot, hslot, hvals⟩ : ∃ slot < cmplogMapRtnH,
      (cmplogRoutinesChecked k args log).map.vals =
        Function.update log.map.vals k
          ((log.map.vals k).copyRoutine slot args.v0 args.v1) :=
    ⟨_, Nat.lt_of_le_of_lt Nat.and_le_right (Nat.sub_lt (by decide) Nat.one_pos), rfl⟩
  refine ⟨slot, hslot, ?_⟩
  rw [hvals, Function.update_self]
  obtain ⟨htake0, htake1⟩ :=
    CmpLogRow.take_routine_copyRoutine (log.map.vals k) slot args.le hle1
  refine ⟨htake0, htake1, fun k' j hne => ?_⟩
  by_cases hk : k' = k
  · subst hk
    rw [Function.update_self]
    exact CmpLogRow.routine_copyRoutine_ne (hne.resolve_left (not_not.mpr rfl)) args.le hle1
  · rw [Function.update_of_ne hk]

theorem copiesValidated_of_outcome {call : HookCall t.memory} {o : Outcome}
    (ho : call.outcome log.enabled = some o) (hasked : o.Asked t.toSystem) :
    call.CopiesValidated k log ↔ o.Within call.sources := by
  rw [CopiesValidated, ho, run, ho]
  cases o with
  | skipped => exact iff_of_true rfl trivial
  | logged ptr1 ptr2 len l1 l2 =>
      obtain ⟨hpos, ⟨n1, rfl⟩, n2, rfl⟩ := hasked
      constructor
      · rintro ⟨hl1, hl2, hlen, hsources, -⟩
        exact ⟨hl1, hl2, hlen, hsources⟩
      · rintro ⟨hl1, hl2, hlen, hsources⟩
        obtain ⟨v0, hv0, hlen0⟩ := readBytes_of_forall fun i hi =>
          t.trusted ptr1 n1 i (Nat.lt_of_lt_of_le hi hl1)
        obtain ⟨v1, hv1, hlen1⟩ := readBytes_of_forall fun i hi =>
          t.trusted ptr2 n2 i (Nat.lt_of_lt_of_le hi hl2)
        have hargs : v1.length = v0.length ∧ 0 < v0.length ∧ v0.length ≤ cmplogRtnLen := by
          rw [hlen0, hlen1]
          exact ⟨rfl, hpos, hlen⟩
        refine ⟨hl1, hl2, hlen, hsources, v0, v1, _, hv0, hv1, ?_,
          logs_cmplogRoutinesChecked ⟨v0, v1, hargs.1, hargs.2.1, hargs.2.2⟩⟩
        dsimp only
        rw [copy, hv0, hv1]
        exact dif_pos hargs

theorem copiesValidated_of_spec {call : HookCall t.memory} {p : Prop}
    (h : ∃ o, call.outcome log.enabled = some o ∧ o.Asked t.toSystem ∧
      (o.Within call.sources ↔ p)) : call.CopiesValidated k log ↔ p := by
  obtain ⟨o, ho, hasked, hwithin⟩ := h
  exact (copiesValidated_of_outcome ho hasked).trans hwithin

theorem copiesValidated_of_routines {call : HookCall t.memory} {ptr1 ptr2 : Nat}
    (hsources : call.sources = (ptr1, ptr2))
    (ho : call.outcome log.enabled =
      some (RoutineHooks.routines t.toSystem log.enabled ptr1 ptr2)) :
    call.CopiesValidated k log := by
  rw [copiesValidated_of_outcome ho (routines_spec ptr1 ptr2).1, hsources]
  exact (routines_spec ptr1 ptr2).2

theorem copiesValidated_stringHook {call : HookCall t.memory} {n : Nat}
    {longer : Nat → Nat → Nat} {ptr1 ptr2 : Nat}
    (hlonger : ∀ len1 ≤ n, ∀ len2 ≤ n, longer len1 len2 ≤ 31)
    (hsources : call.sources = (ptr1, ptr2))
    (houtcome : call.outcome log.enabled =
      stringHook t.toSystem log.enabled n longer ptr1 ptr2) :
    call.CopiesValidated k log ↔ (log.enabled = true → ptr1 ≠ 0 → ptr2 ≠ 0 →
      ReadsString t.memory ptr1 n ∧ ReadsString t.memory ptr2 n) := by
  constructor
  · intro h hon hne1 hne2
    rw [CopiesValidated, houtcome] at h
    split at h
    · exact h.elim
    · next ho => exact reads_of_stringHook ho hon hne1 hne2
    · next ho => exact reads_of_stringHook ho hon hne1 hne2
  · intro hreads
    obtain ⟨o, ho, hasked, hwithin⟩ := stringHook_eq_some hlonger hreads
    rw [copiesValidated_of_outcome (houtcome.trans ho) hasked, hsources]
    exact hwithin

/-- **Hooks copy validated bytes.** -/
theorem copiesValidated_iff (call : HookCall t.memory) (k : Fin w) (log : CmpLog w) :
    call.CopiesValidated k log ↔ (log.enabled = true → call.Validates) := by
  cases call with
  | routines ptr1 ptr2 =>
      exact iff_of_true (copiesValidated_of_routines rfl rfl) fun _ => trivial
  | rtnHook ptr1 ptr2 =>
      exact iff_of_true (copiesValidated_of_routines rfl rfl) fun _ => trivial
  | rtnHookN ptr1 ptr2 len =>
      exact iff_of_true (copiesValidated_of_routines rfl rfl) fun _ => trivial
  | routinesLen ptr1 ptr2 len =>
      exact copiesValidated_of_spec ⟨_, rfl, routinesLen_spec ptr1 ptr2 len⟩
  | rtnHookStr ptr1 ptr2 =>
      exact copiesValidated_stringHook (fun len1 h1 len2 h2 => by omega) rfl rfl
  | rtnHookStrn ptr1 ptr2 len =>
      exact copiesValidated_stringHook (fun len1 h1 len2 h2 => by omega) rfl rfl
  | gccStdstringCstring s cstring =>
      exact copiesValidated_of_spec (stdstringCstring_spec (getGccStdstring_gcc s) s.data)
  | gccStdstringStdstring s1 s2 =>
      exact copiesValidated_of_spec
        (stdstringStdstring_spec (getGccStdstring_gcc s1) (getGccStdstring_gcc s2) s1.data s2.data)
  | llvmStdstringCstring s cstring =>
      refine iff_of_true (Iff.mpr (copiesValidated_of_spec
        (stdstringCstring_spec (getLlvmStdstring_llvm s) s.data)) ?_) fun _ => trivial
      exact fun _ _ _ _ => rfl
  | llvmStdstringStdstring s1 s2 =>
      exact copiesValidated_of_spec
        (stdstringStdstring_spec (getGccStdstring_llvm s1) (getGccStdstring_llvm s2)
          s1.data s2.data)

end HookCall

/-- One page of memory, of which the rest after an address can be written. -/
def onePage : Target where
  memory ptr := if ptr < 4096 then some 1 else none
  asanRegionIsPoisoned _ _ := false
  write ptr len := if ptr < 4096 then (min len (4096 - ptr) : Nat) else -1
  pageShift := 12
  trusted ptr len i hi := by
    suffices hlt : ptr + i < 4096 by rw [if_pos hlt]; rfl
    have hlong := asLong_le len
    unfold areaIsValid System.page at hi
    dsimp only at hi
    by_cases hptr : ptr < 4096
    · rw [if_pos hptr] at hi
      split_ifs at hi <;> omega
    · rw [if_neg hptr] at hi
      split_ifs at hi <;> omega

/-- The six bytes before the end of the page are valid, and twenty are copied. -/
theorem not_copiesValidated_pageEnd :
    ¬ (HookCall.routinesLen 4090 4090 20 : HookCall onePage.memory).CopiesValidated
      (0 : Fin 65536) ⟨true, ⟨fun _ => ⟨0, 0, 0⟩, fun _ _ => 0⟩⟩ :=
  fun h => absurd h.1 (by decide)

end RoutineHooks

end Libaflmm
