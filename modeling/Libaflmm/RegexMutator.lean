import Libaflmm.Mutations

/-!
# Strings of a regular expression

The terminals of a grammar may be regular expressions. A string of one is
made by a walk over the parsed expression, with a stack of what is still to
be written and a draw at every choice.

The arithmetic is that of a debug build: what leaves its type is a panic.
-/

namespace Libaflmm

/-! ## Expressions -/

/-- Both ends belong to the range. -/
structure ClassUnicodeRange where
  start : Char
  stop : Char
  start_le_stop : start ≤ stop

structure ClassBytesRange where
  start : UInt8
  stop : UInt8
  start_le_stop : start ≤ stop

inductive Class where
  | unicode (ranges : List ClassUnicodeRange)
  | bytes (ranges : List ClassBytesRange)

/-- What the generator does not read is left out: which assertion a `look` is,
whether a repetition is greedy, and the name of a capture. -/
inductive Hir where
  | empty
  | literal (lit : List UInt8)
  | cls (cls : Class)
  | look
  | repetition (min : UInt32) (max : Option UInt32) (sub : Hir)
  | capture (sub : Hir)
  | concat (hirs : List Hir)
  | alternation (hirs : List Hir)

namespace Hir

mutual

/-- What holds of every expression there is: the parser sees to it that a
repetition has its bounds in order and an alternation something to choose
from, and a vector has fewer elements than there are addresses. -/
def WellFormed : Hir → Prop
  | .empty | .literal _ | .look => True
  | .cls (.unicode ranges) => ranges.length < 2 ^ 64
  | .cls (.bytes ranges) => ranges.length < 2 ^ 64
  | .repetition min max sub => (∀ b ∈ max, min ≤ b) ∧ sub.WellFormed
  | .capture sub => sub.WellFormed
  | .concat hirs => AllWellFormed hirs
  | .alternation hirs => hirs ≠ [] ∧ hirs.length < 2 ^ 64 ∧ AllWellFormed hirs

def AllWellFormed : List Hir → Prop
  | [] => True
  | hir :: hirs => hir.WellFormed ∧ AllWellFormed hirs

end

end Hir

/-! ## The draws -/

/-- A script without anything remaining takes the first of every choice. -/
structure RegexScript where
  remaining : Nat

namespace RegexScript

variable {R : Type} [Rand R] (scr : RegexScript)

def new (r : R) : RegexScript × R :=
  let (kind, r) := Rand.next r
  let (len, r) :=
    if kind % 256 = 0 then
      let (len, r) := Rand.next r
      (len % 0xffff, r)
    else
      let (bits, r) := Rand.next r
      let len := 1 <<< (bits % 8)
      let (rest, r) := Rand.next r
      (rest % len, r)
  (⟨len.toNat⟩, r)

def getMod (val : Nat) (r : R) : Nat × R :=
  if h : scr.remaining = 0 ∨ val = 0 then (0, r)
  else Rand.below ⟨val, Nat.pos_of_ne_zero fun hval => h (.inr hval)⟩ r

def getRange (min max : Nat) (r : R) : Option (Nat × R) :=
  if min ≤ max then
    let (offset, r) := scr.getMod (max - min) r
    some (offset + min, r)
  else none

end RegexScript

/-! ## Writing -/

def appendChar (res : List UInt8) (chr : Char) : List UInt8 := res ++ String.utf8EncodeChar chr

def appendLit (res lit : List UInt8) : List UInt8 := res ++ lit

/-- The buffer a character is encoded into, read as a number. What the
encoding leaves of the four bytes is zero. -/
def charWord (chr : Char) : Nat := ofLeBytes (String.utf8EncodeChar chr)

/-- `char::from_u32` -/
def charFromU32 (c : Nat) : Option Char :=
  if h : c.isValidChar then some (Char.ofNatAux c h) else none

section

variable {R : Type} [Rand R] (scr : RegexScript)

/-- No byte of an encoding is 255, so that one more than the last word is
still a word. -/
def appendUnicodeRange (res : List UInt8) (cls : ClassUnicodeRange) (r : R) :
    Option (List UInt8 × R) := do
  let a := charWord cls.start
  let b := charWord cls.stop
  let (c, r) ← scr.getRange a (b + 1) r
  let chr ← charFromU32 c
  some (appendChar res chr, r)

def appendByteRange (res : List UInt8) (cls : ClassBytesRange) (r : R) :
    Option (List UInt8 × R) :=
  if cls.stop.toNat + 1 < 256 then do
    let (c, r) ← scr.getRange cls.start.toNat (cls.stop.toNat + 1) r
    some (res ++ [UInt8.ofNat c], r)
  else none

/-- The index is out of bounds if there are no ranges. -/
def appendClass (res : List UInt8) (cls : Class) (r : R) : Option (List UInt8 × R) :=
  match cls with
  | .unicode rngs => do
    let (i, r) := scr.getMod rngs.length r
    let rng ← rngs[i]?
    appendUnicodeRange scr res rng r
  | .bytes rngs => do
    let (i, r) := scr.getMod rngs.length r
    let rng ← rngs[i]?
    appendByteRange scr res rng r

def getLength (r : R) : Nat × R :=
  let (bits, r) := scr.getMod 8 r
  scr.getMod (2 <<< bits) r

def getRepetitionRange (min : UInt32) (max : Option UInt32) (r : R) : Option (Nat × R) :=
  match max with
  | none =>
    let (len, r) := getLength scr r
    some (len + min.toNat, r)
  | some max =>
    if min = max then some (min.toNat, r) else scr.getRange min.toNat max.toNat r

def getRepetitions (min : UInt32) (max : Option UInt32) (r : R) : Option (Nat × R) :=
  if min = 0 ∧ max = some 1 then some (scr.getMod 2 r)
  else if min = 0 then some (getLength scr r)
  else if min = 1 then
    let (len, r) := getLength scr r
    some (1 + len, r)
  else getRepetitionRange scr min max r

end

/-! ## The walk -/

section

variable {R : Type} [Rand R] {scr : RegexScript}

theorem RegexScript.getMod_le (val : Nat) (r : R) : (scr.getMod val r).1 ≤ val - 1 := by
  unfold getMod
  split
  · exact Nat.zero_le _
  · exact Nat.le_sub_one_of_lt (Rand.below_lt _ r)

theorem RegexScript.getRange_le {min max k : Nat} {r r' : R}
    (h : scr.getRange min max r = some (k, r')) : k ≤ max := by
  unfold getRange at h
  split at h
  · next hle =>
      have hk : (scr.getMod (max - min) r).1 + min = k := congrArg Prod.fst (Option.some.inj h)
      have := scr.getMod_le (max - min) r
      omega
  · cases h

theorem getLength_le (scr : RegexScript) (r : R) : (getLength scr r).1 ≤ 255 := by
  have hbits : (scr.getMod 8 r).1 ≤ 7 := scr.getMod_le 8 r
  have hlen := scr.getMod_le (2 <<< (scr.getMod 8 r).1) (scr.getMod 8 r).2
  have hpow : 2 <<< (scr.getMod 8 r).1 ≤ 2 <<< 7 := by
    rw [Nat.shiftLeft_eq, Nat.shiftLeft_eq]
    exact Nat.mul_le_mul_left 2 (Nat.pow_le_pow_right (by decide) hbits)
  exact hlen.trans (Nat.sub_le_sub_right hpow 1)

/-- More than what a repetition can come to. -/
def repetitionBound (min : UInt32) (max : Option UInt32) : Nat :=
  256 + min.toNat + (max.elim 0 UInt32.toNat)

theorem getRepetitionRange_le {min : UInt32} {max : Option UInt32} {num : Nat} {r r' : R}
    (h : getRepetitionRange scr min max r = some (num, r')) :
    num ≤ repetitionBound min max := by
  unfold repetitionBound
  cases max with
  | none =>
      have hnum : (getLength scr r).1 + min.toNat = num := congrArg Prod.fst (Option.some.inj h)
      have := getLength_le scr r
      omega
  | some max =>
      simp only [getRepetitionRange] at h
      rw [Option.elim_some]
      split at h
      · have hnum : min.toNat = num := congrArg Prod.fst (Option.some.inj h)
        omega
      · have := RegexScript.getRange_le h
        omega

theorem getRepetitions_le {min : UInt32} {max : Option UInt32} {num : Nat} {r r' : R}
    (h : getRepetitions scr min max r = some (num, r')) : num ≤ repetitionBound min max := by
  have hlen := getLength_le scr r
  have hbound : 256 ≤ repetitionBound min max := by unfold repetitionBound; omega
  unfold getRepetitions at h
  split_ifs at h
  · have hnum : (scr.getMod 2 r).1 = num := congrArg Prod.fst (Option.some.inj h)
    have := scr.getMod_le 2 r
    omega
  · have hnum : (getLength scr r).1 = num := congrArg Prod.fst (Option.some.inj h)
    omega
  · have hnum : 1 + (getLength scr r).1 = num := congrArg Prod.fst (Option.some.inj h)
    omega
  · exact getRepetitionRange_le h

end

namespace Hir

mutual

/-- Bounds the steps that an expression takes. -/
def weight : Hir → Nat
  | .empty | .literal _ | .cls _ | .look => 1
  | .repetition min max sub => 1 + repetitionBound min max * sub.weight
  | .capture sub => 1 + sub.weight
  | .concat hirs => 1 + weights hirs
  | .alternation hirs => 1 + weights hirs

def weights : List Hir → Nat
  | [] => 0
  | hir :: hirs => hir.weight + weights hirs

end

theorem weights_append (a b : List Hir) : weights (a ++ b) = weights a + weights b := by
  induction a with
  | nil => simp [weights]
  | cons hir hirs ih => simp [weights, ih, Nat.add_assoc]

theorem weights_replicate (n : Nat) (hir : Hir) :
    weights (List.replicate n hir) = n * hir.weight := by
  induction n with
  | zero => simp [weights]
  | succ n ih => simp [List.replicate_succ, weights, ih, Nat.succ_mul, Nat.add_comm]

theorem weight_le_of_mem {hir : Hir} {hirs : List Hir} (h : hir ∈ hirs) :
    hir.weight ≤ weights hirs := by
  induction hirs with
  | nil => simp at h
  | cons head hirs ih =>
      simp only [weights]
      rcases List.mem_cons.mp h with rfl | htail
      · omega
      · have := ih htail
        omega

theorem weight_pos (hir : Hir) : 0 < hir.weight := by
  cases hir <;> simp only [weight] <;> omega

end Hir

section

variable {R : Type} [Rand R] (scr : RegexScript)

/-- The top of the stack is the head of the list. -/
def generateLoop : List Hir → List UInt8 → R → Option (List UInt8 × R)
  | [], res, r => some (res, r)
  | .empty :: stack, res, r => generateLoop stack res r
  | .literal lit :: stack, res, r => generateLoop stack (appendLit res lit) r
  | .cls cls :: stack, res, r =>
    match appendClass scr res cls r with
    | some (res, r) => generateLoop stack res r
    | none => none
  | .repetition min max sub :: stack, res, r =>
    match _h : getRepetitions scr min max r with
    | some (num, r) => generateLoop (List.replicate num sub ++ stack) res r
    | none => none
  | .capture sub :: stack, res, r => generateLoop (sub :: stack) res r
  | .concat hirs :: stack, res, r => generateLoop (hirs ++ stack) res r
  | .alternation hirs :: stack, res, r =>
    let drawn := scr.getMod hirs.length r
    match _h : hirs[drawn.1]? with
    | some hir => generateLoop (hir :: stack) res drawn.2
    | none => none
  | .look :: stack, res, r => generateLoop stack res r
termination_by stack => Hir.weights stack
decreasing_by
  all_goals simp only [Hir.weights, Hir.weights_append, Hir.weights_replicate, Hir.weight]
  · omega
  · omega
  · omega
  · have := Nat.mul_le_mul_right sub.weight (getRepetitions_le _h)
    omega
  · omega
  · omega
  · have := Hir.weight_le_of_mem (List.mem_of_getElem? _h)
    omega
  · omega

end

/-- `regex_mutator::generate` -/
def generateRegex {R : Type} [Rand R] (hir : Hir) (r : R) : Option (List UInt8 × R) :=
  let (scr, r) := RegexScript.new r
  generateLoop scr [hir] [] r

end Libaflmm
