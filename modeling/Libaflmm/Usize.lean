import Mathlib.Logic.Basic
import Mathlib.Algebra.Group.Nat.Defs

/-!
# Arithmetic of `usize`

A sum or a difference that is no `usize` panics in a debug build and wraps in
a release build.
-/

namespace Libaflmm

namespace Usize

variable (debug : Bool)

def add (a b : Nat) : Option Nat :=
  if a + b < 2 ^ 64 then some (a + b) else if debug then none else some (a + b - 2 ^ 64)

def sub (a b : Nat) : Option Nat :=
  if b ≤ a then some (a - b) else if debug then none else some (a + 2 ^ 64 - b)

variable {debug} {a b : Nat}

theorem add_of_lt (h : a + b < 2 ^ 64) : add debug a b = some (a + b) := if_pos h

theorem add_wraps (h : 2 ^ 64 ≤ a + b) : add false a b = some (a + b - 2 ^ 64) :=
  (if_neg (Nat.not_lt.mpr h)).trans (if_neg Bool.false_ne_true)

theorem add_panics (h : 2 ^ 64 ≤ a + b) : add true a b = none :=
  (if_neg (Nat.not_lt.mpr h)).trans (if_pos rfl)

theorem sub_of_le (h : b ≤ a) : sub debug a b = some (a - b) := if_pos h

theorem sub_wraps (h : a < b) : sub false a b = some (a + 2 ^ 64 - b) :=
  (if_neg (Nat.not_le.mpr h)).trans (if_neg Bool.false_ne_true)

end Usize

end Libaflmm
