import Mathlib.Tactic.Common

/-!
# Reading a file

A file answers a call of `read` with at least one byte and at most as many as
there is space for, and with none at its end. How many is its own choice: a
stream of numbers says it for every call, so that what holds for every stream
holds for every way the calls split the file.
-/

namespace Libaflmm

structure FileReader (ε : Type) where
  /-- what was not read yet -/
  rest : List UInt8
  /-- the answers of the calls, one less than the bytes that are read -/
  answers : Nat → Except ε Nat

/-- What is behind a byte is split behind that byte, or before it. -/
theorem split_at_byte {d : UInt8} {s bytes a b : List UInt8} (h : s ++ d :: bytes = a ++ b) :
    (∃ a', a = s ++ d :: a' ∧ bytes = a' ++ b) ∨ ∃ c, s = a ++ c ∧ b = c ++ d :: bytes := by
  rcases List.append_eq_append_iff.mp h with ⟨c, ha, hb⟩ | ⟨c, hs, hb⟩
  · cases c with
    | nil => exact .inr ⟨[], by rw [ha, List.append_nil, List.append_nil], hb.symm⟩
    | cons x c =>
        obtain ⟨rfl, hbytes⟩ := List.cons.inj hb
        exact .inl ⟨c, ha, hbytes⟩
  · exact .inr ⟨c, hs, hb⟩

namespace FileReader

variable {ε : Type}

/-- The file, which never fails. -/
def ofSizes (bytes : List UInt8) (sizes : Nat → Nat) : FileReader ε :=
  ⟨bytes, fun i => .ok (sizes i)⟩

def read (r : FileReader ε) (space : Nat) : Except ε (List UInt8) × FileReader ε :=
  match r.answers 0 with
  | .error e => (.error e, ⟨r.rest, fun i => r.answers (i + 1)⟩)
  | .ok size =>
    (.ok (r.rest.take (min (size + 1) space)),
      ⟨r.rest.drop (min (size + 1) space), fun i => r.answers (i + 1)⟩)

/-- The reads never fail. -/
def Succeeds (r : FileReader ε) : Prop := ∀ i, ∃ size, r.answers i = .ok size

theorem succeeds_ofSizes (bytes : List UInt8) (sizes : Nat → Nat) :
    (ofSizes bytes sizes : FileReader ε).Succeeds := fun i => ⟨sizes i, rfl⟩

/-- **What a call of `read` does**: it takes a part of the file, which is empty
only at the end or without space. -/
theorem read_of_succeeds {r : FileReader ε} (h : r.Succeeds) (space : Nat) :
    ∃ chunk r', r.read space = (.ok chunk, r') ∧ r.rest = chunk ++ r'.rest ∧
      chunk.length ≤ space ∧ (chunk = [] ↔ r.rest = [] ∨ space = 0) ∧ r'.Succeeds := by
  obtain ⟨size, hsize⟩ := h 0
  refine ⟨_, _, by rw [read, hsize], (List.take_append_drop _ _).symm, ?_, ?_,
    fun i => h (i + 1)⟩
  · rw [List.length_take]
    omega
  · rw [List.take_eq_nil_iff, or_comm]
    exact or_congr_right (by omega)

end FileReader

end Libaflmm
