import Mathlib.Data.List.Basic

/-!
# Slices and vectors

The operations of the standard library on slices and vectors, over lists.
What panics out of bounds is an `Option`.
-/

namespace Libaflmm

inductive Bound where
  | included (n : Nat)
  | excluded (n : Nat)
  | unbounded
deriving DecidableEq

structure RangeBounds where
  startBound : Bound
  endBound : Bound

namespace RangeBounds

def start (r : RangeBounds) : Nat :=
  match r.startBound with
  | .included n => n
  | .excluded n => n + 1
  | .unbounded => 0

def stop (r : RangeBounds) (len : Nat) : Nat :=
  match r.endBound with
  | .included n => n + 1
  | .excluded n => n
  | .unbounded => len

/-- The positions a range covers in a slice of the given length. -/
def within (r : RangeBounds) (len : Nat) : Option (Nat × Nat) :=
  if r.start ≤ r.stop len ∧ r.stop len ≤ len then some (r.start, r.stop len) else none

theorem within_eq_some {r : RangeBounds} {len a b : Nat} :
    r.within len = some (a, b) ↔ r.start = a ∧ r.stop len = b ∧ a ≤ b ∧ b ≤ len := by
  rw [within]
  split
  · next h =>
      simp only [Option.some.injEq, Prod.mk.injEq]
      constructor
      · rintro ⟨rfl, rfl⟩
        exact ⟨rfl, rfl, h⟩
      · rintro ⟨rfl, rfl, -⟩
        exact ⟨rfl, rfl⟩
  · next h =>
      refine iff_of_false nofun ?_
      rintro ⟨rfl, rfl, hle⟩
      exact h hle

end RangeBounds

/-- The positions from `start` to `stop`, the latter not included. -/
structure Range where
  start : Nat
  stop : Nat
deriving DecidableEq

def Range.len (r : Range) : Nat := r.stop - r.start

namespace Slice

variable {α : Type}

/-- `len` elements from `start` on. -/
def sub (data : List α) (start len : Nat) : List α := (data.drop start).take len

/-- `data[range]`. -/
def get (data : List α) (start stop : Nat) : Option (List α) :=
  if start ≤ stop ∧ stop ≤ data.length then some (sub data start (stop - start)) else none

/-- `new` written over `data`, from `pos` on. -/
def writeAt (data : List α) (pos : Nat) (new : List α) : List α :=
  data.take pos ++ new ++ data.drop (pos + new.length)

def copyWithin (data : List α) (src count dest : Nat) : Option (List α) :=
  if src + count ≤ data.length ∧ dest + count ≤ data.length then
    some (writeAt data dest (sub data src count))
  else none

@[simp]
theorem length_sub {data : List α} {start len : Nat} :
    (sub data start len).length = min len (data.length - start) := by
  simp [sub]

theorem length_writeAt {data new : List α} {pos : Nat} (h : pos + new.length ≤ data.length) :
    (writeAt data pos new).length = data.length := by
  simp only [writeAt, List.length_append, List.length_take, List.length_drop]
  omega

/-- What stands before and after the window is not read. -/
theorem sub_append (pre post : List α) {data : List α} {start len : Nat}
    (h : start + len ≤ data.length) :
    sub (pre ++ data ++ post) (pre.length + start) len = sub data start len := by
  rw [sub, sub, List.append_assoc, List.drop_length_add_append,
    List.drop_append_of_le_length (by omega), List.take_append_of_le_length]
  rw [List.length_drop]
  omega

theorem sub_self {data : List α} : sub data 0 data.length = data := by
  simp [sub]

theorem get_append {pre data post : List α} :
    get (pre ++ data ++ post) pre.length (pre.length + data.length) = some data := by
  have hle : pre.length + data.length ≤ (pre ++ data ++ post).length := by
    simp
  have hsub := sub_append pre post (Nat.le_of_eq (Nat.zero_add data.length))
  rw [get, if_pos ⟨Nat.le_add_right .., hle⟩, Nat.add_sub_cancel_left]
  rw [Nat.add_zero, sub_self] at hsub
  rw [hsub]

/-- Nor is it written. -/
theorem writeAt_append (pre post : List α) {data new : List α} (pos : Nat)
    (h : pos + new.length ≤ data.length) :
    writeAt (pre ++ data ++ post) (pre.length + pos) new = pre ++ writeAt data pos new ++ post := by
  simp only [writeAt, List.append_assoc]
  rw [List.take_length_add_append, List.take_append_of_le_length (by omega), Nat.add_assoc,
    List.drop_length_add_append, List.drop_append_of_le_length h]
  simp only [List.append_assoc]

theorem writeAt_self {data new : List α} (h : new.length = data.length) :
    writeAt data 0 new = new := by
  simp [writeAt, h]

theorem writeAt_sub {data : List α} {start len : Nat} (h : start + len ≤ data.length) :
    writeAt data start (sub data start len) = data := by
  have hlen : (sub data start len).length = len := by
    rw [length_sub]
    omega
  rw [writeAt, hlen, sub, List.append_assoc, ← List.drop_drop, List.take_append_drop,
    List.take_append_drop]

theorem writeAt_writeAt_right {data a b : List α} {pos : Nat} (h : pos + a.length ≤ data.length) :
    writeAt (writeAt data pos a) (pos + a.length) b = writeAt data pos (a ++ b) := by
  have hlen : (data.take pos ++ a).length = pos + a.length := by
    rw [List.length_append, List.length_take]
    omega
  simp only [writeAt]
  rw [List.take_left' hlen, ← hlen, List.drop_length_add_append, List.drop_drop, hlen,
    List.append_assoc (data.take pos), List.length_append, Nat.add_assoc]

theorem writeAt_writeAt_left {data a b : List α} {pos : Nat} (h : pos + a.length ≤ data.length) :
    writeAt (writeAt data (pos + a.length) b) pos a = writeAt data pos (a ++ b) := by
  have htake : (data.take (pos + a.length)).length = pos + a.length := by
    rw [List.length_take]
    omega
  have hleft (rest : List α) : (data.take (pos + a.length) ++ rest).take pos = data.take pos := by
    rw [List.take_append_of_le_length (by omega), List.take_take,
      Nat.min_eq_left (Nat.le_add_right ..)]
  simp only [writeAt, List.append_assoc]
  rw [hleft, List.drop_left' htake, List.length_append, Nat.add_assoc]

/-- Moving a slice to the right, over what follows it. -/
theorem copyWithin_right (data fill : List α) :
    copyWithin (data ++ fill) 0 data.length fill.length =
      some ((data ++ fill).take fill.length ++ data) := by
  have hlen : data.length + fill.length = (data ++ fill).length := List.length_append.symm
  rw [copyWithin, if_pos ⟨by omega, by omega⟩, sub, List.drop_zero, List.take_left, writeAt,
    Nat.add_comm, hlen, List.drop_length, List.append_nil]

/-- Moving a slice to the left, over what stands before it. -/
theorem copyWithin_left {front data : List α} :
    copyWithin (front ++ data) front.length data.length 0 =
      some (data ++ (front ++ data).drop data.length) := by
  have hlen : front.length + data.length = (front ++ data).length := List.length_append.symm
  rw [copyWithin, if_pos ⟨by omega, by omega⟩, sub, List.drop_left, List.take_length, writeAt,
    List.take_zero, List.nil_append, Nat.zero_add]

theorem modify_length (f : α → α) (pre : List α) (a : α) (data : List α) :
    (pre ++ a :: data).modify pre.length f = pre ++ f a :: data := by
  induction pre with
  | nil => rfl
  | cons b pre ih => exact congrArg (b :: ·) ih

/-- A loop over the positions of a slice that rewrites the one it is at. -/
theorem foldl_modify_range' (f : α → α) (pre data : List α) :
    (List.range' pre.length data.length).foldl (fun data j => data.modify j f) (pre ++ data) =
      pre ++ data.map f := by
  induction data generalizing pre with
  | nil => rfl
  | cons a data ih =>
      have hrest := ih (pre ++ [f a])
      rw [List.length_append, List.length_singleton] at hrest
      rw [List.length_cons, List.range'_succ, List.foldl_cons, modify_length,
        List.append_cons, hrest, List.map_cons, List.append_assoc, List.singleton_append]

end Slice

namespace Vec

variable {α : Type}

def resize (data : List α) (newLen : Nat) (value : α) : List α :=
  if newLen ≤ data.length then data.take newLen
  else data ++ List.replicate (newLen - data.length) value

/-- `splice`, once the iterator it returns is dropped. -/
def splice (data : List α) (range : RangeBounds) (replaceWith : List α) : Option (List α) :=
  (range.within data.length).map fun (start, stop) =>
    data.take start ++ replaceWith ++ data.drop stop

/-- `drain`: the vector once the iterator it returns is dropped, and how many
elements that yields. -/
def drain (data : List α) (range : RangeBounds) : Option (List α × Nat) :=
  (range.within data.length).map fun (start, stop) =>
    (data.take start ++ data.drop stop, stop - start)

@[simp]
theorem length_resize {data : List α} {newLen : Nat} {value : α} :
    (resize data newLen value).length = newLen := by
  unfold resize
  split
  · rw [List.length_take]
    omega
  · rw [List.length_append, List.length_replicate]
    omega

theorem resize_add {data : List α} {n : Nat} {value : α} :
    resize data (data.length + n) value = data ++ List.replicate n value := by
  rw [resize]
  split
  · next h =>
      obtain rfl : n = 0 := by omega
      simp
  · rw [Nat.add_sub_cancel_left]

theorem resize_of_le {data : List α} {n : Nat} {value : α} (h : n ≤ data.length) :
    resize data n value = data.take n := if_pos h

end Vec

end Libaflmm
