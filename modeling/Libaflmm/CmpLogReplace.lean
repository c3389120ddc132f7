import Libaflmm.CmpLogMap
import Libaflmm.MutationsSafe

/-!
# Replacing the operand of a comparison

Two mutators draw one of the comparisons that were logged and look for one of
its operands in the input, from a random offset on. The first place where it
stands is overwritten with the other operand. The numbers are looked for in
both byte orders; of bytes the longest prefix that stands there counts.
-/

namespace Libaflmm

/-! ## The comparisons -/

/-- Bytes as their constructor makes them, of which no length is above 32. -/
def CmplogBytes.Legal (v : CmplogBytes) : Prop := v.buf.length = 32 ∧ v.len ≤ 32

def CmpValues.Legal : CmpValues → Prop
  | .bytes v0 v1 => v0.Legal ∧ v1.Legal
  | _ => True

structure CmpLogMetadata where
  list : List CmpValues
  legal : ∀ v ∈ list, v.Legal

namespace I2S

open Mutate

/-! ## At one place -/

/-- The search for the longest prefix goes down from `size`. -/
def matchingPrefix (v bytes : List UInt8) (i : Nat) : Nat → Option Nat
  | 0 => none
  | size + 1 =>
    if v.take (size + 1) = Slice.sub bytes i (size + 1) then some (size + 1)
    else matchingPrefix v bytes i size

section

variable (ne : Endian) (debug : Bool)

/-- A replacement at `i`: a panic, nothing, or the bytes after it. -/
abbrev ReplaceAt := List UInt8 → Nat → Option (Option (List UInt8))

def byteAt (v1 v2 : UInt8) (v1IsConst : Bool) : ReplaceAt := fun bytes i =>
  bytes[i]?.map fun byte =>
    if !v1IsConst ∧ byte = v1 then some (bytes.set i v2)
    else if byte = v2 then some (bytes.set i v1)
    else none

def wordAt (size v1 v2 : Nat) (v1IsConst : Bool) : ReplaceAt := fun bytes i =>
  (Slice.get bytes i (i + size)).map fun window =>
    let val := ne.ofBytes window
    let put new := Slice.writeAt bytes i (ne.toBytes size new)
    if !v1IsConst ∧ val = v1 then some (put v2)
    else if !v1IsConst ∧ swapBytes size val = v1 then some (put (swapBytes size v2))
    else if val = v2 then some (put v1)
    else if swapBytes size val = v2 then some (put (swapBytes size v1))
    else none

/-- The first `cmpSize` bytes of a word, filled up with zeros. -/
def sliceAt (size cmpSize v0 v1 : Nat) : ReplaceAt := fun bytes i =>
  (Slice.get bytes i (i + cmpSize)).map fun window =>
    let val := ne.ofBytes (window ++ List.replicate (size - cmpSize) 0)
    let put new := Slice.writeAt bytes i ((ne.toBytes size new).take cmpSize)
    if val = v0 then some (put v1)
    else if val = v1 then some (put v0)
    else if swapBytes size val = v0 then some (put (swapBytes size v1))
    else if swapBytes size val = v1 then some (put (swapBytes size v0))
    else none

/-- As many bytes of the other operand are copied as match. -/
def bytesAt (v0 v1 : CmplogBytes) : ReplaceAt := fun bytes i =>
  match matchingPrefix v0.asSlice bytes i (min v0.len.toNat (bytes.length - i)) with
  | some size => (bufferCopy debug bytes v1.asSlice 0 i size).map some
  | none =>
    match matchingPrefix v1.asSlice bytes i (min v1.len.toNat (bytes.length - i)) with
    | some size => (bufferCopy debug bytes v0.asSlice 0 i size).map some
    | none => some none

/-! ## The mutators -/

def replaceFirst (replaceAt : ReplaceAt) :
    List Nat → List UInt8 → Option (MutationResult × List UInt8)
  | [], bytes => some (.skipped, bytes)
  | i :: rest, bytes =>
    match replaceAt bytes i with
    | none => none
    | some none => replaceFirst replaceAt rest bytes
    | some (some bytes) => some (.mutated, bytes)

variable {R : Type} [Rand R]

/-- Goes over the positions from `off` to `stop`, the latter not included. -/
def replaceFrom (replaceAt : ReplaceAt) (off stop : Nat) : Mutate R MutationResult :=
  .ofFn fun s => (replaceFirst replaceAt (List.range' off (stop - off)) s.input).map
    fun (r, input) => (.ok r, { s with input })

def replaceWord (size v1 v2 : Nat) (v1IsConst : Bool) (off len : Nat) :
    Mutate R MutationResult :=
  if len ≥ size then replaceFrom (wordAt ne size v1 v2 v1IsConst) off (len - size + 1)
  else return .skipped

/-- A power of two, up to the size of the word. -/
def randomSliceSize (sz : Nat) (r : R) : Nat × R :=
  let (res, r) := Rand.below ⟨sz.log2 + 1, Nat.succ_pos _⟩ r
  (2 ^ res, r)

def replaceSlice (size v0 v1 : Nat) (off len : Nat) : Mutate R MutationResult := do
  let cmpSize ← draw (randomSliceSize size)
  if len ≥ cmpSize then replaceFrom (sliceAt ne size cmpSize v0 v1) off (len - (cmpSize - 1))
  else return .skipped

end

end I2S

open I2S Mutate

section

variable {R : Type} [Rand R] (ne : Endian) (debug : Bool) (md : Option CmpLogMetadata)

/-- One of the comparisons and an offset are drawn. -/
def withCmp (replace : CmpValues → Nat → Nat → Mutate R MutationResult) :
    Mutate R MutationResult := do
  let len := (← bytes).length
  if hsize : 0 < len then
    match md with
    | none => return .skipped
    | some md =>
      if hcmps : 0 < md.list.length then
        let idx ← draw (Rand.below ⟨md.list.length, hcmps⟩)
        let off ← draw (Rand.below ⟨len, hsize⟩)
        replace (← unwrap md.list[idx]?) off len
      else return .skipped
  else return .skipped

def I2SRandReplace.mutate : Mutate R MutationResult :=
  withCmp md fun
    | .u8 v1 v2 v1IsConst, off, len => replaceFrom (byteAt v1 v2 v1IsConst) off len
    | .u16 v1 v2 v1IsConst, off, len => replaceWord ne 2 v1.toNat v2.toNat v1IsConst off len
    | .u32 v1 v2 v1IsConst, off, len => replaceWord ne 4 v1.toNat v2.toNat v1IsConst off len
    | .u64 v1 v2 v1IsConst, off, len => replaceWord ne 8 v1.toNat v2.toNat v1IsConst off len
    | .bytes v0 v1, off, len => replaceFrom (bytesAt debug v0 v1) off len

/-- For binaries, of which the comparisons may be wider than they should be.
Whether an operand is constant is not looked at. -/
def I2SRandReplaceBinonly.mutate : Mutate R MutationResult :=
  withCmp md fun
    | .u8 v0 v1 _, off, len => replaceFrom (byteAt v0 v1 false) off len
    | .u16 v0 v1 _, off, len => replaceSlice ne 2 v0.toNat v1.toNat off len
    | .u32 v0 v1 _, off, len => replaceSlice ne 4 v0.toNat v1.toNat off len
    | .u64 v0 v1 _, off, len => replaceSlice ne 8 v0.toNat v1.toNat off len
    | .bytes v0 v1, off, len => replaceFrom (bytesAt debug v0 v1) off len

end

namespace I2S

/-! ## Staying inside -/

/-- How many bytes the two begin with in common. -/
def commonPrefix : List UInt8 → List UInt8 → Nat
  | a :: as, b :: bs => if a = b then commonPrefix as bs + 1 else 0
  | _, _ => 0

/-- The first `n` bytes of `a` stood at `i`, and are now those of `b`. -/
structure Replaced (a b input output : List UInt8) : Prop where
  window : ∃ i n, 0 < n ∧ n ≤ a.length ∧ n ≤ b.length ∧ i + n ≤ input.length ∧
    Slice.sub input i n = a.take n ∧ output = Slice.writeAt input i (b.take n)

/-- Both operands as they may stand in an input, in either byte order. -/
def wordSides (ne : Endian) (size v0 v1 : Nat) : List (List UInt8 × List UInt8) :=
  [(ne.toBytes size v0, ne.toBytes size v1),
    (ne.toBytes size (swapBytes size v0), ne.toBytes size (swapBytes size v1))]

def sides (ne : Endian) : CmpValues → List (List UInt8 × List UInt8)
  | .u8 v0 v1 _ => [([v0], [v1])]
  | .u16 v0 v1 _ => wordSides ne 2 v0.toNat v1.toNat
  | .u32 v0 v1 _ => wordSides ne 4 v0.toNat v1.toNat
  | .u64 v0 v1 _ => wordSides ne 8 v0.toNat v1.toNat
  | .bytes v0 v1 => [(v0.asSlice, v1.asSlice)]

/-- Nothing changes, or one operand is replaced by the other. -/
def StaysInside (sides : List (List UInt8 × List UInt8)) (input : List UInt8)
    (r : MutationResult) (output : List UInt8) : Prop :=
  r = .skipped ∧ output = input ∨
  r = .mutated ∧ ∃ a b, ((a, b) ∈ sides ∨ (b, a) ∈ sides) ∧ Replaced a b input output

theorem commonPrefix_le (a b : List UInt8) :
    commonPrefix a b ≤ a.length ∧ commonPrefix a b ≤ b.length := by
  induction a, b using commonPrefix.induct with
  | case1 a as bs ih =>
      rw [commonPrefix, if_pos rfl]
      simpa using ih
  | case2 a as b bs hne =>
      rw [commonPrefix, if_neg hne]
      exact ⟨Nat.zero_le _, Nat.zero_le _⟩
  | case3 a b hshort =>
      rw [commonPrefix.eq_2 _ _ hshort]
      exact ⟨Nat.zero_le _, Nat.zero_le _⟩

theorem take_eq_take_iff {v text : List UInt8} {k : Nat} (hv : k ≤ v.length)
    (ht : k ≤ text.length) : v.take k = text.take k ↔ k ≤ commonPrefix v text := by
  induction k generalizing v text with
  | zero => exact iff_of_true rfl (Nat.zero_le _)
  | succ k ih =>
      obtain ⟨a, v, rfl⟩ := List.exists_cons_of_length_pos (Nat.zero_lt_of_lt hv)
      obtain ⟨b, text, rfl⟩ := List.exists_cons_of_length_pos (Nat.zero_lt_of_lt ht)
      have htail := ih (Nat.le_of_succ_le_succ hv) (Nat.le_of_succ_le_succ ht)
      rw [List.take_succ_cons, List.take_succ_cons, List.cons.injEq, htail, commonPrefix]
      split
      · next heq => rw [Nat.add_le_add_iff_right, and_iff_right heq]
      · next hne => exact iff_of_false (fun h => hne h.1) (Nat.not_succ_le_zero k)

theorem matchingPrefix_eq_min {v bytes : List UInt8} {i size : Nat} (hv : size ≤ v.length)
    (hbytes : i + size ≤ bytes.length) :
    matchingPrefix v bytes i size =
      if min size (commonPrefix v (bytes.drop i)) = 0 then none
      else some (min size (commonPrefix v (bytes.drop i))) := by
  induction size with
  | zero => rw [Nat.zero_min, if_pos rfl, matchingPrefix]
  | succ size ih =>
      have htext : size + 1 ≤ (bytes.drop i).length := by
        rw [List.length_drop]
        omega
      rw [matchingPrefix, Slice.sub, ih (by omega) (by omega)]
      by_cases hle : size + 1 ≤ commonPrefix v (bytes.drop i)
      · rw [if_pos ((take_eq_take_iff hv htext).mpr hle), Nat.min_eq_left hle,
          if_neg (Nat.succ_ne_zero size)]
      · rw [if_neg (fun h => hle ((take_eq_take_iff hv htext).mp h)),
          Nat.min_eq_right (by omega), Nat.min_eq_right (by omega)]

theorem matchingPrefix_eq {v bytes : List UInt8} {i : Nat} (hi : i ≤ bytes.length) :
    matchingPrefix v bytes i (min v.length (bytes.length - i)) =
      if commonPrefix v (bytes.drop i) = 0 then none
      else some (commonPrefix v (bytes.drop i)) := by
  obtain ⟨hv, htext⟩ := commonPrefix_le v (bytes.drop i)
  rw [List.length_drop] at htext
  rw [matchingPrefix_eq_min (Nat.min_le_left ..) (by omega), Nat.min_eq_right (by omega)]

/-! ## Every replacement -/

/-- The replacement is no panic, and what it does stays inside. -/
def Sound (sides : List (List UInt8 × List UInt8)) (f : ReplaceAt) (bytes : List UInt8) (i : Nat) :
    Prop :=
  ∃ o, f bytes i = some o ∧ ∀ output, o = some output →
    StaysInside sides bytes .mutated output

/-- **The rule for the search.** Only the places up to the first replacement
count. -/
theorem replaceFirst_inside {sides : List (List UInt8 × List UInt8)} {f : ReplaceAt}
    {bytes : List UInt8} {positions : List Nat}
    (h : ∀ pre i post, positions = pre ++ i :: post → (∀ j ∈ pre, f bytes j = some none) →
      Sound sides f bytes i) :
    ∃ r output, replaceFirst f positions bytes = some (r, output) ∧
      StaysInside sides bytes r output := by
  induction positions with
  | nil => exact ⟨.skipped, bytes, rfl, .inl ⟨rfl, rfl⟩⟩
  | cons i positions ih =>
      obtain ⟨o, ho, hinside⟩ := h [] i positions rfl (by simp)
      rw [replaceFirst, ho]
      cases o with
      | none =>
          refine ih fun pre j post hsplit hpre => ?_
          refine h (i :: pre) j post (by rw [hsplit, List.cons_append]) fun k hk => ?_
          rcases List.mem_cons.mp hk with rfl | hk
          · exact ho
          · exact hpre k hk
      | some output => exact ⟨.mutated, output, rfl, hinside output rfl⟩

/-- A panic at the place the search comes to is one of the search. -/
theorem replaceFirst_eq_none {f : ReplaceAt} {bytes : List UInt8} {pre post : List Nat} {i : Nat}
    (hpre : ∀ j ∈ pre, f bytes j = some none) (hi : f bytes i = none) :
    replaceFirst f (pre ++ i :: post) bytes = none := by
  induction pre with
  | nil => rw [List.nil_append, replaceFirst, hi]
  | cons j pre ih =>
      rw [List.cons_append, replaceFirst, hpre j (List.mem_cons_self ..)]
      exact ih fun k hk => hpre k (List.mem_cons_of_mem _ hk)

/-! ### Numbers -/

theorem toBytes_ofBytes (ne : Endian) (bytes : List UInt8) :
    ne.toBytes bytes.length (ne.ofBytes bytes) = bytes := by
  cases ne with
  | little => exact leBytes_ofLeBytes bytes
  | big =>
      have h := leBytes_ofLeBytes bytes.reverse
      rw [List.length_reverse] at h
      rw [Endian.toBytes, Endian.ofBytes, h, List.reverse_reverse]

theorem ofBytes_lt (ne : Endian) (bytes : List UInt8) : ne.ofBytes bytes < 256 ^ bytes.length := by
  cases ne with
  | little => exact ofLeBytes_lt bytes
  | big =>
      have h := ofLeBytes_lt bytes.reverse
      rwa [List.length_reverse] at h

theorem swapBytes_swapBytes {size n : Nat} (h : n < 256 ^ size) :
    swapBytes size (swapBytes size n) = n := by
  have hback := leBytes_ofLeBytes (leBytes size n).reverse
  rw [List.length_reverse, length_leBytes] at hback
  rw [swapBytes, swapBytes, hback, List.reverse_reverse, ofLeBytes_leBytes h]

theorem byteAt_sound {v1 v2 : UInt8} {v1IsConst : Bool} {bytes : List UInt8} {i : Nat}
    (hi : i < bytes.length) : Sound [([v1], [v2])] (byteAt v1 v2 v1IsConst) bytes i := by
  have hwindow : Slice.sub bytes i 1 = [bytes[i]] := by
    rw [Slice.sub, List.drop_eq_getElem_cons hi]
    rfl
  have hset (v : UInt8) : bytes.set i v = Slice.writeAt bytes i [v] := by
    rw [Slice.writeAt, List.set_eq_take_append_cons_drop, if_pos hi, List.append_assoc]
    rfl
  have hreplaced {a b : UInt8} (ha : bytes[i] = a) : Replaced [a] [b] bytes (bytes.set i b) :=
    ⟨i, 1, Nat.one_pos, le_rfl, le_rfl, hi, by rw [hwindow, ha]; rfl, hset b⟩
  refine ⟨_, by rw [byteAt, List.getElem?_eq_getElem hi]; rfl, ?_⟩
  intro output houtput
  dsimp only at houtput
  split at houtput
  · next h =>
      obtain rfl := Option.some.inj houtput
      exact .inr ⟨rfl, [v1], [v2], .inl (List.mem_singleton_self _), hreplaced h.2⟩
  · split at houtput
    · next h =>
        obtain rfl := Option.some.inj houtput
        exact .inr ⟨rfl, [v2], [v1], .inr (List.mem_singleton_self _), hreplaced h⟩
    · exact absurd houtput (Option.some_ne_none _).symm

section

variable {ne : Endian} {size n v0 v1 i val : Nat} {bytes : List UInt8}

/-- The value read of a window says which bytes stand there. -/
theorem window_eq {window : List UInt8} (hn : window.length = n) (hle : n ≤ size)
    (hval : ne.ofBytes (window ++ List.replicate (size - n) 0) = v0) :
    window = (ne.toBytes size v0).take n := by
  have hlen : (window ++ List.replicate (size - n) 0).length = size := by
    rw [List.length_append, List.length_replicate, hn]
    omega
  have hback := toBytes_ofBytes ne (window ++ List.replicate (size - n) 0)
  rw [hlen, hval] at hback
  rw [hback, List.take_left' hn]

/-- One operand of a word stands at `i`, and the other is written. -/
theorem stays_of_value (hi : i + n ≤ bytes.length) (hpos : 0 < n) (hle : n ≤ size)
    (hval : ne.ofBytes (Slice.sub bytes i n ++ List.replicate (size - n) 0) = v0)
    {sides : List (List UInt8 × List UInt8)}
    (hsides : (ne.toBytes size v0, ne.toBytes size v1) ∈ sides ∨
      (ne.toBytes size v1, ne.toBytes size v0) ∈ sides) :
    StaysInside sides bytes .mutated
      (Slice.writeAt bytes i ((ne.toBytes size v1).take n)) := by
  have hlen : (Slice.sub bytes i n).length = n := by
    rw [Slice.length_sub]
    omega
  refine .inr ⟨rfl, _, _, hsides, ⟨i, n, hpos, ?_, ?_, hi, window_eq hlen hle hval, rfl⟩⟩
  · rwa [Endian.length_toBytes]
  · rwa [Endian.length_toBytes]

/-- The four comparisons, in whichever order they are made. -/
theorem stays_of_cases (hi : i + n ≤ bytes.length) (hpos : 0 < n) (hle : n ≤ size) {new : Nat}
    (hcases : val = v0 ∧ new = v1 ∨ val = v1 ∧ new = v0 ∨
      swapBytes size val = v0 ∧ new = swapBytes size v1 ∨
      swapBytes size val = v1 ∧ new = swapBytes size v0)
    (hval : ne.ofBytes (Slice.sub bytes i n ++ List.replicate (size - n) 0) = val) :
    StaysInside (wordSides ne size v0 v1) bytes .mutated
      (Slice.writeAt bytes i ((ne.toBytes size new).take n)) := by
  have hlt : val < 256 ^ size := by
    have h := ofBytes_lt ne (Slice.sub bytes i n ++ List.replicate (size - n) 0)
    rw [List.length_append, List.length_replicate, Slice.length_sub, hval] at h
    exact h.trans_le (Nat.pow_le_pow_right (by decide) (by omega))
  have hback := swapBytes_swapBytes hlt
  rcases hcases with ⟨rfl, rfl⟩ | ⟨rfl, rfl⟩ | ⟨hswap, rfl⟩ | ⟨hswap, rfl⟩
  · exact stays_of_value hi hpos hle hval (.inl (List.mem_cons_self ..))
  · exact stays_of_value hi hpos hle hval (.inr (List.mem_cons_self ..))
  · rw [hswap] at hback
    refine stays_of_value hi hpos hle (hval.trans hback.symm) (.inl ?_)
    exact List.mem_cons_of_mem _ (List.mem_singleton_self _)
  · rw [hswap] at hback
    refine stays_of_value hi hpos hle (hval.trans hback.symm) (.inr ?_)
    exact List.mem_cons_of_mem _ (List.mem_singleton_self _)

theorem get_eq_sub (hi : i + n ≤ bytes.length) :
    Slice.get bytes i (i + n) = some (Slice.sub bytes i n) := by
  rw [Slice.get, if_pos ⟨Nat.le_add_right .., hi⟩, Nat.add_sub_cancel_left]

end

theorem wordAt_sound (ne : Endian) {size v1 v2 : Nat} {v1IsConst : Bool} {bytes : List UInt8}
    {i : Nat} (hi : i + size ≤ bytes.length) (hsize : 0 < size) :
    Sound (wordSides ne size v1 v2) (wordAt ne size v1 v2 v1IsConst) bytes i := by
  refine ⟨_, by rw [wordAt, get_eq_sub hi]; rfl, ?_⟩
  intro output houtput
  dsimp only at houtput
  set val := ne.ofBytes (Slice.sub bytes i size) with hval
  have hstays {new : Nat} (hcases : val = v1 ∧ new = v2 ∨ val = v2 ∧ new = v1 ∨
      swapBytes size val = v1 ∧ new = swapBytes size v2 ∨
      swapBytes size val = v2 ∧ new = swapBytes size v1) :
      StaysInside (wordSides ne size v1 v2) bytes .mutated
        (Slice.writeAt bytes i (ne.toBytes size new)) := by
    have hread : ne.ofBytes (Slice.sub bytes i size ++ List.replicate (size - size) 0) = val := by
      rw [Nat.sub_self, List.replicate_zero, List.append_nil]
    have h := stays_of_cases hi hsize le_rfl hcases hread
    rwa [List.take_of_length_le (Endian.length_toBytes ..).le] at h
  split at houtput
  · next h =>
      obtain rfl := Option.some.inj houtput
      exact hstays (.inl ⟨h.2, rfl⟩)
  · split at houtput
    · next h =>
        obtain rfl := Option.some.inj houtput
        exact hstays (.inr (.inr (.inl ⟨h.2, rfl⟩)))
    · split at houtput
      · next h =>
          obtain rfl := Option.some.inj houtput
          exact hstays (.inr (.inl ⟨h, rfl⟩))
      · split at houtput
        · next h =>
            obtain rfl := Option.some.inj houtput
            exact hstays (.inr (.inr (.inr ⟨h, rfl⟩)))
        · exact absurd houtput (Option.some_ne_none _).symm

theorem sliceAt_sound (ne : Endian) {size cmpSize v0 v1 : Nat} {bytes : List UInt8}
    {i : Nat} (hi : i + cmpSize ≤ bytes.length) (hpos : 0 < cmpSize) (hle : cmpSize ≤ size) :
    Sound (wordSides ne size v0 v1) (sliceAt ne size cmpSize v0 v1) bytes i := by
  refine ⟨_, by rw [sliceAt, get_eq_sub hi]; rfl, ?_⟩
  intro output houtput
  dsimp only at houtput
  set val := ne.ofBytes (Slice.sub bytes i cmpSize ++ List.replicate (size - cmpSize) 0) with hval
  have hstays {new : Nat} (hcases : val = v0 ∧ new = v1 ∨ val = v1 ∧ new = v0 ∨
      swapBytes size val = v0 ∧ new = swapBytes size v1 ∨
      swapBytes size val = v1 ∧ new = swapBytes size v0) :=
    stays_of_cases hi hpos hle hcases hval.symm
  split at houtput
  · next h =>
      obtain rfl := Option.some.inj houtput
      exact hstays (.inl ⟨h, rfl⟩)
  · split at houtput
    · next h =>
        obtain rfl := Option.some.inj houtput
        exact hstays (.inr (.inl ⟨h, rfl⟩))
    · split at houtput
      · next h =>
          obtain rfl := Option.some.inj houtput
          exact hstays (.inr (.inr (.inl ⟨h, rfl⟩)))
      · split at houtput
        · next h =>
            obtain rfl := Option.some.inj houtput
            exact hstays (.inr (.inr (.inr ⟨h, rfl⟩)))
        · exact absurd houtput (Option.some_ne_none _).symm

/-! ### Bytes -/

/-- As much as stands at `i` of one operand, there is of the other; `v0` is
looked for first. -/
def FitsAt (v0 v1 input : List UInt8) (i : Nat) : Prop :=
  commonPrefix v0 (input.drop i) ≤ v1.length ∧
    (commonPrefix v0 (input.drop i) = 0 → commonPrefix v1 (input.drop i) ≤ v0.length)

/-- So it is at the first place where one of the two begins. -/
def Fits (v0 v1 input : List UInt8) (off : Nat) : Prop :=
  ∀ i, off ≤ i →
    (∀ j, off ≤ j → j < i →
      commonPrefix v0 (input.drop j) = 0 ∧ commonPrefix v1 (input.drop j) = 0) →
    FitsAt v0 v1 input i

section

variable {debug : Bool} {v0 v1 : CmplogBytes} {bytes : List UInt8} {i : Nat}

theorem length_asSlice {v : CmplogBytes} (h : v.Legal) :
    v.asSlice.length = v.len.toNat := by
  rw [CmplogBytes.asSlice, List.length_take, h.1]
  exact Nat.min_eq_left (UInt8.le_iff_toNat_le.mp h.2)

theorem bufferCopy_begin {src : List UInt8} {n : Nat} (hn : 0 < n) (hi : i + n ≤ bytes.length) :
    bufferCopy debug bytes src 0 i n =
      if n ≤ src.length then some (Slice.writeAt bytes i (src.take n)) else none := by
  split
  · next hle =>
      have hne : bytes ≠ [] ∧ src ≠ [] :=
        ⟨List.length_pos_iff.mp (by omega), List.length_pos_iff.mp (by omega)⟩
      exact bufferCopy_eq (fun _ => hne) (by omega) hi
  · next hgt =>
      rw [bufferCopy]
      split
      · rfl
      · rw [if_pos hn.ne', if_neg (by omega)]

theorem bytesAt_eq (h0 : v0.Legal) (h1 : v1.Legal) (hi : i < bytes.length) :
    bytesAt debug v0 v1 bytes i =
      if commonPrefix v0.asSlice (bytes.drop i) = 0 then
        if commonPrefix v1.asSlice (bytes.drop i) = 0 then some none
        else (bufferCopy debug bytes v0.asSlice 0 i
          (commonPrefix v1.asSlice (bytes.drop i))).map some
      else (bufferCopy debug bytes v1.asSlice 0 i
        (commonPrefix v0.asSlice (bytes.drop i))).map some := by
  rw [bytesAt, ← length_asSlice h0, ← length_asSlice h1, matchingPrefix_eq hi.le,
    matchingPrefix_eq hi.le]
  by_cases hzero : commonPrefix v0.asSlice (bytes.drop i) = 0
  · by_cases hzero' : commonPrefix v1.asSlice (bytes.drop i) = 0
    · simp only [hzero, hzero', if_true]
    · simp only [hzero, hzero', if_true, if_false]
  · simp only [hzero, if_false]

theorem bytesAt_eq_none_iff (h0 : v0.Legal) (h1 : v1.Legal) (hi : i < bytes.length) :
    bytesAt debug v0 v1 bytes i = some none ↔
      commonPrefix v0.asSlice (bytes.drop i) = 0 ∧ commonPrefix v1.asSlice (bytes.drop i) = 0 := by
  rw [bytesAt_eq h0 h1 hi]
  split
  · next hzero =>
      rw [and_iff_right hzero]
      split
      · next hzero' => exact iff_of_true rfl hzero'
      · next hpos => exact iff_of_false (by simp) hpos
  · next hpos => exact iff_of_false (by simp) fun h => hpos h.1

variable (debug) in
/-- What stands at `i` of one operand is copied from the other. -/
theorem replaced_prefix {a b : List UInt8} (hpos : commonPrefix a (bytes.drop i) ≠ 0)
    (hfits : commonPrefix a (bytes.drop i) ≤ b.length) :
    bufferCopy debug bytes b 0 i (commonPrefix a (bytes.drop i)) =
        some (Slice.writeAt bytes i (b.take (commonPrefix a (bytes.drop i)))) ∧
      Replaced a b bytes (Slice.writeAt bytes i (b.take (commonPrefix a (bytes.drop i)))) := by
  obtain ⟨ha, htext⟩ := commonPrefix_le a (bytes.drop i)
  have hwindow := (take_eq_take_iff ha htext).mpr le_rfl
  rw [List.length_drop] at htext
  have hi : i + commonPrefix a (bytes.drop i) ≤ bytes.length := by omega
  have hn := Nat.pos_of_ne_zero hpos
  refine ⟨?_, i, _, hn, ha, hfits, hi, hwindow.symm, rfl⟩
  rw [bufferCopy_begin hn hi, if_pos hfits]

theorem bytesAt_sound (h0 : v0.Legal) (h1 : v1.Legal) (hi : i < bytes.length)
    (hfits : FitsAt v0.asSlice v1.asSlice bytes i) :
    Sound [(v0.asSlice, v1.asSlice)] (bytesAt debug v0 v1) bytes i := by
  rw [Sound, bytesAt_eq h0 h1 hi]
  by_cases hzero : commonPrefix v0.asSlice (bytes.drop i) = 0
  · rw [if_pos hzero]
    by_cases hzero' : commonPrefix v1.asSlice (bytes.drop i) = 0
    · rw [if_pos hzero']
      exact ⟨none, rfl, fun output houtput => absurd houtput (Option.some_ne_none _).symm⟩
    · obtain ⟨hcopy, hreplaced⟩ := replaced_prefix debug hzero' (hfits.2 hzero)
      rw [if_neg hzero', hcopy]
      refine ⟨_, rfl, fun output houtput => ?_⟩
      obtain rfl := Option.some.inj houtput
      exact .inr ⟨rfl, _, _, .inr (List.mem_singleton_self _), hreplaced⟩
  · obtain ⟨hcopy, hreplaced⟩ := replaced_prefix debug hzero hfits.1
    rw [if_neg hzero, hcopy]
    refine ⟨_, rfl, fun output houtput => ?_⟩
    obtain rfl := Option.some.inj houtput
    exact .inr ⟨rfl, _, _, .inl (List.mem_singleton_self _), hreplaced⟩

theorem le_of_bufferCopy {a b : List UInt8}
    (h : bufferCopy debug bytes b 0 i (commonPrefix a (bytes.drop i)) ≠ none) :
    commonPrefix a (bytes.drop i) ≤ b.length := by
  obtain ⟨-, htext⟩ := commonPrefix_le a (bytes.drop i)
  rw [List.length_drop] at htext
  by_contra hgt
  have hn : 0 < commonPrefix a (bytes.drop i) := by omega
  exact h (by rw [bufferCopy_begin hn (by omega), if_neg hgt])

theorem fitsAt_of_bytesAt (h0 : v0.Legal) (h1 : v1.Legal) (hi : i < bytes.length)
    (h : bytesAt debug v0 v1 bytes i ≠ none) : FitsAt v0.asSlice v1.asSlice bytes i := by
  rw [bytesAt_eq h0 h1 hi] at h
  by_cases hzero : commonPrefix v0.asSlice (bytes.drop i) = 0
  · rw [if_pos hzero] at h
    refine ⟨by rw [hzero]; exact Nat.zero_le _, fun _ => ?_⟩
    by_cases hzero' : commonPrefix v1.asSlice (bytes.drop i) = 0
    · rw [hzero']
      exact Nat.zero_le _
    · rw [if_neg hzero'] at h
      exact le_of_bufferCopy fun hnone => h (by rw [hnone]; rfl)
  · rw [if_neg hzero] at h
    exact ⟨le_of_bufferCopy fun hnone => h (by rw [hnone]; rfl), fun h => absurd h hzero⟩

end

/-! ## The search over the input -/

theorem range'_eq_append {off n : Nat} {pre post : List Nat} {i : Nat}
    (h : List.range' off n = pre ++ i :: post) :
    (off ≤ i ∧ i < off + n) ∧ ∀ j, j ∈ pre ↔ off ≤ j ∧ j < i := by
  obtain ⟨k, hk, rfl, hrest⟩ := List.range'_eq_append_iff.mp h
  obtain ⟨rfl, hpos, -⟩ := List.range'_eq_cons_iff.mp hrest.symm
  refine ⟨by omega, fun j => ?_⟩
  rw [List.mem_range'_1, Nat.mul_one]

/-- **Numbers are replaced within bounds**, wherever the search starts. -/
theorem search_inside {sides : List (List UInt8 × List UInt8)} {f : ReplaceAt}
    {bytes : List UInt8} {off stop : Nat}
    (h : ∀ i, off ≤ i → i < stop → Sound sides f bytes i) :
    ∃ r output, replaceFirst f (List.range' off (stop - off)) bytes = some (r, output) ∧
      StaysInside sides bytes r output := by
  refine replaceFirst_inside fun pre i post hsplit _ => ?_
  have hi := (range'_eq_append hsplit).1
  exact h i hi.1 (by omega)

theorem search_bytes_iff {debug : Bool} {v0 v1 : CmplogBytes} {bytes : List UInt8} {off : Nat}
    (h0 : v0.Legal) (h1 : v1.Legal) :
    (∃ r output, replaceFirst (bytesAt debug v0 v1) (List.range' off (bytes.length - off)) bytes =
        some (r, output) ∧ StaysInside [(v0.asSlice, v1.asSlice)] bytes r output) ↔
      Fits v0.asSlice v1.asSlice bytes off := by
  constructor
  · rintro ⟨r, output, hrun, -⟩ i hoff hbefore
    by_cases hi : i < bytes.length
    · have hsplit : List.range' off (bytes.length - off) =
          List.range' off (i - off) ++ i :: List.range' (i + 1) (bytes.length - (i + 1)) := by
        have hlen : bytes.length - off = i - off + (bytes.length - (i + 1) + 1) := by omega
        have hstart : off + (i - off) = i := by omega
        rw [hlen, ← List.range'_append_1, hstart, List.range'_succ]
      refine fitsAt_of_bytesAt h0 h1 hi fun hnone : bytesAt debug v0 v1 bytes i = none => ?_
      have hpre : ∀ j ∈ List.range' off (i - off), bytesAt debug v0 v1 bytes j = some none := by
        intro j hj
        have hj := List.mem_range'_1.mp hj
        exact (bytesAt_eq_none_iff h0 h1 (by omega)).mpr (hbefore j hj.1 (by omega))
      rw [hsplit, replaceFirst_eq_none hpre hnone] at hrun
      exact Option.some_ne_none _ hrun.symm
    · have hdrop : bytes.drop i = [] := List.drop_eq_nil_of_le (not_lt.mp hi)
      have hzero (v : List UInt8) : commonPrefix v [] = 0 := by
        cases v <;> rfl
      rw [FitsAt, hdrop, hzero, hzero]
      exact ⟨Nat.zero_le _, fun _ => Nat.zero_le _⟩
  · intro hfits
    refine replaceFirst_inside fun pre i post hsplit hpre => ?_
    obtain ⟨hi, hmem⟩ := range'_eq_append hsplit
    refine bytesAt_sound h0 h1 (by omega) (hfits i hi.1 fun j hj hji => ?_)
    exact (bytesAt_eq_none_iff h0 h1 (by omega)).mp (hpre j ((hmem j).mpr ⟨hj, hji⟩))

/-! ## The calls -/

theorem StaysInside.length_eq {sides : List (List UInt8 × List UInt8)} {input output : List UInt8}
    {r : MutationResult} (h : StaysInside sides input r output) :
    output.length = input.length := by
  rcases h with ⟨-, rfl⟩ | ⟨-, a, b, -, i, n, -, -, hb, hi, -, rfl⟩
  · rfl
  · exact Slice.length_writeAt (by rw [List.length_take, Nat.min_eq_left hb]; exact hi)

section

open Call

variable {R : Type}

/-- What a call that replaces operands of `cmp` should do. -/
def Replaces (ne : Endian) (cmp : CmpValues) (input : List UInt8) (r : Except Error MutationResult)
    (t : Mutation R) : Prop :=
  t.input.length = input.length ∧
    ∃ result, r = .ok result ∧ StaysInside (sides ne cmp) input result t.input

theorem replaceFrom_yields {ne : Endian} {cmp : CmpValues} {f : ReplaceAt} {off stop : Nat}
    {u : Mutation R} :
    (replaceFrom f off stop : Mutate R MutationResult).Yields u (Replaces ne cmp u.input) ↔
      ∃ r output, replaceFirst f (List.range' off (stop - off)) u.input = some (r, output) ∧
        StaysInside (sides ne cmp) u.input r output := by
  constructor
  · rintro ⟨r, t, hrun, -, result, rfl, hstays⟩
    obtain ⟨⟨result', output⟩, hfirst, heq⟩ := Option.map_eq_some_iff.mp hrun
    obtain ⟨hresult, rfl⟩ := Prod.mk.inj heq
    obtain rfl := Except.ok.inj hresult
    exact ⟨result', output, hfirst, hstays⟩
  · rintro ⟨result, output, hfirst, hstays⟩
    refine ⟨.ok result, { u with input := output }, ?_, hstays.length_eq, result, rfl, hstays⟩
    show Option.map _ (replaceFirst f (List.range' off (stop - off)) u.input) = _
    rw [hfirst]
    rfl

theorem replaces_skipped {ne : Endian} {cmp : CmpValues} {u : Mutation R} :
    (pure .skipped : Mutate R MutationResult).Yields u (Replaces ne cmp u.input) :=
  yields_pure.mpr ⟨rfl, .skipped, rfl, .inl ⟨rfl, rfl⟩⟩

theorem replaceWord_yields {ne : Endian} {cmp : CmpValues} {size v1 v2 off : Nat}
    {v1IsConst : Bool} {u : Mutation R} (hsize : 0 < size)
    (hcmp : sides ne cmp = wordSides ne size v1 v2) :
    (replaceWord ne size v1 v2 v1IsConst off u.input.length : Mutate R MutationResult).Yields u
      (Replaces ne cmp u.input) := by
  rw [replaceWord]
  split
  · rw [replaceFrom_yields, hcmp]
    exact search_inside fun i _ hi => wordAt_sound ne (by omega) hsize
  · exact replaces_skipped

theorem replaceByte_yields {ne : Endian} {v1 v2 : UInt8} {v1IsConst isConst : Bool} {off : Nat}
    {u : Mutation R} :
    (replaceFrom (byteAt v1 v2 v1IsConst) off u.input.length : Mutate R MutationResult).Yields u
      (Replaces ne (.u8 v1 v2 isConst) u.input) :=
  replaceFrom_yields.mpr (search_inside fun _ _ hi => byteAt_sound hi)

/-- Of bytes, as much stands there of one operand as there is of the other. -/
def CmpFits (cmp : CmpValues) (input : List UInt8) (off : Nat) : Prop :=
  ∀ v0 v1, cmp = .bytes v0 v1 → Fits v0.asSlice v1.asSlice input off

theorem cmpFits_number {cmp : CmpValues} {input : List UInt8} {off : Nat}
    (h : ∀ v0 v1, cmp ≠ .bytes v0 v1) : CmpFits cmp input off :=
  fun v0 v1 hcmp => absurd hcmp (h v0 v1)

theorem replaceBytes_yields_iff {ne : Endian} {debug : Bool} {v0 v1 : CmplogBytes} {off : Nat}
    {u : Mutation R} (h : (CmpValues.bytes v0 v1).Legal) :
    (replaceFrom (bytesAt debug v0 v1) off u.input.length : Mutate R MutationResult).Yields u
        (Replaces ne (.bytes v0 v1) u.input) ↔
      CmpFits (.bytes v0 v1) u.input off := by
  refine replaceFrom_yields.trans ((search_bytes_iff h.1 h.2).trans ?_)
  constructor
  · intro hfits v0' v1' hcmp
    obtain ⟨rfl, rfl⟩ := CmpValues.bytes.inj hcmp
    exact hfits
  · exact fun hfits => hfits v0 v1 rfl

variable [Rand R]

theorem replaceSlice_yields {ne : Endian} {cmp : CmpValues} {size v0 v1 off : Nat}
    {u : Mutation R} (hsize : 0 < size)
    (hcmp : sides ne cmp = wordSides ne size v0 v1) :
    (replaceSlice ne size v0 v1 off u.input.length : Mutate R MutationResult).Yields u
      (Replaces ne cmp u.input) := by
  have hlt := Rand.below_lt ⟨size.log2 + 1, Nat.succ_pos _⟩ u.rand
  have hle : (randomSliceSize size u.rand).1 ≤ size := by
    refine (Nat.pow_le_pow_right (by decide) (Nat.le_of_lt_succ hlt)).trans ?_
    exact Nat.log2_self_le hsize.ne'
  have hpos : 0 < (randomSliceSize size u.rand).1 := Nat.two_pow_pos _
  refine (yields_bind_of_ok rfl).mpr ?_
  split
  · refine (replaceFrom_yields (u := { u with rand := _ })).mpr ?_
    rw [hcmp]
    exact search_inside fun i _ hi => sliceAt_sound ne (by simp only at hi ⊢; omega) hpos hle
  · exact replaces_skipped

/-- The comparison and the offset the draws select. -/
def selected (md : Option CmpLogMetadata) (len : Nat) (r : R) : Option (CmpValues × Nat) :=
  match md with
  | none => none
  | some md =>
    if h : 0 < len ∧ 0 < md.list.length then
      let idx := Rand.below ⟨md.list.length, h.2⟩ r
      let off := Rand.below ⟨len, h.1⟩ idx.2
      md.list[idx.1]?.map fun cmp => (cmp, off.1)
    else none

/-- What a call should do, whatever the draws select. -/
def Inside (ne : Endian) (md : Option CmpLogMetadata) (s : Mutation R)
    (r : Except Error MutationResult) (t : Mutation R) : Prop :=
  match selected md s.input.length s.rand with
  | none => r = .ok .skipped ∧ t.input = s.input
  | some (cmp, _) => Replaces ne cmp s.input r t

theorem withCmp_inside_iff {ne : Endian} {md : Option CmpLogMetadata} {s : Mutation R}
    {replace : CmpValues → Nat → Nat → Mutate R MutationResult}
    {P : CmpValues → List UInt8 → Nat → Prop}
    (h : ∀ cmp off (u : Mutation R), cmp.Legal →
      ((replace cmp off u.input.length).Yields u (Replaces ne cmp u.input) ↔ P cmp u.input off)) :
    (withCmp md replace).Yields s (Inside ne md s) ↔
      ∀ cmp off, selected md s.input.length s.rand = some (cmp, off) → P cmp s.input off := by
  rw [withCmp, yields_bind_of_ok (rfl : bytes.run s = some (.ok s.input, s))]
  have hskipped (hnone : selected md s.input.length s.rand = none) :
      (pure .skipped : Mutate R MutationResult).Yields s (Inside ne md s) ↔
        ∀ cmp off, selected md s.input.length s.rand = some (cmp, off) → P cmp s.input off := by
    refine iff_of_true (yields_pure.mpr ?_) fun cmp off hsome => ?_
    · rw [Inside, hnone]
      exact ⟨rfl, rfl⟩
    · exact absurd (hnone.symm.trans hsome) (Option.some_ne_none _).symm
  dsimp only
  split
  · next hsize =>
      cases md with
      | none => exact hskipped rfl
      | some md =>
          dsimp only
          split
          · next hcmps =>
              set idx := Rand.below ⟨md.list.length, hcmps⟩ s.rand with hidx
              set off := Rand.below ⟨s.input.length, hsize⟩ idx.2 with hoff
              have hlt : idx.1 < md.list.length := Rand.below_lt ..
              have hget : md.list[idx.1]? = some md.list[idx.1] := List.getElem?_eq_getElem hlt
              have hselected : selected (some md) s.input.length s.rand =
                  some (md.list[idx.1], off.1) := by
                rw [selected]
                exact (dif_pos ⟨hsize, hcmps⟩).trans
                  (congrArg (Option.map fun cmp => (cmp, off.1)) hget)
              have hunwrap : (unwrap md.list[idx.1]? : Mutate R CmpValues).run
                  { s with rand := off.2 } =
                    some (.ok md.list[idx.1], { s with rand := off.2 }) := by
                rw [hget]
                rfl
              have hreplace := h md.list[idx.1] off.1 { s with rand := off.2 }
                (md.legal _ (List.getElem_mem hlt))
              refine (yields_bind_of_ok rfl).trans ((yields_bind_of_ok rfl).trans
                ((yields_bind_of_ok hunwrap).trans ?_))
              rw [hselected]
              refine (Iff.trans ?_ hreplace).trans ?_
              · refine yields_congr fun r t => ?_
                rw [Inside, hselected]
              · constructor
                · intro hP cmp off' hsome
                  obtain ⟨rfl, rfl⟩ := Prod.mk.inj (Option.some.inj hsome)
                  exact hP
                · exact fun hP => hP _ _ rfl
          · next hcmps => exact hskipped (dif_neg fun h => hcmps h.2)
  · next hsize =>
      refine hskipped ?_
      cases md with
      | none => rfl
      | some md => exact dif_neg fun h => hsize h.1

/-- **Where replacements stay inside**, for both mutators. -/
theorem mutate_inside_iff (ne : Endian) (debug : Bool) (md : Option CmpLogMetadata)
    (s : Mutation R) :
    ((I2SRandReplace.mutate ne debug md).Yields s (Inside ne md s) ↔
      ∀ cmp off, selected md s.input.length s.rand = some (cmp, off) →
        CmpFits cmp s.input off) ∧
    ((I2SRandReplaceBinonly.mutate ne debug md).Yields s (Inside ne md s) ↔
      ∀ cmp off, selected md s.input.length s.rand = some (cmp, off) →
        CmpFits cmp s.input off) := by
  constructor
  · refine withCmp_inside_iff fun cmp off u hlegal => ?_
    cases cmp with
    | u8 v1 v2 v1IsConst => exact iff_of_true replaceByte_yields (cmpFits_number nofun)
    | u16 v1 v2 v1IsConst =>
        exact iff_of_true (replaceWord_yields (by decide) rfl) (cmpFits_number nofun)
    | u32 v1 v2 v1IsConst =>
        exact iff_of_true (replaceWord_yields (by decide) rfl) (cmpFits_number nofun)
    | u64 v1 v2 v1IsConst =>
        exact iff_of_true (replaceWord_yields (by decide) rfl) (cmpFits_number nofun)
    | bytes v0 v1 => exact replaceBytes_yields_iff hlegal
  · refine withCmp_inside_iff fun cmp off u hlegal => ?_
    cases cmp with
    | u8 v0 v1 v0IsConst => exact iff_of_true replaceByte_yields (cmpFits_number nofun)
    | u16 v0 v1 v0IsConst =>
        exact iff_of_true (replaceSlice_yields (by decide) rfl) (cmpFits_number nofun)
    | u32 v0 v1 v0IsConst =>
        exact iff_of_true (replaceSlice_yields (by decide) rfl) (cmpFits_number nofun)
    | u64 v0 v1 v0IsConst =>
        exact iff_of_true (replaceSlice_yields (by decide) rfl) (cmpFits_number nofun)
    | bytes v0 v1 => exact replaceBytes_yields_iff hlegal

end

/-- Of the pair of `ab` and `c` two bytes of the `c` are asked for. -/
theorem mutate_not_inside :
    ∃ (md : CmpLogMetadata) (s : Mutation (Stream' UInt64)),
      md.list.map (sides .little) = [[([97, 98], [99])]] ∧ s.input = [97, 98] ∧
      ∀ debug, ¬(I2SRandReplace.mutate .little debug (some md)).Yields s
        (Inside .little (some md) s) := by
  refine ⟨⟨[.bytes ⟨[97, 98] ++ List.replicate 30 0, 2⟩ ⟨[99] ++ List.replicate 31 0, 1⟩], ?_⟩,
    ⟨[97, 98], [], Stream'.const 0⟩, rfl, rfl, fun debug => ?_⟩
  · intro v hv
    obtain rfl := List.mem_singleton.mp hv
    exact ⟨⟨rfl, by decide⟩, rfl, by decide⟩
  · rintro ⟨r, t, hrun, -⟩
    cases debug with
    | false => exact Option.some_ne_none _ hrun.symm
    | true => exact Option.some_ne_none _ hrun.symm

end I2S

end Libaflmm
