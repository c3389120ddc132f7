import Libaflmm.Inserts
import Libaflmm.ScheduledMutators
import Mathlib.Logic.Relation

/-!
# What havoc can reach

A havoc mutator changes its input a few bytes at a time. Here the numbers that the
generator yields are chosen, so that what is shown is what *may* happen: the inputs
that can come out of a series of calls, each of them on the input of the one before.

`Call.May x s Q` says that there are numbers for which the call does `Q`, whatever the
buffers of the mutators hold and whatever numbers follow.
-/

namespace Libaflmm

open Mutate

/-! ## Chosen numbers -/

/-- With the right numbers drawn the mutation turns the input into `target`. -/
def May (x : Mutate (Stream' UInt64) MutationResult) (input target : List UInt8) : Prop :=
  ∃ draws : List UInt64, ∀ tmpBuf (rest : Stream' UInt64), ∃ tmpBuf',
    x.run ⟨input, tmpBuf, draws ++ₛ rest⟩ = some (.ok .mutated, ⟨target, tmpBuf', rest⟩)

theorem edit_run {R : Type} {g : List UInt8 → Option (List UInt8)} {s : Mutation R}
    {t : List UInt8} (h : g s.input = some t) :
    (edit g).run s = some (.ok (), { s with input := t }) := by
  show Option.map _ (g s.input) = _
  rw [h]
  rfl

variable {I : Type} {debug : Bool} {input : List UInt8}

theorem chooseByte_run {i : Nat} (hi : i < input.length) (hlen : input.length ≤ 2 ^ 64) :
    ∃ rand, ∀ tmpBuf (rest : Stream' UInt64),
      chooseByte.run ⟨input, tmpBuf, rest.cons rand⟩ = some (.ok i, ⟨input, tmpBuf, rest⟩) := by
  obtain ⟨rand, hrand⟩ := Rand.exists_below ⟨input.length, Nat.zero_lt_of_lt hi⟩ hi hlen
  refine ⟨rand, fun tmpBuf rest => ?_⟩
  have hchoose : Rand.choose (List.range input.length) (rest.cons rand) = (some i, rest) := by
    unfold Rand.choose
    simp only [List.length_range]
    rw [dif_pos (Nat.zero_lt_of_lt hi), hrand]
    simp [hi]
  unfold chooseByte
  rw [Call.run_bind_of_ok rfl]
  refine (Call.run_bind_of_ok (t := ⟨input, tmpBuf, rest⟩) (a := some i) ?_).trans rfl
  show some _ = _
  simp only [hchoose]

/-- Every byte can be changed by every mask but the empty and the full one. -/
theorem byteRand_may {i val : Nat} (hi : i < input.length) (hlen : input.length ≤ 2 ^ 64)
    (hval : val < 254) :
    May ByteRandMutator.mutate input (input.modify i (· ^^^ (1 + UInt8.ofNat val))) := by
  obtain ⟨rand, hindex⟩ := chooseByte_run hi hlen
  obtain ⟨rand', hdraw⟩ := Rand.exists_below ⟨254, by decide⟩ hval (by decide)
  refine ⟨[rand, rand'], fun tmpBuf rest => ⟨tmpBuf, ?_⟩⟩
  have hne : input.isEmpty = false := by
    rw [List.isEmpty_eq_false_iff]
    rintro rfl
    exact Nat.not_lt_zero i hi
  unfold ByteRandMutator.mutate
  rw [Call.run_bind_of_ok rfl]
  simp only [hne, Bool.false_eq_true, if_false, Stream'.cons_append_stream,
    Stream'.nil_append_stream]
  rw [Call.run_bind_of_ok (hindex tmpBuf _)]
  refine (Call.run_bind_of_ok (t := ⟨input, tmpBuf, rest⟩) (a := val) ?_).trans rfl
  show some _ = _
  simp only [hdraw]

/-- A byte can be put behind the input. -/
theorem bytesRandInsert_may {maxSize : Nat} (hsize : input.length < maxSize)
    (hlen : input.length < 2 ^ 64) (val : UInt8) :
    May (BytesRandInsertMutator.mutate debug maxSize) input (input ++ [val]) := by
  obtain ⟨rand, hoffset⟩ := Rand.exists_below ⟨input.length + 1, Nat.succ_pos _⟩
    (Nat.lt_succ_self _) hlen
  refine ⟨[0, rand, val.toUInt64], fun tmpBuf rest => ⟨tmpBuf, ?_⟩⟩
  have hamount : ∀ s : Stream' UInt64, Rand.below ⟨16, by decide⟩ (s.cons 0) = (0, s) :=
    fun s => Prod.ext (fastBound_zero 16) rfl
  have hcap : capAmount input.length (1 + 0) maxSize = some 1 := if_neg (by omega)
  have hopened : Vec.resize input (input.length + 1) 0 = input ++ [0] := by
    rw [Vec.resize_add]
    rfl
  have hmoved : bufferSelfCopy debug (input ++ [0]) input.length (input.length + 1) 0 =
      some (input ++ [0]) := by
    unfold bufferSelfCopy
    rw [if_neg (by simp), if_neg (by simp)]
  have hset : bufferSet (input ++ [0]) input.length 1 val = some (input ++ [val]) := by
    unfold bufferSet
    rw [if_pos (by simp)]
    simp [Slice.writeAt]
  unfold BytesRandInsertMutator.mutate
  rw [Call.run_bind_of_ok rfl]
  simp only [if_neg (Nat.not_le.mpr hsize), Stream'.cons_append_stream,
    Stream'.nil_append_stream]
  rw [Call.run_bind_of_ok rfl]
  simp only [hamount]
  rw [Call.run_bind_of_ok (newUnchecked_run (Nat.succ_pos _)), Call.run_bind_of_ok rfl]
  simp only [hoffset, hcap]
  rw [Call.run_bind_of_ok rfl]
  have hval : val.toUInt64.toUInt8 = val := UInt8.toUInt8_toUInt64 val
  have hresize : (resize (input.length + 1)).run
      (⟨input, tmpBuf, rest⟩ : Mutation (Stream' UInt64)) = _ :=
    edit_run (congrArg some hopened)
  refine (Call.run_bind_of_ok hresize).trans ?_
  rw [Nat.sub_self]
  refine (Call.run_bind_of_ok (edit_run hmoved)).trans ?_
  refine (Call.run_bind_of_ok (edit_run (t := input ++ [val]) ?_)).trans rfl
  show bufferSet (input ++ [0]) input.length 1 val.toUInt64.toUInt8 = _
  rw [hval, hset]

/-- The front of the input can be cut off, up to the last byte, if there are three. -/
theorem bytesDelete_may {n : Nat} (hsize : 2 < input.length) (hpos : 0 < n)
    (hn : n < input.length) (hlen : input.length ≤ 2 ^ 63) :
    May BytesDeleteMutator.mutate input (input.drop (input.length - n)) := by
  obtain ⟨len, hlt⟩ : ∃ len, input.length - n = 1 + len := ⟨input.length - n - 1, by omega⟩
  obtain ⟨rand, hrand⟩ := Rand.exists_below (i := len) ⟨input.length - 1, by omega⟩
    (show len < input.length - 1 by omega) (show input.length - 1 ≤ _ by omega)
  obtain ⟨rand', hrand'⟩ := exists_fastBound (i := len) (n := input.length + (1 + len) - 1)
    (by omega) (by omega)
  refine ⟨[rand, rand'], fun tmpBuf rest => ⟨tmpBuf, ?_⟩⟩
  have hrange : randRange input.length ⟨input.length - 1, by omega⟩
      ((rest.cons rand').cons rand) = (⟨0, 1 + len⟩, rest) := by
    unfold randRange
    simp only [hrand, Rand.belowOrZero]
    have hoffset : fastBound (Rand.next (rest.cons rand')).1 (input.length + (1 + len) - 1) = len :=
      hrand'
    simp only [hoffset, Nat.sub_self, if_neg (show ¬1 + len > input.length by omega)]
    rfl
  have hdrain : (Vec.drain input ⟨.included 0, .excluded (1 + len)⟩).map Prod.fst =
      some (input.drop (input.length - n)) := by
    have hwithin : RangeBounds.within ⟨.included 0, .excluded (1 + len)⟩ input.length =
        some (0, 1 + len) :=
      RangeBounds.within_eq_some.mpr ⟨rfl, rfl, Nat.zero_le _, by omega⟩
    rw [Vec.drain, hwithin, hlt]
    rfl
  unfold BytesDeleteMutator.mutate
  rw [Call.run_bind_of_ok rfl]
  simp only [if_neg (Nat.not_le.mpr hsize), Stream'.cons_append_stream,
    Stream'.nil_append_stream]
  rw [Call.run_bind_of_ok (newUnchecked_run (by omega)), Call.run_bind_of_ok rfl]
  simp only [hrange]
  exact (Call.run_bind_of_ok (edit_run hdrain)).trans rfl

/-! ## Stacks of two -/

namespace Havoc

open ScheduledMutator

variable [HasMutatorBytes I] (debug) (endian : Endian) (state : MutatorState I)
  (maxStackPow : Nat)

/-- The mutator of these mutations. -/
def stack : ScheduledMutator I := .havoc Mutator.havocMutations maxStackPow

/-- With the right numbers drawn a call turns the input into `target`, whatever is in the
buffers. -/
def Becomes (input target : List UInt8) : Prop :=
  ∃ draws : List UInt64, ∀ tmpBufs (rest : Stream' UInt64), ∃ tmpBufs',
    ((stack maxStackPow).mutate debug endian state).run ⟨input, tmpBufs, draws ++ₛ rest⟩ =
      some (.ok .mutated, ⟨target, tmpBufs', rest⟩)

variable {debug endian state maxStackPow} {s t u : List UInt8}

/-- One round with a mutator of the list. -/
theorem mutateOnce_may {m : Mutator I} (hm : m ∈ (stack maxStackPow : ScheduledMutator I).mutations)
    (h : May (m.mutate debug endian state) s t) :
    ∃ draws : List UInt64, ∀ tmpBufs (rest : Stream' UInt64), ∃ tmpBufs',
      ((stack maxStackPow).mutateOnce debug endian state).run ⟨s, tmpBufs, draws ++ₛ rest⟩ =
        some (.ok .mutated, ⟨t, tmpBufs', rest⟩) := by
  obtain ⟨idx, hidx, rfl⟩ := List.getElem_of_mem hm
  obtain ⟨draws, hrun⟩ := h
  obtain ⟨rand, hrand⟩ := Rand.exists_below ⟨_, Nat.zero_lt_of_lt hidx⟩ hidx
    (Nat.le_of_ble_eq_true rfl)
  refine ⟨rand :: draws, fun tmpBufs rest => ?_⟩
  obtain ⟨tmpBuf', hrun⟩ := hrun (tmpBufs idx) rest
  refine ⟨Function.update tmpBufs idx tmpBuf', ?_⟩
  unfold mutateOnce schedule
  rw [dif_pos (Nat.zero_lt_of_lt hidx), Stream'.cons_append_stream]
  refine (Call.run_bind_of_ok (a := idx) (t := ⟨s, tmpBufs, draws ++ₛ rest⟩) ?_).trans ?_
  · show some _ = _
    simp only [hrand]
  · have hslot : (Stacked.slot idx ⟨s, tmpBufs, draws ++ₛ rest⟩) =
        ⟨s, tmpBufs idx, draws ++ₛ rest⟩ := rfl
    rw [← hslot] at hrun
    exact getAndMutate_run (List.getElem?_eq_getElem hidx) hrun

/-- The smallest stack: two mutations. -/
theorem becomes_of_two {m₁ m₂ : Mutator I}
    (hm₁ : m₁ ∈ (stack maxStackPow : ScheduledMutator I).mutations)
    (hm₂ : m₂ ∈ (stack maxStackPow : ScheduledMutator I).mutations)
    (h₁ : May (m₁.mutate debug endian state) s t) (h₂ : May (m₂.mutate debug endian state) t u) :
    Becomes debug endian state maxStackPow s u := by
  obtain ⟨draws₁, hrun₁⟩ := mutateOnce_may hm₁ h₁
  obtain ⟨draws₂, hrun₂⟩ := mutateOnce_may hm₂ h₂
  refine ⟨0 :: (draws₁ ++ draws₂), fun tmpBufs rest => ?_⟩
  obtain ⟨tmpBufs₁, hrun₁⟩ := hrun₁ tmpBufs (draws₂ ++ₛ rest)
  obtain ⟨tmpBufs₂, hrun₂⟩ := hrun₂ tmpBufs₁ rest
  refine ⟨tmpBufs₂, ?_⟩
  have hiterations : ((stack maxStackPow : ScheduledMutator I).iterations debug).run
      ⟨s, tmpBufs, (0 :: (draws₁ ++ draws₂)) ++ₛ rest⟩ =
        some (.ok 2, ⟨s, tmpBufs, draws₁ ++ₛ (draws₂ ++ₛ rest)⟩) := by
    rw [Stream'.cons_append_stream, Stream'.append_append_stream]
    have hdraw : ∀ r : Stream' UInt64, Rand.belowOrZero maxStackPow (r.cons 0) = (0, r) :=
      fun r => Prod.ext (fastBound_zero maxStackPow) rfl
    refine (Call.run_bind_of_ok (a := 0)
      (t := ⟨s, tmpBufs, draws₁ ++ₛ (draws₂ ++ₛ rest)⟩) ?_).trans rfl
    show some _ = _
    simp only [hdraw]
  refine (Call.run_bind_of_ok hiterations).trans ?_
  refine (Call.run_bind_of_ok hrun₁).trans ?_
  exact (Call.run_bind_of_ok hrun₂).trans rfl

/-! ## What can be reached -/

variable (debug endian state maxStackPow) in
def Reaches : List UInt8 → List UInt8 → Prop :=
  Relation.ReflTransGen (Becomes debug endian state maxStackPow)

omit [HasMutatorBytes I] in
theorem byteRand_mem : (.byteRand : Mutator I) ∈ (stack maxStackPow).mutations := by
  simp [stack, mutations, Mutator.havocMutations, Mutator.havocMutationsNoCrossover]

omit [HasMutatorBytes I] in
theorem bytesRandInsert_mem : (.bytesRandInsert : Mutator I) ∈ (stack maxStackPow).mutations := by
  simp [stack, mutations, Mutator.havocMutations, Mutator.havocMutationsNoCrossover]

omit [HasMutatorBytes I] in
theorem bytesDelete_mem : (.bytesDelete : Mutator I) ∈ (stack maxStackPow).mutations := by
  simp [stack, mutations, Mutator.havocMutations, Mutator.havocMutationsNoCrossover]

theorem exists_mask {mask : UInt8} (hfirst : mask ≠ 0) (hlast : mask ≠ 255) :
    ∃ val < 254, 1 + UInt8.ofNat val = mask := by
  have hpos : mask.toNat ≠ 0 := fun h => hfirst (UInt8.toNat_inj.mp h)
  have hmax : mask.toNat ≠ 255 := fun h => hlast (UInt8.toNat_inj.mp h)
  have hlt := mask.toNat_lt
  refine ⟨mask.toNat - 1, by omega, UInt8.toNat_inj.mp ?_⟩
  rw [UInt8.toNat_add, UInt8.toNat_ofNat']
  show (1 + (mask.toNat - 1) % 256) % 256 = mask.toNat
  omega

theorem xor_xor (byte first mask : UInt8) :
    byte ^^^ first ^^^ (first ^^^ mask) = byte ^^^ mask := by
  rw [UInt8.xor_assoc, ← UInt8.xor_assoc first, UInt8.xor_self, UInt8.zero_xor]

/-- A mask is two masks that a byte can be changed by. -/
theorem exists_masks (mask : UInt8) : ∃ a < 254, ∃ b < 254, ∀ byte : UInt8,
    byte ^^^ (1 + UInt8.ofNat a) ^^^ (1 + UInt8.ofNat b) = byte ^^^ mask := by
  suffices hfirst : ∃ first : UInt8, first ≠ 0 ∧ first ≠ 255 ∧ first ^^^ mask ≠ 0 ∧
      first ^^^ mask ≠ 255 by
    obtain ⟨first, h0, h255, h0', h255'⟩ := hfirst
    obtain ⟨a, ha, heq⟩ := exists_mask h0 h255
    obtain ⟨b, hb, heq'⟩ := exists_mask h0' h255'
    refine ⟨a, ha, b, hb, fun byte => ?_⟩
    rw [heq, heq', xor_xor]
  have hne : ∀ first last : UInt8, first ^^^ mask = last → mask = first ^^^ last := by
    rintro first _ rfl
    rw [← UInt8.xor_assoc, UInt8.xor_self, UInt8.zero_xor]
  by_cases hone : mask = 1 ∨ mask = 254
  · refine ⟨2, by decide, by decide, ?_⟩
    rcases hone with rfl | rfl
    · decide
    · decide
  · refine ⟨1, by decide, by decide, fun h => hone (.inl (hne 1 0 h)), fun h => ?_⟩
    exact hone (.inr (hne 1 255 h))

theorem modify_eq {α : Type} {l : List α} {i : Nat} (hi : i < l.length) (f : α → α) :
    l.modify i f = l.set i (f l[i]) := by
  rw [List.modify_eq_set_getElem?, List.getElem?_eq_getElem hi]
  rfl

/-- A byte can be set. -/
theorem set_becomes {i : Nat} (hi : i < s.length) (hlen : s.length ≤ 2 ^ 64) (v : UInt8) :
    Becomes debug endian state maxStackPow s (s.set i v) := by
  obtain ⟨a, ha, b, hb, hmasks⟩ := exists_masks (s[i] ^^^ v)
  have hlen' : (s.modify i (· ^^^ (1 + UInt8.ofNat a))).length = s.length := List.length_modify ..
  have hset : (s.modify i (· ^^^ (1 + UInt8.ofNat a))).modify i (· ^^^ (1 + UInt8.ofNat b)) =
      s.set i v := by
    have hi' : i < (s.set i (s[i] ^^^ (1 + UInt8.ofNat a))).length := by
      rw [List.length_set]
      exact hi
    rw [modify_eq hi, modify_eq hi', List.set_set, List.getElem_set_self, hmasks,
      ← UInt8.xor_assoc, UInt8.xor_self, UInt8.zero_xor]
  rw [← hset]
  exact becomes_of_two byteRand_mem byteRand_mem (byteRand_may hi hlen ha)
    (byteRand_may (hlen'.symm ▸ hi) (hlen'.symm ▸ hlen) hb)

/-- The input can grow by a byte. -/
theorem concat_becomes (hsize : s.length < state.maxSize) (hlen : s.length < 2 ^ 64) (v : UInt8) :
    Becomes debug endian state maxStackPow s (s ++ [v]) := by
  have hlast : s.length < (s ++ [v ^^^ 1]).length := by simp
  have hset : (s ++ [v ^^^ 1]).modify s.length (· ^^^ (1 + UInt8.ofNat 0)) = s ++ [v] := by
    have hv : v ^^^ 1 ^^^ (1 + UInt8.ofNat 0) = v := by
      rw [show (1 + UInt8.ofNat 0) = 1 from rfl, UInt8.xor_assoc, UInt8.xor_self, UInt8.xor_zero]
    rw [modify_eq hlast, List.getElem_concat_length rfl, hv]
    simp
  have hmay : May (Mutator.byteRand.mutate debug endian state) (s ++ [v ^^^ 1]) (s ++ [v]) := by
    rw [← hset]
    exact byteRand_may hlast (by rw [List.length_append]; exact hlen) (by decide)
  exact becomes_of_two bytesRandInsert_mem byteRand_mem
    (bytesRandInsert_may hsize hlen (v ^^^ 1)) hmay

/-- The input can be cut down, if it has three bytes. -/
theorem exists_cut {n : Nat} (hsize : 2 < s.length) (hpos : 0 < n) (hn : n < s.length)
    (hlen : s.length ≤ 2 ^ 63) :
    ∃ t, t.length = n ∧ Becomes debug endian state maxStackPow s t := by
  have hdrop : (s.drop (s.length - n)).length = n := by
    rw [List.length_drop]
    omega
  refine ⟨(s.drop (s.length - n)).modify 0 (· ^^^ (1 + UInt8.ofNat 0)), ?_, ?_⟩
  · rw [List.length_modify, hdrop]
  · exact becomes_of_two bytesDelete_mem byteRand_mem (bytesDelete_may hsize hpos hn hlen)
      (byteRand_may (by omega) (by omega) (by decide))

theorem Reaches.one (h : Becomes debug endian state maxStackPow s t) :
    Reaches debug endian state maxStackPow s t :=
  .single h

/-- All the bytes can be set, from the first one on. -/
theorem reaches_of_length_eq (h : s.length = t.length) (hlen : s.length ≤ 2 ^ 64) :
    Reaches debug endian state maxStackPow s t := by
  have hfront : ∀ k ≤ t.length,
      Reaches debug endian state maxStackPow s (t.take k ++ s.drop k) := by
    intro k hk
    induction k with
    | zero => exact .refl
    | succ k ih =>
        have hmid : (t.take k ++ s.drop k).length = s.length := by
          rw [List.length_append, List.length_take, List.length_drop]
          omega
        have hset : (t.take k ++ s.drop k).set k t[k] = t.take (k + 1) ++ s.drop (k + 1) := by
          rw [List.drop_eq_getElem_cons (by omega : k < s.length),
            List.set_append_right _ _ (List.length_take_le _ _), List.length_take,
            Nat.min_eq_left (by omega), Nat.sub_self, List.set_cons_zero,
            List.take_succ_eq_append_getElem hk, List.append_assoc, List.singleton_append]
        refine (ih (by omega)).tail ?_
        rw [← hset]
        exact set_becomes (by omega) (hmid.symm ▸ hlen) _
  have hall := hfront t.length (Nat.le_refl _)
  rwa [List.take_length, List.drop_of_length_le h.le, List.append_nil] at hall

theorem exists_grown {n : Nat} (hle : s.length ≤ n) (hmax : n ≤ state.maxSize)
    (hlen : n ≤ 2 ^ 64) :
    ∃ t, t.length = n ∧ Reaches debug endian state maxStackPow s t := by
  induction n, hle using Nat.le_induction with
  | base => exact ⟨s, rfl, .refl⟩
  | succ n hle ih =>
      obtain ⟨t, ht, hreaches⟩ := ih (by omega) (by omega)
      refine ⟨t ++ [0], by rw [List.length_append, ht, List.length_singleton], ?_⟩
      exact hreaches.tail (concat_becomes (by omega) (by omega) 0)

/-- An input of a length that can be had. -/
theorem exists_sized {n : Nat} (hpos : 0 < n) (hn : n ≤ max s.length state.maxSize)
    (hsmall : s.length = 2 → n = 1 → 2 < state.maxSize)
    (hlen : max s.length state.maxSize ≤ 2 ^ 63) :
    ∃ t, t.length = n ∧ Reaches debug endian state maxStackPow s t := by
  have hslen : s.length ≤ 2 ^ 63 := (le_max_left _ _).trans hlen
  by_cases hle : s.length ≤ n
  · by_cases heq : s.length = n
    · exact ⟨s, heq, .refl⟩
    · exact exists_grown hle (by omega) (by omega)
  · by_cases htwo : s.length = 2
    · -- Only an input of three bytes or more can be cut.
      obtain ⟨u, hu, hreaches⟩ : ∃ u, u.length = 3 ∧
          Reaches debug endian state maxStackPow s u :=
        exists_grown (by omega) (hsmall htwo (by omega)) (by decide)
      obtain ⟨t, ht, hcut⟩ : ∃ t, t.length = n ∧ Becomes debug endian state maxStackPow u t :=
        exists_cut (by omega) hpos (by omega) (by omega)
      exact ⟨t, ht, hreaches.tail hcut⟩
    · obtain ⟨t, ht, hcut⟩ : ∃ t, t.length = n ∧ Becomes debug endian state maxStackPow s t :=
        exists_cut (by omega) hpos (by omega) hslen
      exact ⟨t, ht, .single hcut⟩

/-! ## What cannot be reached -/

/-- An input of one or two bytes is not cut, and none is cut down to nothing. -/
def Shrinks (s t : List UInt8) : Prop := s.length ≤ t.length ∨ 2 < s.length ∧ 0 < t.length

theorem bytesDelete_shrinks {R : Type} [Rand R] (s : Mutation R) :
    BytesDeleteMutator.mutate.Yields s fun _ t => Shrinks s.input t.input := by
  refine bytes_bind ?_
  dsimp only
  split
  · exact Call.yields_pure.mpr (.inl (Nat.le_refl _))
  · next hlen =>
      refine newUnchecked_bind (by omega) ?_
      refine randRange_bind (by omega) fun range hlt hstop hle rand => ?_
      have hwithin : RangeBounds.within ⟨.included range.start, .excluded range.stop⟩
          s.input.length = some (range.start, range.stop) :=
        RangeBounds.within_eq_some.mpr ⟨rfl, rfl, hlt.le, hstop⟩
      refine edit_bind (by rw [Vec.drain, hwithin]; rfl) ?_
      refine Call.yields_pure.mpr (.inr ⟨by omega, ?_⟩)
      simp only [Range.len] at hle
      simp only [List.length_append, List.length_take, List.length_drop]
      omega

theorem inserter_shrinks {R : Type} [Rand R] {s : Mutation R} (m : Inserter)
    (hm : ¬(m.mutator : Mutator I).DrawsEmpty state s) :
    ((m.mutator : Mutator I).mutate debug endian state).Leaves s fun _ t =>
      Shrinks s.input t.input := by
  intro r t hrun
  by_cases hr : r = .ok .mutated
  · obtain ⟨pos, -, new, -, heq⟩ := (Inserter.mutate_inserted m fun _ => hm).leaves r t hrun hr
    rw [Shrinks, heq, Slice.length_insertAt]
    exact .inl (Nat.le_add_right _ _)
  · have hsame := ((Mutator.mutate_guarantees _ fun _ => hm).leaves r t hrun).1.2 hr
    exact .inl (congrArg List.length hsame).ge

omit [HasMutatorBytes I] in
theorem not_drawsEmpty {R : Type} [Rand R] {m : Mutator I}
    (hm : m ∈ (Mutator.havocMutations : List (Mutator I))) (s : Mutation R) :
    ¬m.DrawsEmpty state s := by
  cases m with
  | tokenInsert | tokenReplace =>
      simp [Mutator.havocMutations, Mutator.havocMutationsNoCrossover, Mutator.havocCrossover] at hm
  | _ => exact id

theorem mutate_shrinks {R : Type} [Rand R] {s : Mutation R} {m : Mutator I}
    (hm : m ∈ (Mutator.havocMutations : List (Mutator I))) :
    (m.mutate debug endian state).Leaves s fun _ t => Shrinks s.input t.input := by
  have hdraws : ¬m.DrawsEmpty state s := not_drawsEmpty hm s
  by_cases hkeep : m.keepsLength = true
  · intro r t hrun
    exact .inl (((Mutator.mutate_guarantees m fun _ => hdraws).leaves r t hrun).2 hkeep).ge
  · cases m with
    | bytesDelete => exact (bytesDelete_shrinks s).leaves
    | bytesExpand => exact inserter_shrinks .bytesExpand hdraws
    | bytesInsert => exact inserter_shrinks .bytesInsert hdraws
    | bytesRandInsert => exact inserter_shrinks .bytesRandInsert hdraws
    | bytesInsertCopy => exact inserter_shrinks .bytesInsertCopy hdraws
    | crossoverInsert => exact inserter_shrinks .crossoverInsert hdraws
    | mappedCrossoverInsert | tokenInsert =>
        simp [Mutator.havocMutations, Mutator.havocMutationsNoCrossover,
          Mutator.havocCrossover] at hm
    | _ => exact absurd rfl hkeep

/-- What holds of the lengths along a series of rounds. -/
def Lengths (maxSize : Nat) (s t : List UInt8) : Prop :=
  t.length ≤ max s.length maxSize ∧ (0 < s.length → 0 < t.length) ∧
    (s.length = 2 → maxSize ≤ 2 → t.length = 2)

theorem Lengths.refl (maxSize : Nat) (s : List UInt8) : Lengths maxSize s s :=
  ⟨le_max_left _ _, id, fun h _ => h⟩

theorem Lengths.trans {maxSize : Nat} {s t u : List UInt8} (h : Lengths maxSize s t)
    (h' : Lengths maxSize t u) : Lengths maxSize s u :=
  ⟨h'.1.trans (max_le h.1 (le_max_right _ _)), h'.2.1 ∘ h.2.1,
    fun hs hmax => h'.2.2 (h.2.2 hs hmax) hmax⟩

theorem Shrinks.lengths {maxSize : Nat} (h : Shrinks s t)
    (hle : t.length ≤ max s.length maxSize) : Lengths maxSize s t := by
  unfold Shrinks at h
  refine ⟨hle, fun _ => by omega, fun hs hmax => by omega⟩

def Stretches {R : Type} (maxSize : Nat) (s t : Stacked R) : Prop :=
  Lengths maxSize s.input t.input

instance {R : Type} (maxSize : Nat) : IsPreorder (Stacked R) (Stretches maxSize) where
  refl s := Lengths.refl maxSize s.input
  trans _ _ _ h h' := Lengths.trans h h'

theorem mutateOnce_keeps {R : Type} [Rand R] :
    ((stack maxStackPow).mutateOnce debug endian state).Keeps
      (Stretches (R := R) state.maxSize) := by
  have hpos : 0 < (stack maxStackPow : ScheduledMutator I).mutations.length := Nat.succ_pos _
  refine Call.keeps_bind ?_ fun idx => ?_
  · unfold schedule
    rw [dif_pos hpos]
    refine Call.keeps_ofFn fun s r t h => ?_
    obtain ⟨-, rfl⟩ := Prod.mk.inj (Option.some.inj h)
    exact Lengths.refl _ _
  · intro s r t hrun
    unfold getAndMutate at hrun
    cases hm : (stack maxStackPow : ScheduledMutator I).mutations[idx]? with
    | none =>
        rw [hm] at hrun
        obtain ⟨-, rfl⟩ := Prod.mk.inj (Option.some.inj hrun)
        exact Lengths.refl _ _
    | some m =>
        rw [hm] at hrun
        obtain ⟨⟨r', t'⟩, hstep, heq⟩ := Option.map_eq_some_iff.mp hrun
        obtain ⟨rfl, rfl⟩ := Prod.mk.inj heq
        have hmem : m ∈ (Mutator.havocMutations : List (Mutator I)) := List.mem_of_getElem? hm
        have hle := ((Mutator.mutate_guarantees m fun _ =>
          not_drawsEmpty hmem (s.slot idx)).leaves r' t' hstep).1.1
        exact (mutate_shrinks hmem r' t' hstep).lengths hle

theorem mutate_keeps {R : Type} [Rand R] :
    ((stack maxStackPow).mutate debug endian state).Keeps (Stretches (R := R) state.maxSize) := by
  have htimes : ∀ num reported, ((stack maxStackPow).mutateTimes debug endian state num
      reported).Keeps (Stretches (R := R) state.maxSize) := by
    intro num
    induction num with
    | zero => exact fun _ => Call.keeps_pure
    | succ num ih => exact fun reported => Call.keeps_bind mutateOnce_keeps fun _ => ih _
  refine Call.keeps_bind ?_ fun num => htimes num _
  refine Call.keeps_bind ?_ fun pow => ?_
  · refine Call.keeps_ofFn fun s r t h => ?_
    obtain ⟨-, rfl⟩ := Prod.mk.inj (Option.some.inj h)
    exact Lengths.refl _ _
  · refine Call.keeps_ofFn fun s r t h => ?_
    obtain ⟨_, -, heq⟩ := Option.map_eq_some_iff.mp h
    obtain ⟨-, rfl⟩ := Prod.mk.inj heq
    exact Lengths.refl _ _

/-- A call may turn the input into `target`, with some numbers and some buffers. -/
def MayBecome (debug : Bool) (endian : Endian) (state : MutatorState I) (maxStackPow : Nat)
    (input target : List UInt8) : Prop :=
  ∃ tmpBufs tmpBufs' draws rest, ((stack maxStackPow).mutate debug endian state).run
    (⟨input, tmpBufs, draws⟩ : Stacked (Stream' UInt64)) =
      some (.ok .mutated, ⟨target, tmpBufs', rest⟩)

theorem Becomes.may (h : Becomes debug endian state maxStackPow s t) :
    MayBecome debug endian state maxStackPow s t := by
  obtain ⟨draws, hrun⟩ := h
  obtain ⟨tmpBufs', hrun⟩ := hrun (fun _ => []) (Stream'.const 0)
  exact ⟨_, tmpBufs', _, _, hrun⟩

theorem MayBecome.lengths (h : MayBecome debug endian state maxStackPow s t) :
    Lengths state.maxSize s t := by
  obtain ⟨_, _, _, _, hrun⟩ := h
  exact mutate_keeps.leaves _ _ _ hrun

theorem lengths_of_mayBecome
    (h : Relation.ReflTransGen (MayBecome debug endian state maxStackPow) s t) :
    Lengths state.maxSize s t := by
  induction h with
  | refl => exact Lengths.refl _ _
  | tail _ hlast ih => exact ih.trans hlast.lengths

/-- **What havoc can make of an input.** From an input a series of calls can make exactly
the inputs that have at least one byte and no more than the larger of the size limit and
the input itself; only an input of two bytes is never cut, unless it can first grow to
three. The numbers that are drawn are enough for it: what the mutators have in their
buffers, what is in the corpus, and how high the stacks may be make no difference. -/
theorem reaches_iff (hlen : max s.length state.maxSize ≤ 2 ^ 63) :
    (Relation.ReflTransGen (MayBecome debug endian state maxStackPow) s t ↔
      t = s ∨ 0 < t.length ∧ t.length ≤ max s.length state.maxSize ∧
        (s.length = 2 → state.maxSize ≤ 2 → t.length = 2)) ∧
    (Relation.ReflTransGen (MayBecome debug endian state maxStackPow) s t ↔
      Relation.ReflTransGen (Becomes debug endian state maxStackPow) s t) := by
  have honly : Relation.ReflTransGen (MayBecome debug endian state maxStackPow) s t →
      t = s ∨ 0 < t.length ∧ t.length ≤ max s.length state.maxSize ∧
        (s.length = 2 → state.maxSize ≤ 2 → t.length = 2) := by
    intro h
    obtain ⟨hle, hpos, hsmall⟩ := lengths_of_mayBecome h
    by_cases ht : 0 < t.length
    · exact .inr ⟨ht, hle, hsmall⟩
    · have hs : s.length = 0 := by
        by_contra hs
        exact ht (hpos (Nat.pos_of_ne_zero hs))
      refine .inl ?_
      rw [List.eq_nil_of_length_eq_zero hs, List.eq_nil_of_length_eq_zero (by omega : t.length = 0)]
  have hall : (t = s ∨ 0 < t.length ∧ t.length ≤ max s.length state.maxSize ∧
      (s.length = 2 → state.maxSize ≤ 2 → t.length = 2)) →
      Reaches debug endian state maxStackPow s t := by
    rintro (rfl | ⟨hpos, hle, hsmall⟩)
    · exact .refl
    · obtain ⟨u, hu, hreaches⟩ : ∃ u, u.length = t.length ∧
          Reaches debug endian state maxStackPow s u :=
        exists_sized hpos hle (fun hs ht => by
          by_contra hmax
          have htwo := hsmall hs (by omega)
          omega) hlen
      exact hreaches.trans (reaches_of_length_eq hu (by omega))
  have hmono : Reaches debug endian state maxStackPow s t →
      Relation.ReflTransGen (MayBecome debug endian state maxStackPow) s t :=
    fun h => Relation.ReflTransGen.mono (fun _ _ => Becomes.may) _ _ h
  exact ⟨⟨honly, fun h => hmono (hall h)⟩, ⟨fun h => hall (honly h), hmono⟩⟩

/-- With the limit of four bytes. -/
theorem reaches_iff_oneToken :
    (Relation.ReflTransGen (MayBecome true .little (Mutator.oneToken [7]) 7) [1, 2] [3] ↔
      [3] = ([1, 2] : List UInt8) ∨ 0 < 1 ∧ 1 ≤ 4 ∧ (2 = 2 → 4 ≤ 2 → 1 = 2)) ∧
    (Relation.ReflTransGen (MayBecome true .little (Mutator.oneToken [7]) 7) [1, 2] [3] ↔
      Relation.ReflTransGen (Becomes true .little (Mutator.oneToken [7]) 7) [1, 2] [3]) :=
  reaches_iff (by decide)

end Havoc

end Libaflmm
