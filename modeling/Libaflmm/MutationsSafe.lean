import Libaflmm.Mutations

/-!
# The mutators stay within their buffers

Each mutator is run step by step, with one rule for every kind of step. What
the rules keep of a step is where its random values may lie, and which
lengths the buffers have after it: nothing else decides whether the next one
is within its bounds.
-/

namespace Libaflmm

variable {R : Type}

/-! ## The helpers -/

section

variable {α : Type} {debug : Bool} {data src : List α} {start dest len : Nat}

theorem bufferSelfCopy_eq (hne : debug = true → data ≠ []) (hstart : start + len ≤ data.length)
    (hdest : dest + len ≤ data.length) :
    bufferSelfCopy debug data start dest len =
      some (Slice.writeAt data dest (Slice.sub data start len)) := by
  rw [bufferSelfCopy, if_neg (fun h => h.2 ⟨hne h.1, hstart, hdest⟩)]
  split
  · rw [if_pos ⟨hstart, hdest⟩]
  · next h =>
      rcases Nat.eq_zero_or_pos len with rfl | hlen
      · simp [Slice.sub, Slice.writeAt]
      · obtain rfl : start = dest := by
          by_contra hsd
          exact h ⟨hlen.ne', hsd⟩
        rw [Slice.writeAt_sub hstart]

theorem bufferCopy_eq (hne : debug = true → data ≠ [] ∧ src ≠ [])
    (hstart : start + len ≤ src.length) (hdest : dest + len ≤ data.length) :
    bufferCopy debug data src start dest len =
      some (Slice.writeAt data dest (Slice.sub src start len)) := by
  rw [bufferCopy, if_neg (fun h => h.2 ⟨(hne h.1).1, (hne h.1).2, hstart, hdest⟩)]
  split
  · rw [if_pos ⟨hstart, hdest⟩]
  · next h =>
      obtain rfl := Nat.eq_zero_of_not_pos fun hlen => h hlen.ne'
      simp [Slice.sub, Slice.writeAt]

theorem bufferSelfCopy_within (hne : debug = true → data ≠ []) (hstart : start + len ≤ data.length)
    (hdest : dest + len ≤ data.length) :
    ∃ data', bufferSelfCopy debug data start dest len = some data' ∧
      data'.length = data.length :=
  ⟨_, bufferSelfCopy_eq hne hstart hdest,
    Slice.length_writeAt (by rw [Slice.length_sub]; omega)⟩

variable (debug) in
theorem bufferCopy_within (hne : debug = true → data ≠ [] ∧ src ≠ [])
    (hstart : start + len ≤ src.length) (hdest : dest + len ≤ data.length) :
    ∃ data', bufferCopy debug data src start dest len = some data' ∧
      data'.length = data.length :=
  ⟨_, bufferCopy_eq hne hstart hdest, Slice.length_writeAt (by rw [Slice.length_sub]; omega)⟩

theorem bufferSet_within {val : α} (h : start + len ≤ data.length) :
    ∃ data', bufferSet data start len val = some data' ∧ data'.length = data.length := by
  rw [bufferSet, if_pos h]
  exact ⟨_, rfl, Slice.length_writeAt (by rw [List.length_replicate]; omega)⟩

end

/-- The window is not empty, and no longer than asked for. -/
theorem randRange_within [Rand R] {upper : Nat} (hupper : 0 < upper) (maxLen : NonZeroUsize)
    (r : R) :
    (randRange upper maxLen r).1.start < (randRange upper maxLen r).1.stop ∧
      (randRange upper maxLen r).1.stop ≤ upper ∧
      (randRange upper maxLen r).1.len ≤ maxLen.val := by
  simp only [randRange, Range.len]
  have hlen := Rand.below_lt maxLen r
  set len := 1 + (Rand.below maxLen r).1
  have hoffset := Rand.belowOrZero_le (upper + len - 1) (Rand.below maxLen r).2
  set offset2 := (Rand.belowOrZero (upper + len - 1) (Rand.below maxLen r).2).1
  split <;> omega

/-! ## Rules for the steps -/

namespace Mutate

open Call

variable {α β : Type} {s : Mutation R} {Q : Except Error β → Mutation R → Prop} {debug : Bool}

theorem bytes_bind {f : List UInt8 → Mutate R β} (h : (f s.input).Yields s Q) :
    (bytes >>= f).Yields s Q :=
  yields_bind.mpr ((yields_of_run rfl).mpr h)

theorem draw_bind {g : R → α × R} {f : α → Mutate R β}
    (h : ∀ rand, (f (g s.rand).1).Yields { s with rand } Q) : (draw g >>= f).Yields s Q :=
  yields_bind.mpr ((yields_of_run rfl).mpr (h _))

theorem unwrap_bind {o : Option α} {a : α} {f : α → Mutate R β} (ho : o = some a)
    (h : (f a).Yields s Q) : (unwrap o >>= f).Yields s Q := by
  subst ho
  exact yields_bind.mpr ((yields_of_run rfl).mpr h)

theorem newUnchecked_bind {n : Nat} {f : NonZeroUsize → Mutate R β} (hn : 0 < n)
    (h : (f ⟨n, hn⟩).Yields s Q) : (newUnchecked n >>= f).Yields s Q :=
  unwrap_bind (dif_pos hn) h

theorem edit_bind {g : List UInt8 → Option (List UInt8)} {input : List UInt8}
    {f : Unit → Mutate R β} (hg : g s.input = some input)
    (h : (f ()).Yields { s with input } Q) : (edit g >>= f).Yields s Q := by
  refine yields_bind.mpr ((yields_of_run (r := .ok ()) (t := { s with input }) ?_).mpr h)
  show Option.map _ (g s.input) = _
  rw [hg]
  rfl

theorem resize_bind {newLen : Nat} {f : Unit → Mutate R β}
    (h : ∀ input, input.length = newLen → (f ()).Yields { s with input } Q) :
    (resize newLen >>= f).Yields s Q :=
  edit_bind rfl (h _ Vec.length_resize)

theorem resizeTmp_bind {newLen : Nat} {f : Unit → Mutate R β}
    (h : ∀ tmpBuf, tmpBuf.length = newLen → (f ()).Yields { s with tmpBuf } Q) :
    (resizeTmp newLen >>= f).Yields s Q :=
  yields_bind.mpr ((yields_of_run rfl).mpr (h _ Vec.length_resize))

/-- The rule for what writes the input and keeps its length. -/
theorem edit_length_bind {g : List UInt8 → Option (List UInt8)} {f : Unit → Mutate R β}
    (hg : ∃ input, g s.input = some input ∧ input.length = s.input.length)
    (h : ∀ input, input.length = s.input.length → (f ()).Yields { s with input } Q) :
    (edit g >>= f).Yields s Q := by
  obtain ⟨input, hinput, hlen⟩ := hg
  exact edit_bind hinput (h input hlen)

theorem selfCopy_bind {start dest len : Nat} {f : Unit → Mutate R β}
    (hne : debug = true → s.input ≠ [])
    (hstart : start + len ≤ s.input.length) (hdest : dest + len ≤ s.input.length)
    (h : ∀ input, input.length = s.input.length → (f ()).Yields { s with input } Q) :
    (selfCopy debug start dest len >>= f).Yields s Q :=
  edit_length_bind (bufferSelfCopy_within hne hstart hdest) h

theorem copyFrom_bind {src : List UInt8} {start dest len : Nat} {f : Unit → Mutate R β}
    (hne : debug = true → s.input ≠ [] ∧ src ≠ [])
    (hstart : start + len ≤ src.length) (hdest : dest + len ≤ s.input.length)
    (h : ∀ input, input.length = s.input.length → (f ()).Yields { s with input } Q) :
    (copyFrom debug src start dest len >>= f).Yields s Q :=
  edit_length_bind (bufferCopy_within debug hne hstart hdest) h

theorem set_bind {start len : Nat} {val : UInt8} {f : Unit → Mutate R β}
    (hlen : start + len ≤ s.input.length)
    (h : ∀ input, input.length = s.input.length → (f ()).Yields { s with input } Q) :
    (set start len val >>= f).Yields s Q :=
  edit_length_bind (bufferSet_within hlen) h

theorem copyToTmp_bind {start dest len : Nat} {f : Unit → Mutate R β}
    (hne : 0 < s.tmpBuf.length) (hinput : 0 < s.input.length)
    (hstart : start + len ≤ s.input.length) (hdest : dest + len ≤ s.tmpBuf.length)
    (h : ∀ tmpBuf, tmpBuf.length = s.tmpBuf.length → (f ()).Yields { s with tmpBuf } Q) :
    (copyToTmp debug start dest len >>= f).Yields s Q := by
  obtain ⟨tmpBuf, htmp, hlen⟩ := bufferCopy_within debug
    (fun _ => ⟨List.length_pos_iff.mp hne, List.length_pos_iff.mp hinput⟩) hstart hdest
  refine yields_bind.mpr ((yields_of_run (r := .ok ()) (t := { s with tmpBuf }) ?_).mpr
    (h tmpBuf hlen))
  show Option.map _ (bufferCopy debug s.tmpBuf s.input start dest len) = _
  rw [htmp]
  rfl

theorem copyFromTmp_bind {start dest len : Nat} {f : Unit → Mutate R β}
    (hne : 0 < s.input.length) (htmp : 0 < s.tmpBuf.length)
    (hstart : start + len ≤ s.tmpBuf.length) (hdest : dest + len ≤ s.input.length)
    (h : ∀ input, input.length = s.input.length → (f ()).Yields { s with input } Q) :
    (copyFromTmp debug start dest len >>= f).Yields s Q := by
  rw [copyFromTmp, bind_assoc]
  refine yields_bind.mpr ((yields_of_run rfl).mpr ?_)
  exact copyFrom_bind (fun _ => ⟨List.length_pos_iff.mp hne, List.length_pos_iff.mp htmp⟩) hstart
    hdest h

section

variable [Rand R]

theorem below_bind {n : NonZeroUsize} {f : Nat → Mutate R β}
    (h : ∀ i < n.val, ∀ rand, (f i).Yields { s with rand } Q) :
    (draw (Rand.below n) >>= f).Yields s Q :=
  draw_bind (h _ (Rand.below_lt n s.rand))

theorem choose_bind {l : List α} (hl : l ≠ []) {f : α → Mutate R β}
    (h : ∀ a ∈ l, ∀ rand, (f a).Yields { s with rand } Q) :
    (draw (Rand.choose l) >>= fun o => unwrap o >>= f).Yields s Q := by
  obtain ⟨a, ha, r, hr⟩ := Rand.choose_mem hl s.rand
  refine draw_bind fun rand => ?_
  exact unwrap_bind (congrArg Prod.fst hr) (h a ha rand)

theorem randRange_bind {upper : Nat} (hupper : 0 < upper) {maxLen : NonZeroUsize}
    {f : Range → Mutate R β}
    (h : ∀ range : Range, range.start < range.stop → range.stop ≤ upper →
      range.len ≤ maxLen.val → ∀ rand, (f range).Yields { s with rand } Q) :
    (draw (randRange upper maxLen) >>= f).Yields s Q := by
  obtain ⟨hlt, hstop, hlen⟩ := randRange_within hupper maxLen s.rand
  exact draw_bind fun rand => h _ hlt hstop hlen rand

end

end Mutate

/-! ## The mutators, one by one -/

/-- The input keeps its length, and is unchanged unless it was mutated. -/
def Kept (s : Mutation R) (r : Except Error MutationResult) (t : Mutation R) : Prop :=
  t.input.length = s.input.length ∧ (r ≠ .ok .mutated → t.input = s.input)

/-- The input grows up to the maximal size at most. -/
def Resized (maxSize : Nat) (s : Mutation R) (r : Except Error MutationResult)
    (t : Mutation R) : Prop :=
  t.input.length ≤ max s.input.length maxSize ∧ (r ≠ .ok .mutated → t.input = s.input)

theorem Kept.resized {maxSize : Nat} {s t : Mutation R} {r : Except Error MutationResult}
    (h : Kept s r t) : Resized maxSize s r t :=
  ⟨h.1.le.trans (le_max_left _ _), h.2⟩

theorem kept_mutated {s t : Mutation R} (h : t.input.length = s.input.length) :
    (pure .mutated : Mutate R MutationResult).Yields t (Kept s) :=
  Call.yields_pure.mpr ⟨h, fun hne => absurd rfl hne⟩

theorem kept_skipped {s t : Mutation R} (h : t.input = s.input) :
    (pure .skipped : Mutate R MutationResult).Yields t (Kept s) :=
  Call.yields_pure.mpr ⟨congrArg _ h, fun _ => h⟩

theorem resized_mutated {maxSize : Nat} {s t : Mutation R} (h : t.input.length ≤ maxSize) :
    (pure .mutated : Mutate R MutationResult).Yields t (Resized maxSize s) :=
  Call.yields_pure.mpr ⟨h.trans (le_max_right _ _), fun hne => absurd rfl hne⟩

theorem resized_skipped {maxSize : Nat} {s t : Mutation R} (h : t.input = s.input) :
    (pure .skipped : Mutate R MutationResult).Yields t (Resized maxSize s) :=
  Call.yields_pure.mpr (Kept.resized ⟨congrArg _ h, fun _ => h⟩)

open Mutate

section

variable [Rand R] (s : Mutation R)

/-! ### Bits and bytes -/

theorem chooseByte_bind {β : Type} {s : Mutation R} {f : Nat → Mutate R β}
    {Q : Except Error β → Mutation R → Prop} (hne : s.input ≠ [])
    (h : ∀ index < s.input.length, ∀ rand, (f index).Yields { s with rand } Q) :
    (chooseByte >>= f).Yields s Q := by
  rw [chooseByte, bind_assoc]
  refine bytes_bind ?_
  rw [bind_assoc]
  refine choose_bind (by simpa using hne) fun index hindex rand => ?_
  exact h index (List.mem_range.mp hindex) rand

theorem mutateByte_kept {change : Mutate R (UInt8 → UInt8)}
    (hchange : ∀ Q : Except Error (UInt8 → UInt8) → Mutation R → Prop,
      (∀ f rand, Q (.ok f) { s with rand }) → change.Yields s Q) :
    (mutateByte change).Yields s (Kept s) := by
  refine bytes_bind ?_
  split
  · exact kept_skipped rfl
  · next hne =>
      refine Call.yields_bind.mpr (hchange _ fun f rand => ?_)
      refine chooseByte_bind (by simpa using hne) fun index _ rand => ?_
      refine edit_bind rfl ?_
      exact kept_mutated (List.length_modify ..)

theorem bitFlip_kept : BitFlipMutator.mutate.Yields s (Kept s) := by
  refine mutateByte_kept s fun Q hQ => ?_
  refine choose_bind (by decide) fun bit _ rand => ?_
  exact Call.yields_pure.mpr (hQ _ rand)

theorem byteFlip_kept : ByteFlipMutator.mutate.Yields s (Kept s) :=
  mutateByte_kept s fun _ hQ => Call.yields_pure.mpr (hQ _ s.rand)

theorem byteInc_kept : ByteIncMutator.mutate.Yields s (Kept s) :=
  mutateByte_kept s fun _ hQ => Call.yields_pure.mpr (hQ _ s.rand)

theorem byteDec_kept : ByteDecMutator.mutate.Yields s (Kept s) :=
  mutateByte_kept s fun _ hQ => Call.yields_pure.mpr (hQ _ s.rand)

theorem byteNeg_kept : ByteNegMutator.mutate.Yields s (Kept s) :=
  mutateByte_kept s fun _ hQ => Call.yields_pure.mpr (hQ _ s.rand)

theorem byteRand_kept : ByteRandMutator.mutate.Yields s (Kept s) := by
  refine bytes_bind ?_
  split
  · exact kept_skipped rfl
  · next hne =>
      refine chooseByte_bind (by simpa using hne) fun index _ rand => ?_
      refine below_bind fun val _ rand => ?_
      refine edit_bind rfl ?_
      exact kept_mutated (List.length_modify ..)

/-! ### Words -/

theorem ofLeBytes_leBytes {size n : Nat} (h : n < 256 ^ size) :
    ofLeBytes (leBytes size n) = n := by
  induction size generalizing n with
  | zero => exact (Nat.lt_one_iff.mp h).symm
  | succ size ih =>
      rw [leBytes, ofLeBytes, ih (Nat.div_lt_of_lt_mul (by rwa [Nat.pow_succ'] at h)),
        UInt8.toNat_ofNat']
      exact Nat.mod_add_div n 256

theorem leBytes_ofLeBytes (bytes : List UInt8) :
    leBytes bytes.length (ofLeBytes bytes) = bytes := by
  induction bytes with
  | nil => rfl
  | cons byte bytes ih =>
      have hlt := byte.toNat_lt
      have hdiv : (byte.toNat + 256 * ofLeBytes bytes) / 256 = ofLeBytes bytes := by omega
      have hmod : UInt8.ofNat (byte.toNat + 256 * ofLeBytes bytes) = byte := by
        apply UInt8.toNat_inj.mp
        rw [UInt8.toNat_ofNat']
        omega
      rw [List.length_cons, ofLeBytes, leBytes, hdiv, hmod, ih]

theorem ofLeBytes_lt (bytes : List UInt8) : ofLeBytes bytes < 256 ^ bytes.length := by
  induction bytes with
  | nil => exact Nat.one_pos
  | cons byte bytes ih =>
      have hlt := byte.toNat_lt
      rw [ofLeBytes, List.length_cons, Nat.pow_succ]
      omega

theorem length_leBytes (size n : Nat) : (leBytes size n).length = size := by
  induction size generalizing n with
  | zero => rfl
  | succ size ih => simp [leBytes, ih]

theorem Endian.length_toBytes (e : Endian) (size n : Nat) : (e.toBytes size n).length = size := by
  cases e with
  | little => exact length_leBytes size n
  | big => exact List.length_reverse.trans (length_leBytes size n)

theorem addMutator_kept (endian : Endian) {size : Nat} :
    (addMutator endian size).Yields s (Kept s) := by
  refine bytes_bind ?_
  dsimp only
  split
  · exact kept_skipped rfl
  · next hlen =>
      refine choose_bind (by simp) fun index hindex rand => ?_
      have hlt := List.mem_range.mp hindex
      refine below_bind fun num _ rand => ?_
      refine below_bind fun op _ rand => ?_
      refine edit_bind rfl ?_
      refine kept_mutated (Slice.length_writeAt ?_)
      rw [Endian.length_toBytes]
      simp only
      omega

theorem interestingMutator_kept {size : Nat} {interesting : List Int}
    (hne : interesting ≠ []) : (interestingMutator size interesting).Yields s (Kept s) := by
  refine bytes_bind ?_
  dsimp only
  split
  · exact kept_skipped rfl
  · next hlen =>
      refine newUnchecked_bind (by omega) ?_
      refine below_bind fun idx hidx rand => ?_
      refine choose_bind hne fun val _ rand => ?_
      refine choose_bind (by decide) fun order _ rand => ?_
      refine edit_bind rfl ?_
      refine kept_mutated (Slice.length_writeAt ?_)
      simp only at hidx ⊢
      split <;> rw [Endian.length_toBytes] <;> omega

/-! ### Ranges of bytes -/

theorem bytesDelete_resized (maxSize : Nat) :
    BytesDeleteMutator.mutate.Yields s (Resized maxSize s) := by
  refine bytes_bind ?_
  dsimp only
  split
  · exact resized_skipped rfl
  · next hlen =>
      refine newUnchecked_bind (by omega) ?_
      refine randRange_bind (by omega) fun range hlt hstop _ rand => ?_
      have hwithin : RangeBounds.within ⟨.included range.start, .excluded range.stop⟩
          s.input.length = some (range.start, range.stop) :=
        RangeBounds.within_eq_some.mpr ⟨rfl, rfl, hlt.le, hstop⟩
      refine edit_bind (by rw [Vec.drain, hwithin]; rfl) ?_
      refine Call.yields_pure.mpr ⟨?_, fun hne => absurd rfl hne⟩
      simp only [List.length_append, List.length_take, List.length_drop]
      omega

theorem bytesSet_kept : BytesSetMutator.mutate.Yields s (Kept s) := by
  refine bytes_bind ?_
  dsimp only
  split
  · exact kept_skipped rfl
  · next hlen =>
      refine newUnchecked_bind (by omega) ?_
      refine randRange_bind (by omega) fun range hlt hstop _ rand => ?_
      refine bytes_bind ?_
      refine choose_bind (List.length_pos_iff.mp (by simp only; omega)) fun val _ rand => ?_
      refine set_bind (by simp only [Range.len]; omega) fun input hinput => ?_
      exact kept_mutated hinput

theorem bytesRandSet_kept : BytesRandSetMutator.mutate.Yields s (Kept s) := by
  refine bytes_bind ?_
  dsimp only
  split
  · exact kept_skipped rfl
  · next hlen =>
      refine newUnchecked_bind (by omega) ?_
      refine randRange_bind (by omega) fun range hlt hstop _ rand => ?_
      refine draw_bind fun rand => ?_
      refine set_bind (by simp only [Range.len]; omega) fun input hinput => ?_
      exact kept_mutated hinput

variable (debug : Bool) (maxSize : Nat)

theorem bytesExpand_resized :
    (BytesExpandMutator.mutate debug maxSize).Yields s (Resized maxSize s) := by
  refine bytes_bind ?_
  dsimp only
  split
  · exact resized_skipped rfl
  · next hlen =>
      obtain ⟨hpos, hmax⟩ : 0 < s.input.length ∧ s.input.length < maxSize := by omega
      refine newUnchecked_bind (by omega) ?_
      refine randRange_bind hpos fun range hlt hstop hle rand => ?_
      simp only at hle
      refine resize_bind fun input hinput => ?_
      refine selfCopy_bind ?_ ?_ ?_ fun input' hinput' => ?_
      · exact fun _ => List.length_pos_iff.mp (by simp only; omega)
      · simp only [Range.len] at hinput ⊢; omega
      · simp only; omega
      · refine resized_mutated ?_
        simp only at hinput' ⊢
        omega

/-- Growing by no more than the cap stays below the maximal size. -/
theorem capAmount_eq_some {size amount maxSize len : Nat}
    (h : capAmount size amount maxSize = some len) :
    len ≤ amount ∧ (size ≤ maxSize → size + len ≤ maxSize) ∧ (0 < amount → size < maxSize → 0 < len)
      := by
  rw [capAmount] at h
  split at h
  · split at h
    · obtain rfl := Option.some.inj h
      omega
    · cases h
  · obtain rfl := Option.some.inj h
    omega

omit [Rand R] in
/-- Both insertions end so: what is behind the offset is moved, and the room
is filled. -/
theorem insertFill_resized {s t : Mutation R} {size offset amount : Nat} {val : UInt8}
    (hoffset : offset ≤ size) (hpos : 0 < size + amount) (hmax : size + amount ≤ maxSize) :
    (do
      resize (size + amount)
      selfCopy debug offset (offset + amount) (size - offset)
      set offset amount val
      return .mutated : Mutate R MutationResult).Yields t (Resized maxSize s) := by
  refine resize_bind fun input hinput => ?_
  refine selfCopy_bind ?_ ?_ ?_ fun input' hinput' => ?_
  · exact fun _ => List.length_pos_iff.mp (by simp only; omega)
  · simp only; omega
  · simp only; omega
  · refine set_bind ?_ fun input'' hinput'' => ?_
    · simp only at hinput' ⊢; omega
    · refine resized_mutated ?_
      simp only at hinput' hinput'' ⊢
      omega

theorem bytesInsert_resized :
    (BytesInsertMutator.mutate debug maxSize).Yields s (Resized maxSize s) := by
  refine bytes_bind ?_
  dsimp only
  split
  · exact resized_skipped rfl
  · next hlen =>
      obtain ⟨hpos, hmax⟩ : 0 < s.input.length ∧ s.input.length < maxSize := by omega
      refine below_bind fun amount _ rand => ?_
      refine newUnchecked_bind (by omega) ?_
      refine below_bind fun offset hoffset rand => ?_
      simp only at hoffset
      split
      · exact resized_skipped rfl
      · next len hcap =>
          obtain ⟨-, hfit, -⟩ := capAmount_eq_some hcap
          refine newUnchecked_bind hpos ?_
          refine below_bind fun index hindex rand => ?_
          refine bytes_bind ?_
          refine unwrap_bind (List.getElem?_eq_getElem hindex) ?_
          exact insertFill_resized debug maxSize (Nat.le_of_lt_succ hoffset) (by omega) (by omega)

theorem bytesRandInsert_resized :
    (BytesRandInsertMutator.mutate debug maxSize).Yields s (Resized maxSize s) := by
  refine bytes_bind ?_
  dsimp only
  split
  · exact resized_skipped rfl
  · next hlen =>
      refine below_bind fun amount _ rand => ?_
      refine newUnchecked_bind (by omega) ?_
      refine below_bind fun offset hoffset rand => ?_
      simp only at hoffset
      split
      · exact resized_skipped rfl
      · next len hcap =>
          obtain ⟨-, hfit, hlenpos⟩ := capAmount_eq_some hcap
          refine draw_bind fun rand => ?_
          exact insertFill_resized debug maxSize (Nat.le_of_lt_succ hoffset) (by omega) (by omega)

theorem bytesCopy_kept : (BytesCopyMutator.mutate debug).Yields s (Kept s) := by
  refine bytes_bind ?_
  dsimp only
  split
  · exact kept_skipped rfl
  · next hlen =>
      refine newUnchecked_bind (by omega) ?_
      refine below_bind fun target htarget rand => ?_
      simp only at htarget
      refine newUnchecked_bind (by omega) ?_
      refine randRange_bind (by omega) fun range hlt hstop hle rand => ?_
      simp only at hle
      refine selfCopy_bind ?_ ?_ ?_ fun input hinput => ?_
      · exact fun _ => List.length_pos_iff.mp (by simp only; omega)
      · simp only [Range.len]; omega
      · simp only; omega
      · exact kept_mutated hinput

theorem bytesInsertCopy_resized :
    (BytesInsertCopyMutator.mutate debug maxSize).Yields s (Resized maxSize s) := by
  refine bytes_bind ?_
  dsimp only
  split
  · exact resized_skipped rfl
  · next hlen =>
      refine newUnchecked_bind (by omega) ?_
      refine below_bind fun target htarget rand => ?_
      simp only at htarget
      refine newUnchecked_bind (by omega) ?_
      refine randRange_bind (by omega) fun range hlt hstop hle rand => ?_
      have hrange : 0 < range.len := by simp only [Range.len]; omega
      simp only at hle
      refine resize_bind fun input hinput => ?_
      refine resizeTmp_bind fun tmpBuf htmp => ?_
      refine copyToTmp_bind ?_ ?_ ?_ ?_ fun tmpBuf' htmp' => ?_
      · simp only; omega
      · simp only; omega
      · simp only [Range.len] at hinput ⊢; omega
      · simp only; omega
      · simp only at htmp'
        refine selfCopy_bind ?_ ?_ ?_ fun input' hinput' => ?_
        · exact fun _ => List.length_pos_iff.mp (by simp only; omega)
        · simp only; omega
        · simp only; omega
        · simp only at hinput'
          refine copyFromTmp_bind ?_ ?_ ?_ ?_ fun input'' hinput'' => ?_
          · simp only; omega
          · simp only; omega
          · simp only; omega
          · simp only; omega
          · refine resized_mutated ?_
            simp only at hinput'' ⊢
            omega

omit [Rand R] in
/-- Once the later range is in the buffer, what is between the two and the
earlier one are moved, and the later one is written back. -/
theorem swapMoves_bind {β : Type} {s : Mutation R} {low high : Range} {f : Unit → Mutate R β}
    {Q : Except Error β → Mutation R → Prop} (hhigh : high.start < high.stop)
    (hlow : low.start < low.stop) (horder : low.stop ≤ high.start)
    (hstop : high.stop ≤ s.input.length) (htmp : s.tmpBuf.length = high.len) {mid dest : Nat}
    (hmid : mid + (high.start - low.stop) ≤ s.input.length)
    (hdest : dest + low.len ≤ s.input.length)
    (h : ∀ t : Mutation R, t.input.length = s.input.length → (f ()).Yields t Q) :
    (copyToTmp debug high.start 0 high.len >>= fun _ =>
      selfCopy debug low.stop mid (high.start - low.stop) >>= fun _ =>
      selfCopy debug low.start dest low.len >>= fun _ =>
      copyFromTmp debug 0 low.start high.len >>= f).Yields s Q := by
  simp only [Range.len] at htmp hdest ⊢
  refine copyToTmp_bind ?_ ?_ ?_ ?_ fun tmpBuf htmp' => ?_
  · omega
  · omega
  · omega
  · omega
  · refine selfCopy_bind ?_ ?_ ?_ fun input hinput => ?_
    · exact fun _ => List.length_pos_iff.mp (by simp only; omega)
    · simp only; omega
    · exact hmid
    · simp only at hinput
      refine selfCopy_bind ?_ ?_ ?_ fun input' hinput' => ?_
      · exact fun _ => List.length_pos_iff.mp (by simp only; omega)
      · simp only; omega
      · simp only; omega
      · simp only at hinput'
        refine copyFromTmp_bind ?_ ?_ ?_ ?_ fun input'' hinput'' => ?_
        · simp only; omega
        · simp only; omega
        · simp only; omega
        · simp only; omega
        · exact h _ (hinput''.trans (hinput'.trans hinput))

omit [Rand R] in
theorem swapRanges_bind {β : Type} {s : Mutation R} {low high : Range} {f : Unit → Mutate R β}
    {Q : Except Error β → Mutation R → Prop} (hlow : low.start < low.stop)
    (hhigh : high.start < high.stop) (horder : low.stop ≤ high.start)
    (hstop : high.stop ≤ s.input.length)
    (h : ∀ t : Mutation R, t.input.length = s.input.length → (f ()).Yields t Q) :
    (swapRanges debug low high >>= f).Yields s Q := by
  rw [swapRanges, bind_assoc]
  refine resizeTmp_bind fun tmpBuf htmp => ?_
  dsimp only
  split
  · simp only [bind_assoc]
    refine swapMoves_bind (s := { s with tmpBuf }) debug hhigh hlow horder hstop htmp ?_ ?_ h
    · simp only [Range.len]; omega
    · simp only [Range.len] at *; omega
  · simp only [bind_assoc]
    refine swapMoves_bind (s := { s with tmpBuf }) debug hhigh hlow horder hstop htmp ?_ ?_ h
    · simp only [Range.len]; omega
    · simp only [Range.len] at *; omega

theorem bytesSwap_kept : (BytesSwapMutator.mutate debug).Yields s (Kept s) := by
  refine bytes_bind ?_
  dsimp only
  split
  · exact kept_skipped rfl
  · next hlen =>
      refine newUnchecked_bind (by omega) ?_
      refine randRange_bind (by omega) fun first hlt hstop _ rand => ?_
      refine draw_bind fun rand' => ?_
      split
      · next hbefore =>
          refine newUnchecked_bind (by omega) ?_
          refine randRange_bind (by omega) fun second hlt' hstop' _ rand'' => ?_
          exact swapRanges_bind debug hlt' hlt hstop' hstop fun t ht => kept_mutated ht
      · split
        · next hafter =>
            refine newUnchecked_bind (by omega) ?_
            refine randRange_bind (by omega) fun second hlt' hstop' _ rand'' => ?_
            refine swapRanges_bind debug hlt ?_ ?_ ?_ fun t ht => kept_mutated ht
            · simp only; omega
            · simp only; omega
            · simp only; omega
        · exact kept_skipped rfl

/-! ### Crossover -/

omit [Rand R] in
theorem crossoverInsert_resized {s t : Mutation R} {target : Nat} {range : Range}
    {other : List UInt8} (htarget : target < s.input.length)
    (hlt : range.start < range.stop) (hstop : range.stop ≤ other.length)
    (hmax : s.input.length + range.len ≤ maxSize) :
    (crossoverInsert debug s.input.length target range other).Yields t (Resized maxSize s) := by
  refine resize_bind fun input hinput => ?_
  refine selfCopy_bind ?_ ?_ ?_ fun input' hinput' => ?_
  · exact fun _ => List.length_pos_iff.mp (by simp only; omega)
  · simp only; omega
  · simp only; omega
  · simp only at hinput'
    refine copyFrom_bind ?_ ?_ ?_ fun input'' hinput'' => ?_
    · exact fun _ => ⟨List.length_pos_iff.mp (by simp only; omega),
        List.length_pos_iff.mp (by omega)⟩
    · simp only [Range.len]; omega
    · simp only; omega
    · refine resized_mutated ?_
      simp only at hinput'' ⊢
      omega

omit [Rand R] in
theorem crossoverReplace_kept {s t : Mutation R} {target : Nat} {range : Range}
    {other : List UInt8} (ht : t.input = s.input) (hlt : range.start < range.stop)
    (hstop : range.stop ≤ other.length) (hlen : target + range.len ≤ s.input.length) :
    (crossoverReplace debug target range other).Yields t (Kept s) := by
  simp only [Range.len] at hlen
  refine copyFrom_bind ?_ ?_ ?_ fun input hinput => ?_
  · exact fun _ => ⟨List.length_pos_iff.mp (by rw [ht]; omega), List.length_pos_iff.mp (by omega)⟩
  · simp only [Range.len]; omega
  · rw [ht]; simpa only [Range.len] using hlen
  · exact kept_mutated (hinput.trans (congrArg _ ht))

section

variable {I : Type} (state : MutatorState I)

theorem chooseOther_bind {β : Type} {s : Mutation R} {f : Option TestcaseId → Mutate R β}
    {Q : Except Error β → Mutation R → Prop}
    (h : ∀ other rand, (f other).Yields { s with rand } Q) :
    (chooseOther state >>= f).Yields s Q := by
  rw [chooseOther, bind_assoc]
  refine draw_bind fun rand => ?_
  split
  · exact Call.yields_bind.mpr (Call.yields_pure.mpr (h none rand))
  · exact Call.yields_bind.mpr (Call.yields_pure.mpr (h _ rand))

omit [Rand R] in
/-- The rule for a look-up: an error is passed on, and nothing was written yet. -/
theorem ofResult_bind {α β : Type} {s : Mutation R} {o : Result α} {f : α → Mutate R β}
    {Q : Except Error β → Mutation R → Prop} (herr : ∀ e, Q (.error e) s)
    (h : ∀ a, o = .ok a → (f a).Yields s Q) : (Call.ofResult o >>= f).Yields s Q := by
  refine Call.yields_bind.mpr (Call.yields_ofResult.mpr ?_)
  cases o with
  | error e => exact herr e
  | ok a => exact h a rfl

omit [Rand R] in
theorem kept_error {s t : Mutation R} (h : t.input = s.input) (e : Error) :
    Kept s (.error e) t :=
  ⟨congrArg _ h, fun _ => h⟩

omit [Rand R] in
theorem resized_error {s t : Mutation R} (h : t.input = s.input) (e : Error) :
    Resized maxSize s (.error e) t :=
  (kept_error h e).resized

theorem crossoverInsertMutator_resized [HasMutatorBytes I] :
    (CrossoverInsertMutator.mutate debug state).Yields s (Resized state.maxSize s) := by
  refine bytes_bind ?_
  dsimp only
  split
  · next hpos =>
      split
      · exact resized_skipped rfl
      · next hmax =>
          refine chooseOther_bind state fun other rand => ?_
          cases other with
          | none => exact resized_skipped rfl
          | some id =>
              refine ofResult_bind (resized_error _ rfl) fun input hget => ?_
              split
              · exact resized_skipped rfl
              · next hother =>
                  refine newUnchecked_bind (by omega) ?_
                  refine randRange_bind (by omega) fun range hlt hstop hle rand => ?_
                  simp only at hle
                  refine below_bind fun target htarget rand => ?_
                  simp only at htarget
                  refine ofResult_bind (resized_error _ rfl) fun input' hget' => ?_
                  obtain rfl : input = input' :=
                    Except.ok.inj ((state.getFromAll_of_get id input hget).symm.trans hget')
                  exact crossoverInsert_resized debug _ htarget hlt hstop (by omega)
  · exact resized_skipped rfl

theorem crossoverReplaceMutator_kept [HasMutatorBytes I] :
    (CrossoverReplaceMutator.mutate debug state).Yields s (Kept s) := by
  refine bytes_bind ?_
  dsimp only
  split
  · exact kept_skipped rfl
  · next hpos =>
      refine chooseOther_bind state fun other rand => ?_
      cases other with
      | none => exact kept_skipped rfl
      | some id =>
          refine ofResult_bind (kept_error rfl) fun input hget => ?_
          split
          · exact kept_skipped rfl
          · next hother =>
              refine newUnchecked_bind (by omega) ?_
              refine below_bind fun target htarget rand => ?_
              simp only at htarget
              refine newUnchecked_bind (by omega) ?_
              refine randRange_bind (by omega) fun range hlt hstop hle rand => ?_
              simp only at hle
              refine ofResult_bind (kept_error rfl) fun input' hget' => ?_
              obtain rfl : input = input' := Except.ok.inj (hget.symm.trans hget')
              exact crossoverReplace_kept debug rfl hlt hstop (by omega)

variable (inputMapper : I → Option (List UInt8))

theorem mappedCrossoverInsertMutator_resized :
    (MappedCrossoverInsertMutator.mutate debug state inputMapper).Yields s
      (Resized state.maxSize s) := by
  refine bytes_bind ?_
  dsimp only
  split
  · exact resized_skipped rfl
  · next hmax =>
      refine chooseOther_bind state fun other rand => ?_
      cases other with
      | none => exact resized_skipped rfl
      | some id =>
          refine ofResult_bind (resized_error _ rfl) fun input hget => ?_
          split
          · exact resized_skipped rfl
          · next hother =>
              refine newUnchecked_bind (by omega) ?_
              refine randRange_bind (by omega) fun range hlt hstop hle rand => ?_
              simp only at hle
              refine newUnchecked_bind (by omega) ?_
              refine below_bind fun target htarget rand => ?_
              simp only at htarget
              refine ofResult_bind (resized_error _ rfl) fun input' hget' => ?_
              obtain rfl : input = input' := Except.ok.inj (hget.symm.trans hget')
              split
              · exact resized_skipped rfl
              · next other hmapped =>
                  simp only [hmapped, Option.map_some, Option.getD_some] at hstop hle
                  exact crossoverInsert_resized debug _ htarget hlt hstop (by omega)

theorem mappedCrossoverReplaceMutator_kept :
    (MappedCrossoverReplaceMutator.mutate debug state inputMapper).Yields s (Kept s) := by
  refine bytes_bind ?_
  dsimp only
  split
  · exact kept_skipped rfl
  · next hpos =>
      refine chooseOther_bind state fun other rand => ?_
      cases other with
      | none => exact kept_skipped rfl
      | some id =>
          refine ofResult_bind (kept_error rfl) fun input hget => ?_
          split
          · exact kept_skipped rfl
          · next hother =>
              refine newUnchecked_bind (by omega) ?_
              refine below_bind fun target htarget rand => ?_
              simp only at htarget
              refine newUnchecked_bind (by omega) ?_
              refine randRange_bind (by omega) fun range hlt hstop hle rand => ?_
              simp only at hle
              refine ofResult_bind (kept_error rfl) fun input' hget' => ?_
              obtain rfl : input = input' := Except.ok.inj (hget.symm.trans hget')
              split
              · exact kept_skipped rfl
              · next other hmapped =>
                  simp only [hmapped, Option.map_some, Option.getD_some] at hstop hle
                  exact crossoverReplace_kept debug rfl hlt hstop (by omega)

end

end

end Libaflmm
