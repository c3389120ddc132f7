import Libaflmm.MutationsBounds

/-!
# What the inserting mutators insert

Each of them lets the input grow, moves what follows the place to its end and
writes over the gap that opens. The gap still holds what stood there, which is
what `BytesExpandMutator` leaves in it; the copy out of the input itself is
saved before anything is moved.
-/

namespace Libaflmm

namespace Slice

section

variable {α : Type} {data : List α} {pos : Nat}

def insertAt (data : List α) (pos : Nat) (new : List α) : List α :=
  data.take pos ++ new ++ data.drop pos

theorem length_insertAt (data : List α) (pos : Nat) (new : List α) :
    (insertAt data pos new).length = data.length + new.length := by
  simp only [insertAt, List.length_append, List.length_take, List.length_drop]
  omega

/-- What the tail is moved away from stays in the gap. -/
theorem writeAt_tail (fill : List α) (h : pos ≤ data.length) :
    writeAt (data ++ fill) (pos + fill.length) (sub (data ++ fill) pos (data.length - pos)) =
      insertAt data pos (sub (data ++ fill) pos fill.length) := by
  have htail : sub (data ++ fill) pos (data.length - pos) = data.drop pos := by
    rw [sub, List.drop_append_of_le_length h, List.take_left' List.length_drop]
  have hend : (data ++ fill).drop (pos + fill.length + (data.drop pos).length) = [] := by
    refine List.drop_eq_nil_of_le ?_
    rw [List.length_append, List.length_drop]
    omega
  rw [htail, writeAt, hend, List.append_nil, List.take_add, List.take_append_of_le_length h,
    insertAt, sub]

theorem length_gap {fill : List α} (h : pos ≤ data.length) :
    (sub (data ++ fill) pos fill.length).length = fill.length := by
  rw [length_sub, List.length_append]
  omega

theorem writeAt_insertAt {gap new : List α} (h : pos ≤ data.length)
    (hlen : new.length = gap.length) :
    writeAt (insertAt data pos gap) pos new = insertAt data pos new := by
  have hpre : (data.take pos).length = pos := List.length_take_of_le h
  have hmiddle := writeAt_append (data.take pos) (data.drop pos) 0
    (Nat.le_of_eq ((Nat.zero_add _).trans hlen))
  rw [writeAt_self hlen, hpre, Nat.add_zero] at hmiddle
  exact hmiddle

theorem sub_append_left {start len : Nat} (fill : List α) (h : start + len ≤ data.length) :
    sub (data ++ fill) start len = sub data start len := by
  have hwithin := sub_append [] fill h
  rwa [List.nil_append, List.length_nil, Nat.zero_add] at hwithin

theorem isInfix_sub (data : List α) (start len : Nat) : sub data start len <:+: data :=
  (List.take_prefix ..).isInfix.trans (List.drop_suffix ..).isInfix

end

end Slice

open Slice

variable {R : Type}

/-! ## Opening the gap and filling it -/

namespace Mutate

variable {β : Type} {s : Mutation R} {Q : Except Error β → Mutation R → Prop} {debug : Bool}
  {data gap : List UInt8} {pos n : Nat}

/-- What the gap holds when it is opened. -/
def opened (data : List UInt8) (pos n : Nat) : List UInt8 :=
  sub (data ++ List.replicate n 0) pos n

theorem length_opened (h : pos ≤ data.length) : (opened data pos n).length = n := by
  have hlen : (sub (data ++ List.replicate n 0) pos (List.replicate n (0 : UInt8)).length).length =
      (List.replicate n (0 : UInt8)).length := length_gap h
  rwa [List.length_replicate] at hlen

/-- That is what followed the place, as far as there was anything. -/
theorem opened_of_le (h : pos + n ≤ data.length) : opened data pos n = sub data pos n :=
  sub_append_left _ h

theorem openGap (h : pos ≤ data.length) (hne : debug = true → 0 < data.length + n) :
    bufferSelfCopy debug (data ++ List.replicate n 0) pos (pos + n) (data.length - pos) =
      some (insertAt data pos (opened data pos n)) := by
  have hlen : (data ++ List.replicate n (0 : UInt8)).length = data.length + n := by
    rw [List.length_append, List.length_replicate]
  have htail := writeAt_tail (List.replicate n 0) h
  rw [List.length_replicate] at htail
  rw [bufferSelfCopy_eq (fun hd => List.length_pos_iff.mp (hlen ▸ hne hd)) (by omega) (by omega),
    htail, opened]

/-- The rule for the two steps that open a gap. -/
theorem openGap_bind {rest : Mutate R β} (hinput : s.input = data) (hpos : pos ≤ data.length)
    (hne : debug = true → 0 < data.length + n)
    (h : rest.Yields { s with input := insertAt data pos (opened data pos n) } Q) :
    (resize (data.length + n) >>= fun _ =>
      selfCopy debug pos (pos + n) (data.length - pos) >>= fun _ => rest).Yields s Q := by
  subst hinput
  refine edit_bind (congrArg some Vec.resize_add) ?_
  exact edit_bind (openGap hpos hne) h

/-- The rules for filling it. -/
theorem set_gap_bind {val : UInt8} {rest : Mutate R β} (hpos : pos ≤ data.length)
    (hinput : s.input = insertAt data pos gap) (hgap : gap.length = n)
    (h : rest.Yields { s with input := insertAt data pos (List.replicate n val) } Q) :
    (set pos n val >>= fun _ => rest).Yields s Q := by
  have hset : bufferSet s.input pos n val =
      some (insertAt data pos (List.replicate n val)) := by
    have hlen := length_insertAt data pos gap
    rw [bufferSet, hinput, if_pos (by omega),
      writeAt_insertAt hpos (List.length_replicate.trans hgap.symm)]
  exact edit_bind hset h

theorem copyFrom_gap_bind {src : List UInt8} {start : Nat} {rest : Mutate R β}
    (hpos : pos ≤ data.length) (hinput : s.input = insertAt data pos gap) (hgap : gap.length = n)
    (hne : debug = true → 0 < data.length + n ∧ src ≠ []) (hstart : start + n ≤ src.length)
    (h : rest.Yields { s with input := insertAt data pos (sub src start n) } Q) :
    (copyFrom debug src start pos n >>= fun _ => rest).Yields s Q := by
  have hlen : s.input.length = data.length + n := by
    rw [hinput, length_insertAt, hgap]
  have hnew : (sub src start n).length = gap.length := by
    rw [length_sub]
    omega
  have hcopy : bufferCopy debug s.input src start pos n =
      some (insertAt data pos (sub src start n)) := by
    rw [bufferCopy_eq (fun hd => ⟨List.length_pos_iff.mp (hlen ▸ (hne hd).1), (hne hd).2⟩) hstart
      (by omega), hinput, writeAt_insertAt hpos hnew]
  exact edit_bind hcopy h

theorem saveTmp_bind {start : Nat} {rest : Mutate R β} {fill : List UInt8}
    (hinput : s.input = data ++ fill) (htmp : s.tmpBuf.length = n) (hn : 0 < n)
    (hstart : start + n ≤ data.length)
    (h : rest.Yields { s with tmpBuf := sub data start n } Q) :
    (copyToTmp debug start 0 n >>= fun _ => rest).Yields s Q := by
  have hlen : s.input.length = data.length + fill.length := by
    rw [hinput, List.length_append]
  have hsub : sub s.input start n = sub data start n := by
    rw [hinput, sub_append_left fill hstart]
  have hsave : bufferCopy debug s.tmpBuf s.input start 0 n = some (sub data start n) := by
    rw [bufferCopy_eq (fun _ => ⟨List.length_pos_iff.mp (htmp ▸ hn),
      List.length_pos_iff.mp (by omega)⟩) (by omega) (by omega), hsub]
    refine congrArg some (writeAt_self ?_)
    rw [length_sub]
    omega
  refine (Call.yields_bind_of_ok (a := ()) (t := { s with tmpBuf := sub data start n }) ?_).mpr h
  show Option.map _ (bufferCopy debug s.tmpBuf s.input start 0 n) = _
  rw [hsave]
  rfl

/-- The rule for a draw whose value matters. -/
theorem draw_exact_bind {α : Type} {g : R → α × R} {f : α → Mutate R β}
    (h : (f (g s.rand).1).Yields { s with rand := (g s.rand).2 } Q) : (draw g >>= f).Yields s Q :=
  Call.yields_bind.mpr ((Call.yields_of_run rfl).mpr h)

end Mutate

/-! ## The mutators, one by one -/

namespace Inserts

/-- A mutated input is the one before with something put in. -/
def Inserted (Gap : Nat → List UInt8 → Prop) (s : Mutation R) (r : Except Error MutationResult)
    (t : Mutation R) : Prop :=
  r = .ok .mutated →
    ∃ pos ≤ s.input.length, ∃ new, Gap pos new ∧ t.input = insertAt s.input pos new

section

variable {Gap : Nat → List UInt8 → Prop} {s t : Mutation R} {pos : Nat} {new : List UInt8}

theorem inserted_skipped : (pure .skipped : Mutate R MutationResult).Yields t (Inserted Gap s) :=
  Call.yields_pure.mpr fun h => nomatch h

theorem inserted_error (e : Error) : Inserted Gap s (.error e) t :=
  fun h => nomatch h

theorem inserted_mutated (hpos : pos ≤ s.input.length) (hgap : Gap pos new)
    (ht : t.input = insertAt s.input pos new) :
    (pure .mutated : Mutate R MutationResult).Yields t (Inserted Gap s) :=
  Call.yields_pure.mpr fun _ => ⟨pos, hpos, new, hgap, ht⟩

end

open Mutate

section

variable [Rand R] (s : Mutation R) (debug : Bool) (maxSize : Nat)

/-- A copy of what follows the place. -/
def CopyOfNext (data : List UInt8) (pos : Nat) (new : List UInt8) : Prop :=
  pos + new.length ≤ data.length ∧ new = sub data pos new.length

theorem bytesExpand_inserted :
    (BytesExpandMutator.mutate debug maxSize).Yields s (Inserted (CopyOfNext s.input) s) := by
  refine bytes_bind ?_
  dsimp only
  split
  · exact inserted_skipped
  · next hlen =>
      refine newUnchecked_bind (by omega) ?_
      refine randRange_bind (by omega) fun range hlt hstop _ rand => ?_
      have hfits : range.start + range.len ≤ s.input.length := by
        simp only [Range.len]
        omega
      refine openGap_bind rfl (by omega) (fun _ => by omega) ?_
      have hnew := length_opened (n := range.len) (show range.start ≤ s.input.length by omega)
      refine inserted_mutated (by omega) ⟨?_, ?_⟩ rfl
      · rw [hnew]
        exact hfits
      · rw [hnew]
        exact opened_of_le hfits

/-- One byte over and over again. -/
def Repeats (val : UInt8) (new : List UInt8) : Prop := new = List.replicate new.length val

omit [Rand R] in
theorem insertFill_inserted {s t : Mutation R} {Gap : Nat → List UInt8 → Prop}
    {offset amount : Nat} {val : UInt8} (ht : t.input = s.input)
    (hoffset : offset ≤ s.input.length) (hpos : 0 < s.input.length + amount)
    (hgap : Gap offset (List.replicate amount val)) :
    (do
      resize (s.input.length + amount)
      selfCopy debug offset (offset + amount) (s.input.length - offset)
      set offset amount val
      return .mutated : Mutate R MutationResult).Yields t (Inserted Gap s) := by
  refine openGap_bind ht hoffset (fun _ => hpos) ?_
  refine set_gap_bind hoffset rfl (length_opened hoffset) ?_
  exact inserted_mutated hoffset hgap rfl

theorem repeats_replicate (n : Nat) (val : UInt8) : Repeats val (List.replicate n val) := by
  rw [Repeats, List.length_replicate]

theorem bytesInsert_inserted :
    (BytesInsertMutator.mutate debug maxSize).Yields s
      (Inserted (fun _ new => ∃ val ∈ s.input, Repeats val new) s) := by
  refine bytes_bind ?_
  dsimp only
  split
  · exact inserted_skipped
  · next hlen =>
      refine below_bind fun amount _ rand => ?_
      refine newUnchecked_bind (by omega) ?_
      refine below_bind fun offset hoffset rand => ?_
      simp only at hoffset
      split
      · exact inserted_skipped
      · next len hcap =>
          refine newUnchecked_bind (by omega) ?_
          refine below_bind fun index hindex rand => ?_
          refine bytes_bind ?_
          refine unwrap_bind (List.getElem?_eq_getElem hindex) ?_
          exact insertFill_inserted debug rfl (Nat.le_of_lt_succ hoffset) (by omega)
            ⟨_, List.getElem_mem hindex, repeats_replicate ..⟩

/-- The third number drawn, cut to a byte. -/
def thirdByte (r : R) : UInt8 := (Rand.next (Rand.next (Rand.next r).2).2).1.toUInt8

theorem bytesRandInsert_inserted :
    (BytesRandInsertMutator.mutate debug maxSize).Yields s
      (Inserted (fun _ new => Repeats (thirdByte s.rand) new) s) := by
  refine bytes_bind ?_
  dsimp only
  split
  · exact inserted_skipped
  · next hlen =>
      refine draw_exact_bind ?_
      refine newUnchecked_bind (by omega) ?_
      refine draw_exact_bind ?_
      have hoffset := Rand.below_lt ⟨s.input.length + 1, Nat.succ_pos _⟩ (Rand.next s.rand).2
      split
      · exact inserted_skipped
      · next len hcap =>
          obtain ⟨-, hfit, hlenpos⟩ := capAmount_eq_some hcap
          refine draw_exact_bind ?_
          exact insertFill_inserted debug rfl (Nat.le_of_lt_succ hoffset) (by omega)
            (repeats_replicate ..)

theorem bytesInsertCopy_inserted :
    (BytesInsertCopyMutator.mutate debug maxSize).Yields s
      (Inserted (fun _ new => new <:+: s.input) s) := by
  refine bytes_bind ?_
  dsimp only
  split
  · exact inserted_skipped
  · next hlen =>
      refine newUnchecked_bind (by omega) ?_
      refine below_bind fun target htarget rand => ?_
      simp only at htarget
      refine newUnchecked_bind (by omega) ?_
      refine randRange_bind (by omega) fun range hlt hstop _ rand => ?_
      obtain ⟨hrange, hfits⟩ : 0 < range.len ∧ range.start + range.len ≤ s.input.length := by
        simp only [Range.len]
        omega
      have hcopied : (sub s.input range.start range.len).length = range.len := by
        rw [length_sub]
        omega
      -- the copy is taken before anything is moved
      refine edit_bind (congrArg some Vec.resize_add) ?_
      refine resizeTmp_bind fun tmpBuf htmp => ?_
      refine saveTmp_bind rfl htmp hrange hfits ?_
      refine edit_bind (openGap htarget.le fun _ => by omega) ?_
      rw [copyFromTmp, bind_assoc]
      refine Call.yields_bind.mpr ((Call.yields_of_run rfl).mpr ?_)
      refine copyFrom_gap_bind htarget.le rfl (length_opened htarget.le) ?_ ?_ ?_
      · exact fun _ => ⟨by omega, List.length_pos_iff.mp (hrange.trans_eq hcopied.symm)⟩
      · exact (Nat.zero_add _).trans_le hcopied.ge
      · exact inserted_mutated htarget.le ((isInfix_sub ..).trans (isInfix_sub ..)) rfl

variable {I : Type} (state : MutatorState I)

/-- The testcase the first number drawn selects, which is not the current one. -/
def Other (r : R) (other : I) : Prop :=
  ∃ id, (Rand.choose state.ids r).1 = some id ∧ state.current ≠ some id ∧
    state.getFromAll id = .ok other

theorem chooseOther_exact_bind {β : Type} {s : Mutation R} {f : Option TestcaseId → Mutate R β}
    {Q : Except Error β → Mutation R → Prop}
    (hnone : ∀ rand, (f none).Yields { s with rand } Q)
    (hsome : ∀ id, (Rand.choose state.ids s.rand).1 = some id → state.current ≠ some id →
      ∀ rand, (f (some id)).Yields { s with rand } Q) :
    (chooseOther state >>= f).Yields s Q := by
  rw [chooseOther, bind_assoc]
  refine draw_exact_bind ?_
  split
  · exact Call.yields_bind.mpr (Call.yields_pure.mpr (hnone _))
  · next id hid =>
      by_cases hcurrent : state.current = some id
      · rw [if_pos hcurrent]
        exact Call.yields_bind.mpr (Call.yields_pure.mpr (hnone _))
      · rw [if_neg hcurrent]
        exact Call.yields_bind.mpr (Call.yields_pure.mpr (hsome id hid hcurrent _))

theorem crossoverInsert_inserted [HasMutatorBytes I] :
    (CrossoverInsertMutator.mutate debug state).Yields s
      (Inserted (fun _ new => ∃ other, Other state s.rand other ∧
        new <:+: HasMutatorBytes.mutatorBytes other) s) := by
  refine bytes_bind ?_
  dsimp only
  split
  · next hpos =>
      split
      · exact inserted_skipped
      · next hmax =>
          refine chooseOther_exact_bind state (fun rand => inserted_skipped) ?_
          intro id hid hcurrent rand
          refine ofResult_bind inserted_error fun input hget => ?_
          split
          · exact inserted_skipped
          · next hother =>
              refine newUnchecked_bind (by omega) ?_
              refine randRange_bind (by omega) fun range hlt hstop _ rand => ?_
              refine below_bind fun target htarget rand => ?_
              simp only at htarget
              refine ofResult_bind inserted_error fun other hother => ?_
              obtain rfl : input = other :=
                Except.ok.inj ((state.getFromAll_of_get id input hget).symm.trans hother)
              obtain ⟨hrange, hfits⟩ : 0 < range.len ∧ range.start + range.len ≤
                  (HasMutatorBytes.mutatorBytes input).length := by
                simp only [Range.len]
                omega
              refine openGap_bind rfl htarget.le (fun _ => by omega) ?_
              refine copyFrom_gap_bind htarget.le rfl (length_opened htarget.le) ?_ hfits ?_
              · exact fun _ => ⟨by omega, List.length_pos_iff.mp (by omega)⟩
              · exact inserted_mutated htarget.le
                  ⟨input, ⟨id, hid, hcurrent, hother⟩, isInfix_sub ..⟩ rfl
  · exact inserted_skipped

/-- The token the first number drawn selects, as far as there is room for it. -/
def Token (r : R) (room : Nat) (new : List UInt8) : Prop :=
  ∃ tokens token, state.tokens = some tokens ∧ (Rand.choose tokens r).1 = some token ∧
    new = token.take room

omit [Rand R] in
theorem capAmount_take {size maxSize len : Nat} {token : List UInt8}
    (h : capAmount size token.length maxSize = some len) :
    token.take len = token.take (maxSize - size) := by
  rw [capAmount] at h
  split at h
  · split at h
    · rw [Option.some.inj h]
    · cases h
  · next hfits =>
      rw [← Option.some.inj h, List.take_length, List.take_of_length_le (by omega)]

theorem tokenInsert_inserted {debug : Bool}
    (h : debug = true → ¬TokenInsert.DrawsEmpty state s) :
    (TokenInsert.mutate debug state).Yields s
      (Inserted (fun _ => Token state s.rand (state.maxSize - s.input.length)) s) := by
  rw [TokenInsert.mutate]
  split
  · exact inserted_skipped
  · next tokens htokens =>
      split
      · next hpos =>
          have hidx := Rand.below_lt ⟨tokens.length, hpos⟩ s.rand
          have hdrawn := Rand.choose_fst hpos s.rand
          refine draw_exact_bind ?_
          refine bytes_bind ?_
          dsimp only
          refine newUnchecked_bind (by omega) ?_
          refine below_bind fun off hoff rand => ?_
          have hoff := Nat.le_of_lt_succ hoff
          refine unwrap_bind (List.getElem?_eq_getElem hidx) ?_
          rw [List.getElem?_eq_getElem hidx] at hdrawn
          set token := tokens[(Rand.below ⟨tokens.length, hpos⟩ s.rand).1]
          split
          · exact inserted_skipped
          · next len hcap =>
              obtain ⟨hle, hfit, hlen⟩ := capAmount_eq_some hcap
              have htoken : debug = true → token ≠ [] := fun hd hempty => by
                refine h hd ⟨?_, tokens, htokens, hdrawn.trans (congrArg some hempty)⟩
                rw [capAmount, hempty] at hcap
                grind
              have hgrown : debug = true → 0 < s.input.length + len := fun hd => by
                have := List.length_pos_iff.mpr (htoken hd)
                rw [capAmount] at hcap
                grind
              refine openGap_bind rfl hoff hgrown ?_
              refine copyFrom_gap_bind hoff rfl (length_opened hoff)
                (fun hd => ⟨hgrown hd, htoken hd⟩) (by omega) ?_
              refine inserted_mutated hoff ⟨tokens, token, htokens, hdrawn, ?_⟩ rfl
              exact capAmount_take hcap
      · exact inserted_skipped

end

end Inserts

/-! ## All of them -/

open Inserts

/-- The mutators that insert. -/
inductive Inserter where
  | bytesExpand | bytesInsert | bytesRandInsert | bytesInsertCopy | crossoverInsert | tokenInsert

namespace Inserter

variable [Rand R] {I : Type}

def mutator : Inserter → Mutator I
  | bytesExpand => .bytesExpand
  | bytesInsert => .bytesInsert
  | bytesRandInsert => .bytesRandInsert
  | bytesInsertCopy => .bytesInsertCopy
  | crossoverInsert => .crossoverInsert
  | tokenInsert => .tokenInsert

/-- What each inserts at a place. -/
def Gap [HasMutatorBytes I] (s : Mutation R) (state : MutatorState I) (pos : Nat)
    (new : List UInt8) : Inserter → Prop
  | bytesExpand => CopyOfNext s.input pos new
  | bytesInsert => ∃ val ∈ s.input, Repeats val new
  | bytesRandInsert => Repeats (thirdByte s.rand) new
  | bytesInsertCopy => new <:+: s.input
  | crossoverInsert =>
    ∃ other, Other state s.rand other ∧ new <:+: HasMutatorBytes.mutatorBytes other
  | tokenInsert => Token state s.rand (state.maxSize - s.input.length) new

variable [HasMutatorBytes I] {s : Mutation R} {state : MutatorState I} {debug : Bool}
  {endian : Endian}

theorem mutate_inserted (m : Inserter)
    (h : debug = true → ¬(m.mutator : Mutator I).DrawsEmpty state s) :
    ((m.mutator : Mutator I).mutate debug endian state).Yields s
      (Inserted (fun pos new => m.Gap s state pos new) s) := by
  cases m with
  | bytesExpand => exact bytesExpand_inserted s debug state.maxSize
  | bytesInsert => exact bytesInsert_inserted s debug state.maxSize
  | bytesRandInsert => exact bytesRandInsert_inserted s debug state.maxSize
  | bytesInsertCopy => exact bytesInsertCopy_inserted s debug state.maxSize
  | crossoverInsert => exact crossoverInsert_inserted s debug state
  | tokenInsert => exact tokenInsert_inserted s state h

/-- **What is inserted is put between what stands before the place and what
stands behind it**, and nothing else is changed. -/
theorem mutated_inserts (m : Inserter) {t : Mutation R}
    (h : ((m.mutator : Mutator I).mutate debug endian state).run s = some (.ok .mutated, t)) :
    ∃ pos ≤ s.input.length, ∃ new, m.Gap s state pos new ∧
      t.input = s.input.take pos ++ new ++ s.input.drop pos := by
  refine (mutate_inserted m ?_).leaves _ t h rfl
  rintro rfl hempty
  rw [Mutator.mutate_panics _ hempty] at h
  exact Option.some_ne_none _ h.symm

/-- The token is cut to the space left. -/
theorem mutated_inserts_token :
    ∃ pos ≤ 2, ∃ new, tokenInsert.Gap (⟨[1, 2], [], ⟨3, 5⟩⟩ : Mutation RomuDuoJrRand)
        (Mutator.oneToken [7, 8, 9]) pos new ∧
      [7, 8, 1, 2] = List.take pos [1, 2] ++ new ++ List.drop pos [1, 2] := by
  have hrun : ((tokenInsert.mutator : Mutator (List UInt8)).mutate true .little
      (Mutator.oneToken [7, 8, 9])).run (⟨[1, 2], [], ⟨3, 5⟩⟩ : Mutation RomuDuoJrRand) =
        some (.ok .mutated, ⟨[7, 8, 1, 2], [], ⟨357127375428780032, 17589954432273186363⟩⟩) := by
    rfl
  exact mutated_inserts tokenInsert hrun

end Inserter

end Libaflmm
