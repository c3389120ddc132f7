import Mathlib.Data.List.Perm.Basic
import Libaflmm.MutationsSafe

/-!
# Swapping two ranges

`BytesSwapMutator` moves what lies between the ranges by the difference of
their lengths, then the earlier range to where the later one was. To the left
the gap goes over the end of the earlier range, which only then is copied.
-/

namespace Libaflmm

/-! ## What a swap leaves -/

namespace BytesSwap

/-- Two ranges of a text, one after the other. -/
structure Ordered (size : Nat) (low high : Range) : Prop where
  low_pos : low.start < low.stop
  high_pos : high.start < high.stop
  le : low.stop ≤ high.start
  stop_le : high.stop ≤ size

section

variable {α : Type} (data : List α) (low high : Range)

def bytes (range : Range) : List α := Slice.sub data range.start range.len

/-- What lies between the ranges. -/
def gap : List α := Slice.sub data low.stop (high.start - low.stop)

/-- The text with the two ranges exchanged. -/
def exchanged : List α :=
  data.take low.start ++ bytes data high ++ gap data low high ++ bytes data low ++
    data.drop high.stop

/-- The earlier range as it stands once the gap has been moved. -/
def overwritten : List α :=
  Slice.sub (Slice.writeAt data (low.start + high.len) (gap data low high)) low.start low.len

def swapped : List α :=
  data.take low.start ++ bytes data high ++ gap data low high ++ overwritten data low high ++
    data.drop high.stop

/-- What the gap is moved over is the same as what is moved there. -/
def Repeats : Prop :=
  (gap data low high).take (low.len - high.len) =
    ((bytes data low).drop high.len).take (high.start - low.stop)

variable {data low high}

namespace Ordered

theorem length_bytes {range : Range} (h : range.stop ≤ data.length) :
    (bytes data range).length = range.len := by
  rw [bytes, Slice.length_sub, Range.len]
  omega

theorem split (h : Ordered data.length low high) :
    data = data.take low.start ++ bytes data low ++ gap data low high ++ bytes data high ++
      data.drop high.stop := by
  have hle := h.le
  have hlow := h.low_pos
  have hhigh := h.high_pos
  have h1 : data.take low.start ++ bytes data low = data.take low.stop := by
    rw [bytes, Slice.sub, ← List.take_add, Range.len]
    congr 1
    omega
  have h2 : data.take low.stop ++ gap data low high = data.take high.start := by
    rw [gap, Slice.sub, ← List.take_add]
    congr 1
    omega
  have h3 : data.take high.start ++ bytes data high = data.take high.stop := by
    rw [bytes, Slice.sub, ← List.take_add, Range.len]
    congr 1
    omega
  rw [h1, h2, h3, List.take_append_drop]

open scoped List in
theorem exchanged_perm (h : Ordered data.length low high) :
    (exchanged data low high).Perm data := by
  conv_rhs => rw [h.split]
  rw [exchanged]
  refine List.Perm.append_right _ ?_
  simp only [List.append_assoc]
  refine List.Perm.append_left _ ?_
  calc bytes data high ++ (gap data low high ++ bytes data low)
    _ ~ (gap data low high ++ bytes data low) ++ bytes data high := List.perm_append_comm
    _ ~ (bytes data low ++ gap data low high) ++ bytes data high :=
        List.perm_append_comm.append_right _
    _ ~ bytes data low ++ (gap data low high ++ bytes data high) :=
        .of_eq (List.append_assoc ..)

theorem length_exchanged (h : Ordered data.length low high) :
    (exchanged data low high).length = data.length := h.exchanged_perm.length_eq

theorem length_gap (h : Ordered data.length low high) :
    (gap data low high).length = high.start - low.stop := by
  have hle := h.stop_le
  have hhigh := h.high_pos
  rw [gap, Slice.length_sub]
  omega

theorem overwritten_eq (h : Ordered data.length low high) :
    overwritten data low high =
      (bytes data low).take high.len ++
        (gap data low high ++ data.drop (low.start + high.len + (high.start - low.stop))).take
          (low.len - high.len) := by
  have hlen : ((data.drop low.start).take high.len).length = high.len := by
    obtain ⟨hlow, hhigh, hle, hstop⟩ := h
    rw [List.length_take, List.length_drop, Range.len]
    omega
  have hstart : (data.take low.start).length = low.start := by
    obtain ⟨hlow, hhigh, hle, hstop⟩ := h
    rw [List.length_take]
    omega
  have hdrop (rest : List α) :
      (data.take (low.start + high.len) ++ rest).drop low.start =
        (data.drop low.start).take high.len ++ rest := by
    rw [List.take_add, List.append_assoc, List.drop_left' hstart]
  rw [overwritten, Slice.sub, Slice.writeAt, length_gap h, List.append_assoc, hdrop,
    List.take_append, hlen, bytes, Slice.sub, List.take_take, List.take_take, Nat.min_comm]

theorem overwritten_eq_iff (h : Ordered data.length low high) :
    overwritten data low high = bytes data low ↔ Repeats data low high := by
  have hrest : (bytes data low).drop (high.len + (high.start - low.stop)) =
      (data.drop (low.start + high.len + (high.start - low.stop))).take
        (low.len - high.len - (high.start - low.stop)) := by
    rw [bytes, Slice.sub, List.drop_take, List.drop_drop, Nat.add_assoc, Nat.sub_sub]
  have hsplit : bytes data low = (bytes data low).take high.len ++
      (((bytes data low).drop high.len).take (high.start - low.stop) ++
        (data.drop (low.start + high.len + (high.start - low.stop))).take
          (low.len - high.len - (high.start - low.stop))) := by
    rw [← hrest, ← List.drop_drop, List.take_append_drop, List.take_append_drop]
  rw [overwritten_eq h]
  conv_lhs => rhs; rw [hsplit]
  rw [List.append_cancel_left_eq, List.take_append, length_gap h, List.append_cancel_right_eq,
    Repeats]

theorem swapped_eq_iff (h : Ordered data.length low high) :
    swapped data low high = exchanged data low high ↔ Repeats data low high := by
  rw [swapped, exchanged, List.append_cancel_right_eq, List.append_cancel_left_eq,
    overwritten_eq_iff h]

theorem length_overwritten (h : Ordered data.length low high) :
    (overwritten data low high).length = low.len := by
  have hgap := length_gap h
  obtain ⟨hlow, hpos, hle, hstop⟩ := h
  simp only [Range.len]
  rw [overwritten, Slice.length_sub, Slice.length_writeAt]
  · simp only [Range.len]
    omega
  · simp only [Range.len]
    omega

/-- What is written over the gap and the later range in the end. -/
theorem writes_eq (h : Ordered data.length low high) :
    Slice.writeAt
        (Slice.writeAt (Slice.writeAt data (low.start + high.len) (gap data low high))
          (low.start + high.len + (high.start - low.stop)) (overwritten data low high))
        low.start (bytes data high) =
      swapped data low high := by
  have hgap := length_gap h
  have hhigh := length_bytes h.stop_le
  have hover := length_overwritten h
  obtain ⟨hlow, hpos, hle, hstop⟩ := h
  simp only [Range.len] at hhigh hover ⊢
  have hend : low.start + (high.stop - high.start) + (high.start - low.stop) +
      (low.stop - low.start) = high.stop := by
    omega
  rw [← hgap, ← hhigh, Slice.writeAt_writeAt_right, Slice.writeAt_writeAt_left, swapped,
    Slice.writeAt, List.length_append, List.length_append, hgap, hhigh, hover, ← Nat.add_assoc,
    ← Nat.add_assoc, hend]
  · simp only [List.append_assoc]
  · omega
  · omega

end Ordered

end

open Call Mutate

variable {R : Type}

/-- The moves of both branches, which differ in where they subtract. -/
theorem swapMoves_yields (debug : Bool) {s : Mutation R} {low high : Range}
    (h : Ordered s.input.length low high) (htmp : s.tmpBuf.length = high.len) {mid dest : Nat}
    (hmid : mid = low.start + high.len)
    (hdest : dest = low.start + high.len + (high.start - low.stop)) :
    (copyToTmp debug high.start 0 high.len >>= fun _ =>
      selfCopy debug low.stop mid (high.start - low.stop) >>= fun _ =>
      selfCopy debug low.start dest low.len >>= fun _ =>
      copyFromTmp debug 0 low.start high.len).Yields s
      fun r t => r = .ok () ∧ t.input = swapped s.input low high := by
  subst hmid hdest
  have hbytes := Ordered.length_bytes h.stop_le
  have hwrites := Ordered.writes_eq h
  -- the text after the first and after the second move
  set moved := Slice.writeAt s.input (low.start + high.len) (gap s.input low high) with hmoved
  set copied := Slice.writeAt moved (low.start + high.len + (high.start - low.stop))
    (overwritten s.input low high) with hcopied
  obtain ⟨hhigh, hmid, hdest, hlow, hpos⟩ : high.start + high.len ≤ s.input.length ∧
      low.start + high.len + (high.start - low.stop) ≤ s.input.length ∧
      low.start + high.len + (high.start - low.stop) + low.len ≤ s.input.length ∧
      low.stop + (high.start - low.stop) ≤ s.input.length ∧ 0 < high.len := by
    obtain ⟨hlow, hpos, hle, hstop⟩ := h
    simp only [Range.len]
    omega
  have hmovedLen : moved.length = s.input.length :=
    Slice.length_writeAt (by rw [Ordered.length_gap h]; exact hmid)
  have hcopiedLen : copied.length = s.input.length :=
    (Slice.length_writeAt (by rw [Ordered.length_overwritten h, hmovedLen]; exact hdest)).trans
      hmovedLen
  have hne {text : List UInt8} (htext : text.length = s.input.length) : text ≠ [] :=
    List.length_pos_iff.mp (by omega)
  have htmpBuf : bufferCopy debug s.tmpBuf s.input high.start 0 high.len =
      some (bytes s.input high) := by
    rw [bufferCopy_eq (fun _ => ⟨List.length_pos_iff.mp (htmp ▸ hpos), hne rfl⟩) hhigh (by omega)]
    exact congrArg some (Slice.writeAt_self (hbytes.trans htmp.symm))
  have hback : bufferCopy debug copied (bytes s.input high) 0 low.start high.len =
      some (swapped s.input low high) := by
    rw [bufferCopy_eq (fun _ => ⟨hne hcopiedLen, List.length_pos_iff.mp (hbytes ▸ hpos)⟩)
      (by omega) (by omega), ← hbytes, Slice.sub_self, hwrites]
  have hmove : bufferSelfCopy debug s.input low.stop (low.start + high.len)
      (high.start - low.stop) = some moved :=
    bufferSelfCopy_eq (fun _ => hne rfl) hlow hmid
  have hcopy : bufferSelfCopy debug moved low.start
      (low.start + high.len + (high.start - low.stop)) low.len = some copied :=
    bufferSelfCopy_eq (fun _ => hne hmovedLen) (by omega) (by omega)
  have hsave : (copyToTmp debug high.start 0 high.len).run s =
      some (.ok (), { s with tmpBuf := bytes s.input high }) := by
    show Option.map _ (bufferCopy debug s.tmpBuf s.input high.start 0 high.len) = _
    rw [htmpBuf]
    rfl
  refine (yields_bind_of_ok hsave).mpr ?_
  refine edit_bind hmove ?_
  refine edit_bind hcopy ?_
  refine yields_bind.mpr ((yields_of_run rfl).mpr ?_)
  refine (yields_of_run (r := .ok ())
    (t := ⟨swapped s.input low high, bytes s.input high, s.rand⟩) ?_).mpr ⟨rfl, rfl⟩
  show Option.map _ (bufferCopy debug copied (bytes s.input high) 0 low.start high.len) = _
  rw [hback]
  rfl

theorem swapRanges_yields (debug : Bool) {s : Mutation R} {low high : Range}
    (h : Ordered s.input.length low high) :
    (swapRanges debug low high).Yields s
      fun r t => r = .ok () ∧ t.input = swapped s.input low high := by
  obtain ⟨hlow, hpos, hle, hstop⟩ := id h
  rw [swapRanges]
  refine resizeTmp_bind fun tmpBuf htmp => ?_
  dsimp only
  split
  · refine swapMoves_yields (s := { s with tmpBuf }) debug h htmp ?_ ?_
    · simp only [Range.len] at *
      omega
    · simp only [Range.len] at *
      omega
  · refine swapMoves_yields (s := { s with tmpBuf }) debug h htmp ?_ ?_
    · simp only [Range.len] at *
      omega
    · simp only [Range.len] at *
      omega

variable [Rand R]

/-- The ranges the draws select, the earlier one first. -/
def selected (size : Nat) (r : R) : Option (Range × Range) :=
  if hsize : 1 < size then
    let first := randRange size ⟨size, Nat.zero_lt_of_lt hsize⟩ r
    let order := Rand.next first.2
    if horder : order.1 &&& 1 = 0 ∧ first.1.start ≠ 0 then
      some ((randRange first.1.start ⟨_, Nat.pos_of_ne_zero horder.2⟩ order.2).1, first.1)
    else if hafter : first.1.stop < size then
      let second := (randRange (size - first.1.stop) ⟨_, Nat.sub_pos_of_lt hafter⟩ order.2).1
      some (first.1, ⟨second.start + first.1.stop, second.stop + first.1.stop⟩)
    else none
  else none

theorem selected_ordered {size : Nat} {r : R} {low high : Range}
    (h : selected size r = some (low, high)) : Ordered size low high := by
  unfold selected at h
  split at h
  · next hsize =>
      obtain ⟨hlt, hstop, -⟩ :=
        randRange_within (Nat.zero_lt_of_lt hsize) ⟨size, Nat.zero_lt_of_lt hsize⟩ r
      dsimp only at h
      split at h
      · next horder =>
          obtain ⟨rfl, rfl⟩ := Prod.mk.inj (Option.some.inj h)
          obtain ⟨hlt', hstop', -⟩ := randRange_within (Nat.pos_of_ne_zero horder.2)
            ⟨_, Nat.pos_of_ne_zero horder.2⟩
            (Rand.next (randRange size ⟨size, Nat.zero_lt_of_lt hsize⟩ r).2).2
          exact ⟨hlt', hlt, hstop', hstop⟩
      · split at h
        · next hafter =>
            obtain ⟨rfl, rfl⟩ := Prod.mk.inj (Option.some.inj h)
            obtain ⟨hlt', hstop', -⟩ := randRange_within (Nat.sub_pos_of_lt hafter)
              ⟨_, Nat.sub_pos_of_lt hafter⟩
              (Rand.next (randRange size ⟨size, Nat.zero_lt_of_lt hsize⟩ r).2).2
            refine ⟨hlt, ?_, ?_, ?_⟩ <;> simp only <;> omega
        · exact absurd h (Option.some_ne_none _).symm
  · exact absurd h (Option.some_ne_none _).symm


/-- What the mutator does, for the ranges selected. -/
def Leaves (s : Mutation R) (result : List UInt8 → Range → Range → List UInt8)
    (r : Except Error MutationResult) (t : Mutation R) : Prop :=
  match selected s.input.length s.rand with
  | none => r = .ok .skipped ∧ t.input = s.input
  | some (low, high) => r = .ok .mutated ∧ t.input = result s.input low high

theorem leaves_skipped {s t : Mutation R} {result : List UInt8 → Range → Range → List UInt8}
    (h : selected s.input.length s.rand = none) (ht : t.input = s.input) :
    Leaves s result (.ok .skipped) t := by
  rw [Leaves, h]
  exact ⟨rfl, ht⟩

theorem leaves_mutated {s t : Mutation R} {result : List UInt8 → Range → Range → List UInt8}
    {low high : Range} (h : selected s.input.length s.rand = some (low, high))
    (ht : t.input = result s.input low high) : Leaves s result (.ok .mutated) t := by
  rw [Leaves, h]
  exact ⟨rfl, ht⟩

theorem swapRanges_leaves (debug : Bool) {s u : Mutation R} {low high : Range}
    (h : selected s.input.length s.rand = some (low, high)) (hu : u.input = s.input) :
    (swapRanges debug low high >>= fun _ => pure .mutated).Yields u (Leaves s swapped) := by
  have hordered : Ordered u.input.length low high := by
    rw [hu]
    exact selected_ordered h
  refine yields_bind.mpr ((swapRanges_yields debug hordered).mono ?_)
  rintro r t ⟨rfl, ht⟩
  exact yields_pure.mpr (leaves_mutated h (ht.trans (congrArg (swapped · low high) hu)))

theorem mutate_leaves (debug : Bool) (s : Mutation R) :
    (BytesSwapMutator.mutate debug).Yields s (Leaves s swapped) := by
  refine bytes_bind ?_
  dsimp only
  split
  · next hlen => exact yields_pure.mpr (leaves_skipped (dif_neg (by omega)) rfl)
  · next hlen =>
      have hsize : 1 < s.input.length := by omega
      refine newUnchecked_bind (Nat.zero_lt_of_lt hsize) ?_
      refine (yields_bind_of_ok rfl).mpr ?_
      refine (yields_bind_of_ok rfl).mpr ?_
      split
      · next hbefore =>
          refine newUnchecked_bind (Nat.pos_of_ne_zero hbefore.2) ?_
          refine (yields_bind_of_ok rfl).mpr ?_
          refine swapRanges_leaves debug ?_ rfl
          rw [selected, dif_pos hsize]
          exact dif_pos hbefore
      · next hbefore =>
          split
          · next hafter =>
              obtain ⟨-, hstop, -⟩ := randRange_within (Nat.zero_lt_of_lt hsize)
                ⟨s.input.length, Nat.zero_lt_of_lt hsize⟩ s.rand
              have hlt := lt_of_le_of_ne hstop hafter
              refine newUnchecked_bind (Nat.sub_pos_of_lt hlt) ?_
              refine (yields_bind_of_ok rfl).mpr ?_
              refine swapRanges_leaves debug ?_ rfl
              rw [selected, dif_pos hsize]
              exact (dif_neg hbefore).trans (dif_pos hlt)
          · next hafter =>
              refine yields_pure.mpr (leaves_skipped ?_ rfl)
              rw [selected, dif_pos hsize]
              refine (dif_neg hbefore).trans (dif_neg ?_)
              omega

/-- The two ranges trade places, and nothing else changes. -/
def Exchanges (s : Mutation R) (r : Except Error MutationResult) (t : Mutation R) : Prop :=
  Leaves s exchanged r t ∧ t.input.length = s.input.length ∧ t.input.Perm s.input

/-- `Repeats` holds whenever the earlier range is not the longer one. -/
theorem mutate_exchanges_iff (debug : Bool) (s : Mutation R) :
    (BytesSwapMutator.mutate debug).Yields s (Exchanges s) ↔
      ∀ low high, selected s.input.length s.rand = some (low, high) →
        Repeats s.input low high := by
  obtain ⟨r, t, hrun, hleaves⟩ := mutate_leaves debug s
  rw [yields_of_run hrun]
  rcases hselected : selected s.input.length s.rand with - | ⟨low, high⟩
  · rw [Leaves, hselected] at hleaves
    obtain ⟨rfl, ht⟩ := hleaves
    refine iff_of_true ⟨leaves_skipped hselected ht, congrArg _ ht, .of_eq ht⟩ ?_
    exact fun low high h => absurd h (Option.some_ne_none _).symm
  · have hordered := selected_ordered hselected
    rw [Leaves, hselected] at hleaves
    obtain ⟨rfl, ht⟩ := hleaves
    have hiff := Ordered.swapped_eq_iff hordered
    rw [← ht] at hiff
    constructor
    · rintro ⟨hexchanged, -, -⟩ low' high' h
      obtain ⟨rfl, rfl⟩ := Prod.mk.inj (Option.some.inj h)
      rw [Leaves, hselected] at hexchanged
      exact hiff.mp hexchanged.2
    · intro h
      have heq := hiff.mpr (h low high rfl)
      refine ⟨leaves_mutated hselected heq, ?_, ?_⟩
      · rw [heq]
        exact hordered.length_exchanged
      · rw [heq]
        exact hordered.exchanged_perm

/-- Of `abcd` the ranges `ab` and `d` are to be exchanged; the gap `c` is moved
over the `b` before that is copied. -/
theorem mutate_not_exchanges :
    ¬(BytesSwapMutator.mutate true).Yields
      (⟨[97, 98, 99, 100], [],
        [4611686018427387904, 3689348814741910324, 0, 0, 9223372036854775808] ++ₛ
          Stream'.const 0⟩ : Mutation (Stream' UInt64))
      (Exchanges ⟨[97, 98, 99, 100], [],
        [4611686018427387904, 3689348814741910324, 0, 0, 9223372036854775808] ++ₛ
          Stream'.const 0⟩) := by
  rintro ⟨r, t, hrun, -, -, hperm⟩
  have hinput := congrArg (Option.map fun p => p.2.input) hrun
  replace hinput : [100, 99, 97, 99] = t.input := Option.some.inj hinput
  rw [← hinput] at hperm
  revert hperm
  decide

end BytesSwap

end Libaflmm
