import Libaflmm.MapFeedback

/-!
# Accepted coverage stays known

Once a map was appended, the history has absorbed each entry of it that is
not initial: reducing the entry into the history again changes nothing. For
the reducers that join values, no later append takes that back, and none of
the novelty criteria finds a value novel that equals the old one.
-/

namespace Libaflmm

namespace MapFeedback

variable {T : Type} [DecidableEq T]

/-- The history has absorbed the entries of the map. -/
def Metadata.Absorbed (fb : MapFeedback T) (initial : T) (map : List T) (md : Metadata T) : Prop :=
  ∀ (i : Nat) (value : T), map[i]? = some value → value ≠ initial →
    ∃ history, md.historyMap[i]? = some history ∧ fb.reduce history value = history

variable {fb : MapFeedback T} {initial : T} {map : List T} {md : Metadata T}

omit [DecidableEq T] in
theorem getElem?_growHistory (len : Nat) {i : Nat} {historyMap : List T} {history : T}
    (h : historyMap[i]? = some history) :
    (growHistory len initial historyMap)[i]? = some history := by
  unfold growHistory
  split
  · rw [List.getElem?_append_left (List.getElem?_eq_some_iff.mp h).1, h]
  · exact h

omit [DecidableEq T] in
theorem le_length_growHistory (len : Nat) (historyMap : List T) :
    len ≤ (growHistory len initial historyMap).length := by
  unfold growHistory
  split
  · simp only [List.length_append, List.length_replicate]
    omega
  · omega

variable (fb initial) in
/-- What the loop leaves at an index. -/
theorem getElem?_appendEntries (values : List T) {histories : List T} {i : Nat} {history : T}
    (h : histories[i]? = some history) :
    (appendEntries fb initial values histories).1[i]? = some history ∧
        (∀ value, values[i]? = some value → value = initial) ∨
      ∃ value, values[i]? = some value ∧ value ≠ initial ∧
        (appendEntries fb initial values histories).1[i]? = some (fb.reduce history value) := by
  induction values generalizing histories i with
  | nil => exact Or.inl ⟨by simpa [appendEntries] using h, by simp⟩
  | cons value values ih =>
      cases histories with
      | nil => simp at h
      | cons head histories =>
          cases i with
          | zero =>
              obtain rfl : head = history := by simpa using h
              by_cases hvalue : value ≠ initial
              · exact Or.inr ⟨value, rfl, hvalue, by simp [appendEntries, hvalue]⟩
              · refine Or.inl ⟨by simp [appendEntries, hvalue], fun v hv => ?_⟩
                obtain rfl : value = v := by simpa using hv
                exact not_not.mp hvalue
          | succ i =>
              have htail : (appendEntries fb initial (value :: values)
                  (head :: histories)).1[i + 1]? =
                  (appendEntries fb initial values histories).1[i]? := by
                simp only [appendEntries]
                split <;> rfl
              rw [htail]
              exact ih (by simpa using h)

variable (initial md) in
theorem absorbed_appendMetadata (hjoins : Joins fb.reduce) (chunks : List (List T)) :
    (fb.appendMetadata ⟨chunks, initial⟩ md).Absorbed fb initial chunks.flatten := by
  intro i value hvalue hne
  have hlt : i < (growHistory chunks.flatten.length initial md.historyMap).length :=
    (List.getElem?_eq_some_iff.mp hvalue).1.trans_le (le_length_growHistory _ _)
  obtain ⟨history, hhistory⟩ : ∃ history,
      (growHistory chunks.flatten.length initial md.historyMap)[i]? = some history :=
    ⟨_, List.getElem?_eq_getElem hlt⟩
  rcases getElem?_appendEntries fb initial chunks.flatten hhistory with
    ⟨-, hinitial⟩ | ⟨v, hv, -, hreduced⟩
  · exact (hne (hinitial value hvalue)).elim
  · obtain rfl : v = value := Option.some.inj (hv.symm.trans hvalue)
    exact ⟨_, hreduced, hjoins.absorbs history v⟩

/-- Neither a lookup nor an append takes an absorbed map back. -/
theorem Metadata.Absorbed.observe (hjoins : Joins fb.reduce) (h : md.Absorbed fb initial map)
    (op : ObservedOp T) : (fb.observe initial md op).Absorbed fb initial map := by
  intro i value hvalue hne
  obtain ⟨history, hhistory, habsorbed⟩ := h i value hvalue hne
  cases op with
  | isInteresting chunks => exact ⟨history, getElem?_growHistory _ hhistory, habsorbed⟩
  | appendMetadata chunks =>
      rcases getElem?_appendEntries fb initial chunks.flatten
          (getElem?_growHistory chunks.flatten.length hhistory) with
        ⟨hsame, -⟩ | ⟨v, -, -, hreduced⟩
      · exact ⟨history, hsame, habsorbed⟩
      · exact ⟨_, hreduced, hjoins.stays habsorbed v⟩

theorem Metadata.Absorbed.foldl_observe (hjoins : Joins fb.reduce)
    (h : md.Absorbed fb initial map) (later : List (ObservedOp T)) :
    (later.foldl (fb.observe initial) md).Absorbed fb initial map := by
  induction later generalizing md with
  | nil => exact h
  | cons op later ih => exact ih (h.observe hjoins op)

/-- An absorbed map is not interesting. -/
theorem Metadata.Absorbed.not_interesting (hnovel : ∀ value, fb.isNovel value value = false)
    (observer : MapObserver T) (h : md.Absorbed fb observer.initial observer.asIter) :
    (fb.isInterestingDefault observer md).1 = false := by
  simp only [isInterestingDefault, List.any_eq_false]
  rintro ⟨item, existing⟩ hmem hinteresting
  obtain ⟨hne, hisNovel⟩ := Bool.and_eq_true_iff.mp hinteresting
  obtain ⟨i, hi⟩ := List.getElem?_of_mem hmem
  obtain ⟨hitem, hexisting⟩ := List.getElem?_zip_eq_some.mp hi
  obtain ⟨history, hhistory, habsorbed⟩ := h i item hitem (of_decide_eq_true hne)
  obtain rfl : history = existing :=
    Option.some.inj ((getElem?_growHistory _ hhistory).symm.trans hexisting)
  rw [habsorbed, hnovel] at hisNovel
  cases hisNovel

/-! ## Never novel again -/

/-- A map that was appended in any state is not interesting after any later
calls, however its entries are sliced then. -/
def NeverNovelAgain (fb : MapFeedback T) : Prop :=
  ∀ (initial : T) (md : Metadata T) (chunks again : List (List T)) (later : List (ObservedOp T)),
    again.flatten = chunks.flatten →
      (fb.isInterestingDefault ⟨again, initial⟩
        (later.foldl (fb.observe initial) (fb.appendMetadata ⟨chunks, initial⟩ md))).1 = false

theorem neverNovelAgain_of_joins (hjoins : Joins fb.reduce)
    (hnovel : ∀ value, fb.isNovel value value = false) : NeverNovelAgain fb := by
  intro initial md chunks again later hsame
  have habsorbed := (absorbed_appendMetadata initial md hjoins
    chunks).foldl_observe hjoins later
  rw [← hsame] at habsorbed
  exact habsorbed.not_interesting hnovel ⟨again, initial⟩

theorem differentIsNovel_self (value : T) : DifferentIsNovel.isNovel value value = false := by
  simp [DifferentIsNovel.isNovel]

theorem nextPow2IsNovel_self {U : Type} [PrimInt U] (value : U) :
    NextPow2IsNovel.isNovel value value = false := if_pos le_rfl

theorem oneOrFilledIsNovel_self {U : Type} [PrimInt U] (value : U) :
    OneOrFilledIsNovel.isNovel value value = false := by
  simp [OneOrFilledIsNovel.isNovel]

/-- **Accepted coverage is never novel again**: for maxima and minima of any
ordered entries, and for the bitwise reducers on integers of any width, with
every difference novel; and for maxima of integers with the coarser
criteria. -/
theorem accepted_never_novel :
    (∀ (U : Type) [LinearOrder U],
      NeverNovelAgain (T := U) ⟨MaxReducer.reduce, DifferentIsNovel.isNovel⟩ ∧
        NeverNovelAgain (T := U) ⟨MinReducer.reduce, DifferentIsNovel.isNovel⟩) ∧
    (∀ w : Nat,
      NeverNovelAgain (T := BitVec w) ⟨OrReducer.reduce, DifferentIsNovel.isNovel⟩ ∧
        NeverNovelAgain (T := BitVec w) ⟨AndReducer.reduce, DifferentIsNovel.isNovel⟩) ∧
    ∀ (U : Type) [PrimInt U],
      NeverNovelAgain (T := U) ⟨MaxReducer.reduce, NextPow2IsNovel.isNovel⟩ ∧
        NeverNovelAgain (T := U) ⟨MaxReducer.reduce, OneOrFilledIsNovel.isNovel⟩ := by
  refine ⟨fun U _ => ⟨?_, ?_⟩, fun w => ⟨?_, ?_⟩, fun U _ => ⟨?_, ?_⟩⟩
  · exact neverNovelAgain_of_joins joins_max differentIsNovel_self
  · exact neverNovelAgain_of_joins joins_min differentIsNovel_self
  · exact neverNovelAgain_of_joins joins_or differentIsNovel_self
  · exact neverNovelAgain_of_joins joins_and differentIsNovel_self
  · exact neverNovelAgain_of_joins joins_max nextPow2IsNovel_self
  · exact neverNovelAgain_of_joins joins_max oneOrFilledIsNovel_self

end MapFeedback

end Libaflmm
