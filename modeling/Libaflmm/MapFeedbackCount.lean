import Libaflmm.MapFeedback

/-!
# The count of covered entries

`num_covered_map_indexes` is kept up to date by three pieces of code, and each
of them counts only entries that become covered:

- a lookup grows the history by initial entries, which changes no count;
- an append misses the entries that a reducer takes back to the initial value;
- a calibration grows the history by default entries, counts a marked entry
  as new where it holds the default, and does not look at the initial value.

The lemmas here say how far the count is off after each, in terms of the
entries concerned.
-/

namespace Libaflmm

namespace MapFeedback

variable {T : Type} [DecidableEq T]

/-! ## Covered entries -/

def covered (initial : T) (historyMap : List T) : Nat := historyMap.countP (· ≠ initial)

/-- The count is that of the covered entries. -/
def Metadata.Exact (initial : T) (md : Metadata T) : Prop :=
  md.numCoveredMapIndexes = covered initial md.historyMap

variable {fb : MapFeedback T} {initial default maxValue : T}

theorem covered_cons (value : T) (values : List T) :
    covered initial (value :: values) =
      covered initial values + if value = initial then 0 else 1 := by
  rw [covered, List.countP_cons, covered]
  by_cases h : value = initial <;> simp [h]

theorem covered_growHistory (len : Nat) (value : T) (historyMap : List T) :
    covered initial (growHistory len value historyMap) =
      covered initial historyMap + if value = initial then 0 else len - historyMap.length := by
  unfold growHistory
  split
  · rw [covered, List.countP_append, List.countP_replicate, covered]
    by_cases h : value = initial <;> simp [h]
  · next hlen =>
      have hzero : len - historyMap.length = 0 := by omega
      simp [hzero]

/-! ## Appending -/

/-- The pair of a map entry and a history entry, both covered, reduces to the
initial value. -/
def Uncovers (fb : MapFeedback T) (initial : T) (entry : T × T) : Prop :=
  entry.1 ≠ initial ∧ entry.2 ≠ initial ∧ fb.reduce entry.2 entry.1 = initial

instance (entry : T × T) : Decidable (Uncovers fb initial entry) :=
  inferInstanceAs (Decidable (_ ∧ _ ∧ _))

variable (fb) in
/-- The account of a single entry. -/
theorem covered_reduce (history : T) {value : T} (hvalue : value ≠ initial) :
    (if fb.reduce history value = initial then 0 else 1) +
        (if Uncovers fb initial (value, history) then 1 else 0) =
      (if history = initial then 0 else 1) +
        if history = initial ∧ fb.reduce history value ≠ initial then 1 else 0 := by
  by_cases hhistory : history = initial <;>
    by_cases hval : fb.reduce history value = initial <;>
    simp_all [Uncovers]

variable (fb initial) in
theorem covered_appendEntries (values histories : List T) :
    covered initial (appendEntries fb initial values histories).1 +
        (values.zip histories).countP (Uncovers fb initial ·) =
      covered initial histories + (appendEntries fb initial values histories).2 := by
  induction values generalizing histories with
  | nil => rfl
  | cons value values ih =>
      cases histories with
      | nil => rfl
      | cons history histories =>
          have htail := ih histories
          rw [List.zip_cons_cons, List.countP_cons, covered_cons, appendEntries]
          simp only [decide_eq_true_eq]
          by_cases hvalue : value ≠ initial
          · have hhead := covered_reduce fb history hvalue
            rw [if_pos hvalue, covered_cons]
            omega
          · have hkeeps : ¬ Uncovers fb initial (value, history) := fun h => hvalue h.1
            rw [if_neg hvalue, if_neg hkeeps, covered_cons]
            omega

/-- An append keeps the count exact unless it uncovers an entry. -/
theorem exact_appendMetadata (observer : MapObserver T) {md : Metadata T}
    (h : md.Exact observer.initial) :
    (appendMetadata fb observer md).Exact observer.initial ↔
      ∀ entry ∈ observer.asIter.zip (growHistory observer.len observer.initial md.historyMap),
        ¬ Uncovers fb observer.initial entry := by
  have hcount := covered_appendEntries fb observer.initial observer.asIter
    (growHistory observer.len observer.initial md.historyMap)
  rw [covered_growHistory, if_pos rfl] at hcount
  unfold Metadata.Exact at h ⊢
  simp only [appendMetadata]
  have hzero := List.countP_eq_zero (p := fun entry => decide (Uncovers fb observer.initial entry))
    (l := observer.asIter.zip (growHistory observer.len observer.initial md.historyMap))
  simp only [decide_eq_true_eq] at hzero
  rw [h, ← hzero]
  omega

/-! ## Marking -/

/-- The history entries that a comparison of two maps writes over. -/
def markedEntries (maxValue : T) (first cur histories : List T) : List T :=
  ((first.zip (cur.zip histories)).filter fun (first, cur, history) =>
    first ≠ cur ∧ history ≠ maxValue).map (·.2.2)

variable (initial default maxValue) in
theorem covered_compareEntries (first cur histories : List T) :
    (compareEntries default maxValue first cur histories).2 =
        (markedEntries maxValue first cur histories).countP (· = default) ∧
      covered initial (compareEntries default maxValue first cur histories).1 +
          covered initial (markedEntries maxValue first cur histories) =
        covered initial histories +
          if maxValue = initial then 0
          else (markedEntries maxValue first cur histories).length := by
  induction first generalizing cur histories with
  | nil => simp [compareEntries, markedEntries, covered]
  | cons first firsts ih =>
      cases cur with
      | nil => simp [compareEntries, markedEntries, covered]
      | cons cur curs =>
          cases histories with
          | nil => simp [compareEntries, markedEntries, covered]
          | cons history histories =>
              obtain ⟨hcount, hcovered⟩ := ih curs histories
              by_cases hmark : first ≠ cur ∧ history ≠ maxValue
              · have hmarked : markedEntries maxValue (first :: firsts) (cur :: curs)
                    (history :: histories) =
                    history :: markedEntries maxValue firsts curs histories := by
                  simp [markedEntries, hmark]
                rw [hmarked, List.countP_cons]
                simp only [compareEntries, if_pos hmark, covered_cons, List.length_cons,
                  decide_eq_true_eq]
                refine ⟨by rw [hcount], ?_⟩
                by_cases hmax : maxValue = initial <;>
                  simp only [hmax, if_true, if_false] at hcovered ⊢ <;> omega
              · have hmarked : markedEntries maxValue (first :: firsts) (cur :: curs)
                    (history :: histories) = markedEntries maxValue firsts curs histories := by
                  simp only [markedEntries, List.zip_cons_cons]
                  rw [List.filter_cons_of_neg (by simpa using hmark)]
                rw [hmarked]
                simp only [compareEntries, if_neg hmark, covered_cons]
                exact ⟨hcount, by omega⟩

/-- What the count is off by after a comparison: the entries the history
grew by are covered when the default is, and so are the marked entries when
the largest value is; counted are the marked entries that held the default. -/
theorem exact_markUnstable {first cur : List T} {md : Metadata T} (h : md.Exact initial) :
    (markUnstable default maxValue first cur md).Exact initial ↔
      let marked := markedEntries maxValue first cur
        (growHistory first.length default md.historyMap)
      marked.countP (· = default) + covered initial marked =
        (if default = initial then 0 else first.length - md.historyMap.length) +
          if maxValue = initial then 0 else marked.length := by
  obtain ⟨hcount, hcovered⟩ := covered_compareEntries initial default maxValue
    first cur (growHistory first.length default md.historyMap)
  rw [covered_growHistory] at hcovered
  unfold Metadata.Exact at h ⊢
  simp only [markUnstable]
  omega

/-! ## Whole runs -/

inductive FeedbackOp (T : Type) where
  | observed (op : ObservedOp T)
  | markUnstable (first cur : List T)

/-- The feedback and the calibration, over one observer. -/
def step (fb : MapFeedback T) (initial default maxValue : T) (md : Metadata T) :
    FeedbackOp T → Option (Metadata T)
  | .observed op => some (fb.observe initial md op)
  | .markUnstable first cur => some (markUnstable default maxValue first cur md)

/-- No append uncovers an entry; and of a calibration, the entries it marks
and the entries it fills a short history up with cancel out. -/
def CountsExactly (fb : MapFeedback T) (initial default maxValue : T) (md : Metadata T) :
    FeedbackOp T → Prop
  | .observed (.isInteresting _) => True
  | .observed (.appendMetadata chunks) =>
      ∀ entry ∈ chunks.flatten.zip (growHistory chunks.flatten.length initial md.historyMap),
        ¬ Uncovers fb initial entry
  | .markUnstable first cur =>
      let marked := markedEntries maxValue first cur
        (growHistory first.length default md.historyMap)
      marked.countP (· = default) + covered initial marked =
        (if default = initial then 0 else first.length - md.historyMap.length) +
          if maxValue = initial then 0 else marked.length

theorem Metadata.Exact.step_iff {md : Metadata T} (h : md.Exact initial) (op : FeedbackOp T) :
    (∃ md', step fb initial default maxValue md op = some md' ∧ md'.Exact initial) ↔
      CountsExactly fb initial default maxValue md op := by
  cases op with
  | observed op =>
      simp only [step, Option.some.injEq, exists_eq_left']
      cases op with
      | isInteresting chunks =>
          have hgrown : covered initial (growHistory chunks.flatten.length initial md.historyMap) =
              covered initial md.historyMap := by
            rw [covered_growHistory, if_pos rfl, add_zero]
          exact iff_of_true (h.trans hgrown.symm) trivial
      | appendMetadata chunks => exact exact_appendMetadata ⟨chunks, initial⟩ h
  | markUnstable first cur =>
      simp only [step, Option.some.injEq, exists_eq_left']
      exact exact_markUnstable h

/-- **The count is exact exactly as long as every step counts exactly.** -/
theorem exact_iff_countsExactly (fb : MapFeedback T) (initial default maxValue : T)
    (ops : List (FeedbackOp T)) :
    Survives (step fb initial default maxValue) Metadata.default ops
        (fun _ md => md.Exact initial) ↔
      StepsMeet (step fb initial default maxValue) Metadata.default ops
        (CountsExactly fb initial default maxValue) :=
  survives_iff_stepsMeet rfl fun _ _ op _ h => h.step_iff op

/-- A calibration takes the entry of a minimised map back to its initial
value. -/
theorem marked_min_not_exact :
    ¬ ∀ ops : List (FeedbackOp UInt8), ∃ md,
      run (step ⟨MinReducer.reduce, DifferentIsNovel.isNovel⟩ 255 0 255) Metadata.default ops =
        some md ∧ md.Exact 255 := by
  intro h
  obtain ⟨md, hrun, hexact⟩ := h [.observed (.appendMetadata [[3]]), .markUnstable [3] [4]]
  obtain rfl : ⟨[255], 1⟩ = md := Eq.trans (by decide) (Option.some.inj hrun)
  exact absurd (show (1 : Nat) = covered 255 [255] from hexact) (by decide)

/-! ## Reducers that uncover nothing -/

/-- Where the default is the initial value and the largest value is not,
calibration counts exactly. -/
theorem countsExactly_of_initial {md : Metadata T} (hmax : maxValue ≠ initial)
    (hreduce : ∀ entry, ¬ Uncovers fb initial entry) (op : FeedbackOp T) :
    CountsExactly fb initial initial maxValue md op := by
  cases op with
  | observed op =>
      cases op with
      | isInteresting chunks => trivial
      | appendMetadata chunks => exact fun entry _ => hreduce entry
  | markUnstable first cur =>
      simp only [CountsExactly, if_true, if_neg hmax, zero_add, covered]
      simp [List.length_eq_countP_add_countP (· = initial)
        (l := markedEntries maxValue first cur _)]

section

variable {U : Type} [LinearOrder U] {first : U}

theorem not_uncovers_max (isNovel : U → U → Bool) (entry : U × U) :
    ¬ Uncovers ⟨MaxReducer.reduce, isNovel⟩ first entry := by
  rintro ⟨hvalue, hhistory, hval⟩
  simp only [MaxReducer.reduce] at hval
  split at hval
  · exact hhistory hval
  · exact hvalue hval

theorem not_uncovers_min (isNovel : U → U → Bool) (entry : U × U) :
    ¬ Uncovers ⟨MinReducer.reduce, isNovel⟩ first entry := by
  rintro ⟨hvalue, hhistory, hval⟩
  simp only [MinReducer.reduce] at hval
  split at hval
  · exact hhistory hval
  · exact hvalue hval

theorem not_uncovers_nop {U : Type} {first : U} (isNovel : U → U → Bool) (entry : U × U) :
    ¬ Uncovers ⟨NopReducer.reduce, isNovel⟩ first entry := fun h => h.1 h.2.2

end

theorem not_uncovers_or {w : Nat} (isNovel : BitVec w → BitVec w → Bool)
    (entry : BitVec w × BitVec w) :
    ¬ Uncovers ⟨OrReducer.reduce, isNovel⟩ 0#w entry := by
  rintro ⟨hvalue, -, hval⟩
  exact hvalue (BitVec.or_eq_zero_iff.mp hval).2

omit [DecidableEq T] in
/-- An entry that absorbed the initial value is not taken back to it. -/
theorem not_uncovers_of_absorbed (hjoins : Joins fb.reduce) {value history : T}
    (habsorbed : fb.reduce history initial = history) :
    ¬ Uncovers fb initial (value, history) := by
  rintro ⟨-, hhistory, hval⟩
  have hinitial : fb.reduce history initial = initial := by
    calc fb.reduce history initial
      _ = fb.reduce history (fb.reduce history value) := by rw [hval]
      _ = fb.reduce history value := by rw [← hjoins.assoc, hjoins.idem]
      _ = initial := hval
  exact hhistory (habsorbed.symm.trans hinitial)

theorem absorbed_appendEntries (hjoins : Joins fb.reduce) (values histories : List T)
    (h : ∀ history ∈ histories, fb.reduce history initial = history) :
    ∀ history ∈ (appendEntries fb initial values histories).1,
      fb.reduce history initial = history := by
  induction values generalizing histories with
  | nil => exact h
  | cons value values ih =>
      cases histories with
      | nil => exact h
      | cons history histories =>
          obtain ⟨hhead, htail⟩ := List.forall_mem_cons.mp h
          simp only [appendEntries]
          split
          · exact List.forall_mem_cons.mpr ⟨hjoins.stays hhead value, ih histories htail⟩
          · exact List.forall_mem_cons.mpr ⟨hhead, ih histories htail⟩

omit [DecidableEq T] in
theorem absorbed_growHistory (hjoins : Joins fb.reduce) (len : Nat) {historyMap : List T}
    (h : ∀ history ∈ historyMap, fb.reduce history initial = history) :
    ∀ history ∈ growHistory len initial historyMap, fb.reduce history initial = history := by
  intro history hmem
  unfold growHistory at hmem
  split at hmem
  · rcases List.mem_append.mp hmem with hmem | hmem
    · exact h history hmem
    · rw [List.eq_of_mem_replicate hmem]
      exact hjoins.idem initial
  · exact h history hmem

/-- **Without calibration the count is exact**, whatever the initial value,
for every reducer that joins. -/
theorem exact_of_unmarked (hjoins : Joins fb.reduce) (ops : List (ObservedOp T)) :
    Survives (step fb initial default maxValue) Metadata.default (ops.map .observed)
      fun _ md => md.Exact initial := by
  rw [exact_iff_countsExactly, ← stepsMeet_congr (P := fun _ _ => True)
    (fun md => ∀ history ∈ md.historyMap, fb.reduce history initial = history)
    fun _ h => (List.not_mem_nil h).elim]
  · exact fun _ _ _ _ _ => trivial
  · intro md op hop habsorbed
    obtain ⟨op, -, rfl⟩ := List.mem_map.mp hop
    refine iff_of_true trivial ?_
    cases op with
    | isInteresting chunks => trivial
    | appendMetadata chunks =>
        intro entry hentry
        exact not_uncovers_of_absorbed hjoins
          (absorbed_growHistory hjoins _ habsorbed _ (List.of_mem_zip hentry).2)
  · intro md op md' hop habsorbed _ hstep
    obtain ⟨op, -, rfl⟩ := List.mem_map.mp hop
    obtain rfl := Option.some.inj hstep
    cases op with
    | isInteresting chunks => exact absorbed_growHistory hjoins _ habsorbed
    | appendMetadata chunks =>
        exact absorbed_appendEntries hjoins _ _ (absorbed_growHistory hjoins _ habsorbed)

end MapFeedback

end Libaflmm
