import Libaflmm.WorkerSeen

/-!
# What becomes of a batch with a bad import

`recvTestcases` takes the pending imports out of their buffer, marks the id
of each as seen before it looks at the content, and ends at the first content
that is no input or has another id. The testcases before it have been marked
but are not returned, those behind it are gone. So a batch is returned as a
whole or not at all.
-/

namespace Libaflmm

namespace GenericWorker

open Call

variable {HB I H U : Type} [Input I] [InputHandleBackend HB I H]

/-- What the imports of a batch are worth that the worker has not seen: a
testcase, or nothing where the content cannot be read or has another id than
the announced one. -/
def verdicts : List (TestcaseId × H) → HashSet TestcaseId → HB → List (Option (Testcase I))
  | [], _, _ => []
  | (id, handle) :: imports, seen, backend =>
    if id ∈ seen then verdicts imports seen backend
    else
      match InputHandleBackend.resolveHandle handle backend with
      | (.error _, backend) => none :: verdicts imports seen backend
      | (.ok input, backend) =>
        if (Testcase.new input).id = id then
          some (.new input) :: verdicts imports (seen.insert id ()) backend
        else none :: verdicts imports seen backend

/-- The imports that are pending now. -/
def pendingVerdicts (worker : GenericWorker HB H U) : List (Option (Testcase I)) :=
  verdicts worker.pendingImports worker.seenTestcases worker.handleBackend

/-- The testcases that a call returns. -/
def testcasesOf : Result (List (Testcase I)) → List (Testcase I)
  | .ok testcases => testcases
  | .error _ => []

/-- Calls of `recvTestcases` one after another, with everything they return. -/
inductive Receives : GenericWorker HB H U → List (Testcase I) → GenericWorker HB H U → Prop where
  | nil (worker) : Receives worker [] worker
  | call {worker mid worker' : GenericWorker HB H U} {r : Result (List (Testcase I))}
      {testcases : List (Testcase I)} :
      recvTestcases.run worker = some (r, mid) → Receives mid testcases worker' →
      Receives worker (testcasesOf r ++ testcases) worker'

/-- Every well-formed import that is pending is returned by the next call or a
later one, and not seen before it is. -/
structure LosesNone (worker : GenericWorker HB H U) : Prop where
  returned : ∀ testcase : Testcase I, some testcase ∈ worker.pendingVerdicts →
    ∃ testcases worker', Receives worker testcases worker' ∧ testcase ∈ testcases
  seen : ∀ (testcases : List (Testcase I)) worker', Receives worker testcases worker' →
    ∀ testcase : Testcase I, some testcase ∈ worker.pendingVerdicts →
      testcase.id ∈ worker'.seenTestcases → testcase ∈ testcases

theorem notMem_of_mem_verdicts {testcase : Testcase I} {imports : List (TestcaseId × H)}
    {seen : HashSet TestcaseId} {backend : HB}
    (h : some testcase ∈ verdicts imports seen backend) : testcase.id ∉ seen := by
  induction imports generalizing seen backend with
  | nil => cases h
  | cons entry imports ih =>
      obtain ⟨id, handle⟩ := entry
      rw [verdicts] at h
      split at h
      · exact ih h
      · next hid =>
        split at h
        · exact ih ((List.mem_cons.mp h).resolve_left (Option.some_ne_none _))
        · split at h
          · next heq =>
            rcases List.mem_cons.mp h with hfirst | hrest
            · rw [Option.some.inj hfirst, heq]
              exact hid
            · exact fun hseen => ih hrest ((AList.mem_insert _).mpr (.inr hseen))
          · exact ih ((List.mem_cons.mp h).resolve_left (Option.some_ne_none _))

theorem verdicts_congr (imports : List (TestcaseId × H)) {seen seen' : HashSet TestcaseId}
    {backend : HB} (h : ∀ id, id ∈ seen ↔ id ∈ seen') :
    (verdicts imports seen backend : List (Option (Testcase I))) =
      verdicts imports seen' backend := by
  induction imports generalizing seen seen' backend with
  | nil => rfl
  | cons entry imports ih =>
      obtain ⟨id, handle⟩ := entry
      have hinsert : ∀ id', id' ∈ seen.insert id () ↔ id' ∈ seen'.insert id () := by
        simp [AList.mem_insert, h]
      simp only [verdicts, h id, ih h, ih hinsert]

/-! ## One call -/

/-- What a call makes of a batch. -/
def BatchEnds (pending : List (TestcaseId × H)) (batch : List (Option (Testcase I))) :
    Result (List (Testcase I)) → GenericWorker HB H U → Prop
  | .ok testcases, w' => w'.pendingImports = pending ∧ batch = testcases.map some
  | .error _, w' => w'.pendingImports = pending ∧ none ∈ batch

theorem importAll_batchEnds (imports : List (TestcaseId × H)) (w : GenericWorker HB H U) :
    (importAll imports).Yields w (BatchEnds w.pendingImports
      (verdicts imports w.seenTestcases w.handleBackend : List (Option (Testcase I)))) := by
  induction imports generalizing w with
  | nil => exact yields_pure.mpr ⟨rfl, rfl⟩
  | cons entry imports ih =>
      obtain ⟨id, handle⟩ := entry
      rw [importAll, verdicts]
      have hmark : (markSeen id : Working HB H U Bool).run w =
        some (.ok (decide (id ∉ w.seenTestcases)),
          { w with seenTestcases := w.seenTestcases.insert id () }) := rfl
      refine (yields_bind_of_ok hmark).mpr ?_
      by_cases hid : id ∈ w.seenTestcases
      · simp only [hid, not_true_eq_false, decide_false, Bool.false_eq_true, if_false, if_true]
        have hseen : ∀ id', id' ∈ w.seenTestcases ↔ id' ∈ w.seenTestcases.insert id () := by
          intro id'
          rw [AList.mem_insert]
          exact (or_iff_right_of_imp fun heq => heq ▸ hid).symm
        rw [verdicts_congr imports hseen]
        exact ih _
      · simp only [hid, not_false_eq_true, decide_true, if_true, if_false]
        have hresolve : (resolveHandle handle : Working HB H U I).run
            { w with seenTestcases := w.seenTestcases.insert id () } =
              some ((InputHandleBackend.resolveHandle handle w.handleBackend).1,
                { w with
                  seenTestcases := w.seenTestcases.insert id ()
                  handleBackend := (InputHandleBackend.resolveHandle handle w.handleBackend).2 }) :=
          rfl
        rcases hr : (InputHandleBackend.resolveHandle handle w.handleBackend : Result I × HB) with
          ⟨_ | input, backend⟩
        · rw [hr] at hresolve
          exact (yields_bind_of_error hresolve).mpr ⟨rfl, List.mem_cons_self⟩
        · rw [hr] at hresolve
          refine (yields_bind_of_ok hresolve).mpr ?_
          by_cases heq : (Testcase.new input).id = id
          · rw [if_neg (not_not.mpr heq)]
            simp only [heq, if_true]
            refine yields_bind.mpr ((ih _).mono fun r u h => ?_)
            cases r with
            | error e => exact ⟨h.1, List.mem_cons_of_mem _ h.2⟩
            | ok testcases =>
                refine yields_pure.mpr ⟨h.1, ?_⟩
                rw [h.2, List.map_cons]
          · rw [if_pos heq]
            simp only [heq, if_false]
            exact yields_ofResult.mpr ⟨rfl, List.mem_cons_self⟩

/-- A batch is returned as a whole, or not at all. -/
theorem recvTestcases_batchEnds (w : GenericWorker HB H U) :
    (recvTestcases : Working HB H U (List (Testcase I))).Yields w
      (BatchEnds [] w.pendingVerdicts) :=
  yields_bind.mpr (yields_read.mpr (yields_bind.mpr (yields_update.mpr (importAll_batchEnds _ _))))

theorem Receives.of_nil {w w' : GenericWorker HB H U} {testcases : List (Testcase I)}
    (h : Receives w testcases w') (hw : w.pendingImports = []) : testcases = [] := by
  induction h with
  | nil => rfl
  | @call worker mid worker' r testcases hrun hrest ih =>
      have hends := (recvTestcases_batchEnds worker).leaves r mid hrun
      rw [pendingVerdicts, hw] at hends
      cases r with
      | error e => cases hends.2
      | ok first =>
          rw [ih hends.1, List.append_nil]
          exact List.map_eq_nil_iff.mp hends.2.symm

/-- The first call returns what the calls of a worker ever return of a batch. -/
theorem Receives.cases_first {w w' : GenericWorker HB H U} {testcases : List (Testcase I)}
    (h : Receives w testcases w') : testcases = [] ∧ w' = w ∨
      none ∈ (w.pendingVerdicts : List (Option (Testcase I))) ∧ testcases = [] ∨
      w.pendingVerdicts = testcases.map some := by
  cases h with
  | nil => exact .inl ⟨rfl, rfl⟩
  | @call _ mid _ r rest hrun hrest =>
      have hends := (recvTestcases_batchEnds w).leaves r mid hrun
      cases r with
      | error e => exact .inr (.inl ⟨hends.2, hrest.of_nil hends.1⟩)
      | ok first =>
          obtain rfl := hrest.of_nil hends.1
          exact .inr (.inr (hends.2.trans (by rw [testcasesOf, List.append_nil])))

/-! ## All calls -/

theorem not_losesNone {w : GenericWorker HB H U} {testcase : Testcase I}
    (hbad : none ∈ (w.pendingVerdicts : List (Option (Testcase I))))
    (hgood : some testcase ∈ w.pendingVerdicts) : ¬w.LosesNone := by
  intro h
  -- The first call has failed, and the later ones find nothing.
  obtain ⟨testcases, w', hreceives, hreturned⟩ := h.returned testcase hgood
  rcases hreceives.cases_first with ⟨rfl, -⟩ | ⟨-, rfl⟩ | hall
  · cases hreturned
  · cases hreturned
  · rw [hall] at hbad
    simp at hbad

/-- **No well-formed import is lost exactly where there is no bad one next to
it.** -/
theorem losesNone_iff (w : GenericWorker HB H U) :
    w.LosesNone ↔ none ∉ (w.pendingVerdicts : List (Option (Testcase I))) ∨
      ∀ verdict ∈ (w.pendingVerdicts : List (Option (Testcase I))), verdict = none := by
  constructor
  · intro h
    refine or_iff_not_imp_left.mpr fun hbad verdict hmem => ?_
    cases verdict with
    | none => rfl
    | some testcase => exact absurd h (not_losesNone (not_not.mp hbad) hmem)
  · rintro (hgood | hnone)
    · obtain ⟨r, w', hrun, hends⟩ := recvTestcases_batchEnds w
      cases r with
      | error e => exact absurd hends.2 hgood
      | ok all =>
          refine ⟨fun testcase hmem => ⟨_, w', .call hrun (.nil w'), ?_⟩,
            fun testcases u hreceives testcase hmem hseen => ?_⟩
          · rw [hends.2] at hmem
            rw [List.append_nil]
            exact (List.mem_map_of_injective (Option.some_injective _)).mp hmem
          · rcases hreceives.cases_first with ⟨-, rfl⟩ | ⟨hbad, -⟩ | hall
            · exact absurd hseen (notMem_of_mem_verdicts hmem)
            · exact absurd hbad hgood
            · rw [hall] at hmem
              exact (List.mem_map_of_injective (Option.some_injective _)).mp hmem
    · refine ⟨fun testcase hmem => ?_, fun _ _ _ testcase hmem => ?_⟩
      · cases hnone _ hmem
      · cases hnone _ hmem

/-- The second of three imports cannot be read. -/
def badBetweenGood : GenericWorker (SerializedInputHandleBackend ValueInput) (List UInt8) Unit :=
  { GenericWorker.new ⟨⟨0⟩, ⟨0⟩⟩ default .fromFd true with
    pendingImports := [(⟨7⟩, [7]), (⟨8⟩, []), (⟨9⟩, [9])] }

theorem badBetweenGood_losesSome : ¬badBetweenGood.LosesNone := by
  have hverdicts : badBetweenGood.pendingVerdicts =
    [some (.new (⟨7⟩ : ValueInput)), none, some (.new ⟨9⟩)] := rfl
  have hbad : none ∈ badBetweenGood.pendingVerdicts := by
    rw [hverdicts]
    exact .tail _ (.head _)
  have hgood : some (.new ⟨7⟩) ∈ badBetweenGood.pendingVerdicts := by
    rw [hverdicts]
    exact .head _
  exact not_losesNone hbad hgood

end GenericWorker

end Libaflmm
