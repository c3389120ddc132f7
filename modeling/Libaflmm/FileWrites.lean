import Libaflmm.Store

/-!
# Writing a file in one step

`write_file_atomic` writes a temporary file beside the target and renames it.
Whatever fails, the target is untouched until the rename. The temporary file is
created exclusively, and a write or a rename that fails leaves it behind: from
then on every call for the same path reports that it exists, without a change
to any file, until it is removed.
-/

namespace Libaflmm

/-- The temporary file is created and not renamed. -/
def WriteOutcome.LeavesTmpfile : WriteOutcome → Prop
  | .completes => False
  | .openFails _ => False
  | .writeFails _ _ => True
  | .renameFails _ => True

instance : DecidablePred WriteOutcome.LeavesTmpfile
  | .completes => inferInstanceAs (Decidable False)
  | .openFails _ => inferInstanceAs (Decidable False)
  | .writeFails _ _ => inferInstanceAs (Decidable True)
  | .renameFails _ => inferInstanceAs (Decidable True)

/-- The content one call wants to write, and how far it gets. -/
abbrev FileWrite := List UInt8 × WriteOutcome

/-- The files after calls for the same path. -/
def writeFiles (path : String) (calls : List FileWrite) (dir : Dir) : Dir :=
  calls.foldl (fun dir call => (writeFileAtomic path call.1 call.2 dir).2) dir

theorem tmpfileName_ne_self (path : String) : tmpfileName path ≠ path := by
  intro h
  have hlen := congrArg (·.toList.length) h
  simp only [tmpfileName, String.toList_ofList, List.length_append, List.length_cons,
    List.length_take, List.length_reverse] at hlen
  have hle := (List.takeWhile_sublist (· ≠ '/') (l := path.toList.reverse)).length_le
  rw [List.length_reverse] at hle
  simp only [List.length_nil] at hlen
  omega

variable {path : String} {bytes : List UInt8} {outcome : WriteOutcome} {dir : Dir}

theorem writeFileAtomic_of_tmpfile (h : dir (tmpfileName path) ≠ none) :
    writeFileAtomic path bytes outcome dir = (.error (.ofIo .alreadyExists), dir) := by
  unfold writeFileAtomic
  exact if_pos (Option.isSome_iff_ne_none.mpr h)

theorem writeFileAtomic_of_no_tmpfile (h : dir (tmpfileName path) = none) :
    writeFileAtomic path bytes outcome dir = match outcome with
      | .openFails err => (.error (.ofIo err), dir)
      | .writeFails err written =>
        (.error (.ofIo err), Function.update dir (tmpfileName path) (some (bytes.take written)))
      | .renameFails err =>
        (.error (.ofIo err), Function.update dir (tmpfileName path) (some bytes))
      | .completes => (.ok (), Function.update dir path (some bytes)) := by
  unfold writeFileAtomic
  simp only [h]
  rfl

/-- One call: the target holds all of the new content when it succeeds, and
what it held before when it fails. -/
theorem writeFileAtomic_target (path : String) (bytes : List UInt8) (outcome : WriteOutcome)
    (dir : Dir) :
    ((writeFileAtomic path bytes outcome dir).1 = .ok () ∧
        (writeFileAtomic path bytes outcome dir).2 path = some bytes) ∨
      ((∃ err, (writeFileAtomic path bytes outcome dir).1 = .error err) ∧
        (writeFileAtomic path bytes outcome dir).2 path = dir path) := by
  by_cases htmp : dir (tmpfileName path) = none
  · have hother : ∀ content, Function.update dir (tmpfileName path) content path = dir path :=
      fun content => Function.update_of_ne (tmpfileName_ne_self path).symm _ _
    rw [writeFileAtomic_of_no_tmpfile htmp]
    cases outcome with
    | completes =>
        simp only
        exact .inl ⟨trivial, Function.update_self ..⟩
    | openFails err =>
        simp only
        exact .inr ⟨⟨_, rfl⟩, trivial⟩
    | writeFails err written =>
        simp only
        exact .inr ⟨⟨_, rfl⟩, hother _⟩
    | renameFails err =>
        simp only
        exact .inr ⟨⟨_, rfl⟩, hother _⟩
  · rw [writeFileAtomic_of_tmpfile htmp]
    exact .inr ⟨⟨_, rfl⟩, rfl⟩

/-- One call: the temporary file is there afterwards when it was there before
or the call has left it. -/
theorem writeFileAtomic_tmpfile (path : String) (bytes : List UInt8) (outcome : WriteOutcome)
    (dir : Dir) :
    (writeFileAtomic path bytes outcome dir).2 (tmpfileName path) = none ↔
      dir (tmpfileName path) = none ∧ ¬ outcome.LeavesTmpfile := by
  by_cases htmp : dir (tmpfileName path) = none
  · rw [writeFileAtomic_of_no_tmpfile htmp]
    cases outcome with
    | completes =>
        simp only
        rw [Function.update_of_ne (tmpfileName_ne_self path)]
        simp [WriteOutcome.LeavesTmpfile]
    | openFails err => simp [WriteOutcome.LeavesTmpfile]
    | writeFails err written => simp [WriteOutcome.LeavesTmpfile]
    | renameFails err => simp [WriteOutcome.LeavesTmpfile]
  · rw [writeFileAtomic_of_tmpfile htmp]
    simp [htmp]

/-! ## Calls one after the other -/

/-- The target holds what it held at first, or all of the content of a call. -/
theorem writeFiles_target (path : String) (calls : List FileWrite) (dir : Dir) :
    writeFiles path calls dir path = dir path ∨
      ∃ call ∈ calls, writeFiles path calls dir path = some call.1 := by
  induction calls generalizing dir with
  | nil => exact .inl rfl
  | cons call calls ih =>
      rcases ih (writeFileAtomic path call.1 call.2 dir).2 with hsame | ⟨later, hmem, hlater⟩
      · rcases writeFileAtomic_target path call.1 call.2 dir with ⟨-, hnew⟩ | ⟨-, hold⟩
        · exact .inr ⟨call, List.mem_cons_self, hsame.trans hnew⟩
        · exact .inl (hsame.trans hold)
      · exact .inr ⟨later, List.mem_cons_of_mem _ hmem, hlater⟩

theorem writeFiles_tmpfile (path : String) (calls : List FileWrite) (dir : Dir) :
    writeFiles path calls dir (tmpfileName path) = none ↔
      dir (tmpfileName path) = none ∧ ∀ call ∈ calls, ¬ call.2.LeavesTmpfile := by
  induction calls generalizing dir with
  | nil => simp [writeFiles]
  | cons call calls ih =>
      rw [writeFiles, List.foldl_cons, ← writeFiles, ih, writeFileAtomic_tmpfile,
        List.forall_mem_cons, and_assoc]

/-- What holds of the target after some calls for its path. -/
structure CrashAtomic (path : String) (calls : List FileWrite) (dir : Dir) : Prop where
  /-- It holds what it held at first, or all of the content of a call. -/
  complete : writeFiles path calls dir path = dir path ∨
    ∃ call ∈ calls, writeFiles path calls dir path = some call.1
  /-- The next call leaves it as it is or writes all of the new content. -/
  atomic : ∀ bytes outcome,
    (writeFileAtomic path bytes outcome (writeFiles path calls dir)).2 path =
        writeFiles path calls dir path ∨
      (writeFileAtomic path bytes outcome (writeFiles path calls dir)).2 path = some bytes
  /-- The next call without faults succeeds when no temporary file was left,
  and otherwise reports the file and changes none. -/
  retry : ∀ bytes, writeFileAtomic path bytes .completes (writeFiles path calls dir) =
    if dir (tmpfileName path) = none ∧ ∀ call ∈ calls, ¬ call.2.LeavesTmpfile then
      (.ok (), Function.update (writeFiles path calls dir) path (some bytes))
    else
      (.error (.ofIo .alreadyExists), writeFiles path calls dir)

/-- **Writes are atomic, and retryable up to the temporary file.** -/
theorem writeFileAtomic_crashAtomic (path : String) (calls : List FileWrite) (dir : Dir) :
    CrashAtomic path calls dir := by
  refine ⟨writeFiles_target path calls dir, fun bytes outcome => ?_, fun bytes => ?_⟩
  · rcases writeFileAtomic_target path bytes outcome (writeFiles path calls dir) with
      ⟨-, hnew⟩ | ⟨-, hold⟩
    · exact .inr hnew
    · exact .inl hold
  · by_cases htmp : writeFiles path calls dir (tmpfileName path) = none
    · rw [if_pos ((writeFiles_tmpfile path calls dir).mp htmp),
        writeFileAtomic_of_no_tmpfile htmp]
    · rw [if_neg (mt (writeFiles_tmpfile path calls dir).mpr htmp),
        writeFileAtomic_of_tmpfile htmp]

/-- A write that fails half-way makes the next call fail. -/
theorem writeFileAtomic_not_retryable :
    ¬ ∀ (path : String) (bytes : List UInt8) (outcome : WriteOutcome) (dir : Dir),
      dir (tmpfileName path) = none →
        (writeFileAtomic path bytes .completes (writeFileAtomic path bytes outcome dir).2).1 =
          .ok () := by
  intro h
  have hretry := h "queue/1" [1, 2] (.writeFails .other 1) (fun _ => none) rfl
  rw [writeFileAtomic_of_tmpfile (by
    rw [Ne, writeFileAtomic_tmpfile]
    exact fun hnone => hnone.2 trivial)] at hretry
  cases hretry

namespace DiskMgr

variable {I : Type} [Input I]

/-- A save of the store is such a write: when it fails after the temporary file
was created, the next save of the testcase fails, too. -/
theorem saveTestcase_retry {mgr : DiskMgr} {testcase : Testcase I} {bytes : List UInt8}
    (hbytes : Input.toAllocvec testcase.input = .ok bytes)
    (htmp : dir (tmpfileName (mgr.testcasePath testcase.id)) = none) (outcome : WriteOutcome) :
    mgr.Saves testcase .completes (mgr.saveTestcase testcase outcome dir).2 ↔
      ¬ outcome.LeavesTmpfile := by
  have hdir : (mgr.saveTestcase testcase outcome dir).2 =
      (writeFileAtomic (mgr.testcasePath testcase.id) bytes outcome dir).2 := by
    rw [saveTestcase, hbytes]
    simp only
    split <;> next h => simp [h]
  rw [Saves, hdir, writeFileAtomic_tmpfile]
  simp [hbytes, htmp, Except.isOk, Except.toBool]

end DiskMgr

end Libaflmm
