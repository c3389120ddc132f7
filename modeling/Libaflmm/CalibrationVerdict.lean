import Libaflmm.Calibration
import Mathlib.Data.List.GetD

/-!
# What a calibration compares

`execute` runs the hooks of the observers itself, and
`run_target_measuring_time` runs them around it once more, so the maps the
hook compares are classified twice. Where every counter of the target is in a
bucket that the second time does not move, the verdicts are those of single
executions.
-/

namespace Libaflmm

open Call

/-! ## One execution -/

structure TargetRun.Succeeds (run : TargetRun) (exitKind : ExitKind) : Prop where
  arm : run.armTimeout = .ok ()
  execute : run.executeImpl = .ok exitKind
  disarm : run.disarmTimeout = .ok ()
  duration : run.duration = .ok ()

namespace CalibrationState

/-- The counters a run leaves before the observers see them. -/
def rawMap (run : TargetRun) (initial : UInt8) (map : List UInt8) : List UInt8 :=
  run.writes (map.map fun _ => initial)

def setMap (map : List UInt8) (s : CalibrationState) : CalibrationState :=
  { s with executions := s.executions + 1, observer.map := map }

@[simp] theorem setMap_map (map : List UInt8) (s : CalibrationState) :
    (s.setMap map).observer.map = map := rfl

def raw (run : TargetRun) (s : CalibrationState) : List UInt8 :=
  rawMap run s.observer.initial s.observer.map

end CalibrationState

open CalibrationState

variable {run : TargetRun} {exitKind : ExitKind} {s : CalibrationState}

theorem execute_eq (h : run.Succeeds exitKind) :
    (Executor.execute run).run s =
      some (.ok exitKind, s.setMap ((s.raw run).map countClass)) := by
  simp [Executor.execute, run_bind, run_map, h.arm, h.execute, h.disarm, Except.map,
    CalibrationState.setMap, CalibrationState.raw, rawMap, postExecAll, runTarget, preExecAll,
    incrementExecs, HitcountsMapObserver.postExec, HitcountsMapObserver.preExec,
    HitcountsMapObserver.resetMap, classifyCounts_eq_map]

theorem runTargetMeasuringTime_eq (h : run.Succeeds exitKind) :
    (runTargetMeasuringTime run).run s = some (.ok exitKind,
      s.setMap ((s.raw run).map (countClass ∘ countClass))) := by
  simp [runTargetMeasuringTime, run_bind, run_map, execute_eq h, h.duration, Except.map,
    CalibrationState.setMap, CalibrationState.raw, rawMap, postExecAll, preExecAll,
    HitcountsMapObserver.postExec, HitcountsMapObserver.preExec, HitcountsMapObserver.resetMap,
    classifyCounts_eq_map]

/-- A measured run that returns an exit kind succeeds in every step. -/
theorem leaves_runTargetMeasuringTime {Q : Except Error ExitKind → CalibrationState → Prop}
    (hok : ∀ exitKind, run.Succeeds exitKind → Q (.ok exitKind)
      (s.setMap ((s.raw run).map (countClass ∘ countClass))))
    (herr : ∀ err t, Q (.error err) t) : (runTargetMeasuringTime run).Leaves s Q := by
  by_cases h : ∃ exitKind, run.Succeeds exitKind
  · obtain ⟨exitKind, h⟩ := h
    intro r t hrun
    rw [runTargetMeasuringTime_eq h] at hrun
    obtain ⟨rfl, rfl⟩ := Prod.mk.inj (Option.some.inj hrun)
    exact hok exitKind h
  · rw [runTargetMeasuringTime, Executor.execute]
    simp only [leaves_bind, leaves_update, leaves_ofResult, leaves_pure]
    cases harm : run.armTimeout with
    | error err => exact herr _ _
    | ok =>
      cases hexec : run.executeImpl with
      | error err => exact herr _ _
      | ok exitKind =>
        cases hdisarm : run.disarmTimeout with
        | error err => exact herr _ _
        | ok =>
          cases hduration : run.duration with
          | error err => exact herr _ _
          | ok => exact (h ⟨exitKind, harm, hexec, hdisarm, hduration⟩).elim

/-! ## One comparison -/

/-- The two maps have an entry at `i` each, and these differ. -/
def DiffersAt (first cur : List UInt8) (i : Nat) : Prop :=
  ∃ a b, first[i]? = some a ∧ cur[i]? = some b ∧ a ≠ b

theorem DiffersAt.lt {first cur : List UInt8} {i : Nat} (h : DiffersAt first cur i) :
    i < first.length := by
  obtain ⟨a, b, hfirst, -, -⟩ := h
  exact (List.getElem?_eq_some_iff.mp hfirst).1

namespace CalibrationHook

/-- The entry differs, and is not saturated in the history. -/
def Marks (first cur histories : List UInt8) (i : Nat) : Prop :=
  DiffersAt first cur i ∧ ∃ h, histories[i]? = some h ∧ h ≠ 255

section

variable {idx : Nat} {a b h : UInt8} {first cur histories : List UInt8} {i : Nat}

@[simp] theorem marks_zero :
    Marks (a :: first) (b :: cur) (h :: histories) 0 ↔ a ≠ b ∧ h ≠ 255 := by
  simp [Marks, DiffersAt]

@[simp] theorem marks_succ :
    Marks (a :: first) (b :: cur) (h :: histories) (i + 1) ↔ Marks first cur histories i := by
  simp [Marks, DiffersAt]

theorem not_marks (hcons : ∀ a first' b cur' h histories', first = a :: first' →
    cur = b :: cur' → histories = h :: histories' → False) : ¬ Marks first cur histories i := by
  rintro ⟨⟨a, b, hfirst, hcur, -⟩, h, hhist, -⟩
  match first, cur, histories with
  | [], _, _ => simp at hfirst
  | _ :: _, [], _ => simp at hcur
  | _ :: _, _ :: _, [] => simp at hhist
  | _ :: _, _ :: _, _ :: _ => exact hcons _ _ _ _ _ _ rfl rfl rfl

theorem compareEntries_cons :
    compareEntries idx (a :: first) (b :: cur) (h :: histories) =
      if a ≠ b ∧ h ≠ 255 then
        (255 :: (compareEntries (idx + 1) first cur histories).1,
          (compareEntries (idx + 1) first cur histories).2.1 + (if h = 0 then 1 else 0),
          idx :: (compareEntries (idx + 1) first cur histories).2.2)
      else
        (h :: (compareEntries (idx + 1) first cur histories).1,
          (compareEntries (idx + 1) first cur histories).2) := rfl

theorem mem_compareEntries (k : Nat) :
    k ∈ (compareEntries idx first cur histories).2.2 ↔
      ∃ i, k = idx + i ∧ Marks first cur histories i := by
  induction idx, first, cur, histories using compareEntries.induct generalizing k with
  | case1 idx a first b cur h histories _ _ _ _ hmark ih =>
      rw [compareEntries_cons, if_pos hmark]
      constructor
      · intro hk
        rcases List.mem_cons.mp hk with rfl | hk
        · exact ⟨0, rfl, marks_zero.mpr hmark⟩
        · obtain ⟨i, rfl, hi⟩ := (ih k).mp hk
          exact ⟨i + 1, by omega, marks_succ.mpr hi⟩
      · rintro ⟨_ | i, rfl, hi⟩
        · exact List.mem_cons_self
        · exact List.mem_cons_of_mem _ ((ih _).mpr ⟨i, by omega, marks_succ.mp hi⟩)
  | case2 idx a first b cur h histories _ _ _ _ hmark ih =>
      rw [compareEntries_cons, if_neg hmark]
      constructor
      · intro hk
        obtain ⟨i, rfl, hi⟩ := (ih k).mp hk
        exact ⟨i + 1, by omega, marks_succ.mpr hi⟩
      · rintro ⟨_ | i, rfl, hi⟩
        · exact (hmark (marks_zero.mp hi)).elim
        · exact (ih _).mpr ⟨i, by omega, marks_succ.mp hi⟩
  | case3 first idx cur histories hcons =>
      rw [compareEntries]
      · exact iff_of_false List.not_mem_nil fun ⟨i, _, hi⟩ => not_marks hcons hi
      · exact hcons

/-- What is marked is saturated in the history, which keeps its other entries. -/
theorem compareEntries_history (i : Nat) :
    (compareEntries idx first cur histories).1.getD i 0 ≠ 255 ↔
      histories.getD i 0 ≠ 255 ∧ ¬ Marks first cur histories i := by
  induction idx, first, cur, histories using compareEntries.induct generalizing i with
  | case1 idx a first b cur h histories _ _ _ _ hmark ih =>
      rw [compareEntries_cons, if_pos hmark]
      cases i with
      | zero => simpa using fun _ => hmark
      | succ i => simpa using ih i
  | case2 idx a first b cur h histories _ _ _ _ hmark ih =>
      rw [compareEntries_cons, if_neg hmark]
      cases i with
      | zero => simpa using fun _ => hmark
      | succ i => simpa using ih i
  | case3 first idx cur histories hcons =>
      rw [compareEntries]
      · exact (and_iff_left (not_marks hcons)).symm
      · exact hcons

end

end CalibrationHook

/-! ## The maps of several runs -/

/-- The runs one after the other, each with the map it leaves. -/
def mapsOf (exec : TargetRun → Call Error CalibrationState ExitKind) :
    List TargetRun → CalibrationState → List (TargetRun × List UInt8)
  | [], _ => []
  | run :: runs, s =>
    match (exec run).run s with
    | some (_, t) => (run, t.observer.map) :: mapsOf exec runs t
    | none => []

def rawMaps (initial : UInt8) : List TargetRun → List UInt8 → List (TargetRun × List UInt8)
  | [], _ => []
  | run :: runs, map =>
    (run, rawMap run initial map) :: rawMaps initial runs (rawMap run initial map)

/-- Some run that did not time out leaves another entry at `i` than `first`. -/
def UnstableAgainst (first : List UInt8) (i : Nat) (maps : List (TargetRun × List UInt8)) : Prop :=
  ∃ p ∈ maps, p.1.executeImpl ≠ .ok .timeout ∧ DiffersAt first p.2 i

def UnstableAt (i : Nat) : List (TargetRun × List UInt8) → Prop
  | [] => False
  | first :: rest => UnstableAgainst first.2 i rest

theorem unstableAgainst_cons {first map : List UInt8} {i : Nat}
    {maps : List (TargetRun × List UInt8)} :
    UnstableAgainst first i ((run, map) :: maps) ↔
      run.executeImpl ≠ .ok .timeout ∧ DiffersAt first map i ∨ UnstableAgainst first i maps := by
  simp [UnstableAgainst]

/-- What the runs leave when every counter is mapped by `f`. -/
def CalibrationState.classified (f : UInt8 → UInt8) (runs : List TargetRun)
    (s : CalibrationState) : List (TargetRun × List UInt8) :=
  (rawMaps s.observer.initial runs s.observer.map).map fun p => (p.1, p.2.map f)

/-- Every run begins with a reset map, so what it leaves depends on the length of
the map before it only. -/
theorem rawMaps_map (f : UInt8 → UInt8) (initial : UInt8) (runs : List TargetRun)
    (map : List UInt8) : rawMaps initial runs (map.map f) = rawMaps initial runs map := by
  have hraw : ∀ run, rawMap run initial (map.map f) = rawMap run initial map := by
    intro run
    rw [rawMap, List.map_map]
    rfl
  cases runs with
  | nil => rfl
  | cons run runs => rw [rawMaps, rawMaps, hraw]

theorem classified_cons {f : UInt8 → UInt8} {runs : List TargetRun} :
    s.classified f (run :: runs) = (run, (s.raw run).map f) ::
      (s.setMap ((s.raw run).map f)).classified f runs :=
  congrArg₂ List.cons rfl (congrArg _ (rawMaps_map f _ runs _).symm)

theorem classified_congr {t : CalibrationState} {f : UInt8 → UInt8} {runs : List TargetRun}
    (h : t.observer = s.observer) : t.classified f runs = s.classified f runs := by
  rw [CalibrationState.classified, CalibrationState.classified, h]

theorem classified_eq_iff {f g : UInt8 → UInt8} {runs : List TargetRun} :
    s.classified f runs = s.classified g runs ↔
      ∀ p ∈ rawMaps s.observer.initial runs s.observer.map, ∀ item ∈ p.2, f item = g item := by
  rw [CalibrationState.classified, CalibrationState.classified, List.map_inj_left]
  exact forall₂_congr fun p _ => by rw [Prod.mk_inj, and_iff_right rfl, List.map_inj_left]

theorem mapsOf_eq {exec : TargetRun → Call Error CalibrationState ExitKind} {f : UInt8 → UInt8}
    (hexec : ∀ {run exitKind s}, run.Succeeds exitKind →
      (exec run).run s = some (.ok exitKind, s.setMap ((s.raw run).map f)))
    {runs : List TargetRun} (hruns : ∀ run ∈ runs, ∃ exitKind, run.Succeeds exitKind)
    (s : CalibrationState) : mapsOf exec runs s = s.classified f runs := by
  induction runs generalizing s with
  | nil => rfl
  | cons run runs ih =>
      obtain ⟨exitKind, hrun⟩ := hruns run List.mem_cons_self
      rw [mapsOf, hexec hrun, classified_cons]
      exact congrArg _ (ih (fun r hr => hruns r (List.mem_cons_of_mem _ hr)) _)

/-! ## The marks of a calibration -/

def CalibrationState.history (s : CalibrationState) (i : Nat) : UInt8 :=
  match s.mapFeedback with
  | some md => md.historyMap.getD i 0
  | none => 0

@[simp] theorem CalibrationState.setMap_history (map : List UInt8) (s : CalibrationState)
    (i : Nat) : (s.setMap map).history i = s.history i := rfl

namespace CalibrationHook

theorem resizeHistory_getD (len : Nat) (historyMap : List UInt8) (i : Nat) :
    (resizeHistory len historyMap).getD i 0 = historyMap.getD i 0 := by
  rw [resizeHistory]
  split
  case isFalse => rfl
  case isTrue h =>
    rcases Nat.lt_or_ge i historyMap.length with hi | hi
    · exact List.getD_append _ _ _ _ hi
    · rw [List.getD_append_right _ _ _ _ hi, List.getD_eq_getElem?_getD,
        List.getElem?_getD_replicate_default_eq, List.getD_eq_default _ _ hi]

theorem le_length_resizeHistory (len : Nat) (historyMap : List UInt8) :
    len ≤ (resizeHistory len historyMap).length := by
  rw [resizeHistory]
  split
  case isFalse h => omega
  case isTrue h =>
    rw [List.length_append, List.length_replicate]
    omega

theorem marks_resizeHistory {first cur historyMap : List UInt8} {i : Nat} :
    Marks first cur (resizeHistory first.length historyMap) i ↔
      DiffersAt first cur i ∧ historyMap.getD i 0 ≠ 255 := by
  refine and_congr_right fun hdiffers => ?_
  have hlt : i < (resizeHistory first.length historyMap).length :=
    hdiffers.lt.trans_le (le_length_resizeHistory _ _)
  rw [← resizeHistory_getD first.length, List.getD_eq_getElem _ _ hlt,
    List.getElem?_eq_getElem hlt]
  simp

/-- What one comparison marks, and what stays open for the next. -/
theorem leaves_compareRun {first : List UInt8} :
    (compareRun first).Leaves s fun r t => ∃ marked, r = .ok marked ∧
      t.observer = s.observer ∧ t.unstable = s.unstable ∧
      (∀ i, i ∈ marked ↔ DiffersAt first s.observer.map i ∧ s.history i ≠ 255) ∧
      ∀ i, t.history i ≠ 255 ↔ s.history i ≠ 255 ∧ ¬ DiffersAt first s.observer.map i := by
  intro r t h
  obtain ⟨md, hmd, heq⟩ := Option.map_eq_some_iff.mp h
  obtain ⟨rfl, rfl⟩ := Prod.mk.inj heq
  have hhistory : ∀ i, s.history i = md.historyMap.getD i 0 := by
    intro i
    rw [CalibrationState.history, hmd]
  refine ⟨_, rfl, rfl, rfl, fun i => ?_, fun i => ?_⟩
  · rw [mem_compareEntries, hhistory, ← marks_resizeHistory]
    constructor
    · rintro ⟨j, rfl, hj⟩
      rwa [Nat.zero_add]
    · exact fun hi => ⟨i, (Nat.zero_add i).symm, hi⟩
  · refine (compareEntries_history i).trans ?_
    rw [resizeHistory_getD, marks_resizeHistory, ← hhistory]
    tauto

/-- The marks of the loop over the repeated runs, after the marks `acc`. -/
theorem leaves_repeatRuns {first : List UInt8} {runs : List TargetRun} {acc : List Nat} :
    (repeatRuns first runs acc).Leaves s fun r t => ∀ marked, r = .ok marked →
      (∀ run ∈ runs, ∃ exitKind, run.Succeeds exitKind) ∧ t.unstable = s.unstable ∧
      ∀ i, i ∈ marked ↔ i ∈ acc ∨ s.history i ≠ 255 ∧ UnstableAgainst first i
        (s.classified (countClass ∘ countClass) runs) := by
  induction runs generalizing s acc with
  | nil =>
      rw [repeatRuns, leaves_pure]
      rintro _ ⟨⟩
      exact ⟨List.forall_mem_nil _, rfl, fun i => by
        simp [CalibrationState.classified, rawMaps, UnstableAgainst]⟩
  | cons run runs ih =>
      rw [repeatRuns, leaves_bind]
      refine leaves_runTargetMeasuringTime (fun exitKind hrun => ?_) (fun _ _ _ h => nomatch h)
      have hkind : run.executeImpl ≠ .ok .timeout ↔ exitKind ≠ .timeout := by
        rw [Ne, hrun.execute, Except.ok.injEq]
      show Leaves (ite _ _ _) _ _
      split
      case isTrue hcompared =>
        rw [leaves_bind]
        refine leaves_compareRun.mono ?_
        rintro _ t ⟨unstable, rfl, hobserver, hkept, hdiffers, hhistory⟩
        refine ih.mono fun r u h marked hr => ?_
        obtain ⟨hruns, hunstable, hmarked⟩ := h marked hr
        refine ⟨List.forall_mem_cons.mpr ⟨⟨exitKind, hrun⟩, hruns⟩, hunstable.trans hkept,
          fun i => ?_⟩
        rw [hmarked, classified_cons, unstableAgainst_cons, List.mem_append, hdiffers, hhistory,
          classified_congr hobserver, setMap_map, setMap_history, hkind]
        tauto
      case isFalse htimeout =>
        refine ih.mono fun r t h marked hr => ?_
        obtain ⟨hruns, hunstable, hmarked⟩ := h marked hr
        refine ⟨List.forall_mem_cons.mpr ⟨⟨exitKind, hrun⟩, hruns⟩, hunstable, fun i => ?_⟩
        rw [hmarked, classified_cons, unstableAgainst_cons, setMap_history, hkind]
        tauto

/-- The executions of one calibration. -/
def runsOf (runs : Nat → TargetRun) : List TargetRun := (List.range calStageMax).map runs

theorem mem_recordUnstable {marked : List Nat} {filled i : Nat} :
    i ∈ (recordUnstable marked filled s).unstable.unstableEntries ↔
      i ∈ s.unstable.unstableEntries ∨ i ∈ marked := by
  rw [recordUnstable]
  split
  case isTrue hempty => simp [List.isEmpty_iff.mp hempty]
  case isFalse => simp

/-- What a calibration records. -/
theorem leaves_postAdd {id : TestcaseId} {lookup : Result Unit} {runs : Nat → TargetRun} :
    (postAdd (.corpus id) lookup runs).Leaves s fun r t => r = .ok () →
      (∀ run ∈ runsOf runs, ∃ exitKind, run.Succeeds exitKind) ∧
      ∀ i, i ∈ t.unstable.unstableEntries ↔ i ∈ s.unstable.unstableEntries ∨ s.history i ≠ 255 ∧
        UnstableAt i (s.classified (countClass ∘ countClass) (runsOf runs)) := by
  have hruns : runsOf runs = runs 0 :: (List.range' 1 (calStageMax - 1)).map runs := rfl
  rw [postAdd, leaves_bind, leaves_ofResult]
  cases lookup with
  | error err => exact fun h => nomatch h
  | ok =>
    refine leaves_bind.mpr
      (leaves_runTargetMeasuringTime (fun exitKind hfirst => ?_) (fun _ _ h => nomatch h))
    simp only [leaves_bind, leaves_read]
    refine leaves_repeatRuns.mono fun r t h => ?_
    cases r with
    | error err => exact fun h => nomatch h
    | ok marked =>
      refine leaves_update.mpr fun _ => ?_
      obtain ⟨hrest, hunstable, hmarked⟩ := h marked rfl
      rw [hruns]
      refine ⟨List.forall_mem_cons.mpr ⟨⟨exitKind, hfirst⟩, hrest⟩, fun i => ?_⟩
      rw [mem_recordUnstable, hunstable, hmarked, classified_cons, or_iff_right List.not_mem_nil]
      rfl

/-- The hook compares the maps that single executions leave, and marks what
differs between them. -/
def ComparesExecutions (runs : List TargetRun) (s t : CalibrationState) : Prop :=
  mapsOf runTargetMeasuringTime runs s = mapsOf Executor.execute runs s ∧
  ∀ i, i ∈ t.unstable.unstableEntries ↔
    i ∈ s.unstable.unstableEntries ∨ UnstableAt i (mapsOf Executor.execute runs s)

/-- **A calibration compares single executions exactly when classifying twice moves
no counter, and what differs is not saturated in the history already.** -/
theorem comparesExecutions_iff {id : TestcaseId} {lookup : Result Unit} {runs : Nat → TargetRun}
    {t : CalibrationState} (h : (postAdd (.corpus id) lookup runs).run s = some (.ok (), t)) :
    ComparesExecutions (runsOf runs) s t ↔
      (∀ p ∈ rawMaps s.observer.initial (runsOf runs) s.observer.map,
        ∀ item ∈ p.2, item ≤ 2 ∨ 32 ≤ item) ∧
      ∀ i, UnstableAt i (s.classified countClass (runsOf runs)) →
        s.history i ≠ 255 ∨ i ∈ s.unstable.unstableEntries := by
  obtain ⟨hruns, hmarked⟩ := leaves_postAdd _ _ h rfl
  rw [ComparesExecutions, mapsOf_eq runTargetMeasuringTime_eq hruns, mapsOf_eq execute_eq hruns,
    classified_eq_iff]
  simp only [Function.comp_apply, countClass_countClass_iff]
  refine and_congr_right fun hstable => forall_congr' fun i => ?_
  have hsame : s.classified (countClass ∘ countClass) (runsOf runs) =
      s.classified countClass (runsOf runs) :=
    classified_eq_iff.mpr fun p hp item hitem =>
      (countClass_countClass_iff item).mpr (hstable p hp item hitem)
  rw [hmarked, hsame]
  tauto

/-! ## Calibrations that return -/

theorem repeatRuns_returns {first : List UInt8} {runs : List TargetRun} {acc : List Nat}
    (hruns : ∀ run ∈ runs, ∃ exitKind, run.Succeeds exitKind) (hmap : s.mapFeedback.isSome) :
    ∃ marked t, (repeatRuns first runs acc).run s = some (.ok marked, t) := by
  induction runs generalizing s acc with
  | nil => exact ⟨acc, s, rfl⟩
  | cons run runs ih =>
      obtain ⟨exitKind, hrun⟩ := hruns run List.mem_cons_self
      have hrest := fun r hr => hruns r (List.mem_cons_of_mem run hr)
      rw [repeatRuns, run_bind_of_ok (runTargetMeasuringTime_eq hrun)]
      split
      case isTrue =>
        obtain ⟨md, hmd⟩ := Option.isSome_iff_exists.mp hmap
        have hcompare : (compareRun first).run (s.setMap ((s.raw run).map
            (countClass ∘ countClass))) = some _ := congrArg (Option.map _) hmd
        rw [run_bind_of_ok hcompare]
        exact ih hrest rfl
      case isFalse => exact ih hrest hmap

/-- A calibration of runs that succeed returns, where the metadata it unwraps is there. -/
theorem postAdd_returns {id : TestcaseId} {runs : Nat → TargetRun}
    (hruns : ∀ run ∈ runsOf runs, ∃ exitKind, run.Succeeds exitKind)
    (hmap : s.mapFeedback.isSome) :
    ∃ t, (postAdd (.corpus id) (.ok ()) runs).run s = some (.ok (), t) := by
  obtain ⟨⟨exitKind, hfirst⟩, hrest⟩ := List.forall_mem_cons.mp hruns
  obtain ⟨u, hu, hmap⟩ : ∃ u, (runTargetMeasuringTime (runs 0)).run s = some (.ok exitKind, u) ∧
      u.mapFeedback.isSome := ⟨_, runTargetMeasuringTime_eq hfirst, hmap⟩
  obtain ⟨marked, t, hrepeat⟩ : ∃ marked t, (repeatRuns u.observer.map
      ((List.range' 1 (calStageMax - 1)).map runs) []).run u = some (.ok marked, t) :=
    repeatRuns_returns hrest hmap
  refine ⟨recordUnstable marked (filledCount u) t, ?_⟩
  rw [postAdd, run_bind_of_ok (run_ofResult _ _), run_bind_of_ok hu,
    run_bind_of_ok (run_read _ _), run_bind_of_ok (run_read _ _), run_bind_of_ok hrepeat,
    run_update]

/-! ## Two calibrations -/

/-- A run with one counter, at `n`. -/
def hits (n : UInt8) : TargetRun where
  writes _ := [n]
  armTimeout := .ok ()
  executeImpl := .ok .ok
  disarmTimeout := .ok ()
  duration := .ok ()

theorem hits_succeeds (n : UInt8) : (hits n).Succeeds .ok := ⟨rfl, rfl, rfl, rfl⟩

def uncalibrated : CalibrationState where
  observer := ⟨[0], 0, fun _ => ⟨1, 0, .little⟩⟩
  executions := 0
  mapFeedback := some ⟨[0], 0⟩
  unstable := ⟨∅, 0⟩

/-- The first run hits its counter `n` times, the others `m` times. -/
def hitsThen (n m : UInt8) : Nat → TargetRun
  | 0 => hits n
  | _ + 1 => hits m

theorem hitsThen_succeeds (n m : UInt8) :
    ∀ run ∈ runsOf (hitsThen n m), ∃ exitKind, run.Succeeds exitKind := by
  intro run hrun
  obtain ⟨i, -, rfl⟩ := List.mem_map.mp hrun
  cases i with
  | zero => exact ⟨.ok, hits_succeeds n⟩
  | succ i => exact ⟨.ok, hits_succeeds m⟩

theorem hitsThen_returns (n m : UInt8) :
    ∃ t, (postAdd (.corpus ⟨0⟩) (.ok ()) (hitsThen n m)).run uncalibrated = some (.ok (), t) :=
  postAdd_returns (hitsThen_succeeds n m) rfl

theorem uncalibrated_history (i : Nat) : uncalibrated.history i ≠ 255 := by
  cases i with
  | zero => decide
  | succ i => simp [uncalibrated, CalibrationState.history]

instance (first cur : List UInt8) (i : Nat) : Decidable (DiffersAt first cur i) :=
  decidable_of_iff (first[i]?.isSome ∧ cur[i]?.isSome ∧ first[i]? ≠ cur[i]?) <| by
    unfold DiffersAt
    cases first[i]? <;> cases cur[i]? <;> simp

/-- The counters of one and of two hits are told apart. -/
theorem comparesExecutions_one_two : ∃ t,
    (postAdd (.corpus ⟨0⟩) (.ok ()) (hitsThen 1 2)).run uncalibrated = some (.ok (), t) ∧
    ComparesExecutions (runsOf (hitsThen 1 2)) uncalibrated t := by
  obtain ⟨t, ht⟩ := hitsThen_returns 1 2
  exact ⟨t, ht, (comparesExecutions_iff ht).mpr
    ⟨by decide +kernel, fun i _ => .inl (uncalibrated_history i)⟩⟩

/-- Between 20 and 40 hits, the observer of each run leaves another bucket than
one execution does, and the two are not told apart. -/
theorem not_comparesExecutions_twenty_forty : ∃ t,
    (postAdd (.corpus ⟨0⟩) (.ok ()) (hitsThen 20 40)).run uncalibrated = some (.ok (), t) ∧
    UnstableAt 0 (mapsOf Executor.execute (runsOf (hitsThen 20 40)) uncalibrated) ∧
    0 ∉ t.unstable.unstableEntries ∧
    ¬ ComparesExecutions (runsOf (hitsThen 20 40)) uncalibrated t := by
  obtain ⟨t, ht⟩ := hitsThen_returns 20 40
  have hunstable :
      UnstableAt 0 (mapsOf Executor.execute (runsOf (hitsThen 20 40)) uncalibrated) := by
    rw [mapsOf_eq execute_eq (hitsThen_succeeds 20 40)]
    exact ⟨_, List.mem_of_mem_head? rfl, by decide, by decide +kernel⟩
  have hunmarked : 0 ∉ t.unstable.unstableEntries := by
    rw [(leaves_postAdd _ _ ht rfl).2]
    rintro (h | ⟨-, p, hp, -, hdiffers⟩)
    · exact (Finset.notMem_empty 0 h).elim
    · revert p
      decide +kernel
  refine ⟨t, ht, hunstable, hunmarked, fun h => hunmarked ((h.2 0).mpr (.inr hunstable))⟩

end CalibrationHook

end Libaflmm
