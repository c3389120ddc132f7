import Libaflmm.Loader
import Mathlib.Data.List.GetD

/-!
# What a loading stage returns after crashes
-/

namespace Libaflmm

open Call Loader

theorem mapM_eq_ok {ε α β : Type} {f : α → Except ε β} {g : α → β} {l : List α}
    (h : ∀ x ∈ l, f x = .ok (g x)) : l.mapM f = .ok (l.map g) := by
  induction l with
  | nil => rfl
  | cons x l ih =>
      rw [List.mapM_cons, h x List.mem_cons_self, ih fun y hy => h y (List.mem_cons_of_mem x hy)]
      rfl

namespace LoaderMetadata

variable {md : LoaderMetadata} {cur : Nat} {b : List UInt8} {bs : List (List UInt8)}
  {ran : List RanInput} {result : EvaluationResult}

theorem getElem?_insert {loads : Std.TreeMap Nat Loading} {loading : Loading} {j : Nat} :
    (loads.insert cur loading)[j]? = if cur = j then some loading else loads[j]? := by
  simp only [Std.TreeMap.getElem?_insert, compare_eq_iff_eq]

theorem nextInput_nil (hidle : md.runningInput = none) (h : md.loads[cur]? = some ⟨[], ran⟩) :
    md.nextInput cur = (.ok none, md) := by
  rw [nextInput, h, ← hidle]

/-- Taking the next input and recording its result moves it from one list to the other. -/
theorem nextInput_recordResult (h : md.loads[cur]? = some ⟨b :: bs, ran⟩)
    (result : EvaluationResult) :
    ∃ md₁ md₂, md.nextInput cur = (.ok (some b), md₁) ∧ md₁.recordResult result = (.ok (), md₂) ∧
      md₂.runningInput = none ∧ ∀ j, md₂.loads[j]? =
        if cur = j then some ⟨bs, ran ++ [⟨b, result⟩]⟩ else md.loads[j]? := by
  have hinsert : (md.loads.insert cur ⟨bs, ran⟩)[cur]? = some ⟨bs, ran⟩ := by
    rw [getElem?_insert, if_pos rfl]
  refine ⟨⟨md.loads.insert cur ⟨bs, ran⟩, some (cur, b)⟩,
    ⟨(md.loads.insert cur ⟨bs, ran⟩).insert cur ⟨bs, ran ++ [⟨b, result⟩]⟩, none⟩, ?_, ?_, rfl,
    fun j => ?_⟩
  · rw [nextInput, h]
  · rw [recordResult]
    simp only [hinsert]
  · simp only [getElem?_insert]
    split <;> rfl

theorem takeRanInputs_known (h : md.loads[cur]? = some ⟨bs, ran⟩) :
    md.takeRanInputs cur = (.ok ran, { md with loads := md.loads.insert cur ⟨bs, []⟩ }) := by
  rw [takeRanInputs, h]

end LoaderMetadata

section

variable {I T : Type} {s : LoaderState I T} {j k : Nat} {r : LoadResult I}

namespace LoaderState

def record (s : LoaderState I T) (loadId : Nat) (r : LoadResult I) (md : LoaderMetadata)
    (fuzzer : T) : LoaderState I T :=
  { s with fuzzer, md, evaluated := s.evaluated ++ [(loadId, r)] }

theorem evaluationsOf_record {md : LoaderMetadata} {fuzzer : T} :
    (s.record j r md fuzzer).evaluationsOf k =
      if j = k then s.evaluationsOf k ++ [r] else s.evaluationsOf k := by
  simp only [evaluationsOf, record, List.filter_append, List.map_append]
  split
  · next heq => simp [heq]
  · next hne => simp [hne]

end LoaderState

namespace Loader

def ranInput (encode : I → List UInt8) (r : LoadResult I) : RanInput := ⟨encode r.input, r.result⟩

/-- A saved state in the middle of the loads `L`: the loads before `cur` are
over and their results taken, of load `cur` the inputs `q` are left. -/
structure Resumable (L : List (List I)) (encode : I → List UInt8) (s : LoaderState I T)
    (cur : Nat) (q : List I) : Prop where
  idle : s.md.runningInput = none
  done : ∀ j < cur, s.md.loads[j]? = some ⟨[], []⟩
  current : s.md.loads[cur]? = some ⟨q.map encode, (s.evaluationsOf cur).map (ranInput encode)⟩ ∨
    (s.md.loads[cur]? = none ∧ s.evaluationsOf cur = [])
  later : ∀ j, cur < j → s.md.loads[j]? = none ∧ s.evaluationsOf j = []
  evaluated : ∀ j < cur, (s.evaluationsOf j).map (·.input) = L.getD j []
  split : (s.evaluationsOf cur).map (·.input) ++ q = L.getD cur []

/-- The same inside the load, which is in the map. -/
structure InLoad (L : List (List I)) (encode : I → List UInt8) (s : LoaderState I T)
    (cur : Nat) (q : List I) : Prop extends Resumable L encode s cur q where
  loading : s.md.loads[cur]? = some ⟨q.map encode, (s.evaluationsOf cur).map (ranInput encode)⟩

variable {L : List (List I)} {encode : I → List UInt8} {cur : Nat} {x : I} {q : List I}

/-- Recording the result of the next input. -/
theorem InLoad.record (h : InLoad L encode s cur (x :: q)) {result : EvaluationResult}
    {md : LoaderMetadata} {fuzzer : T} (hidle : md.runningInput = none)
    (hloads : ∀ j, md.loads[j]? = if cur = j then
      some ⟨q.map encode, (s.evaluationsOf cur).map (ranInput encode) ++ [⟨encode x, result⟩]⟩
      else s.md.loads[j]?) :
    InLoad L encode (s.record cur ⟨x, result⟩ md fuzzer) cur q := by
  have hloading : (s.record cur ⟨x, result⟩ md fuzzer).md.loads[cur]? = some ⟨q.map encode,
      ((s.record cur ⟨x, result⟩ md fuzzer).evaluationsOf cur).map (ranInput encode)⟩ := by
    rw [LoaderState.evaluationsOf_record, if_pos rfl, List.map_append]
    exact (hloads cur).trans (if_pos rfl)
  refine ⟨⟨hidle, fun j hj => ?_, Or.inl hloading, fun j hj => ⟨?_, ?_⟩, fun j hj => ?_, ?_⟩,
    hloading⟩
  · exact (hloads j).trans ((if_neg (by omega)).trans (h.done j hj))
  · exact (hloads j).trans ((if_neg (by omega)).trans (h.later j hj).1)
  · rw [LoaderState.evaluationsOf_record, if_neg (by omega)]
    exact (h.later j hj).2
  · rw [LoaderState.evaluationsOf_record, if_neg (by omega)]
    exact h.evaluated j hj
  · rw [LoaderState.evaluationsOf_record, if_pos rfl, List.map_append, List.append_assoc]
    exact h.split

/-! ## The loop -/

theorem run_onMd {α : Type} {f : LoaderMetadata → Result α × LoaderMetadata} {a : α}
    {md : LoaderMetadata} (h : f s.md = (.ok a, md)) :
    (onMd f).run s = some (.ok a, { s with md }) := by
  show some (_, _) = _
  rw [h]
  rfl

theorem run_ofResult {α : Type} {r : Result α} {a : α} (h : r = .ok a) :
    (Loader.ofResult r).run s = some (.ok a, s) := by
  rw [h]
  rfl

variable [Input I] {target : Target I T} {result : EvaluationResult} {fuzzer : T}

omit [Input I] in
theorem run_evaluate
    (heval : (target.evaluate cur (s.evaluationsOf cur).length x).run s.fuzzer =
      some (.ok result, fuzzer)) :
    (evaluate target cur x).run s = some (.ok result, s.record cur ⟨x, result⟩ s.md fuzzer) := by
  rw [evaluate, run_bind_of_ok (run_read _ _), run_bind_of_ok]
  rotate_left
  · rw [run_on, heval]
    rfl
  · rfl

/-- **One iteration**: the next input is evaluated and its result recorded,
whether the process goes on or not. -/
theorem runInputs_cons (h : InLoad L encode s cur (x :: q)) (hbytes : fromBytes (encode x) = .ok x)
    (heval : (target.evaluate cur (s.evaluationsOf cur).length x).run s.fuzzer =
      some (.ok result, fuzzer)) :
    ∃ md, InLoad L encode (s.record cur ⟨x, result⟩ md fuzzer) cur q ∧
      ∀ fuel, (runInputs target cur (fuel + 1)).run s =
        if target.terminates cur (s.evaluationsOf cur).length then
          some (.error .terminated, s.record cur ⟨x, result⟩ md fuzzer)
        else (runInputs target cur fuel).run (s.record cur ⟨x, result⟩ md fuzzer) := by
  obtain ⟨md₁, md₂, hnext, hrecord, hidle, hloads⟩ :=
    LoaderMetadata.nextInput_recordResult h.loading result
  refine ⟨md₂, h.record hidle hloads, fun fuel => ?_⟩
  rw [runInputs, run_bind_of_ok (run_onMd hnext)]
  simp only
  rw [run_bind_of_ok (run_ofResult hbytes), run_bind_of_ok (run_read _ _),
    run_bind_of_ok (run_evaluate (s := { s with md := md₁ }) heval)]
  refine (run_bind_of_ok (run_onMd hrecord)).trans ?_
  split
  · next hterm => exact (if_pos hterm).symm
  · next hterm => exact (if_neg hterm).symm

/-- Evaluations give a result, as long as the rest of the state is good. -/
def Evaluates (target : Target I T) (Good : T → Prop) : Prop :=
  ∀ j m x t, Good t → ∃ r t', (target.evaluate j m x).run t = some (.ok r, t') ∧ Good t'

def Serialises (L : List (List I)) (encode : I → List UInt8) : Prop :=
  ∀ inputs ∈ L, ∀ x ∈ inputs, toAllocvec x = .ok (encode x)

omit [Input I] in
theorem Resumable.length_eq (h : Resumable L encode s cur q) :
    (s.evaluationsOf cur).length + q.length = (L.getD cur []).length := by
  simpa using congrArg List.length h.split

theorem Serialises.fromBytes (henc : Serialises L encode) (hmem : x ∈ L.getD cur []) :
    fromBytes (encode x) = .ok x := by
  have hlt : cur < L.length := by
    by_contra hge
    rw [List.getD_eq_default _ _ (by omega)] at hmem
    exact absurd hmem List.not_mem_nil
  rw [List.getD_eq_getElem _ _ hlt] at hmem
  have hbytes := henc _ (List.getElem_mem hlt) x hmem
  rw [toAllocvec] at hbytes
  cases hser : Input.toAllocvec x with
  | error err =>
      rw [hser] at hbytes
      cases hbytes
  | ok bytes =>
      rw [hser] at hbytes
      obtain rfl := Except.ok.inj hbytes
      rw [Loader.fromBytes, Input.fromBytes_toAllocvec _ _ hser]
      rfl

variable {Good : T → Prop}

/-- **The loop of one process**: it finishes the load if none of the executions
left terminates, and otherwise stops having recorded at least one more result. -/
theorem runInputs_outcome (hgood : Evaluates target Good) (henc : Serialises L encode)
    {fuel : Nat} (hfuel : q.length < fuel) (h : InLoad L encode s cur q) (hs : Good s.fuzzer) :
    ∃ r s' q', (runInputs target cur fuel).run s = some (r, s') ∧ InLoad L encode s' cur q' ∧
      Good s'.fuzzer ∧ s'.loadingStage = s.loadingStage ∧
      (∀ j < cur, s'.evaluationsOf j = s.evaluationsOf j) ∧
      ((r = .ok () ∧ q' = [] ∧ ∀ m, (s.evaluationsOf cur).length ≤ m →
          m < (L.getD cur []).length → target.terminates cur m = false) ∨
        (r = .error .terminated ∧ q'.length < q.length ∧
          ∃ m < (L.getD cur []).length, target.terminates cur m = true)) := by
  have hlen := h.length_eq
  induction q generalizing s fuel with
  | nil =>
      obtain ⟨fuel, rfl⟩ := Nat.exists_eq_add_one_of_ne_zero (Nat.ne_of_gt hfuel)
      have hnext := LoaderMetadata.nextInput_nil h.idle h.loading
      refine ⟨.ok (), s, [], ?_, h, hs, rfl, fun _ _ => rfl, Or.inl ⟨rfl, rfl, fun m hle hlt => ?_⟩⟩
      · rw [runInputs, run_bind_of_ok (run_onMd hnext)]
        rfl
      · rw [List.length_nil] at hlen
        omega
  | cons x q ih =>
      rw [List.length_cons] at hlen hfuel
      obtain ⟨fuel, rfl⟩ : ∃ n, fuel = n + 1 := ⟨fuel - 1, by omega⟩
      obtain ⟨result, fuzzer, heval, hs'⟩ := hgood cur (s.evaluationsOf cur).length x s.fuzzer hs
      have hmem : x ∈ L.getD cur [] := by
        rw [← h.split]
        simp
      obtain ⟨md, h', hrun⟩ := runInputs_cons h (henc.fromBytes hmem) heval
      have hframe : ∀ j < cur, (s.record cur ⟨x, result⟩ md fuzzer).evaluationsOf j =
          s.evaluationsOf j := by
        intro j hj
        rw [LoaderState.evaluationsOf_record, if_neg (by omega)]
      by_cases hterm : target.terminates cur (s.evaluationsOf cur).length = true
      · refine ⟨_, _, q, (hrun fuel).trans (if_pos hterm), h', hs', rfl, hframe, Or.inr ⟨rfl, ?_, _,
          ?_, hterm⟩⟩
        · rw [List.length_cons]
          omega
        · omega
      · obtain ⟨r, s', q', hrest, hin, hs'', hstage, hkept, hcase⟩ :=
          ih (show q.length < fuel by omega) h' hs' h'.length_eq
        refine ⟨r, s', q', ((hrun fuel).trans (if_neg hterm)).trans hrest, hin, hs'', hstage,
          fun j hj => (hkept j hj).trans (hframe j hj), ?_⟩
        rcases hcase with ⟨hr, hq, hnone⟩ | ⟨hr, hq, hex⟩
        · refine Or.inl ⟨hr, hq, fun m hle hlt => ?_⟩
          rcases Nat.eq_or_lt_of_le hle with rfl | hgt
          · exact Bool.eq_false_iff.mpr hterm
          · refine hnone m ?_ hlt
            rw [LoaderState.evaluationsOf_record, if_pos rfl, List.length_append]
            exact hgt
        · exact Or.inr ⟨hr, by rw [List.length_cons]; omega, hex⟩

/-! ## One load -/

theorem run_startLoad_known {loading : Loading} {inputsFn : Result (List I)}
    (h : s.md.loads[j]? = some loading) : (startLoad j inputsFn).run s = some (.ok (), s) := by
  have hknown : s.md.loads.contains j = true := by
    rw [Std.TreeMap.contains_eq_isSome_getElem?, h]
    rfl
  rw [startLoad, run_bind_of_ok (run_read _ _), hknown]
  rfl

theorem run_startLoad_new {inputs : List I} (hnew : s.md.loads[j]? = none)
    (henc : ∀ x ∈ inputs, toAllocvec x = .ok (encode x)) :
    (startLoad j (.ok inputs)).run s = some (.ok (),
      { s with md.loads := s.md.loads.insert j ⟨inputs.map encode, []⟩ }) := by
  have hunknown : s.md.loads.contains j = false := by
    rw [Std.TreeMap.contains_eq_isSome_getElem?, hnew]
    rfl
  rw [startLoad, run_bind_of_ok (run_read _ _), hunknown]
  simp only [Bool.not_false, if_true]
  rw [run_bind_of_ok (run_ofResult rfl), run_bind_of_ok (run_ofResult (mapM_eq_ok henc))]
  rfl

/-- What follows the start of a load that is in the map. -/
theorem run_load {inputsFn : Result (List I)} {t : LoaderState I T} {loading : Loading}
    (hstart : (startLoad s.loadingStage inputsFn).run s = some (.ok (), t))
    (hloading : t.md.loads[s.loadingStage]? = some loading) :
    (load target inputsFn).run s =
      ((do
        runInputs target s.loadingStage (loading.inputsToRun.length + 1)
        update fun s => { s with loadingStage := s.loadingStage + 1 }
        let ran ← onMd (·.takeRanInputs s.loadingStage)
        ofResult (ran.mapM RanInput.toLoadResult)) : Process I T (List (LoadResult I))).run t := by
  have hgetD : t.md.loads.getD s.loadingStage ⟨[], []⟩ = loading := by
    rw [Std.TreeMap.getD_eq_getD_getElem?, hloading]
    rfl
  rw [load, run_bind_of_ok (run_read _ _), run_bind_of_ok hstart, run_bind_of_ok (run_read _ _),
    hgetD]

/-- Handing the results out and going on to the next load. -/
def LoaderState.finish (s : LoaderState I T) (j : Nat) : LoaderState I T :=
  { s with md.loads := s.md.loads.insert j ⟨[], []⟩, loadingStage := s.loadingStage + 1 }

theorem run_finish (encode : I → List UInt8) (rs : List (LoadResult I))
    (hloading : s.md.loads[j]? = some ⟨[], rs.map (ranInput encode)⟩)
    (hbytes : ∀ r ∈ rs, fromBytes (encode r.input) = .ok r.input) :
    ((do
      update fun s => { s with loadingStage := s.loadingStage + 1 }
      let ran ← onMd (·.takeRanInputs j)
      ofResult (ran.mapM RanInput.toLoadResult)) : Process I T (List (LoadResult I))).run s =
      some (.ok rs, LoaderState.finish s j) := by
  have hdecode : (rs.map (ranInput encode)).mapM RanInput.toLoadResult = .ok rs := by
    rw [List.mapM_map, mapM_eq_ok (g := id), List.map_id]
    intro r hr
    rw [Function.comp_apply, RanInput.toLoadResult, ranInput, hbytes r hr]
    rfl
  have htake := run_onMd (s := { s with loadingStage := s.loadingStage + 1 })
    (LoaderMetadata.takeRanInputs_known hloading)
  rw [run_bind_of_ok (run_update _ _), run_bind_of_ok htake, hdecode]
  rfl

omit [Input I] in
theorem Resumable.finish_over (h : Resumable L encode s cur q) (hj : j < cur) :
    Resumable L encode (LoaderState.finish s j) cur q := by
  have hloads : ∀ k, (LoaderState.finish s j).md.loads[k]? = s.md.loads[k]? := fun k => by
    rw [LoaderState.finish, LoaderMetadata.getElem?_insert]
    split
    · next heq => rw [← heq, h.done j hj]
    · rfl
  exact ⟨h.idle, fun k hk => (hloads k).trans (h.done k hk), by rw [hloads]; exact h.current,
    fun k hk => ⟨(hloads k).trans (h.later k hk).1, (h.later k hk).2⟩, h.evaluated, h.split⟩

omit [Input I] in
theorem InLoad.finish (h : InLoad L encode s cur []) :
    Resumable L encode (LoaderState.finish s cur) (cur + 1) (L.getD (cur + 1) []) := by
  have hloads : ∀ k, (LoaderState.finish s cur).md.loads[k]? =
      if cur = k then some ⟨[], []⟩ else s.md.loads[k]? := fun k =>
    LoaderMetadata.getElem?_insert
  have hnext := h.later (cur + 1) (by omega)
  refine ⟨h.idle, fun k hk => ?_, Or.inr ⟨?_, hnext.2⟩, fun k hk => ⟨?_, ?_⟩, fun k hk => ?_, ?_⟩
  · rw [hloads]
    split
    · rfl
    · exact h.done k (by omega)
  · rw [hloads, if_neg (by omega)]
    exact hnext.1
  · rw [hloads, if_neg (by omega)]
    exact (h.later k (by omega)).1
  · exact (h.later k (by omega)).2
  · rcases Nat.lt_succ_iff_lt_or_eq.mp hk with hk | rfl
    · exact h.evaluated k hk
    · exact (List.append_nil _).symm.trans h.split
  · show List.map _ (s.evaluationsOf (cur + 1)) ++ _ = _
    rw [hnext.2]
    rfl

/-- A load that is over returns nothing. -/
theorem run_load_over (target : Target I T) (inputsFn : Result (List I))
    (h : Resumable L encode s cur q) (hstage : s.loadingStage < cur) :
    (load target inputsFn).run s = some (.ok [], LoaderState.finish s s.loadingStage) := by
  have hloading := h.done _ hstage
  have hloop : (runInputs target s.loadingStage 1).run s = some (.ok (), s) := by
    rw [runInputs, run_bind_of_ok (run_onMd (LoaderMetadata.nextInput_nil h.idle hloading))]
    rfl
  rw [run_load (run_startLoad_known hloading) hloading]
  exact (run_bind_of_ok hloop).trans (run_finish encode [] hloading nofun)

omit [Input I] in
/-- Starting the load in progress. -/
theorem Resumable.inLoad (h : Resumable L encode s cur q) (hnew : s.md.loads[cur]? = none) :
    InLoad L encode { s with md.loads := s.md.loads.insert cur ⟨(L.getD cur []).map encode, []⟩ }
      cur q := by
  have hempty : s.evaluationsOf cur = [] := by
    rcases h.current with hloading | ⟨-, hempty⟩
    · rw [hnew] at hloading
      cases hloading
    · exact hempty
  have hq : q = L.getD cur [] := by
    rw [← h.split, hempty]
    rfl
  have hloads : ∀ k, (s.md.loads.insert cur ⟨(L.getD cur []).map encode, []⟩)[k]? =
      if cur = k then some ⟨q.map encode, []⟩ else s.md.loads[k]? := fun k => by
    rw [LoaderMetadata.getElem?_insert, hq]
  have hloading : (s.md.loads.insert cur ⟨(L.getD cur []).map encode, []⟩)[cur]? =
      some ⟨q.map encode, (s.evaluationsOf cur).map (ranInput encode)⟩ := by
    rw [hloads, if_pos rfl, hempty]
    rfl
  refine ⟨⟨h.idle, fun k hk => ?_, Or.inl hloading, fun k hk => ⟨?_, (h.later k hk).2⟩,
    h.evaluated, h.split⟩, hloading⟩
  · exact (hloads k).trans ((if_neg (by omega)).trans (h.done k hk))
  · exact (hloads k).trans ((if_neg (by omega)).trans (h.later k hk).1)

/-- **The load in progress**: it returns all its evaluations, or stops short. -/
theorem run_load_current (hgood : Evaluates target Good) (henc : Serialises L encode)
    (h : Resumable L encode s cur q) (hs : Good s.fuzzer) (hstage : s.loadingStage = cur)
    (hlt : cur < L.length) :
    (∃ s', (load target (.ok L[cur])).run s = some (.ok (s'.evaluationsOf cur), s') ∧
      Resumable L encode s' (cur + 1) (L.getD (cur + 1) []) ∧ Good s'.fuzzer ∧
      s'.loadingStage = cur + 1 ∧ (∀ j < cur, s'.evaluationsOf j = s.evaluationsOf j) ∧
      ∀ m, (s.evaluationsOf cur).length ≤ m → m < L[cur].length →
        target.terminates cur m = false) ∨
    (∃ s' q', (load target (.ok L[cur])).run s = some (.error .terminated, s') ∧
      Resumable L encode s' cur q' ∧ Good s'.fuzzer ∧ q'.length < q.length ∧
      ∃ m < L[cur].length, target.terminates cur m = true) := by
  subst hstage
  have hgetD : L.getD s.loadingStage [] = L[s.loadingStage] := List.getD_eq_getElem _ _ hlt
  obtain ⟨t, hstart, hin, htfuzzer, htstage, htevals⟩ : ∃ t : LoaderState I T,
      (startLoad s.loadingStage (.ok L[s.loadingStage])).run s = some (.ok (), t) ∧
      InLoad L encode t s.loadingStage q ∧ t.fuzzer = s.fuzzer ∧
      t.loadingStage = s.loadingStage ∧ t.evaluated = s.evaluated := by
    rcases h.current with hloading | ⟨hnew, -⟩
    · exact ⟨s, run_startLoad_known hloading, ⟨h, hloading⟩, rfl, rfl, rfl⟩
    · have hstart := run_startLoad_new hnew (henc _ (List.getElem_mem hlt))
      rw [← hgetD] at hstart ⊢
      exact ⟨_, hstart, h.inLoad hnew, rfl, rfl, rfl⟩
  rw [run_load hstart hin.loading]
  obtain ⟨r, s', q', hloop, hin', hs', hstage', hkept, hcase⟩ :=
    runInputs_outcome hgood henc (show q.length < (q.map encode).length + 1 by simp) hin
      (htfuzzer ▸ hs)
  have hevals : ∀ j, t.evaluationsOf j = s.evaluationsOf j := fun j => by
    rw [LoaderState.evaluationsOf, htevals]
    rfl
  rw [hgetD, hevals] at hcase
  rcases hcase with ⟨rfl, rfl, hnone⟩ | ⟨rfl, hlt', hex⟩
  · refine Or.inl ⟨LoaderState.finish s' s.loadingStage, ?_, hin'.finish, hs', ?_,
      fun j hj => (hkept j hj).trans (hevals j), hnone⟩
    · rw [run_bind_of_ok hloop]
      refine run_finish encode _ hin'.loading fun r hr => ?_
      have hmem : r.input ∈ L.getD s.loadingStage [] := by
        rw [← hin'.split, List.append_nil]
        exact List.mem_map_of_mem hr
      exact henc.fromBytes hmem
    · show s'.loadingStage + 1 = s.loadingStage + 1
      rw [hstage', htstage]
  · exact Or.inr ⟨s', q', run_bind_of_error hloop, hin'.toResumable, hs', hlt', hex⟩

/-! ## One process -/

omit [Input I] in
theorem Resumable.setStage (h : Resumable L encode s cur q) (stage : Nat) :
    Resumable L encode { s with loadingStage := stage } cur q :=
  ⟨h.idle, h.done, h.current, h.later, h.evaluated, h.split⟩

omit [Input I] in
theorem Resumable.evaluationsOf_eq_nil (h : Resumable L encode s cur (L.getD cur []))
    (hj : cur ≤ j) : s.evaluationsOf j = [] := by
  rcases Nat.eq_or_lt_of_le hj with rfl | hlt
  · simpa using h.split
  · exact (h.later j hlt).2

/-- How many inputs are left. -/
def weight (L : List (List I)) (cur : Nat) (q : List I) : Nat :=
  q.length + ((L.drop (cur + 1)).map List.length).sum

omit [Input I] in
theorem weight_next : weight L (cur + 1) (L.getD (cur + 1) []) ≤ weight L cur q := by
  have heq : weight L (cur + 1) (L.getD (cur + 1) []) =
      ((L.drop (cur + 1)).map List.length).sum := by
    rw [weight]
    by_cases hlt : cur + 1 < L.length
    · rw [List.drop_eq_getElem_cons hlt, List.getD_eq_getElem _ _ hlt, List.map_cons, List.sum_cons]
    · rw [List.getD_eq_default _ _ (by omega), List.drop_eq_nil_of_le (by omega),
        List.drop_eq_nil_of_le (by omega)]
      rfl
  rw [heq, weight]
  omega

/-- How a process that starts with `q` left of load `cur` may stop. -/
def StopsShort (target : Target I T) (Good : T → Prop) (L : List (List I)) (encode : I → List UInt8)
    (cur : Nat) (q : List I) (out : Option (Except Stop (List (List (LoadResult I))) ×
      LoaderState I T)) : Prop :=
  ∃ s cur' q', out = some (.error .terminated, s) ∧ Resumable L encode s cur' q' ∧ Good s.fuzzer ∧
    weight L cur' q' < weight L cur q ∧
      ∃ m < (L.getD cur' []).length, target.terminates cur' m = true

theorem mapM_load_current (hgood : Evaluates target Good) (henc : Serialises L encode)
    {rest : List (List I)} (hrest : L.drop cur = rest) (h : Resumable L encode s cur q)
    (hs : Good s.fuzzer) (hstage : s.loadingStage = cur) :
    (∃ s', (rest.mapM fun inputs => load target (.ok inputs)).run s =
        some (.ok ((List.range' cur rest.length).map s'.evaluationsOf), s') ∧
      Resumable L encode s' (cur + rest.length) [] ∧
      (∀ j < cur, s'.evaluationsOf j = s.evaluationsOf j) ∧
      ∀ i m, cur ≤ i → (s.evaluationsOf i).length ≤ m → m < (L.getD i []).length →
        target.terminates i m = false) ∨
    StopsShort target Good L encode cur q
      ((rest.mapM fun inputs => load target (.ok inputs)).run s) := by
  induction rest generalizing cur q s with
  | nil =>
      have hle : L.length ≤ cur := List.drop_eq_nil_iff.mp hrest
      have hq : q = [] := by
        have hsplit := h.split
        rw [List.getD_eq_default _ _ hle] at hsplit
        exact (List.append_eq_nil_iff.mp hsplit).2
      refine Or.inl ⟨s, rfl, hq ▸ h, fun _ _ => rfl, fun i m hi _ hm => ?_⟩
      rw [List.getD_eq_default _ _ (by omega)] at hm
      exact absurd hm (Nat.not_lt_zero m)
  | cons inputs rest ih =>
      have hlt : cur < L.length := by
        by_contra hge
        rw [List.drop_eq_nil_of_le (by omega)] at hrest
        cases hrest
      rw [List.drop_eq_getElem_cons hlt] at hrest
      obtain ⟨rfl, htail⟩ := List.cons.inj hrest
      rw [List.mapM_cons]
      rcases run_load_current hgood henc h hs hstage hlt with
        ⟨t, hload, ht, htgood, htstage, htkept, hnone⟩ | ⟨t, q', hload, ht, htgood, hlt', hex⟩
      · rw [run_bind_of_ok hload]
        rcases ih htail ht htgood htstage with ⟨s', hrun, hs', hkept, hnone'⟩ |
          ⟨s', cur', q', hrun, hs', hgood', hweight, hex⟩
        · refine Or.inl ⟨s', ?_, ?_, fun j hj => ?_, fun i m hi hle hm => ?_⟩
          · rw [run_bind_of_ok hrun, run_pure, List.length_cons, List.range'_succ, List.map_cons,
              hkept cur (by omega)]
          · rw [List.length_cons, ← Nat.add_assoc, Nat.add_right_comm]
            exact hs'
          · rw [hkept j (by omega), htkept j hj]
          · rcases Nat.eq_or_lt_of_le hi with rfl | hgt
            · rw [List.getD_eq_getElem _ _ hlt] at hm
              exact hnone m hle hm
            · refine hnone' i m hgt ?_ hm
              rw [ht.evaluationsOf_eq_nil hgt]
              exact Nat.zero_le m
        · refine Or.inr ⟨s', cur', q', run_bind_of_error hrun, hs', hgood', ?_, hex⟩
          exact hweight.trans_le weight_next
      · refine Or.inr ⟨t, cur, q', run_bind_of_error hload, ht, htgood, ?_, ?_⟩
        · simp only [weight]
          omega
        · rw [List.getD_eq_getElem _ _ hlt]
          exact hex

/-- **One process**: the loads that were over when it started return nothing,
the others all their evaluations, unless the process stops short. -/
theorem mapM_load (hgood : Evaluates target Good) (henc : Serialises L encode)
    {rest : List (List I)} {stage : Nat} (hrest : L.drop stage = rest)
    (h : Resumable L encode s cur q) (hs : Good s.fuzzer) (hstage : s.loadingStage = stage)
    (hle : stage ≤ cur) (hcur : cur ≤ L.length) :
    (∃ s', (rest.mapM fun inputs => load target (.ok inputs)).run s =
        some (.ok ((List.range' stage rest.length).map fun j =>
          if j < cur then [] else s'.evaluationsOf j), s') ∧
      Resumable L encode s' L.length [] ∧
      ∀ i m, cur ≤ i → (s.evaluationsOf i).length ≤ m → m < (L.getD i []).length →
        target.terminates i m = false) ∨
    StopsShort target Good L encode cur q
      ((rest.mapM fun inputs => load target (.ok inputs)).run s) := by
  induction rest generalizing stage s with
  | nil =>
      have hlen : L.length ≤ stage := List.drop_eq_nil_iff.mp hrest
      obtain rfl : stage = cur := by omega
      obtain ⟨s', hrun, hs', -, hnone⟩ | hshort := mapM_load_current hgood henc hrest h hs hstage
      · obtain rfl : stage = L.length := by omega
        exact Or.inl ⟨s', hrun, hs', hnone⟩
      · exact Or.inr hshort
  | cons inputs rest ih =>
      rcases Nat.eq_or_lt_of_le hle with rfl | hlt
      · have hlen : (inputs :: rest).length + stage = L.length := by
          rw [← hrest, List.length_drop]
          omega
        obtain ⟨s', hrun, hs', -, hnone⟩ | hshort := mapM_load_current hgood henc hrest h hs hstage
        · refine Or.inl ⟨s', ?_, ?_, hnone⟩
          · rw [hrun]
            congr 3
            refine List.map_congr_left fun j hj => (if_neg ?_).symm
            have := List.mem_range'_1.mp hj
            omega
          · rw [← hlen, Nat.add_comm]
            exact hs'
        · exact Or.inr hshort
      · have hlt' : stage < L.length := by omega
        rw [List.drop_eq_getElem_cons hlt'] at hrest
        obtain ⟨rfl, htail⟩ := List.cons.inj hrest
        have hload := run_load_over target (.ok L[stage]) h (hstage ▸ hlt)
        have hfin := h.finish_over (j := s.loadingStage) (hstage ▸ hlt)
        have hstage' : (LoaderState.finish s s.loadingStage).loadingStage = stage + 1 :=
          congrArg (· + 1) hstage
        rw [List.mapM_cons, run_bind_of_ok hload]
        rcases ih htail hfin hs hstage' hlt with ⟨s', hrun, hs', hnone⟩ |
          ⟨s', cur', q', hrun, hrest'⟩
        · refine Or.inl ⟨s', ?_, hs', hnone⟩
          rw [run_bind_of_ok hrun, run_pure, List.length_cons, List.range'_succ, List.map_cons,
            if_pos hlt]
        · exact Or.inr ⟨s', cur', q', run_bind_of_error hrun, hrest'⟩

/-! ## All processes -/

omit [Input I] in
/-- Processes that are not needed change nothing. -/
theorem run_more {α : Type} {task : Process I T α} {out : Result α × LoaderState I T}
    {lives : Nat} (n : Nat) (h : RestartingRuntime.run task lives s = some out) :
    RestartingRuntime.run task (lives + n) s = some out := by
  induction lives generalizing s with
  | zero => cases h
  | succ lives ih =>
      rw [Nat.succ_add, RestartingRuntime.run]
      rw [RestartingRuntime.run] at h
      obtain ⟨⟨r, t⟩, hrun, hout⟩ := Option.bind_eq_some_iff.mp h
      rw [hrun]
      rcases r with (err | _) | a
      · exact hout
      · exact ih hout
      · exact hout

/-- **Loading comes to an end**, with the results of those loads that the last
process did not find over. -/
theorem run_lives (hgood : Evaluates target Good) (henc : Serialises L encode) {lives : Nat}
    (hlives : weight L cur q < lives) (h : Resumable L encode s cur q) (hs : Good s.fuzzer)
    (hcur : cur = 0 ∨ ∃ m < (L.getD cur []).length, target.terminates cur m = true) :
    ∃ s' last, RestartingRuntime.run (loadAll target L) lives s = some (.ok
        ((List.range L.length).map fun j => if j < last then [] else s'.evaluationsOf j), s') ∧
      Resumable L encode s' L.length [] ∧
      (last = 0 ∨ ∃ m < (L.getD last []).length, target.terminates last m = true) ∧
      ∀ i m, last < i → m < (L.getD i []).length → target.terminates i m = false := by
  induction lives generalizing cur q s with
  | zero => exact absurd hlives (Nat.not_lt_zero _)
  | succ lives ih =>
      have hle : cur ≤ L.length := by
        rcases hcur with rfl | ⟨m, hm, -⟩
        · exact Nat.zero_le _
        · by_contra hge
          rw [List.getD_eq_default _ _ (by omega)] at hm
          exact absurd hm (Nat.not_lt_zero m)
      have hstart := h.setStage 0
      rw [RestartingRuntime.run, loadAll]
      rcases mapM_load hgood henc (List.drop_zero (l := L)) hstart hs rfl (Nat.zero_le _) hle with
        ⟨s', hrun, hs', hnone⟩ | ⟨s', cur', q', hrun, hs', hgood', hweight, hex⟩
      · refine ⟨s', cur, ?_, hs', hcur, fun i m hi hm => hnone i m hi.le ?_ hm⟩
        · rw [hrun, List.range_eq_range']
          rfl
        · show (s.evaluationsOf i).length ≤ m
          rw [(h.later i hi).2]
          exact Nat.zero_le m
      · rw [hrun]
        exact ih (by omega) hs' hgood' (Or.inr hex)

/-- Every load returned its evaluations, and those are of the inputs of the
load, each once and in order. -/
structure LoadedOnce (L : List (List I)) (results : List (List (LoadResult I)))
    (s : LoaderState I T) : Prop where
  returned : results = (List.range L.length).map s.evaluationsOf
  evaluated : ∀ j, (s.evaluationsOf j).map (·.input) = L.getD j []

/-- Given enough processes, the loading stage returns, having loaded all. -/
def SurvivesCrashes (target : Target I T) (L : List (List I)) (fuzzer : T) : Prop :=
  ∃ n, ∀ lives ≥ n, ∃ results s,
    RestartingRuntime.run (loadAll target L) lives (.new fuzzer) = some (.ok results, s) ∧
      LoadedOnce L results s

/-- The load has an input on which the target crashes or times out. -/
def Crashes (target : Target I T) (L : List (List I)) (i : Nat) : Prop :=
  ∃ m < (L.getD i []).length, target.terminates i m = true

omit [Input I] in
theorem Resumable.new (L : List (List I)) (encode : I → List UInt8) (fuzzer : T) :
    Resumable L encode (.new fuzzer) 0 (L.getD 0 []) where
  idle := rfl
  done _ hj := absurd hj (Nat.not_lt_zero _)
  current := Or.inr ⟨rfl, rfl⟩
  later _ _ := ⟨rfl, rfl⟩
  evaluated _ hj := absurd hj (Nat.not_lt_zero _)
  split := rfl

omit [Input I] in
theorem Resumable.evaluated_all (h : Resumable L encode s L.length []) (j : Nat) :
    (s.evaluationsOf j).map (·.input) = L.getD j [] := by
  rcases Nat.lt_trichotomy j L.length with hlt | rfl | hgt
  · exact h.evaluated j hlt
  · exact (List.append_nil _).symm.trans h.split
  · rw [(h.later j hgt).2, List.getD_eq_default _ _ hgt.le]
    rfl

/-- **Loading survives crashes exactly where no load before a crashing one has
inputs.** -/
theorem survivesCrashes_iff {fuzzer : T} (hgood : Evaluates target Good) (hfuzzer : Good fuzzer)
    (henc : Serialises L encode) :
    SurvivesCrashes target L fuzzer ↔ ∀ i j, j < i → Crashes target L i → L.getD j [] = [] := by
  have hrun (lives : Nat) (hlives : weight L 0 (L.getD 0 []) < lives) :=
    run_lives hgood henc hlives (Resumable.new L encode fuzzer) hfuzzer (Or.inl rfl)
  constructor
  · rintro ⟨n, hn⟩ i j hj ⟨m, hm, hterm⟩
    obtain ⟨results, s, hres, hloaded⟩ := hn (max n (weight L 0 (L.getD 0 []) + 1)) (by omega)
    obtain ⟨s', last, hres', hs', -, hnone⟩ :=
      hrun (max n (weight L 0 (L.getD 0 []) + 1)) (by omega)
    obtain ⟨hresults, rfl⟩ := Prod.mk.inj (Option.some.inj (hres'.symm.trans hres))
    have hlast : i ≤ last := by
      by_contra hgt
      rw [hnone i m (by omega) hm] at hterm
      cases hterm
    have heq := (Except.ok.inj hresults).trans hloaded.returned
    rw [← hs'.evaluated_all j, List.map_eq_nil_iff]
    by_cases hlt : j < L.length
    · have hentry := List.map_inj_left.mp heq j (List.mem_range.mpr hlt)
      rw [if_pos (by omega)] at hentry
      exact hentry.symm
    · exact List.map_eq_nil_iff.mp ((hs'.evaluated_all j).trans
        (List.getD_eq_default _ _ (by omega)))
  · intro h
    refine ⟨weight L 0 (L.getD 0 []) + 1, fun lives hlives => ?_⟩
    obtain ⟨s', last, hres, hs', hlast, -⟩ := hrun lives hlives
    refine ⟨_, s', hres, List.map_congr_left fun j _ => ?_, hs'.evaluated_all⟩
    split
    · next hlt =>
        have hcrash : Crashes target L last := hlast.resolve_left (by omega)
        have hnil := (hs'.evaluated_all j).trans (h last j hlt hcrash)
        exact (List.map_eq_nil_iff.mp hnil).symm
    · rfl

end Loader

end

end Libaflmm
