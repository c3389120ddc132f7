import Libaflmm.CacheLaws
import Libaflmm.Runs
import Mathlib.Data.List.Rotate

/-!
# The queue scheduler and the enabled ids

The wrapper code of a corpus notifies the scheduler of every stored testcase,
of enabled and disabled ones alike. So the queue lists the enabled ids, each
once, exactly as long as no disabled testcase is stored and no enabled one
fails to be.

`cycle_eq_rotate` says what the queue gives a caller: one cycle of `next` is
the queue itself, read from some position on.
-/

namespace Libaflmm

/-! ## One cycle of the queue -/

namespace QueueScheduler

variable {sc : QueueScheduler}

/-- The ids that `n` successive calls of `next` return. -/
def nexts : Nat → QueueScheduler → List TestcaseId
  | 0, _ => []
  | n + 1, sc =>
    match sc.next with
    | (.ok (some id), sc) => id :: nexts n sc
    | _ => []

def cycle (sc : QueueScheduler) : List TestcaseId := sc.nexts sc.queue.length

theorem nextIdx_lt (h : sc.queue ≠ []) : sc.nextIdx < sc.queue.length := by
  have hpos := List.length_pos_iff.mpr h
  unfold nextIdx
  split
  · split
    · next hsome => simpa using hsome
    · exact hpos
  · exact hpos

theorem next_eq (h : sc.queue ≠ []) :
    sc.next = (.ok (some (sc.queue.get ⟨sc.nextIdx, nextIdx_lt h⟩)),
      { sc with current := some sc.nextIdx }) := by
  have hempty : sc.queue.isEmpty = false := by simpa using h
  rw [next, hempty, List.getElem?_eq_getElem (nextIdx_lt h)]
  rfl

theorem next_queue : sc.next.2.queue = sc.queue := by
  unfold next
  split <;> rfl

/-- The position wraps around at the end of the queue. -/
theorem nextIdx_advance {idx : Nat} (h : idx < sc.queue.length) :
    ({ sc with current := some idx } : QueueScheduler).nextIdx =
      (idx + 1) % sc.queue.length := by
  show (if (sc.queue[idx + 1]?).isSome then idx + 1 else 0) = _
  by_cases hlt : idx + 1 < sc.queue.length
  · rw [if_pos (by simpa using hlt), Nat.mod_eq_of_lt hlt]
  · have heq : idx + 1 = sc.queue.length := by omega
    rw [if_neg (by simpa using hlt), heq, Nat.mod_self]

/-- Reading one position on from a rotation of the queue. -/
theorem take_rotate_succ {l : List TestcaseId} {i n : Nat} (hi : i < l.length)
    (hn : n < l.length) :
    (l.rotate i).take (n + 1) = l[i] :: (l.rotate (i + 1)).take n := by
  have hrot : l.rotate i = l[i] :: (l.drop (i + 1) ++ l.take i) := by
    rw [List.rotate_eq_drop_append_take hi.le, List.drop_eq_getElem_cons hi, List.cons_append]
  have hlen : n ≤ (l.drop (i + 1) ++ l.take i).length := by
    simp only [List.length_append, List.length_drop, List.length_take]
    omega
  rw [← List.rotate_rotate, hrot, List.rotate_cons_succ, List.rotate_zero, List.take_succ_cons,
    List.take_append_of_le_length hlen]

theorem nexts_eq {n : Nat} (hn : n ≤ sc.queue.length) :
    sc.nexts n = (sc.queue.rotate sc.nextIdx).take n := by
  induction n generalizing sc with
  | zero => rfl
  | succ n ih =>
      have hne : sc.queue ≠ [] := List.length_pos_iff.mp (by omega)
      have hlt := nextIdx_lt hne
      have hrest : nexts n { sc with current := some sc.nextIdx } =
          (sc.queue.rotate (sc.nextIdx + 1)).take n := by
        have hadvance :=
          @ih { sc with current := some sc.nextIdx } (show n ≤ sc.queue.length by omega)
        rwa [nextIdx_advance hlt, List.rotate_mod] at hadvance
      rw [nexts, next_eq hne, take_rotate_succ hlt (by omega)]
      exact congrArg _ hrest

/-- **One cycle is a rotation of the queue.** -/
theorem cycle_eq_rotate (sc : QueueScheduler) : sc.cycle = sc.queue.rotate sc.nextIdx := by
  rw [cycle, nexts_eq (le_refl _), List.take_of_length_le (by simp)]

end QueueScheduler

/-! ## Runs of a scheduled corpus -/

inductive SchedulerOp (I Env : Type) [Input I] where
  | add (enabled : Bool) (testcase : Testcase I) (env : Env)
  | next

section

variable {X S I Env : Type} [Input I] [PartitionedStore S I Env]
  [BackedCorpus X S I Env QueueScheduler]

open ScheduledCorpus BackedCorpus PartitionedStore

/-- The corpus after one operation, whatever its result. -/
def SchedulerOp.exec (x : X) : SchedulerOp I Env → Option X
  | .add enabled testcase env => (addShared enabled testcase env x).map (·.2)
  | .next => some (setScheduler (scheduler x).next.2 x)

/-- Scheduler and corpus agree: the queue lists the enabled ids, each once;
so what `next` returns can be retrieved, and comes once a cycle. -/
structure Scheduled (x : X) : Prop where
  nodup : (scheduler x).queue.Nodup
  enabled : ∀ id, id ∈ (scheduler x).queue ↔ Holds (store x) true id
  retrievable : ∀ id sc, (scheduler x).next = (.ok (some id), sc) →
    ∃ tc, Store.getFrom true id (store x) = .ok tc
  cycle : (scheduler x).cycle.Nodup

/-- An enabled add stores its testcase unless it is there already, a disabled
add stores nothing: it is a duplicate, or its write fails. -/
def StoresEnabled (x : X) : SchedulerOp I Env → Prop
  | .add true testcase env =>
      ¬ Holds (store x) true testcase.id → Saves (store x) testcase env
  | .add false testcase env =>
      ¬ Holds (store x) false testcase.id → ¬ Saves (store x) testcase env
  | .next => True

structure InQueue (x : X) : Prop where
  ready : Ready x
  wf : Wf (store x)
  nodup : (scheduler x).queue.Nodup
  enabled : ∀ id, id ∈ (scheduler x).queue ↔ Holds (store x) true id
  loads : ∀ id, Holds (store x) true id → Loads (store x) id

variable {x x' : X} {enabled : Bool} {testcase : Testcase I} {env : Env}

theorem InQueue.scheduled (h : InQueue x) : Scheduled x where
  nodup := h.nodup
  enabled := h.enabled
  retrievable := fun id sc hnext => by
    have hne : (scheduler x).queue ≠ [] := by
      intro hnil
      rw [QueueScheduler.next, hnil] at hnext
      cases hnext
    rw [QueueScheduler.next_eq hne] at hnext
    simp only [Prod.mk.injEq, Except.ok.injEq, Option.some.injEq] at hnext
    have hheld := (h.enabled id).mp (hnext.1 ▸ List.getElem_mem _)
    obtain ⟨tc, hget, -⟩ := getFrom_held h.wf (Or.inl hheld) (h.loads id hheld)
    exact ⟨tc, hget⟩
  cycle := by
    rw [QueueScheduler.cycle_eq_rotate]
    exact List.nodup_rotate.mpr h.nodup

theorem InQueue.next (h : InQueue x) :
    InQueue (setScheduler (scheduler x).next.2 x) where
  ready := ready_set h.ready
  wf := by rw [store_set]; exact h.wf
  nodup := by rw [scheduler_set, QueueScheduler.next_queue]; exact h.nodup
  enabled := fun id => by
    rw [scheduler_set, store_set, QueueScheduler.next_queue, h.enabled id]
  loads := fun id => by rw [store_set]; exact h.loads id

/-- What an add does to the enabled ids and to the queue. -/
theorem InQueue.add_cases (h : InQueue x) (enabled : Bool) (testcase : Testcase I) (env : Env) :
    ∃ x', (SchedulerOp.add enabled testcase env).exec x = some x' ∧ Ready x' ∧ Wf (store x') ∧
      (∀ id, Holds (store x') true id ↔
        (enabled = true ∧ id = testcase.id) ∨ Holds (store x) true id) ∧
      (∀ id, Loads (store x) id → Loads (store x') id) ∧
      ((Holds (store x) enabled testcase.id ∧
          (scheduler x').queue = (scheduler x).queue) ∨
        (¬ Holds (store x) enabled testcase.id ∧ Saves (store x) testcase env ∧
          Loads (store x') testcase.id ∧
          (scheduler x').queue = (scheduler x).queue ++ [testcase.id]) ∨
        (¬ Holds (store x) enabled testcase.id ∧ ¬ Saves (store x) testcase env ∧
          (scheduler x').queue = (scheduler x).queue)) := by
  obtain ⟨r, x', hadd, hready⟩ := addShared_returns enabled testcase env h.ready
  obtain ⟨res, hstore, hnotify⟩ := addShared_store hadd
  have hsched : scheduler x' = (notifyStored res (scheduler x)).2 := congrArg Prod.snd hnotify
  have hloads := add_loads hstore
  refine ⟨x', congrArg (Option.map _) hadd, hready, add_wf h.wf hstore, fun id => ?_,
    fun id hid => (hloads id).mpr (Or.inl hid), ?_⟩
  · rw [add_holds hstore true id]
    simp only [eq_comm (a := true)]
  · rcases add_result hstore with ⟨hold, rfl⟩ | ⟨hnot, hsave, rfl⟩ | ⟨hnot, hsave, err, rfl⟩
    · exact Or.inl ⟨hold, by rw [hsched]; rfl⟩
    · exact Or.inr (Or.inl ⟨hnot, hsave, (hloads _).mpr (Or.inr ⟨rfl, hnot, hsave⟩),
        by rw [hsched]; rfl⟩)
    · exact Or.inr (Or.inr ⟨hnot, hsave, by rw [hsched]; rfl⟩)

theorem InQueue.add (h : InQueue x) (hop : StoresEnabled x (.add enabled testcase env))
    (hexec : (SchedulerOp.add enabled testcase env).exec x = some x') : InQueue x' := by
  obtain ⟨y, hexec', hready, hwf, hholds, hloads, hcase⟩ := h.add_cases enabled testcase env
  obtain rfl := Option.some.inj (hexec'.symm.trans hexec)
  have hsame (hqueue : (scheduler y).queue = (scheduler x).queue)
      (hold : enabled = true → Holds (store x) true testcase.id) : InQueue y := by
    have htrue : ∀ id, Holds (store y) true id ↔ Holds (store x) true id := fun id => by
      rw [hholds id]
      exact or_iff_right_of_imp fun hid => hid.2 ▸ hold hid.1
    exact ⟨hready, hwf, by rw [hqueue]; exact h.nodup,
      fun id => by rw [hqueue, htrue id]; exact h.enabled id,
      fun id hid => hloads id (h.loads id ((htrue id).mp hid))⟩
  rcases hcase with ⟨hold, hqueue⟩ | ⟨hnot, hsave, hload, hqueue⟩ | ⟨hnot, hsave, hqueue⟩
  · exact hsame hqueue fun htrue => htrue ▸ hold
  · cases enabled with
    | false => exact (hop hnot hsave).elim
    | true =>
        refine ⟨hready, hwf, ?_, fun id => ?_, fun id hid => ?_⟩
        · rw [hqueue]
          refine List.nodup_append.mpr ⟨h.nodup, by simp, fun k hk c hc => ?_⟩
          obtain rfl := List.mem_singleton.mp hc
          exact fun heq => hnot (heq ▸ (h.enabled k).mp hk)
        · rw [hqueue, hholds id, List.mem_append, List.mem_singleton, h.enabled id]
          simp [or_comm]
        · rcases (hholds id).mp hid with ⟨-, rfl⟩ | hid
          · exact hload
          · exact hloads id (h.loads id hid)
  · cases enabled with
    | false => exact hsame hqueue nofun
    | true => exact (hsave (hop hnot)).elim

theorem InQueue.storesEnabled (h : InQueue x)
    (hexec : (SchedulerOp.add enabled testcase env).exec x = some x') (hs : Scheduled x') :
    StoresEnabled x (.add enabled testcase env) := by
  obtain ⟨y, hexec', -, -, hholds, -, hcase⟩ := h.add_cases enabled testcase env
  obtain rfl := Option.some.inj (hexec'.symm.trans hexec)
  cases enabled with
  | true =>
      intro hnot
      by_contra hsave
      rcases hcase with ⟨hold, -⟩ | ⟨-, hsave', -⟩ | ⟨-, -, hqueue⟩
      · exact hnot hold
      · exact hsave hsave'
      · have hmem := (hs.enabled testcase.id).mpr ((hholds _).mpr (Or.inl ⟨rfl, rfl⟩))
        rw [hqueue] at hmem
        exact hnot ((h.enabled _).mp hmem)
  | false =>
      intro hnot hsave
      rcases hcase with ⟨hold, -⟩ | ⟨-, -, -, hqueue⟩ | ⟨-, hsave', -⟩
      · exact hnot hold
      · have hmem : testcase.id ∈ (scheduler y).queue := by rw [hqueue]; simp
        have hold : Holds (store x) true testcase.id :=
          ((hholds _).mp ((hs.enabled _).mp hmem)).resolve_left nofun
        have hnodup := hs.nodup
        rw [hqueue, List.nodup_append] at hnodup
        exact hnodup.2.2 _ ((h.enabled _).mpr hold) _ (by simp) rfl
      · exact hsave' hsave

/-- **The step lemma.** From a queue of the enabled ids an operation leaves
scheduler and corpus in agreement exactly when it stores as `StoresEnabled`. -/
theorem InQueue.scheduled_iff (h : InQueue x) (op : SchedulerOp I Env) :
    (∀ x', op.exec x = some x' → Scheduled x') ↔ StoresEnabled x op := by
  match op with
  | .next =>
      refine iff_of_true (fun x' hexec => ?_) trivial
      obtain rfl := Option.some.inj hexec
      exact h.next.scheduled
  | .add enabled testcase env =>
      obtain ⟨x', hexec, -⟩ := h.add_cases enabled testcase env
      refine ⟨fun hs => h.storesEnabled hexec (hs x' hexec), fun hop y hy => ?_⟩
      exact (h.add hop hy).scheduled

theorem InQueue.exec (h : InQueue x) {op : SchedulerOp I Env} (hop : StoresEnabled x op)
    (hexec : op.exec x = some x') : InQueue x' := by
  match op with
  | .next =>
      obtain rfl := Option.some.inj hexec
      exact h.next
  | .add enabled testcase env => exact h.add hop hexec

/-- **Scheduler and corpus agree exactly as long as only enabled testcases
are stored.** In a run of adds and calls of `next` on an empty corpus with an
empty queue, every operation leaves them in agreement if and only if every
add stores as `StoresEnabled`. -/
theorem scheduled_iff_storesEnabled (x : X) (hready : Ready x) (hwf : Wf (store x))
    (hempty : ∀ id, ¬ Holds (store x) true id) (hqueue : (scheduler x).queue = [])
    (ops : List (SchedulerOp I Env)) :
    StepsMeet SchedulerOp.exec x ops (fun x op => ∀ x', op.exec x = some x' → Scheduled x') ↔
      StepsMeet SchedulerOp.exec x ops StoresEnabled := by
  have hstart : InQueue x := by
    refine ⟨hready, hwf, hqueue ▸ List.nodup_nil, fun id => ?_, fun id hid => (hempty id hid).elim⟩
    rw [hqueue]
    exact iff_of_false List.not_mem_nil (hempty id)
  exact stepsMeet_congr InQueue hstart (fun x op _ h => h.scheduled_iff op)
    fun x op x' _ h hop => h.exec hop

end

theorem scheduled_enabled_adds :
    StepsMeet SchedulerOp.exec
      (⟨.new, .new⟩ : SingleCorpus (InMemoryStore ValueInput HashCorpusMap) QueueScheduler)
      [.add true (.new ⟨1⟩) (), .add true (.new ⟨2⟩) (), .add true (.new ⟨1⟩) (), .next]
      (fun x op => ∀ x', op.exec x = some x' → Scheduled x') := by
  refine (scheduled_iff_storesEnabled (S := InMemoryStore ValueInput HashCorpusMap)
    _ Partitions.AddOnly.empty Partitions.Keyed.empty (fun _ => Partitions.not_holds_empty) rfl
    _).mpr ?_
  exact stepsMeet_cons.mpr ⟨fun _ => trivial, fun _ _ => stepsMeet_cons.mpr ⟨fun _ => trivial,
    fun _ _ => stepsMeet_cons.mpr ⟨fun _ => trivial, fun _ _ => stepsMeet_cons.mpr
      ⟨trivial, fun _ _ => stepsMeet_nil⟩⟩⟩⟩

/-- A disabled testcase is scheduled, and cannot be retrieved as enabled. -/
theorem disabled_add_scheduled :
    ¬ ∀ ops : List (SchedulerOp ValueInput Unit), StepsMeet SchedulerOp.exec
      (⟨.new, .new⟩ : SingleCorpus (InMemoryStore ValueInput HashCorpusMap) QueueScheduler) ops
      (fun x op => ∀ x', op.exec x = some x' → Scheduled x') := by
  intro h
  have hs := h [.add false (.new ⟨1⟩) ()] [] _ (List.prefix_refl _) _ rfl _ rfl
  have hheld : Option.isSome _ = true := (hs.enabled ⟨1⟩).mp (by decide)
  exact absurd hheld (by decide)

end Libaflmm
