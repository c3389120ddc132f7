import Libaflmm.Runs
import Libaflmm.Store
import Mathlib.Data.Finset.SDiff
import Mathlib.Data.Finset.Union

/-!
# List feedback

A list feedback remembers, in the state, every element of its observer's list
in the runs that were added to the corpus. It does so in two calls. The first
one decides whether a run is interesting, and keeps what is new in a buffer;
the second one, made when the run is added, moves the buffer to the history.

Feedbacks combine to trees. A tree asks its leaves from left to right and may
stop early, yet when a run is added every leaf is told, in the same order, as
long as none of them fails.
-/

namespace Libaflmm

/-! ## Feedback trees -/

inductive FeedbackLogic where
  | eagerOr
  | fastOr
  | eagerAnd
  | fastAnd
deriving DecidableEq

namespace FeedbackLogic

def combine : FeedbackLogic → Bool → Bool → Bool
  | eagerOr, a, b => a || b
  | fastOr, a, b => a || b
  | eagerAnd, a, b => a && b
  | fastAnd, a, b => a && b

/-- The fast ones do not ask the second feedback when the first one decides. -/
def decided : FeedbackLogic → Bool → Bool
  | eagerOr, _ => false
  | fastOr, a => a
  | eagerAnd, _ => false
  | fastAnd, a => !a

end FeedbackLogic

/-- A tree of feedbacks over elements `T`: the leaves are list feedbacks, each
with the handle of its observer and what it found new, and any other ones. -/
inductive Feedback (H L T : Type) where
  | list (handle : H) (novelty : Finset T)
  | other (leaf : L)
  | combined (logic : FeedbackLogic) (first second : Feedback H L T)
  | not (inner : Feedback H L T)

/-- What the feedbacks get to see of a run: the lists that were observed, and
how the other leaves answer. -/
structure ObservedRun (H L T : Type) where
  list : H → List T
  interesting : L → Result Bool
  appended : L → Result Unit

namespace Feedback

variable {H L T : Type} [DecidableEq H] [DecidableEq T]

/-- The history is kept under the name of the observer. -/
def isInteresting (history : H → Finset T) (r : ObservedRun H L T) :
    Feedback H L T → Result Bool × Feedback H L T
  | .list handle _ =>
    let novelty := (r.list handle).toFinset \ history handle
    (.ok (novelty ≠ ∅), .list handle novelty)
  | .other leaf => (r.interesting leaf, .other leaf)
  | .combined logic first second =>
    match first.isInteresting history r with
    | (.error e, first) => (.error e, .combined logic first second)
    | (.ok a, first) =>
      if logic.decided a then (.ok a, .combined logic first second)
      else
        match second.isInteresting history r with
        | (b, second) => (b.map (logic.combine a), .combined logic first second)
  | .not inner =>
    match inner.isInteresting history r with
    | (a, inner) => (a.map (!·), .not inner)

def appendMetadata (r : ObservedRun H L T) :
    Feedback H L T → (H → Finset T) → Result Unit × (H → Finset T)
  | .list handle novelty, history =>
    (.ok (), Function.update history handle (history handle ∪ novelty))
  | .other leaf, history => (r.appended leaf, history)
  | .combined _ first second, history =>
    match first.appendMetadata r history with
    | (.error e, history) => (.error e, history)
    | (.ok (), history) => second.appendMetadata r history
  | .not inner, history => inner.appendMetadata r history

/-- A fuzzer as its feedback sees it, with the runs that were accepted. -/
structure Session (H L T : Type) where
  feedback : Feedback H L T
  history : H → Finset T
  accepted : List (ObservedRun H L T)

namespace Session

def new (feedback : Feedback H L T) : Session H L T := ⟨feedback, fun _ => ∅, []⟩

def evaluate (s : Session H L T) (r : ObservedRun H L T) : Option (Session H L T) :=
  match s.feedback.isInteresting s.history r with
  | (.ok true, feedback) =>
    some ⟨feedback, (feedback.appendMetadata r s.history).2, s.accepted ++ [r]⟩
  | (_, feedback) => some { s with feedback }

end Session

/-! ## Which leaves are asked and which are told -/

/-- The answer of the tree, from those of its leaves. -/
def verdict (history : H → Finset T) (r : ObservedRun H L T) : Feedback H L T → Result Bool
  | .list handle _ => .ok (∃ x ∈ r.list handle, x ∉ history handle)
  | .other leaf => r.interesting leaf
  | .combined logic first second => do
    let a ← first.verdict history r
    if logic.decided a then return a
    return logic.combine a (← second.verdict history r)
  | .not inner => (!·) <$> inner.verdict history r

/-- The second feedback is asked, after this one. -/
def goesOn (history : H → Finset T) (r : ObservedRun H L T) (logic : FeedbackLogic)
    (first : Feedback H L T) : Bool :=
  match first.verdict history r with
  | .ok a => !logic.decided a
  | .error _ => false

/-- No leaf fails to be told. -/
def appends (r : ObservedRun H L T) : Feedback H L T → Bool
  | .list _ _ => true
  | .other leaf => (r.appended leaf).isOk
  | .combined _ first second => first.appends r && second.appends r
  | .not inner => inner.appends r

def handles : Feedback H L T → List H
  | .list handle _ => [handle]
  | .other _ => []
  | .combined _ first second => first.handles ++ second.handles
  | .not inner => inner.handles

/-- What the leaves over `handle` that are told hold. -/
def delivered (r : ObservedRun H L T) (handle : H) : Feedback H L T → Finset T
  | .list h novelty => if h = handle then novelty else ∅
  | .other _ => ∅
  | .combined _ first second =>
    first.delivered r handle ∪ if first.appends r then second.delivered r handle else ∅
  | .not inner => inner.delivered r handle

section

variable (history : H → Finset T) (r : ObservedRun H L T) (handle : H)

/-- Some leaf over `handle` is both asked and told; `asked` is whether the
tree is. -/
def asks : Bool → Feedback H L T → Bool
  | asked, .list h _ => asked && h = handle
  | _, .other _ => false
  | asked, .combined logic first second =>
    asks asked first ||
      (first.appends r && asks (asked && goesOn history r logic first) second)
  | asked, .not inner => asks asked inner

/-- What the leaves over `handle` that are told without having been asked
still hold from an earlier run. -/
def stale : Bool → Feedback H L T → Finset T
  | asked, .list h novelty => if asked = false ∧ h = handle then novelty else ∅
  | _, .other _ => ∅
  | asked, .combined logic first second =>
    stale asked first ∪
      if first.appends r then stale (asked && goesOn history r logic first) second else ∅
  | asked, .not inner => stale asked inner

end

/-! ### The calls, by these -/

section

variable {history : H → Finset T} {r : ObservedRun H L T} {handle : H} {t : Feedback H L T}

omit [DecidableEq H] in
variable (t history r) in
theorem isInteresting_verdict :
    (t.isInteresting history r).1 = t.verdict history r := by
  induction t with
  | list handle novelty =>
      simp [isInteresting, verdict, Finset.ext_iff]
  | other leaf => rfl
  | combined logic first second ihf ihs =>
      simp only [isInteresting, verdict, ← ihf, ← ihs]
      cases first.isInteresting history r with
      | mk a first' =>
          cases a with
          | error e => rfl
          | ok a =>
              cases hd : logic.decided a
              · cases (second.isInteresting history r).1 <;>
                  simp [hd, bind, Except.bind, pure, Except.pure, Except.map]
              · simp [hd, bind, Except.bind, pure, Except.pure]
  | not inner ih =>
      simp only [isInteresting, verdict, ← ih]
      rfl

omit [DecidableEq H] in
theorem isInteresting_combined (logic : FeedbackLogic) (first second : Feedback H L T) :
    ((combined logic first second).isInteresting history r).2 =
      combined logic (first.isInteresting history r).2
        (if goesOn history r logic first then (second.isInteresting history r).2
          else second) := by
  rw [isInteresting, goesOn, ← isInteresting_verdict]
  cases first.isInteresting history r with
  | mk a first' =>
      cases a with
      | error e => rfl
      | ok a => cases hd : logic.decided a <;> simp [hd]

omit [DecidableEq H] in
@[simp]
theorem handles_isInteresting : (t.isInteresting history r).2.handles = t.handles := by
  induction t with
  | list handle novelty => rfl
  | other leaf => rfl
  | combined logic first second ihf ihs =>
      rw [isInteresting_combined, handles, handles, ihf]
      split
      · rw [ihs]
      · rfl
  | not inner ih => exact ih

omit [DecidableEq H] in
@[simp]
theorem appends_isInteresting : (t.isInteresting history r).2.appends r = t.appends r := by
  induction t with
  | list handle novelty => rfl
  | other leaf => rfl
  | combined logic first second ihf ihs =>
      rw [isInteresting_combined, appends, appends, ihf]
      split
      · rw [ihs]
      · rfl
  | not inner ih => exact ih

/-- A tree that is not asked holds what it held. -/
theorem stale_false : stale history r handle false t = t.delivered r handle := by
  induction t with
  | list h novelty => simp [stale, delivered]
  | other leaf => rfl
  | combined logic first second ihf ihs => simp only [stale, delivered, Bool.false_and, ihf, ihs]
  | not inner ih => exact ih

theorem asks_false : asks history r handle false t = false := by
  induction t with
  | list h novelty => rfl
  | other leaf => rfl
  | combined logic first second ihf ihs =>
      simp only [asks, Bool.false_and, ihf, ihs, Bool.and_false, Bool.or_false]
  | not inner ih => exact ih

/-- After the tree was asked, a leaf that is told holds what is new in this
run when it was asked, and what it held when it was not. -/
theorem mem_delivered_isInteresting {x : T} :
    x ∈ (t.isInteresting history r).2.delivered r handle ↔
      x ∈ stale history r handle true t ∨
        asks history r handle true t = true ∧ x ∈ r.list handle ∧ x ∉ history handle := by
  induction t with
  | list h novelty =>
      simp only [isInteresting, delivered, stale, asks, Bool.true_eq_false, false_and, if_false,
        Bool.true_and, decide_eq_true_eq]
      by_cases hh : h = handle
      · simp [hh]
      · simp [hh]
  | other leaf => simp [isInteresting, delivered, stale, asks]
  | combined logic first second ihf ihs =>
      rw [isInteresting_combined]
      simp only [delivered, stale, asks, Bool.true_and, appends_isInteresting, Finset.mem_union,
        Bool.or_eq_true, Bool.and_eq_true, ihf]
      cases first.appends r with
      | false => simp
      | true =>
          cases goesOn history r logic first with
          | true =>
              simp only [if_true, ihs, or_and_right, true_and]
              exact or_or_or_comm
          | false => simp [stale_false, asks_false, or_right_comm]
  | not inner ih => exact ih

theorem appendMetadata_isOk {h : H → Finset T} : (t.appendMetadata r h).1.isOk = t.appends r := by
  induction t generalizing h with
  | list handle novelty => rfl
  | other leaf => rfl
  | combined logic first second ihf ihs =>
      rw [appendMetadata, appends, ← ihf (h := h)]
      cases first.appendMetadata r h with
      | mk a h' =>
          cases a with
          | error e => rfl
          | ok u => exact ihs
  | not inner ih => exact ih

/-- The history gains what the leaves that are told hold. -/
theorem appendMetadata_history {h : H → Finset T} :
    (t.appendMetadata r h).2 handle = h handle ∪ t.delivered r handle := by
  induction t generalizing h with
  | list h' novelty =>
      simp only [appendMetadata, delivered]
      by_cases hh : h' = handle
      · subst hh
        simp
      · simp [Function.update_of_ne (Ne.symm hh), hh]
  | other leaf => simp [appendMetadata, delivered]
  | combined logic first second ihf ihs =>
      have hok := appendMetadata_isOk (t := first) (r := r) (h := h)
      have hfirst := ihf (h := h)
      rw [appendMetadata, delivered]
      cases hc : first.appendMetadata r h with
      | mk a h' =>
          rw [hc] at hok hfirst
          dsimp only at hok hfirst
          cases a with
          | error e => simp [← hok, Except.isOk, Except.toBool, hfirst]
          | ok u => simp [← hok, Except.isOk, Except.toBool, ihs, hfirst, Finset.union_assoc]
  | not inner ih => exact ih

end

/-! ## What is remembered -/

/-- The history of each list feedback holds what was observed in the runs that
were accepted, and nothing else. -/
def Session.Remembers (s : Session H L T) : Prop :=
  ∀ handle ∈ s.feedback.handles, ∀ x,
    x ∈ s.history handle ↔ ∃ r ∈ s.accepted, x ∈ r.list handle

/-- Of a run that is accepted, the leaves that are told without having been
asked hold nothing but what was observed in this run or is remembered, and
what is new in the run is held by them or by a leaf that was asked. -/
def Session.HoldsTheRun (s : Session H L T) (r : ObservedRun H L T) : Prop :=
  s.feedback.verdict s.history r = .ok true →
    ∀ handle ∈ s.feedback.handles,
      (∀ x ∈ s.feedback.stale s.history r handle true,
        x ∈ s.history handle ∨ x ∈ r.list handle) ∧
      ∀ x ∈ r.list handle, x ∉ s.history handle →
        x ∈ s.feedback.stale s.history r handle true ∨
          s.feedback.asks s.history r handle true = true

namespace Session

variable {s : Session H L T} {r : ObservedRun H L T}

theorem evaluate_accepted (h : s.feedback.verdict s.history r = .ok true) :
    s.evaluate r = some ⟨(s.feedback.isInteresting s.history r).2,
      ((s.feedback.isInteresting s.history r).2.appendMetadata r s.history).2,
      s.accepted ++ [r]⟩ := by
  have hv := isInteresting_verdict s.history r s.feedback
  rw [evaluate]
  cases hi : s.feedback.isInteresting s.history r with
  | mk a feedback =>
      rw [hi, h] at hv
      obtain rfl : a = .ok true := hv
      rfl

theorem evaluate_rejected (h : s.feedback.verdict s.history r ≠ .ok true) :
    s.evaluate r = some { s with feedback := (s.feedback.isInteresting s.history r).2 } := by
  have hv := isInteresting_verdict s.history r s.feedback
  rw [evaluate]
  cases hi : s.feedback.isInteresting s.history r with
  | mk a feedback =>
      rw [hi] at hv
      rcases a with e | ⟨⟨⟩⟩
      · rfl
      · rfl
      · exact absurd hv.symm h

/-- One run keeps what is remembered right exactly when it is held right. -/
theorem Remembers.evaluate_iff (h : s.Remembers) :
    (∃ t, s.evaluate r = some t ∧ t.Remembers) ↔ s.HoldsTheRun r := by
  by_cases hv : s.feedback.verdict s.history r = .ok true
  · rw [evaluate_accepted hv]
    simp only [Option.some.injEq, exists_eq_left', Remembers, HoldsTheRun, hv, true_implies,
      handles_isInteresting, appendMetadata_history, Finset.mem_union, mem_delivered_isInteresting,
      List.mem_append, List.mem_singleton, or_and_right, exists_or, exists_eq_left]
    refine forall₂_congr fun handle hmem => ?_
    rw [← forall_and]
    refine forall_congr' fun x => ?_
    rw [h handle hmem x]
    grind
  · rw [evaluate_rejected hv]
    refine iff_of_true ⟨_, rfl, ?_⟩ fun h => absurd h hv
    intro handle hmem
    exact h handle (by simpa using hmem)

end Session

/-! ### Eager trees -/

/-- No combination in the tree stops early. -/
def Eager : Feedback H L T → Prop
  | .list _ _ => True
  | .other _ => True
  | .combined logic first second =>
    (logic = .eagerOr ∨ logic = .eagerAnd) ∧ first.Eager ∧ second.Eager
  | .not inner => inner.Eager

section

variable {history : H → Finset T} {r : ObservedRun H L T} {handle : H} {t : Feedback H L T}

omit [DecidableEq H] in
/-- Where an eager combination answers, both of its feedbacks have. -/
theorem verdict_eager {logic : FeedbackLogic} {first second : Feedback H L T} {b : Bool}
    (hlogic : logic = .eagerOr ∨ logic = .eagerAnd)
    (h : (combined logic first second).verdict history r = .ok b) :
    (∃ a, first.verdict history r = .ok a) ∧ (∃ a, second.verdict history r = .ok a) ∧
      goesOn history r logic first = true := by
  have hgo : ∀ a, logic.decided a = false := by
    intro a
    rcases hlogic with rfl | rfl <;> rfl
  rw [verdict] at h
  rw [goesOn]
  cases hf : first.verdict history r with
  | error e => simp [hf, bind, Except.bind] at h
  | ok a =>
      cases hs : second.verdict history r with
      | error e => simp [hf, hs, hgo, bind, Except.bind] at h
      | ok a' => simp [hgo]

theorem stale_of_eager {b : Bool} (he : t.Eager) (hv : t.verdict history r = .ok b) :
    stale history r handle true t = ∅ := by
  induction t generalizing b with
  | list h novelty => simp [stale]
  | other leaf => rfl
  | combined logic first second ihf ihs =>
      obtain ⟨⟨a, hf⟩, ⟨a', hs⟩, hgo⟩ := verdict_eager he.1 hv
      simp [stale, hgo, ihf he.2.1 hf, ihs he.2.2 hs]
  | not inner ih =>
      cases hi : inner.verdict history r with
      | error e => simp [verdict, hi, Functor.map, Except.map] at hv
      | ok a => exact ih he hi

theorem asks_of_eager {b : Bool} (he : t.Eager) (hv : t.verdict history r = .ok b)
    (ha : t.appends r = true) (hm : handle ∈ t.handles) :
    asks history r handle true t = true := by
  induction t generalizing b with
  | list h novelty => simpa [asks, handles, eq_comm] using hm
  | other leaf => simp [handles] at hm
  | combined logic first second ihf ihs =>
      obtain ⟨⟨a, hf⟩, ⟨a', hs⟩, hgo⟩ := verdict_eager he.1 hv
      obtain ⟨haf, has⟩ : first.appends r = true ∧ second.appends r = true := by
        simpa [appends] using ha
      rw [asks, hgo, haf]
      rcases List.mem_append.mp hm with hm | hm
      · simp [ihf he.2.1 hf haf hm]
      · simp [ihs he.2.2 hs has hm]
  | not inner ih =>
      cases hi : inner.verdict history r with
      | error e => simp [verdict, hi, Functor.map, Except.map] at hv
      | ok a => exact ih he hi ha hm

/-- An eager tree holds every run that no leaf fails to be told of. -/
theorem Session.holdsTheRun_of_eager {s : Session H L T} (he : s.feedback.Eager)
    (ha : s.feedback.appends r = true) : s.HoldsTheRun r := by
  intro hv handle hm
  rw [stale_of_eager he hv]
  refine ⟨fun x hx => absurd hx (Finset.notMem_empty x), fun x _ _ => .inr ?_⟩
  exact asks_of_eager he hv ha hm

end

/-- **List feedbacks remember the accepted runs** along a sequence of runs
exactly when every accepted run is held by the leaves that are told. -/
theorem remembers_iff_holdsTheRun (t : Feedback H L T) (runs : List (ObservedRun H L T)) :
    Survives Session.evaluate (Session.new t) runs (fun _ s => s.Remembers) ↔
      StepsMeet Session.evaluate (Session.new t) runs Session.HoldsTheRun := by
  refine survives_iff_stepsMeet ?_ fun _ _ r _ h => h.evaluate_iff
  intro handle _ x
  simp [Session.new]

/-- The first run is rejected, as the list is not empty; in the second one
the list feedback is not asked, and is told all the same. -/
theorem rejected_run_is_remembered :
    ¬Survives Session.evaluate
      (Session.new (H := Unit) (L := Unit) (T := Nat)
        (.combined .fastOr (.other ()) (.not (.list () ∅))))
      [⟨fun _ => [7], fun _ => .ok false, fun _ => .ok ()⟩,
        ⟨fun _ => [], fun _ => .ok true, fun _ => .ok ()⟩]
      (fun _ s => s.Remembers) := by
  intro h
  obtain ⟨s, hs, hr⟩ := h _ (List.prefix_refl _)
  obtain rfl := Option.some.inj hs
  have := (hr () (by decide) 7).mp (by decide)
  revert this
  decide

end Feedback

end Libaflmm
