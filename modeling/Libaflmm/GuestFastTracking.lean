import Libaflmm.AsanFrontend

/-!
# The two ways of tracking inside the guest

`GuestTracking` keeps ranges, and looks an address up as a range of one byte;
`GuestFastTracking` keeps the starts only. As long as the ranges do not overlap,
the two differ on addresses inside a range: to the first these are the range.
-/

namespace Libaflmm

inductive GuestFastTrackingError
  | addressRangeOverflow (addr len : Nat)
  | allocationNotFound (addr : Nat)
  | trackingConflict (addr len : Nat)
  | zeroLength (addr : Nat)
deriving DecidableEq

structure GuestFastTracking where
  ranges : HashSet Nat

namespace GuestFastTracking

def new : GuestFastTracking := ⟨∅⟩

def isOutOfBounds (addr len : Nat) : Bool := len ≠ 0 && 2 ^ 64 - len < addr

def track (start len : Nat) : Call GuestFastTrackingError GuestFastTracking Unit :=
  if isOutOfBounds start len then Call.ofResult (.error (.addressRangeOverflow start len))
  else if len = 0 then Call.ofResult (.error (.zeroLength start))
  else do
    if ← Call.read fun t => decide (start ∈ t.ranges) then
      Call.ofResult (.error (.trackingConflict start len))
    else Call.update fun t => { t with ranges := t.ranges.insert start () }

def untrack (start : Nat) : Call GuestFastTrackingError GuestFastTracking Unit := do
  if ← Call.read fun t => decide (start ∈ t.ranges) then
    Call.update fun t => { t with ranges := t.ranges.erase start }
  else Call.ofResult (.error (.allocationNotFound start))

instance : Tracking GuestFastTracking GuestFastTrackingError := ⟨track, untrack⟩

end GuestFastTracking

/-! ## Side by side -/

/-- The variants the two error types have in common. -/
inductive TrackingErrorKind
  | addressRangeOverflow
  | allocationNotFound
  | trackingConflict
  | zeroLength
deriving DecidableEq

def GuestTrackingError.kind : GuestTrackingError → TrackingErrorKind
  | addressRangeOverflow .. => .addressRangeOverflow
  | allocationNotFound .. => .allocationNotFound
  | trackingConflict .. => .trackingConflict
  | zeroLength .. => .zeroLength

def GuestFastTrackingError.kind : GuestFastTrackingError → TrackingErrorKind
  | addressRangeOverflow .. => .addressRangeOverflow
  | allocationNotFound .. => .allocationNotFound
  | trackingConflict .. => .trackingConflict
  | zeroLength .. => .zeroLength

inductive TrackingOp
  | track (start len : Nat)
  | untrack (start : Nat)

/-- Both trackers, and the ranges that have been tracked and not untracked since. -/
structure Trackers where
  guest : GuestTracking
  fast : GuestFastTracking
  live : List GuestTracking.Range

namespace Trackers

open GuestTracking (Range)

def new : Trackers := ⟨GuestTracking.new, GuestFastTracking.new, []⟩

def guestCall : TrackingOp → Call GuestTrackingError GuestTracking Unit
  | .track start len => GuestTracking.track start len
  | .untrack start => GuestTracking.untrack start

def fastCall : TrackingOp → Call GuestFastTrackingError GuestFastTracking Unit
  | .track start len => GuestFastTracking.track start len
  | .untrack start => GuestFastTracking.untrack start

/-- What a call means: a range that can be tracked is, and an address stops the
range it is the start of. -/
def meaning : TrackingOp → List Range → List Range
  | .track start len, live =>
      if GuestTracking.isOutOfBounds start len || len = 0 then live else ⟨start, len⟩ :: live
  | .untrack start, live => live.eraseP fun r => r.start = start

def step (s : Trackers) (op : TrackingOp) : Option Trackers := do
  let (_, guest) ← (guestCall op).run s.guest
  let (_, fast) ← (fastCall op).run s.fast
  return ⟨guest, fast, meaning op s.live⟩

def Apart (r r' : Range) : Prop := r.start + r.len ≤ r'.start ∨ r'.start + r'.len ≤ r.start

instance : Std.Symm Apart := ⟨fun _ _ => Or.symm⟩

/-- A range that can be tracked does not overlap those that are. -/
def TracksApart (s : Trackers) : TrackingOp → Prop
  | .track start len =>
      GuestTracking.isOutOfBounds start len = false → len ≠ 0 → ∀ r ∈ s.live, Apart ⟨start, len⟩ r
  | .untrack _ => True

/-- The trackers answer alike, and `untrack` succeeds for the start of a live range. -/
def Agree (s : Trackers) (op : TrackingOp) : Prop :=
  ∃ r r' guest fast, (guestCall op).run s.guest = some (r, guest) ∧
    (fastCall op).run s.fast = some (r', fast) ∧
    r.mapError GuestTrackingError.kind = r'.mapError GuestFastTrackingError.kind ∧
    ∀ start, op = .untrack start → (r = .ok () ↔ ∃ range ∈ s.live, range.start = start)

/-- The address given to `untrack` is not inside a live range, behind its start. -/
def NotInside (s : Trackers) : TrackingOp → Prop
  | .track _ _ => True
  | .untrack start => ∀ r ∈ s.live, ¬(r.start < start ∧ start < r.start + r.len)

/-! ## One call -/

/-- The trackers hold the live ranges. -/
structure Holds (s : Trackers) : Prop where
  guest : s.guest.ranges = s.live
  fast : ∀ a, a ∈ s.fast.ranges ↔ ∃ r ∈ s.live, r.start = a
  apart : s.live.Pairwise Apart
  nonempty : ∀ r ∈ s.live, 0 < r.len

theorem holds_new : Holds new where
  guest := rfl
  fast a := by simp [new, GuestFastTracking.new]
  apart := List.Pairwise.nil
  nonempty r hr := nomatch hr

theorem eq_byte_iff {a : Nat} {r : Range} :
    (Range.mk a 1).eq r = true ↔ r.start ≤ a ∧ a < r.start + r.len ∨ r.start = a := by
  simp only [Range.eq]
  split
  · rw [decide_eq_true_eq]
    omega
  · rw [decide_eq_true_eq]
    omega

theorem eq_eq_false {r r' : Range} (h : Apart r r') (hr : 0 < r.len) (hr' : 0 < r'.len) :
    r.eq r' = false := by
  rw [Apart] at h
  simp only [Range.eq]
  split
  · rw [decide_eq_false_iff_not]
    omega
  · rw [decide_eq_false_iff_not]
    omega

theorem run_guestTrack (start len : Nat) (t : GuestTracking) :
    (GuestTracking.track start len).run t =
      if GuestTracking.isOutOfBounds start len then
        some (.error (.addressRangeOverflow start len), t)
      else if len = 0 then some (.error (.zeroLength start), t)
      else if t.ranges.any (Range.mk start len).eq then
        some (.error (.trackingConflict start len), t)
      else some (.ok (), ⟨⟨start, len⟩ :: t.ranges⟩) := by
  rw [GuestTracking.track]
  split
  · rfl
  split
  · rfl
  rw [Call.run_bind_of_ok (Call.run_read _ _)]
  split <;> rfl

theorem run_guestUntrack (start : Nat) (t : GuestTracking) :
    (GuestTracking.untrack start).run t =
      if t.ranges.any (Range.mk start 1).eq then
        some (.ok (), ⟨t.ranges.eraseP (Range.mk start 1).eq⟩)
      else some (.error (.allocationNotFound start), t) := by
  unfold GuestTracking.untrack
  dsimp only
  rw [Call.run_bind_of_ok (Call.run_read _ _)]
  split <;> rfl

theorem isOutOfBounds_eq : GuestFastTracking.isOutOfBounds = GuestTracking.isOutOfBounds := rfl

theorem run_fastTrack (start len : Nat) (t : GuestFastTracking) :
    (GuestFastTracking.track start len).run t =
      if GuestTracking.isOutOfBounds start len then
        some (.error (.addressRangeOverflow start len), t)
      else if len = 0 then some (.error (.zeroLength start), t)
      else if start ∈ t.ranges then some (.error (.trackingConflict start len), t)
      else some (.ok (), ⟨t.ranges.insert start ()⟩) := by
  rw [GuestFastTracking.track, isOutOfBounds_eq]
  split
  · rfl
  split
  · rfl
  rw [Call.run_bind_of_ok (Call.run_read _ _)]
  by_cases hmem : start ∈ t.ranges
  · rw [if_pos hmem, if_pos (decide_eq_true hmem)]
    rfl
  · rw [if_neg hmem, if_neg (by simp [hmem])]
    rfl

theorem run_fastUntrack (start : Nat) (t : GuestFastTracking) :
    (GuestFastTracking.untrack start).run t =
      if start ∈ t.ranges then some (.ok (), ⟨t.ranges.erase start⟩)
      else some (.error (.allocationNotFound start), t) := by
  unfold GuestFastTracking.untrack
  rw [Call.run_bind_of_ok (Call.run_read _ _)]
  by_cases hmem : start ∈ t.ranges
  · rw [if_pos hmem, if_pos (decide_eq_true hmem)]
    rfl
  · rw [if_neg hmem, if_neg (by simp [hmem])]
    rfl

/-- What both trackers answer, and what they hold afterwards. -/
theorem step_of_runs {s : Trackers} {op : TrackingOp} {r : Except GuestTrackingError Unit}
    {r' : Except GuestFastTrackingError Unit} {guest : GuestTracking} {fast : GuestFastTracking}
    (hguest : (guestCall op).run s.guest = some (r, guest))
    (hfast : (fastCall op).run s.fast = some (r', fast)) :
    step s op = some ⟨guest, fast, meaning op s.live⟩ := by
  rw [step, hguest]
  simp only [Option.bind_eq_bind, Option.bind_some, hfast]
  rfl

theorem eraseP_congr {α : Type} {p q : α → Bool} {l : List α} (h : ∀ a ∈ l, p a = q a) :
    l.eraseP p = l.eraseP q := by
  induction l with
  | nil => rfl
  | cons a l ih =>
      obtain ⟨ha, hl⟩ := List.forall_mem_cons.mp h
      rw [List.eraseP_cons, List.eraseP_cons, ha, ih hl]

/-- No live range starts where another one did. -/
theorem Holds.start_of_eraseP {s : Trackers} (h : Holds s) {start : Nat} {r : Range}
    (hlive : ∃ r ∈ s.live, r.start = start)
    (hr : r ∈ s.live.eraseP fun r => decide (r.start = start)) : r.start ≠ start := by
  obtain ⟨r₀, hr₀, hstart₀⟩ := hlive
  obtain ⟨r', before, behind, hbefore, hstart, hsplit, herase⟩ :=
    List.exists_of_eraseP (p := fun r => decide (r.start = start)) hr₀ (decide_eq_true hstart₀)
  rw [herase] at hr
  rcases List.mem_append.mp hr with hr | hr
  · exact fun heq => hbefore r hr (decide_eq_true heq)
  · have hapart := h.apart
    have hnonempty := h.nonempty
    rw [hsplit] at hapart hnonempty
    have hrr := (List.pairwise_cons.mp (List.pairwise_append.mp hapart).2.1).1 r hr
    have hlen := hnonempty r (by simp [hr])
    have hlen' := hnonempty r' (by simp)
    rw [decide_eq_true_eq] at hstart
    rcases hrr with hbefore | hbehind
    · omega
    · omega

/-- **Tracking** a range apart from the live ones. -/
theorem Holds.track {s : Trackers} (h : Holds s) {start len : Nat}
    (hapart : s.TracksApart (.track start len)) :
    Agree s (.track start len) ∧ ∀ s', step s (.track start len) = some s' → Holds s' := by
  have hguest : (guestCall (.track start len)).run s.guest = _ := run_guestTrack start len s.guest
  have hfast : (fastCall (.track start len)).run s.fast = _ := run_fastTrack start len s.fast
  by_cases hbounds : GuestTracking.isOutOfBounds start len = true
  · rw [if_pos hbounds] at hguest hfast
    refine ⟨⟨_, _, _, _, hguest, hfast, rfl, fun _ hop => nomatch hop⟩, fun s' hstep => ?_⟩
    obtain rfl := Option.some.inj ((step_of_runs (s := s) hguest hfast).symm.trans hstep)
    simpa [meaning, hbounds] using h
  by_cases hlen : len = 0
  · rw [if_neg hbounds, if_pos hlen] at hguest hfast
    refine ⟨⟨_, _, _, _, hguest, hfast, rfl, fun _ hop => nomatch hop⟩, fun s' hstep => ?_⟩
    obtain rfl := Option.some.inj ((step_of_runs (s := s) hguest hfast).symm.trans hstep)
    simpa [meaning, hlen] using h
  have hlive := hapart (eq_false_of_ne_true hbounds) hlen
  have hnone : ¬s.guest.ranges.any (Range.mk start len).eq = true := by
    rw [h.guest, List.any_eq_true]
    rintro ⟨r, hr, heq⟩
    rw [eq_eq_false (hlive r hr) (by exact Nat.pos_of_ne_zero hlen) (h.nonempty r hr)] at heq
    cases heq
  have hnew : start ∉ s.fast.ranges := by
    rw [h.fast]
    rintro ⟨r, hr, rfl⟩
    have hlen' := h.nonempty r hr
    rcases hlive r hr with hbefore | hbehind
    · dsimp only at hbefore
      omega
    · dsimp only at hbehind
      omega
  rw [if_neg hbounds, if_neg hlen, if_neg hnone] at hguest
  rw [if_neg hbounds, if_neg hlen, if_neg hnew] at hfast
  refine ⟨⟨_, _, _, _, hguest, hfast, rfl, fun _ hop => nomatch hop⟩, fun s' hstep => ?_⟩
  obtain rfl := Option.some.inj ((step_of_runs (s := s) hguest hfast).symm.trans hstep)
  have hmeaning : meaning (.track start len) s.live = ⟨start, len⟩ :: s.live := by
    simp [meaning, hbounds, hlen]
  rw [hmeaning]
  refine ⟨by rw [h.guest], fun a => ?_, List.pairwise_cons.mpr ⟨hlive, h.apart⟩, fun r hr => ?_⟩
  · rw [AList.mem_insert, h.fast, List.exists_mem_cons_iff, eq_comm]
  · rcases List.mem_cons.mp hr with rfl | hr
    · exact Nat.pos_of_ne_zero hlen
    · exact h.nonempty r hr

/-- **Untracking**: both answer alike exactly when the address is not inside a range. -/
theorem Holds.untrack {s : Trackers} (h : Holds s) (start : Nat) :
    (Agree s (.untrack start) ↔ s.NotInside (.untrack start)) ∧
      ∀ s', s.NotInside (.untrack start) → step s (.untrack start) = some s' → Holds s' := by
  have hguest : (guestCall (.untrack start)).run s.guest = _ := run_guestUntrack start s.guest
  have hfast : (fastCall (.untrack start)).run s.fast = _ := run_fastUntrack start s.fast
  have hfound : s.guest.ranges.any (Range.mk start 1).eq = true ↔
      ∃ r ∈ s.live, r.start ≤ start ∧ start < r.start + r.len := by
    rw [h.guest, List.any_eq_true]
    refine exists_congr fun r => and_congr_right fun hr => ?_
    have hlen := h.nonempty r hr
    rw [eq_byte_iff]
    omega
  by_cases hinside : s.NotInside (.untrack start)
  swap
  · -- inside a range: no other range starts there
    refine ⟨iff_of_false ?_ hinside, fun s' hnot => absurd hnot hinside⟩
    obtain ⟨r, hr, hlt, hlt'⟩ : ∃ r ∈ s.live, r.start < start ∧ start < r.start + r.len := by
      simpa [NotInside] using hinside
    have hstart : start ∉ s.fast.ranges := by
      rw [h.fast]
      rintro ⟨r', hr', rfl⟩
      have hlen := h.nonempty r' hr'
      have hne : r ≠ r' := fun heq => by
        rw [heq] at hlt
        exact Nat.lt_irrefl _ hlt
      rcases h.apart.forall hr hr' hne with hbefore | hbehind
      · omega
      · omega
    rw [if_pos (hfound.mpr ⟨r, hr, hlt.le, hlt'⟩)] at hguest
    rw [if_neg hstart] at hfast
    rintro ⟨a, a', guest, fast, hguest', hfast', hkind, -⟩
    obtain ⟨rfl, -⟩ := Prod.mk.inj (Option.some.inj (hguest.symm.trans hguest'))
    obtain ⟨rfl, -⟩ := Prod.mk.inj (Option.some.inj (hfast.symm.trans hfast'))
    cases hkind
  have hsame : ∀ r ∈ s.live, (Range.mk start 1).eq r = decide (r.start = start) := by
    intro r hr
    have hnot := hinside r hr
    have hlen := h.nonempty r hr
    rw [Bool.eq_iff_iff, eq_byte_iff, decide_eq_true_eq]
    omega
  by_cases hlive : ∃ r ∈ s.live, r.start = start
  · have hany : s.guest.ranges.any (Range.mk start 1).eq = true := by
      obtain ⟨r, hr, rfl⟩ := hlive
      have hlen := h.nonempty r hr
      exact hfound.mpr ⟨r, hr, le_rfl, by omega⟩
    rw [if_pos hany] at hguest
    rw [if_pos ((h.fast start).mpr hlive)] at hfast
    refine ⟨iff_of_true ⟨_, _, _, _, hguest, hfast, rfl, fun a hop => ?_⟩ hinside,
      fun s' _ hstep => ?_⟩
    · obtain rfl := TrackingOp.untrack.inj hop
      exact iff_of_true rfl hlive
    obtain rfl := Option.some.inj ((step_of_runs (s := s) hguest hfast).symm.trans hstep)
    have hsub : (s.live.eraseP fun r => decide (r.start = start)).Sublist s.live :=
      List.eraseP_sublist
    refine ⟨?_, fun a => ?_, h.apart.sublist hsub, fun r hr => h.nonempty r (hsub.subset hr)⟩
    · rw [h.guest]
      exact eraseP_congr hsame
    · rw [AList.mem_erase, h.fast]
      by_cases ha : a = start
      · subst ha
        refine iff_of_false (fun hmem => hmem.1 rfl) ?_
        rintro ⟨r, hr, heq⟩
        exact h.start_of_eraseP hlive hr heq
      · rw [and_iff_right ha]
        refine exists_congr fun r => and_congr_left fun heq => ?_
        exact (List.mem_eraseP_of_neg (by simp [heq, ha])).symm
  · have hnone : ¬s.guest.ranges.any (Range.mk start 1).eq = true := by
      rw [h.guest, List.any_eq_true]
      rintro ⟨r, hr, heq⟩
      rw [hsame r hr, decide_eq_true_eq] at heq
      exact hlive ⟨r, hr, heq⟩
    rw [if_neg hnone] at hguest
    rw [if_neg fun hmem => hlive ((h.fast start).mp hmem)] at hfast
    refine ⟨iff_of_true ⟨_, _, _, _, hguest, hfast, rfl, fun a hop => ?_⟩ hinside,
      fun s' _ hstep => ?_⟩
    · obtain rfl := TrackingOp.untrack.inj hop
      exact iff_of_false (fun hok => nomatch hok) hlive
    obtain rfl := Option.some.inj ((step_of_runs (s := s) hguest hfast).symm.trans hstep)
    have hkeep : meaning (.untrack start) s.live = s.live := by
      refine List.eraseP_of_forall_not fun r hr heq => hlive ⟨r, hr, ?_⟩
      exact of_decide_eq_true heq
    rw [hkeep]
    exact h

/-! ## Runs -/

/-- **When the trackers agree**: in a run in which the ranges tracked do not
overlap, as long as no address inside a range is given to `untrack`. -/
theorem agree_iff_notInside {ops : List TrackingOp} (hapart : StepsMeet step new ops TracksApart) :
    StepsMeet step new ops Agree ↔ StepsMeet step new ops NotInside := by
  refine stepsMeet_congr_of Holds hapart holds_new (fun s op _ hs htracks => ?_)
    fun s op s' _ hs htracks hmeets hstep => ?_
  · cases op with
    | track start len => exact iff_of_true (hs.track htracks).1 trivial
    | untrack start => exact (hs.untrack start).1
  · cases op with
    | track start len => exact (hs.track htracks).2 s' hstep
    | untrack start => exact (hs.untrack start).2 s' hmeets hstep

/-- A range that is tracked, freed at its start, and not freed again. -/
theorem agree_free_twice :
    StepsMeet step new [.track 16 8, .untrack 16, .untrack 16] TracksApart ∧
      StepsMeet step new [.track 16 8, .untrack 16, .untrack 16] Agree := by
  have hapart : StepsMeet step new [.track 16 8, .untrack 16, .untrack 16] TracksApart := by
    refine stepsMeet_cons.mpr ⟨fun _ _ r hr => (nomatch hr), fun s _ => ?_⟩
    refine stepsMeet_cons.mpr ⟨trivial, fun s _ => ?_⟩
    exact stepsMeet_cons.mpr ⟨trivial, fun s _ => stepsMeet_nil⟩
  refine ⟨hapart, (agree_iff_notInside hapart).mpr ?_⟩
  refine stepsMeet_cons.mpr ⟨trivial, fun s hs => ?_⟩
  obtain rfl := Option.some.inj hs
  refine stepsMeet_cons.mpr ⟨?_, fun s hs => ?_⟩
  · intro r hr
    obtain rfl := List.mem_singleton.mp hr
    exact fun h => Nat.lt_irrefl _ h.1
  · obtain rfl := Option.some.inj hs
    exact stepsMeet_cons.mpr ⟨fun r hr => (nomatch hr), fun s _ => stepsMeet_nil⟩

/-- An address inside a range: the range is gone for one tracker only. -/
theorem not_agree_inside :
    StepsMeet step new [.track 16 8, .untrack 20] TracksApart ∧
      ¬StepsMeet step new [.track 16 8, .untrack 20] Agree := by
  refine ⟨?_, fun h => ?_⟩
  · refine stepsMeet_cons.mpr ⟨fun _ _ r hr => (nomatch hr), fun s _ => ?_⟩
    exact stepsMeet_cons.mpr ⟨trivial, fun s _ => stepsMeet_nil⟩
  obtain ⟨r, r', guest, fast, hguest, hfast, hkind, -⟩ :=
    h [.track 16 8] (.untrack 20) (List.prefix_refl _) _ rfl
  obtain ⟨rfl, -⟩ := Prod.mk.inj (Option.some.inj hguest)
  obtain ⟨rfl, -⟩ := Prod.mk.inj (Option.some.inj hfast)
  cases hkind

end Trackers

end Libaflmm
