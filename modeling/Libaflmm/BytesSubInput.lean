import Libaflmm.Runs
import Libaflmm.Slices
import Mathlib.Algebra.Group.Nat.Defs

/-!
# Sub inputs

A sub input is a window on the bytes of its parent: mutators work on the
window as on a vector of its own, and the parent grows and shrinks with it.
An overflow panics.
-/

namespace Libaflmm

def startIndex (range : RangeBounds) : Option Nat :=
  match range.startBound with
  | .unbounded => some 0
  | .included start => some start
  | .excluded start => if start + 1 < 2 ^ 64 then some (start + 1) else none

def endIndex (range : RangeBounds) (maxLen : Nat) : Option Nat :=
  match range.endBound with
  | .unbounded => some maxLen
  | .included stop => if stop + 1 < 2 ^ 64 then some (min (stop + 1) maxLen) else none
  | .excluded stop => some (min stop maxLen)

/-- The start of a range that begins at an index, moved into it. -/
def subStart (own : Nat) : Bound → Bound
  | .unbounded => .included own
  | .included other => .included (own + other)
  | .excluded other => .excluded (own + other)

def subEnd (outerRange : Range) : Bound → Option Bound
  | .unbounded => some (.excluded outerRange.stop)
  | .included other =>
    if outerRange.stop = 0 then none
    else some (.included (min (outerRange.stop - 1) (outerRange.start + other)))
  | .excluded other => some (.excluded (min outerRange.stop (outerRange.start + other)))

/-- The sums overflow only where `innerRange` is outside of any vector. -/
def subRange (outerRange : Range) (innerRange : RangeBounds) : Option RangeBounds :=
  (subEnd outerRange innerRange.endBound).map
    (⟨subStart outerRange.start innerRange.startBound, ·⟩)

structure BytesSubInput where
  parentInput : List UInt8
  range : Range

namespace BytesSubInput

def new (parentInput : List UInt8) (range : RangeBounds) : Option BytesSubInput := do
  let start ← startIndex range
  let stop ← endIndex range parentInput.length
  return ⟨parentInput, ⟨start, stop⟩⟩

def len (b : BytesSubInput) : Nat := b.range.len

def mutatorBytes (b : BytesSubInput) : Option (List UInt8) :=
  Slice.get b.parentInput b.range.start b.range.stop

/-- The slice is changed in place. -/
def mutatorBytesMut (b : BytesSubInput) (f : List UInt8 → List UInt8) : Option BytesSubInput :=
  b.mutatorBytes.map fun bytes =>
    { b with parentInput := Slice.writeAt b.parentInput b.range.start (f bytes) }

def resize (b : BytesSubInput) (newLen : Nat) (value : UInt8) : Option BytesSubInput :=
  let startIndex := b.range.start
  let endIndex := b.range.stop
  let oldLen := endIndex - startIndex
  match compare newLen oldLen with
  | .eq => some b
  | .gt => do
    -- Grow the parent, then move what follows the window back.
    let diff := newLen - oldLen
    let oldParentLen := b.parentInput.length
    let parentInput := Vec.resize b.parentInput (oldParentLen + diff) value
    let range := { b.range with stop := endIndex + diff }
    if oldParentLen > endIndex then
      let front := parentInput.take (startIndex + oldLen)
      let rest := parentInput.drop (startIndex + oldLen)
      let rest ← Slice.copyWithin rest 0 (rest.length - diff) diff
      return ⟨front ++ Slice.writeAt rest 0 (List.replicate diff value), range⟩
    else return ⟨parentInput, range⟩
  | .lt => do
    let diff := oldLen - newLen
    let front := b.parentInput.take (startIndex + newLen)
    let rest := b.parentInput.drop (startIndex + newLen)
    let rest ← Slice.copyWithin rest diff (rest.length - diff) 0
    let parentInput := front ++ rest
    return ⟨Vec.resize parentInput (parentInput.length - diff) value,
      { b.range with stop := endIndex - diff }⟩

def extend (b : BytesSubInput) (newValues : List UInt8) : Option BytesSubInput := do
  let oldLen := b.len
  let b ← b.resize (oldLen + newValues.length) 0
  b.mutatorBytesMut fun bytes => Slice.writeAt bytes oldLen newValues

def splice (b : BytesSubInput) (range : RangeBounds) (replaceWith : List UInt8) :
    Option BytesSubInput := do
  let range ← subRange b.range range
  let parentInput ← Vec.splice b.parentInput range replaceWith
  return { b with parentInput }

def drain (b : BytesSubInput) (range : RangeBounds) : Option BytesSubInput := do
  let range ← subRange b.range range
  let (parentInput, drained) ← Vec.drain b.parentInput range
  return ⟨parentInput, { b.range with stop := b.range.stop - drained }⟩

end BytesSubInput

/-- What a mutator does to resizable bytes. -/
inductive ResizeOp where
  | resize (newLen : Nat) (value : UInt8)
  | extend (newValues : List UInt8)
  | splice (range : RangeBounds) (replaceWith : List UInt8)
  | drain (range : RangeBounds)
  | mutate (f : List UInt8 → List UInt8) (inPlace : ∀ bytes, (f bytes).length = bytes.length)

namespace ResizeOp

def onVec (w : List UInt8) : ResizeOp → Option (List UInt8)
  | resize newLen value => some (Vec.resize w newLen value)
  | extend newValues => some (w ++ newValues)
  | splice range replaceWith => Vec.splice w range replaceWith
  | drain range => (Vec.drain w range).map Prod.fst
  | mutate f _ => some (f w)

def onSub (b : BytesSubInput) : ResizeOp → Option BytesSubInput
  | resize newLen value => b.resize newLen value
  | extend newValues => b.extend newValues
  | splice range replaceWith => b.splice range replaceWith
  | drain range => b.drain range
  | mutate f _ => b.mutatorBytesMut f

/-- A window and a vector of its own, as long as the vector does not panic;
the window is gone when it does. -/
def step (s : Option BytesSubInput × List UInt8) (op : ResizeOp) :
    Option (Option BytesSubInput × List UInt8) :=
  (op.onVec s.2).map fun w => (s.1.bind op.onSub, w)

end ResizeOp

/-! ## Windows -/

section

variable {pre post : List UInt8}

/-- `b` is the window `w` between `pre` and `post`. -/
structure Window (pre post : List UInt8) (b : BytesSubInput) (w : List UInt8) : Prop where
  parent : b.parentInput = pre ++ w ++ post
  start : b.range.start = pre.length
  stop : b.range.stop = pre.length + w.length

namespace Window

variable {b : BytesSubInput} {w : List UInt8}

theorem len (h : Window pre post b w) : b.len = w.length := by
  rw [BytesSubInput.len, Range.len, h.start, h.stop, Nat.add_sub_cancel_left]

theorem mutatorBytes (h : Window pre post b w) : b.mutatorBytes = some w := by
  rw [BytesSubInput.mutatorBytes, h.parent, h.start, h.stop, Slice.get_append]

theorem mutatorBytesMut (h : Window pre post b w) {f : List UInt8 → List UInt8}
    (hf : (f w).length = w.length) :
    ∃ b', b.mutatorBytesMut f = some b' ∧ Window pre post b' (f w) := by
  have hwrite := Slice.writeAt_append pre post 0
    (Nat.le_of_eq ((Nat.zero_add _).trans hf))
  rw [Nat.add_zero, Slice.writeAt_self hf] at hwrite
  refine ⟨⟨pre ++ f w ++ post, b.range⟩, ?_, rfl, h.start, ?_⟩
  · rw [BytesSubInput.mutatorBytesMut, h.mutatorBytes, Option.map_some, h.parent, h.start, hwrite]
  · rw [h.stop, hf]

/-- Growing moves what follows the window to the right. -/
theorem resize_gt (h : Window pre post b w) {newLen : Nat} (value : UInt8)
    (hgt : w.length < newLen) :
    ∃ b', b.resize newLen value = some b' ∧ Window pre post b' (Vec.resize w newLen value) := by
  obtain ⟨diff, rfl⟩ : ∃ diff, newLen = w.length + diff := ⟨newLen - w.length, by omega⟩
  set fill := List.replicate diff value with hfill
  have hdiff : fill.length = diff := List.length_replicate
  have hcmp : compare (w.length + diff) w.length = .gt := Nat.compare_eq_gt.mpr hgt
  have hgrown : Vec.resize b.parentInput (b.parentInput.length + diff) value =
      (pre ++ w) ++ (post ++ fill) := by
    rw [Vec.resize_add, h.parent, List.append_assoc (pre ++ w)]
  have hstop : pre.length + w.length = (pre ++ w).length := List.length_append.symm
  refine ⟨⟨pre ++ (w ++ fill) ++ post, ⟨pre.length, pre.length + w.length + diff⟩⟩, ?_, ?_⟩
  · simp only [BytesSubInput.resize, h.start, h.stop, Nat.add_sub_cancel_left, hcmp, hgrown]
    split
    · have hmoved := Slice.copyWithin_right post fill
      have hlen : (post ++ fill).length - diff = post.length := by
        rw [List.length_append, hdiff, Nat.add_sub_cancel]
      rw [hdiff] at hmoved
      rw [hstop, List.take_left, List.drop_left, hlen, hmoved]
      have hcut : ((post ++ fill).take diff).length = diff := by
        rw [List.length_take, List.length_append, hdiff]
        omega
      simp [Slice.writeAt, ← hfill, hdiff, List.drop_left' hcut]
    · next hend =>
        obtain rfl : post = [] := by
          simpa [h.parent, Nat.add_assoc] using hend
        simp
  · rw [Vec.resize_add]
    exact ⟨rfl, rfl, by rw [List.length_append, hdiff, Nat.add_assoc]⟩

/-- Shrinking moves it to the left. -/
theorem resize_lt (h : Window pre post b w) {newLen : Nat} (value : UInt8)
    (hlt : newLen < w.length) :
    ∃ b', b.resize newLen value = some b' ∧ Window pre post b' (Vec.resize w newLen value) := by
  set kept := w.take newLen
  set cut := w.drop newLen
  have hkept : kept.length = newLen := List.length_take_of_le hlt.le
  have hcut : cut.length = w.length - newLen := List.length_drop
  have hcmp : compare newLen w.length = .lt := Nat.compare_eq_lt.mpr hlt
  have hparent : b.parentInput = (pre ++ kept) ++ (cut ++ post) := by
    rw [h.parent, ← List.take_append_drop newLen w]
    simp only [List.append_assoc]
    rfl
  have hstart : pre.length + newLen = (pre ++ kept).length := by
    rw [List.length_append, hkept]
  refine ⟨⟨pre ++ kept ++ post, ⟨pre.length, pre.length + newLen⟩⟩, ?_, ?_⟩
  · have hlen : (cut ++ post).length - cut.length = post.length := by
      rw [List.length_append, Nat.add_sub_cancel_left]
    simp only [BytesSubInput.resize, h.start, h.stop, Nat.add_sub_cancel_left, hcmp, hparent,
      ← hcut, hstart, List.take_left, List.drop_left, hlen, Slice.copyWithin_left,
      Option.bind_eq_bind, Option.bind_some, Option.pure_def]
    have htotal : ((pre ++ kept) ++ (post ++ (cut ++ post).drop post.length)).length - cut.length =
        (pre ++ kept ++ post).length := by
      simp only [List.length_append, List.length_drop]
      omega
    rw [htotal, Vec.resize_of_le, ← List.append_assoc, List.take_left, ← hstart]
    · congr 3
      omega
    · simp only [List.length_append]
      omega
  · rw [Vec.resize_of_le hlt.le]
    exact ⟨rfl, rfl, by rw [List.length_take_of_le hlt.le]⟩

theorem resize (h : Window pre post b w) (newLen : Nat) (value : UInt8) :
    ∃ b', b.resize newLen value = some b' ∧ Window pre post b' (Vec.resize w newLen value) := by
  rcases Nat.lt_trichotomy newLen w.length with hlt | rfl | hgt
  · exact h.resize_lt value hlt
  · refine ⟨b, ?_, ?_⟩
    · have hcmp : compare w.length w.length = .eq := Nat.compare_eq_eq.mpr rfl
      simp only [BytesSubInput.resize, h.start, h.stop, Nat.add_sub_cancel_left, hcmp]
    · simpa [Vec.resize] using h
  · exact h.resize_gt value hgt

theorem extend (h : Window pre post b w) (newValues : List UInt8) :
    ∃ b', b.extend newValues = some b' ∧ Window pre post b' (w ++ newValues) := by
  obtain ⟨grown, hgrown, hw⟩ := h.resize (w.length + newValues.length) 0
  rw [Vec.resize_add] at hw
  have hwritten : Slice.writeAt (w ++ List.replicate newValues.length 0) w.length newValues =
      w ++ newValues := by
    rw [Slice.writeAt, List.take_left, List.drop_of_length_le (by simp), List.append_nil]
  have hmut := hw.mutatorBytesMut (f := fun bytes => Slice.writeAt bytes w.length newValues)
    (by rw [hwritten]; simp)
  rw [BytesSubInput.extend, h.len, hgrown]
  rw [hwritten] at hmut
  exact hmut

end Window

theorem start_subStart (own : Nat) (start stop : Bound) :
    RangeBounds.start ⟨subStart own start, stop⟩ = own + RangeBounds.start ⟨start, stop⟩ := by
  cases start with
  | included other | excluded other => rfl
  | unbounded => rfl

/-- The end of a range inside the window, moved into the parent. -/
theorem stop_subEnd {outerRange : Range} {start stop : Bound} {n : Nat} (len : Nat)
    (hn : outerRange.stop = outerRange.start + n) (hle : RangeBounds.stop ⟨start, stop⟩ n ≤ n) :
    ∃ stop', subEnd outerRange stop = some stop' ∧ ∀ start',
      RangeBounds.stop ⟨start', stop'⟩ len =
        outerRange.start + RangeBounds.stop ⟨start, stop⟩ n := by
  cases stop with
  | included other =>
      simp only [RangeBounds.stop] at hle ⊢
      refine ⟨_, if_neg (by omega), fun _ => ?_⟩
      simp only
      omega
  | excluded other =>
      simp only [RangeBounds.stop] at hle ⊢
      refine ⟨_, rfl, fun _ => ?_⟩
      simp only
      omega
  | unbounded => exact ⟨_, rfl, fun _ => hn⟩

/-- A range inside the window is the same range inside the parent. -/
theorem subRange_within (pre post : List UInt8) {w : List UInt8} {range : RangeBounds} {a c : Nat}
    (hr : range.within w.length = some (a, c)) :
    ∃ r, subRange ⟨pre.length, pre.length + w.length⟩ range = some r ∧
      r.within (pre ++ w ++ post).length = some (pre.length + a, pre.length + c) := by
  obtain ⟨rfl, rfl, hac, hcw⟩ := RangeBounds.within_eq_some.mp hr
  obtain ⟨stop', hsub, hstop⟩ := stop_subEnd (pre ++ w ++ post).length
    (show Range.stop ⟨pre.length, pre.length + w.length⟩ = _ from rfl) hcw
  refine ⟨⟨subStart pre.length range.startBound, stop'⟩, by rw [subRange, hsub]; rfl, ?_⟩
  refine RangeBounds.within_eq_some.mpr ⟨start_subStart .., hstop _, by omega, ?_⟩
  simp only [List.length_append]
  omega

namespace Window

variable {b : BytesSubInput} {w : List UInt8}

theorem range_eq (h : Window pre post b w) : b.range = ⟨pre.length, pre.length + w.length⟩ := by
  rw [← h.stop, ← h.start]

theorem take_drop (pre post : List UInt8) {a c : Nat} (ha : a ≤ w.length)
    (hc : c ≤ w.length) (new : List UInt8) :
    (pre ++ w ++ post).take (pre.length + a) ++ new ++ (pre ++ w ++ post).drop (pre.length + c) =
      pre ++ (w.take a ++ new ++ w.drop c) ++ post := by
  rw [List.append_assoc pre, List.take_length_add_append, List.drop_length_add_append,
    List.take_append_of_le_length ha, List.drop_append_of_le_length hc]
  simp only [List.append_assoc]

/-- Splicing moves what follows the window, and leaves the window where it was. -/
theorem splice_parent (h : Window pre post b w) {range : RangeBounds} {a c : Nat}
    (hr : range.within w.length = some (a, c)) (new : List UInt8) :
    b.splice range new = some ⟨pre ++ (w.take a ++ new ++ w.drop c) ++ post, b.range⟩ := by
  obtain ⟨-, -, hac, hcw⟩ := RangeBounds.within_eq_some.mp hr
  obtain ⟨r, hsub, hwithin⟩ := subRange_within pre post hr
  simp only [BytesSubInput.splice, h.range_eq, hsub, h.parent, Vec.splice, hwithin,
    Option.map_some, Option.bind_eq_bind, Option.bind_some, Option.pure_def]
  rw [take_drop pre post (hac.trans hcw) hcw]

theorem drain (h : Window pre post b w) {range : RangeBounds} {a c : Nat}
    (hr : range.within w.length = some (a, c)) :
    ∃ b', b.drain range = some b' ∧ Window pre post b' (w.take a ++ w.drop c) := by
  obtain ⟨-, -, hac, hcw⟩ := RangeBounds.within_eq_some.mp hr
  obtain ⟨r, hsub, hwithin⟩ := subRange_within pre post hr
  refine ⟨⟨pre ++ (w.take a ++ w.drop c) ++ post,
    ⟨pre.length, pre.length + w.length - (c - a)⟩⟩, ?_, rfl, rfl, ?_⟩
  · have htd := take_drop pre post (hac.trans hcw) hcw []
    rw [List.append_nil, List.append_nil] at htd
    simp only [BytesSubInput.drain, h.range_eq, hsub, h.parent, Vec.drain, hwithin,
      Option.map_some, Option.bind_eq_bind, Option.bind_some, Option.pure_def, htd,
      Nat.add_sub_add_left]
  · simp only [List.length_append, List.length_take, List.length_drop]
    omega

end Window

end

/-! ## Faithful windows -/

/-- The parent is what surrounds the window with the vector in between, and
the view and the length are the vector's. -/
def Faithful (pre post : List UInt8) (s : Option BytesSubInput × List UInt8) : Prop :=
  ∃ b, s.1 = some b ∧ b.parentInput = pre ++ s.2 ++ post ∧ b.mutatorBytes = some s.2 ∧
    b.len = s.2.length

/-- A splice puts back as many bytes as it takes out. -/
def SplicesEvenly (s : Option BytesSubInput × List UInt8) : ResizeOp → Prop
  | .splice range replaceWith =>
    ∀ start stop, range.within s.2.length = some (start, stop) →
      replaceWith.length = stop - start
  | _ => True

section

variable {pre post : List UInt8} {b : BytesSubInput} {w : List UInt8}

theorem Window.faithful (h : Window pre post b w) : Faithful pre post (some b, w) :=
  ⟨b, rfl, h.parent, h.mutatorBytes, h.len⟩

/-- One operation that the vector survives keeps the window exactly when it
splices evenly. -/
theorem Window.step (h : Window pre post b w) {op : ResizeOp}
    {t : Option BytesSubInput × List UInt8} (ht : op.step (some b, w) = some t) :
    (SplicesEvenly (some b, w) op → ∃ b', t.1 = some b' ∧ Window pre post b' t.2) ∧
      (Faithful pre post t → SplicesEvenly (some b, w) op) := by
  rw [ResizeOp.step] at ht
  cases op with
  | resize newLen value =>
      obtain rfl := Option.some.inj ht
      exact ⟨fun _ => h.resize newLen value, fun _ => trivial⟩
  | extend newValues =>
      obtain rfl := Option.some.inj ht
      exact ⟨fun _ => h.extend newValues, fun _ => trivial⟩
  | mutate f inPlace =>
      obtain rfl := Option.some.inj ht
      exact ⟨fun _ => h.mutatorBytesMut (inPlace w), fun _ => trivial⟩
  | drain range =>
      cases hr : range.within w.length with
      | none => simp [ResizeOp.onVec, Vec.drain, hr] at ht
      | some ac =>
          simp only [ResizeOp.onVec, Vec.drain, hr, Option.map_some] at ht
          obtain rfl := Option.some.inj ht
          exact ⟨fun _ => h.drain hr, fun _ => trivial⟩
  | splice range new =>
      cases hr : range.within w.length with
      | none => simp [ResizeOp.onVec, Vec.splice, hr] at ht
      | some ac =>
          obtain ⟨a, c⟩ := ac
          obtain ⟨-, -, hac, hcw⟩ := RangeBounds.within_eq_some.mp hr
          have hlen : (w.take a ++ new ++ w.drop c).length = a + new.length + (w.length - c) := by
            simp only [List.length_append, List.length_take, List.length_drop]
            omega
          simp only [ResizeOp.onVec, Vec.splice, hr, Option.map_some] at ht
          obtain rfl := Option.some.inj ht
          simp only [Option.bind_some, ResizeOp.onSub, h.splice_parent hr]
          constructor
          · intro hev
            have hnew := hev a c hr
            refine ⟨_, rfl, rfl, h.start, ?_⟩
            rw [h.stop, hlen]
            omega
          · rintro ⟨b', hb', -, -, hb'len⟩ start stop hwithin
            obtain rfl := Option.some.inj hb'
            obtain ⟨rfl, rfl⟩ := Prod.mk.inj (Option.some.inj (hr.symm.trans hwithin))
            rw [hlen, BytesSubInput.len, Range.len, h.start, h.stop] at hb'len
            omega

theorem endIndex_le {range : RangeBounds} {maxLen stop : Nat}
    (h : endIndex range maxLen = some stop) : stop ≤ maxLen := by
  rw [endIndex] at h
  split at h
  · exact (Option.some.inj h).ge
  · split at h
    · exact (Option.some.inj h) ▸ min_le_right ..
    · cases h
  · exact (Option.some.inj h) ▸ min_le_right ..

end

/-- A sub-range and the vector that starts as a copy of it. -/
def opened (b : BytesSubInput) : Option BytesSubInput × List UInt8 :=
  (some b, Slice.sub b.parentInput b.range.start b.range.len)

/-- A valid sub-range opens a window. -/
theorem new_window {parentInput : List UInt8} {range : RangeBounds} {b : BytesSubInput}
    (hb : BytesSubInput.new parentInput range = some b) (hle : b.range.start ≤ b.range.stop) :
    Window (parentInput.take b.range.start) (parentInput.drop b.range.stop) b (opened b).2 := by
  simp only [BytesSubInput.new, Option.bind_eq_bind, Option.bind_eq_some_iff, Option.pure_def,
    Option.some.injEq] at hb
  obtain ⟨start, -, stop, hstop, rfl⟩ := hb
  have hmax := endIndex_le hstop
  simp only [opened, Range.len] at hle ⊢
  refine ⟨?_, ?_, ?_⟩
  · have hsplit : parentInput.drop start =
        Slice.sub parentInput start (stop - start) ++ parentInput.drop stop := by
      have := List.take_append_drop (stop - start) (parentInput.drop start)
      rw [List.drop_drop, Nat.add_sub_cancel' hle] at this
      exact this.symm
    rw [List.append_assoc, ← hsplit, List.take_append_drop]
  · rw [List.length_take_of_le (hle.trans hmax)]
  · rw [List.length_take_of_le (hle.trans hmax), Slice.length_sub]
    show stop = start + _
    omega

/-- **A sub input is a faithful window** on its parent, as long as the vector
in its place does not panic, exactly when every splice is even. -/
theorem faithful_iff_splicesEvenly (parentInput : List UInt8) (range : RangeBounds)
    (b : BytesSubInput) (hb : BytesSubInput.new parentInput range = some b)
    (hvalid : b.range.start ≤ b.range.stop) (ops : List ResizeOp) :
    (Faithful (parentInput.take b.range.start) (parentInput.drop b.range.stop) (opened b) ∧
        StepsMeet ResizeOp.step (opened b) ops fun s op => ∀ t, op.step s = some t →
          Faithful (parentInput.take b.range.start) (parentInput.drop b.range.stop) t) ↔
      StepsMeet ResizeOp.step (opened b) ops SplicesEvenly := by
  have hw := new_window hb hvalid
  have hopened : Faithful (parentInput.take b.range.start) (parentInput.drop b.range.stop)
    (opened b) := hw.faithful
  rw [and_iff_right hopened]
  refine stepsMeet_congr (fun s => ∃ b', s.1 = some b' ∧
    Window (parentInput.take b.range.start) (parentInput.drop b.range.stop) b' s.2)
    ⟨b, rfl, hw⟩ ?_ ?_
  · rintro ⟨_, w⟩ op - ⟨b', rfl, hw'⟩
    constructor
    · intro h
      cases ht : op.step (some b', w) with
      | none =>
          cases op with
          | splice range new =>
              intro start stop hwithin
              simp [ResizeOp.step, ResizeOp.onVec, Vec.splice, hwithin] at ht
          | resize | extend | drain | mutate => trivial
      | some t => exact (hw'.step ht).2 (h t ht)
    · intro hev t ht
      obtain ⟨b'', hb'', hw''⟩ := (hw'.step ht).1 hev
      obtain ⟨_, _⟩ := t
      obtain rfl : _ = some b'' := hb''
      exact hw''.faithful
  · rintro ⟨_, w⟩ op t - ⟨b', rfl, hw'⟩ hev ht
    exact (hw'.step ht).1 hev

/-- Two bytes grow in the middle of three. -/
theorem faithful_iff_middle :
    (Faithful [1] [3] (opened ⟨[1, 2, 3], ⟨1, 2⟩⟩) ∧
        StepsMeet ResizeOp.step (opened ⟨[1, 2, 3], ⟨1, 2⟩⟩) [.resize 2 7] fun s op =>
          ∀ t, op.step s = some t → Faithful [1] [3] t) ↔
      StepsMeet ResizeOp.step (opened ⟨[1, 2, 3], ⟨1, 2⟩⟩) [.resize 2 7] SplicesEvenly :=
  faithful_iff_splicesEvenly [1, 2, 3] ⟨.included 1, .excluded 2⟩ ⟨[1, 2, 3], ⟨1, 2⟩⟩ rfl
    (by decide) [.resize 2 7]

/-- A splice of two bytes over one leaves the second one outside of the
window. -/
theorem splice_not_faithful :
    ¬StepsMeet ResizeOp.step (opened ⟨[1, 2, 3], ⟨1, 2⟩⟩)
      [.splice ⟨.unbounded, .unbounded⟩ [8, 9]] fun s op =>
        ∀ t, op.step s = some t → Faithful [1] [3] t := by
  intro h
  obtain ⟨b, hb, -, -, hlen⟩ := h [] _ (List.prefix_refl _) _ rfl _ rfl
  obtain rfl := Option.some.inj hb
  revert hlen
  decide

end Libaflmm
