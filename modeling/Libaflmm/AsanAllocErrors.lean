import Libaflmm.AsanFrontend

/-!
# What a failing allocation leaves

`alloc` asks the backend for a chunk, enters it, tracks the data and marks the
shadow, and each of these can end it with an error. Nothing done before is
undone: once the backend has given a chunk, the chunk stays with its entry, as
an allocation that is not freed.
-/

namespace Libaflmm

namespace DefaultFrontend

section

variable {S T εS εT : Type}

/-- The frontend is as it was before the call, and the chunk has been given back. -/
structure RolledBack (f f' : DefaultFrontend S T) : Prop where
  allocations : f'.allocations = f.allocations
  tracking : f'.tracking = f.tracking
  shadow : f'.shadow = f.shadow
  chunks : outstanding f'.backend = outstanding f.backend

/-- The calls of the backend and the allocations are the same. -/
def SameChunks (f f' : DefaultFrontend S T) : Prop :=
  f'.backend = f.backend ∧ f'.allocations = f.allocations

instance : IsPreorder (DefaultFrontend S T) SameChunks where
  refl _ := ⟨rfl, rfl⟩
  trans _ _ _ h h' := ⟨h'.1.trans h.1, h'.2.trans h.2⟩

theorem keeps_onShadow {x : Call εS S Unit} :
    (onShadow x : FrontendCall S T εS εT Unit).Keeps SameChunks := by
  refine Call.keeps_ofFn fun f r f' h => ?_
  obtain ⟨⟨r', s⟩, -, heq⟩ := Option.map_eq_some_iff.mp h
  obtain ⟨-, rfl⟩ := Prod.mk.inj heq
  exact ⟨rfl, rfl⟩

theorem keeps_onTracking {x : Call εT T Unit} :
    (onTracking x : FrontendCall S T εS εT Unit).Keeps SameChunks := by
  refine Call.keeps_ofFn fun f r f' h => ?_
  obtain ⟨⟨r', t⟩, -, heq⟩ := Option.map_eq_some_iff.mp h
  obtain ⟨-, rfl⟩ := Prod.mk.inj heq
  exact ⟨rfl, rfl⟩

theorem keeps_unwrap {α : Type} {o : Option α} :
    (unwrap o : FrontendCall S T εS εT α).Keeps SameChunks := by
  refine Call.keeps_ofFn fun f r f' h => ?_
  obtain ⟨a, -, heq⟩ := Option.map_eq_some_iff.mp h
  obtain ⟨-, rfl⟩ := Prod.mk.inj heq
  exact ⟨rfl, rfl⟩

variable [Shadow S εS] [Tracking T εT]

/-- Tracking and marking an allocation give nothing back. -/
theorem keeps_markAllocated (orig data len : Nat) :
    (markAllocated orig data len : FrontendCall S T εS εT Unit).Keeps SameChunks := by
  refine Call.keeps_bind keeps_onTracking fun _ => ?_
  refine Call.keeps_bind keeps_onShadow fun _ => ?_
  refine Call.keeps_bind keeps_onShadow fun _ => ?_
  refine Call.keeps_bind Call.keeps_read fun redZoneSize => ?_
  exact Call.keeps_bind keeps_unwrap fun alignedLen => keeps_onShadow

omit [Shadow S εS] [Tracking T εT] in
/-- The part of `alloc` up to the entry: the backend is not asked, or has
answered null, or its chunk is entered. -/
theorem allocChunk_cases (len align ptr : Nat) (f : DefaultFrontend S T) :
    (allocChunk len align ptr : FrontendCall S T εS εT _).Leaves f fun r f' =>
      (∃ e, r = .error e ∧ f' = f) ∨
      (∃ e layout, r = .error e ∧ ptr = 0 ∧
        f' = { f with backend := .alloc layout 0 :: f.backend }) ∨
      ∃ data layout, r = .ok (ptr, data) ∧ ptr ≠ 0 ∧ f'.backend = .alloc layout ptr :: f.backend ∧
        ∃ entry, f'.allocations = AList.insert data entry f.allocations ∧ entry.freed = false := by
  rw [allocChunk]
  split
  · exact Call.leaves_ofResult.mpr (.inl ⟨_, rfl, rfl⟩)
  refine Call.leaves_bind.mpr (Call.leaves_read.mpr ?_)
  dsimp only
  cases allocatedSize f.redZoneSize len align with
  | none => exact Call.leaves_ofResult.mpr (.inl ⟨_, rfl, rfl⟩)
  | some size =>
      refine Call.leaves_bind.mpr fun r f' hassert => ?_
      obtain ⟨u, -, heq⟩ := Option.map_eq_some_iff.mp hassert
      obtain ⟨rfl, rfl⟩ := Prod.mk.inj heq
      dsimp only
      cases Layout.fromSizeAlign size ALLOC_ALIGN_SIZE with
      | none => exact Call.leaves_ofResult.mpr (.inl ⟨_, rfl, rfl⟩)
      | some layout =>
          refine Call.leaves_bind.mpr (Call.leaves_update.mpr ?_)
          dsimp only
          split
          · next hptr =>
              subst hptr
              exact Call.leaves_ofResult.mpr (.inr (.inl ⟨_, layout, rfl, rfl, rfl⟩))
          · next hptr =>
              refine Call.leaves_bind.mpr fun r f' hplace => ?_
              obtain ⟨data, -, heq⟩ := Option.map_eq_some_iff.mp hplace
              obtain ⟨rfl, rfl⟩ := Prod.mk.inj heq
              refine Call.leaves_bind.mpr (Call.leaves_update.mpr ?_)
              refine Call.leaves_pure.mpr (.inr (.inr ⟨data, layout, rfl, hptr, rfl, ?_⟩))
              exact ⟨_, rfl, rfl⟩

/-- An `alloc` that fails: the backend is not asked, or has answered null, or its
chunk stays outstanding, and its data an address that can be freed. -/
theorem alloc_error_cases {len align ptr : Nat} {f f' : DefaultFrontend S T}
    {e : DefaultFrontendError εS εT} (h : (alloc len align ptr).run f = some (.error e, f')) :
    f' = f ∨ (ptr = 0 ∧ ∃ layout, f' = { f with backend := .alloc layout 0 :: f.backend }) ∨
      (ptr ≠ 0 ∧ ∃ layout data entry, f'.backend = .alloc layout ptr :: f.backend ∧
        f'.allocations.lookup data = some entry ∧ entry.freed = false) := by
  rw [alloc, Call.run_bind] at h
  obtain ⟨⟨r, mid⟩, hchunk, hrest⟩ := Option.bind_eq_some_iff.mp h
  have hcases : (allocChunk len align ptr : FrontendCall S T εS εT _).Leaves f _ :=
    allocChunk_cases len align ptr f
  rcases hcases r mid hchunk with
    ⟨e', rfl, rfl⟩ | ⟨e', layout, rfl, rfl, rfl⟩ |
      ⟨data, layout, rfl, hptr, hbackend, entry, hentry, hlive⟩
  · obtain ⟨-, rfl⟩ := Prod.mk.inj (Option.some.inj hrest)
    exact .inl rfl
  · obtain ⟨-, rfl⟩ := Prod.mk.inj (Option.some.inj hrest)
    exact .inr (.inl ⟨rfl, layout, rfl⟩)
  · right
    right
    have hmarked : (markAllocated ptr data len : FrontendCall S T εS εT Unit).Keeps SameChunks :=
      keeps_markAllocated ptr data len
    have hkeeps := Call.keeps_bind hmarked (fun _ => Call.keeps_pure (a := data)) mid (.error e)
      f' hrest
    refine ⟨hptr, layout, data, entry, hkeeps.1.trans hbackend, ?_, hlive⟩
    rw [hkeeps.2, hentry, AList.lookup_insert]

theorem outstanding_alloc {calls : List BackendCall} {layout : Layout} {ptr : Nat} (h : ptr ≠ 0) :
    outstanding (.alloc layout ptr :: calls) = (ptr, layout) :: outstanding calls := if_neg h

/-- **An `alloc` that fails after it has asked the backend** rolls back exactly
when the backend had nothing to give. -/
theorem rolledBack_iff_null {len align ptr : Nat} {f f' : DefaultFrontend S T}
    {e : DefaultFrontendError εS εT} (h : (alloc len align ptr).run f = some (.error e, f'))
    (hasked : f'.backend ≠ f.backend) : RolledBack f f' ↔ ptr = 0 := by
  rcases alloc_error_cases h with
    rfl | ⟨rfl, layout, rfl⟩ | ⟨hptr, layout, data, entry, hbackend, -⟩
  · exact absurd rfl hasked
  · exact iff_of_true ⟨rfl, rfl, rfl, rfl⟩ rfl
  · refine iff_of_false (fun hback => ?_) hptr
    have hchunks := hback.chunks
    rw [hbackend, outstanding_alloc hptr] at hchunks
    exact List.cons_ne_self _ _ hchunks

/-- An allocation that fails, although the backend has given a chunk for it. -/
def FailsWithChunk (f : DefaultFrontend S T) : Op → Prop
  | .alloc len align ptr =>
      ptr ≠ 0 ∧ ∃ e f', (alloc len align ptr).run f = some (.error e, f') ∧ f'.backend ≠ f.backend
  | .dealloc _ => False

/-- **A run of such allocations** leaks one chunk in every step. -/
theorem outstanding_of_failing {f f' : DefaultFrontend S T} {ops : List Op}
    (h : StepsMeet step f ops FailsWithChunk) (hrun : Libaflmm.run step f ops = some f') :
    (outstanding f'.backend).length = (outstanding f.backend).length + ops.length := by
  induction ops generalizing f with
  | nil =>
      obtain rfl := Option.some.inj hrun
      rfl
  | cons op ops ih =>
      obtain ⟨hfirst, hrest⟩ := stepsMeet_cons.mp h
      rw [run_cons] at hrun
      obtain ⟨mid, hstep, hrun⟩ := Option.bind_eq_some_iff.mp hrun
      have hlater := ih (hrest mid hstep) hrun
      cases op with
      | dealloc addr => exact hfirst.elim
      | alloc len align ptr =>
          obtain ⟨hptr, e, f₁, hcall, hasked⟩ := hfirst
          have hmid : mid = f₁ := by
            rw [step, call, hcall] at hstep
            exact (Option.some.inj hstep).symm
          subst hmid
          rcases alloc_error_cases hcall with rfl | ⟨hnull, -⟩ | ⟨-, layout, -, -, hbackend, -⟩
          · exact absurd rfl hasked
          · exact absurd hnull hptr
          · rw [hlater, hbackend, outstanding_alloc hptr, List.length_cons, List.length_cons]
            omega

end

/-- A backend without memory. -/
theorem rolledBack_null : ∃ f f' : DefaultFrontend GuestShadow GuestTracking,
    new ⟨fun _ => 0⟩ GuestTracking.new 16 0 =
      (.ok f : Except (DefaultFrontendError GuestShadowError GuestTrackingError) _) ∧
    (alloc 32 8 0).run f = some (.error .allocatorError, f') ∧ RolledBack f f' := by
  obtain ⟨f, f', hnew, hrun, hasked⟩ : ∃ f f' : DefaultFrontend GuestShadow GuestTracking,
      new ⟨fun _ => 0⟩ GuestTracking.new 16 0 =
        (.ok f : Except (DefaultFrontendError GuestShadowError GuestTrackingError) _) ∧
      (alloc 32 8 0).run f = some (.error .allocatorError, f') ∧ f'.backend ≠ f.backend :=
    ⟨_, _, rfl, rfl, List.cons_ne_self _ _⟩
  exact ⟨f, f', hnew, hrun, (rolledBack_iff_null hrun hasked).mpr rfl⟩

/-- An allocation of no bytes is not tracked, but stays. -/
theorem not_rolledBack_zero : ∃ f f' : DefaultFrontend GuestShadow GuestTracking,
    new ⟨fun _ => 0⟩ GuestTracking.new 16 0 =
      (.ok f : Except (DefaultFrontendError GuestShadowError GuestTrackingError) _) ∧
    (alloc 0 8 4096).run f = some (.error (.trackingError (.zeroLength 4120)), f') ∧
    f'.backend ≠ f.backend ∧ ¬RolledBack f f' := by
  refine ⟨_, _, rfl, rfl, List.cons_ne_self _ _, fun h => ?_⟩
  exact absurd h.chunks (List.cons_ne_self _ _)

end DefaultFrontend

end Libaflmm
