import Libaflmm.FridaAllocatorExact
import Mathlib.Algebra.Order.BigOperators.Group.List
import Mathlib.Algebra.Order.Group.Nat

/-!
# The total of the Frida allocator

`total_allocation_size` is charged before a chunk is there, and the charge is
the rounded size that was asked for. It stays charged when the mapping fails, it
is less than the chunk when a larger one is reused, and a reset sets it to zero
with the chunks of the live allocations still in the map.
-/

namespace Libaflmm

namespace FridaAllocator

/-- What an allocation of this size is charged. -/
def charge (options : FridaAllocatorOptions) (size : Nat) : Nat :=
  options.roundUpToPage size + 2 * options.pageSize.bytes

/-- The charges for the chunks in the allocation map. -/
def charged (a : FridaAllocator) : Nat :=
  (a.allocations.entries.map fun e => charge a.options e.2.size).sum

/-- The sizes of the chunks in the allocation map. -/
def heldSize (a : FridaAllocator) : Nat := (a.allocations.entries.map fun e => e.2.actualSize).sum

/-- The counter is what the chunks were charged, and the chunks are within the limit. -/
structure Limited (a : FridaAllocator) : Prop where
  total : a.totalAllocationSize = a.charged
  within : a.heldSize ≤ a.options.maxTotalAllocation

end FridaAllocator

namespace FridaAllocatorRun

/-- After the call the total is right and within the limit, and an allocation
that returns null has changed nothing. -/
def KeepsLimit (r : FridaAllocatorRun) (call : FridaAllocatorCall) : Prop :=
  (∀ r', r.step call = some r' → r'.allocator.Limited) ∧
    ∀ size mmap a', call = .alloc size mmap →
      r.allocator.alloc size mmap = some (0, a') → a' = r.allocator

/-- An allocation that passes the limits is charged without a wrap, there is a
chunk for it, and the chunk is within the limit beside those in the map; a reset
finds no live allocation. -/
def ChargesRight (r : FridaAllocatorRun) : FridaAllocatorCall → Prop
  | .alloc size mmap => ∀ len, r.allocator.Passes size len →
      r.allocator.totalAllocationSize + len < 2 ^ 64 ∧
        ∃ chunk, r.allocator.chunkSize len mmap = some chunk ∧
          r.allocator.heldSize + chunk ≤ r.allocator.options.maxTotalAllocation
  | .release _ _ => True
  | .reset => ∀ e ∈ r.allocator.allocations.entries, e.2.freed = true

end FridaAllocatorRun

namespace FridaAllocator

variable {a a' : FridaAllocator} {live : List (Nat × Nat)} {held : List AllocationMetadata}

theorem charge_pos (options : FridaAllocatorOptions) (size : Nat) : 0 < charge options size := by
  have := options.pageSize.pos
  rw [charge]
  omega

theorem Passes.eq_charge {size len : Nat} (h : a.Passes size len) :
    len = charge a.options (allocatedSize size) := roundedUpSize_eq h.2.1

theorem Passes.lt {size len : Nat} (h : a.Passes size len) : len < 2 ^ 64 := by
  have hrounded := h.2.1
  unfold FridaAllocatorOptions.roundedUpSize at hrounded
  dsimp only at hrounded
  split_ifs at hrounded with hlt
  exact Option.some.inj hrounded ▸ hlt

/-! ## One call -/

/-- Serving a chunk adds its size and its charge. -/
theorem Sound.serve_sums {b : FridaAllocator} {m : AllocationMetadata}
    (h : b.Sound live (m :: held)) :
    (b.serve m).2.charged = charge b.options m.size + b.charged ∧
      (b.serve m).2.heldSize = m.actualSize + b.heldSize := by
  have hperm := OrderedMap.perm_insert_of_fresh h.key_fresh m
  refine ⟨?_, ?_⟩
  · rw [charged, charged, ← List.sum_cons, ← List.map_cons (f := fun e => charge b.options e.2.size)
      (a := (m.address + b.options.pageSize.bytes, m))]
    exact (hperm.map _).sum_eq
  · rw [heldSize, heldSize, ← List.sum_cons, ← List.map_cons (f := fun e => e.2.actualSize)
      (a := (m.address + b.options.pageSize.bytes, m))]
    exact (hperm.map _).sum_eq

/-- An allocation keeps the limit exactly when it is charged right. -/
theorem Sound.alloc_keepsLimit (h : a.Sound live []) (hlimited : a.Limited) {size : Nat}
    {mmap : Mmap} {ptr : Nat} (hfresh : ∀ len address,
      a.options.roundedUpSize (allocatedSize size) = some len →
      mmap a.currentMappingAddr len = some address → a.Fresh (address, len))
    (halloc : a.alloc size mmap = some (ptr, a')) :
    (a'.Limited ∧ (ptr = 0 → a' = a)) ↔
      ∀ len, a.Passes size len → a.totalAllocationSize + len < 2 ^ 64 ∧
        ∃ chunk, a.chunkSize len mmap = some chunk ∧
          a.heldSize + chunk ≤ a.options.maxTotalAllocation := by
  obtain ⟨hrefused, rfl, rfl⟩ | ⟨len, hpass, hcases⟩ := h.alloc_cases hfresh halloc
  · refine iff_of_true ⟨hlimited, fun _ => rfl⟩ fun len hpass => absurd hpass (hrefused len)
  have hunique : ∀ len', a.Passes size len' → len' = len := fun len' hpass' =>
    hpass'.eq_charge.trans hpass.eq_charge.symm
  have hcharge := hpass.eq_charge
  have hpos := charge_pos a.options (allocatedSize size)
  have hlt := hpass.lt
  obtain ⟨hnone, rfl, rfl⟩ |
    ⟨b, m, hb, hoptions, hallocations, htotal, -, hsize, -, hchunk, hserve⟩ := hcases
  · -- the mapping has failed: the charge stays
    refine iff_of_false (fun hkeeps => ?_) fun hright => ?_
    · have hsame := congrArg totalAllocationSize (hkeeps.2 rfl)
      dsimp only at hsame
      omega
    · obtain ⟨-, chunk, hsome, -⟩ := hright len hpass
      rw [hnone] at hsome
      cases hsome
  · -- a chunk is served
    obtain ⟨hcharged, hheld⟩ := hb.serve_sums
    have hptr := serve_ne_zero b m
    rw [hserve] at hcharged hheld hptr
    dsimp only at hcharged hheld hptr
    have hsame : b.charged = a.charged ∧ b.heldSize = a.heldSize := by
      rw [charged, charged, heldSize, heldSize, hoptions, hallocations]
      exact ⟨rfl, rfl⟩
    have htotal' : a'.totalAllocationSize = (a.totalAllocationSize + len) % 2 ^ 64 := by
      rw [← htotal]
      exact (congrArg (fun s => s.2.totalAllocationSize) hserve).symm
    have hoptions' : a'.options = a.options := by
      rw [← hoptions]
      exact (congrArg (fun s => s.2.options) hserve).symm
    have hsum := hlimited.total
    rw [hsame.1, hoptions, hsize, ← hcharge] at hcharged
    rw [hsame.2] at hheld
    constructor
    · rintro ⟨⟨htot, hwithin⟩, -⟩ len' hpass'
      obtain rfl := hunique len' hpass'
      rw [hoptions'] at hwithin
      exact ⟨by omega, m.actualSize, hchunk, by omega⟩
    · intro hright
      obtain ⟨hwrap, chunk, hchunk', hle⟩ := hright len hpass
      obtain rfl := Option.some.inj (hchunk.symm.trans hchunk')
      refine ⟨⟨?_, ?_⟩, fun h0 => absurd h0 hptr⟩
      · rw [htotal', Nat.mod_eq_of_lt hwrap]
        omega
      · rw [hoptions']
        omega

theorem not_passes_of_panic {size : Nat} {mmap : Mmap} (h : a.alloc size mmap = none) (len : Nat) :
    ¬ a.Passes size len := by
  rintro ⟨hmax, hlen, -⟩
  unfold FridaAllocator.alloc at h
  dsimp only at h
  rw [if_neg (Nat.not_lt.mpr hmax), hlen] at h
  cases h

/-- A release changes neither a charge nor a chunk. -/
theorem Limited.release (hlimited : a.Limited) {ptr : Nat} {reportError : Bool}
    (hrelease : a.release ptr reportError = some a') : a'.Limited := by
  unfold FridaAllocator.release at hrelease
  cases hfind : a.allocations.find? ptr with
  | none =>
      rw [hfind] at hrelease
      dsimp only at hrelease
      split_ifs at hrelease
      exact Option.some.inj hrelease ▸ hlimited
  | some m =>
      rw [hfind] at hrelease
      dsimp only at hrelease
      split_ifs at hrelease
      obtain rfl := Option.some.inj hrelease
      have hperm := OrderedMap.perm_insert_of_mem (OrderedMap.find?_eq_some_iff.mp hfind)
        { m with freed := true }
      obtain ⟨htotal, hwithin⟩ := hlimited
      have hcharges := (hperm.map fun e => charge a.options e.2.size).sum_eq
      have hchunks := (hperm.map fun e => e.2.actualSize).sum_eq
      simp only [List.map_cons, List.sum_cons, Nat.add_left_cancel_iff] at hcharges hchunks
      refine ⟨htotal.trans hcharges.symm, ?_⟩
      exact Nat.le_trans hchunks.le hwithin

/-- A reset keeps the limit exactly when no allocation is live. -/
theorem Sound.reset_limited (h : a.Sound live []) (hlimited : a.Limited) :
    a.reset.Limited ↔ ∀ e ∈ a.allocations.entries, e.2.freed = true := by
  have hperm := h.perm_reset
  have hcharged : a.reset.charged =
      ((a.allocations.entries.filter fun e => !e.2.freed).map
        fun e => charge a.options e.2.size).sum := (hperm.map _).sum_eq
  have hheld : a.reset.heldSize ≤ a.heldSize := by
    rw [heldSize, (hperm.map _).sum_eq]
    exact ((List.filter_sublist).map _).sum_le_sum fun _ _ => Nat.zero_le _
  constructor
  · intro hreset e he
    by_contra hlive
    have hmem : e ∈ a.allocations.entries.filter fun e => !e.2.freed :=
      List.mem_filter.mpr ⟨he, by simpa using hlive⟩
    have hle := List.single_le_sum (fun _ _ => Nat.zero_le _) _
      (List.mem_map_of_mem (f := fun e => charge a.options e.2.size) hmem)
    have hpos := charge_pos a.options e.2.size
    have hzero : (0 : Nat) = a.reset.charged := hreset.total
    omega
  · intro hfreed
    refine ⟨?_, Nat.le_trans hheld hlimited.within⟩
    have hnone : (a.allocations.entries.filter fun e => !e.2.freed) = [] :=
      List.filter_eq_nil_iff.mpr fun e he => by simp [hfreed e he]
    rw [hcharged, hnone]
    rfl

end FridaAllocator

/-! ## Runs -/

namespace FridaAllocatorRun

variable {r : FridaAllocatorRun}

/-- **The step lemma.** -/
theorem keepsLimit_iff (h : r.allocator.Sound r.live []) (hlimited : r.allocator.Limited)
    {call : FridaAllocatorCall} (hfresh : r.MapsFresh call) :
    r.KeepsLimit call ↔ r.ChargesRight call := by
  cases call with
  | alloc size mmap =>
      rw [KeepsLimit, ChargesRight]
      cases halloc : r.allocator.alloc size mmap with
      | none =>
          refine iff_of_true ⟨fun r' hstep => ?_, fun size' mmap' a' hcall hnull => ?_⟩
            fun len hpass => absurd hpass (FridaAllocator.not_passes_of_panic halloc len)
          · rw [step, halloc] at hstep
            cases hstep
          · obtain ⟨rfl, rfl⟩ := FridaAllocatorCall.alloc.inj hcall
            rw [halloc] at hnull
            cases hnull
      | some result =>
          obtain ⟨ptr, a'⟩ := result
          rw [← h.alloc_keepsLimit hlimited hfresh halloc]
          constructor
          · rintro ⟨hlimit, hnull⟩
            refine ⟨hlimit _ (by rw [step, halloc]; rfl), fun h0 => ?_⟩
            exact hnull size mmap a' rfl (h0 ▸ halloc)
          · rintro ⟨hlimit, hnull⟩
            refine ⟨fun r' hstep => ?_, fun size' mmap' a'' hcall hnull' => ?_⟩
            · rw [step, halloc] at hstep
              exact Option.some.inj hstep ▸ hlimit
            · obtain ⟨rfl, rfl⟩ := FridaAllocatorCall.alloc.inj hcall
              obtain ⟨rfl, rfl⟩ := Prod.mk.inj (Option.some.inj (halloc.symm.trans hnull'))
              exact hnull rfl
  | release ptr reportError =>
      refine iff_of_true ⟨fun r' hstep => ?_, fun _ _ _ hcall => (by cases hcall)⟩ trivial
      obtain ⟨a', hrelease, rfl⟩ := Option.map_eq_some_iff.mp hstep
      exact hlimited.release hrelease
  | reset =>
      refine Iff.trans ⟨fun hkeeps => hkeeps.1 _ rfl, fun hlimit => ⟨fun r' hstep => ?_, ?_⟩⟩
        (h.reset_limited hlimited)
      · exact Option.some.inj hstep ▸ hlimit
      · intro _ _ _ hcall
        cases hcall

/-- **When the limit is kept.** In a run whose mappings are fresh the counter is
the sum of the charges, the chunks are within the limit and a null changes
nothing, as long as every call is charged right. -/
theorem keepsLimit_iff_chargesRight (options : FridaAllocatorOptions) (shadow : FridaShadow)
    (baseMappingAddr : Nat) (calls : List FridaAllocatorCall)
    (hfresh : StepsMeet step (new options shadow baseMappingAddr) calls MapsFresh) :
    StepsMeet step (new options shadow baseMappingAddr) calls KeepsLimit ↔
      StepsMeet step (new options shadow baseMappingAddr) calls ChargesRight := by
  refine stepsMeet_congr_of (fun r => r.allocator.Sound r.live [] ∧ r.allocator.Limited) hfresh
    ⟨?_, ?_⟩ (fun r call _ hr hfresh => keepsLimit_iff hr.1 hr.2 hfresh)
    fun r call r' _ hr hfresh hright hstep =>
      ⟨sound_step hr.1 hfresh hstep, ((keepsLimit_iff hr.1 hr.2 hfresh).mpr hright).1 r' hstep⟩
  · exact sound_new options shadow baseMappingAddr
  · exact ⟨rfl, Nat.zero_le _⟩

/-- The allocation that reuses a larger chunk is still within the limit. -/
theorem reuse_chargesRight :
    StepsMeet step (new pages4096 (fun _ => 0) (3 * 2 ^ 44)) reuse ChargesRight := by
  unfold reuse
  refine stepsMeet_cons.mpr ⟨fun len hpass => ?_, fun r hr => ?_⟩
  · obtain rfl := hpass.eq_charge
    exact ⟨by decide, 16384, rfl, by decide⟩
  obtain rfl := Option.some.inj hr
  refine stepsMeet_cons.mpr ⟨trivial, fun r hr => ?_⟩
  obtain rfl := Option.some.inj hr
  refine stepsMeet_cons.mpr ⟨by unfold ChargesRight; decide, fun r hr => ?_⟩
  obtain rfl := Option.some.inj hr
  refine stepsMeet_cons.mpr ⟨fun len hpass => ?_, fun r _ => stepsMeet_nil⟩
  obtain rfl := hpass.eq_charge
  exact ⟨by decide, 16384, rfl, by decide⟩

theorem keepsLimit_reuse :
    StepsMeet step (new pages4096 (fun _ => 0) (3 * 2 ^ 44)) reuse KeepsLimit :=
  (keepsLimit_iff_chargesRight pages4096 (fun _ => 0) (3 * 2 ^ 44) reuse reuse_mapsFresh).mpr
    reuse_chargesRight

/-- A mapping that fails has been charged. -/
theorem failed_mapping_stays_charged :
    ¬ ∀ calls, StepsMeet step (new pages4096 (fun _ => 0) (3 * 2 ^ 44)) calls MapsFresh →
      StepsMeet step (new pages4096 (fun _ => 0) (3 * 2 ^ 44)) calls KeepsLimit := by
  intro h
  have hkeeps := h [.alloc 8 fun _ _ => none]
    (stepsMeet_cons.mpr ⟨fun _ _ _ hmap => (by cases hmap), fun _ _ => stepsMeet_nil⟩)
  have hnull := (stepsMeet_cons.mp hkeeps).1.2 8 (fun _ _ => none) _ rfl rfl
  exact absurd (congrArg FridaAllocator.totalAllocationSize hnull) (by decide)

end FridaAllocatorRun

end Libaflmm
