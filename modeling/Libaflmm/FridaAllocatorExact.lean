import Libaflmm.FridaAllocator
import Mathlib.Data.List.Pairwise

/-!
# The shadow of the Frida allocator is exact

The chunks are apart, and so the intervals of the allocations in them are. What
is kept is stated of an allocator with some chunks held out of the map and the
queue, which is how it is between taking a chunk and serving it.
-/

namespace Libaflmm

/-! ## The bits of the shadow -/

theorem getLsbD_ones : ∀ i < 8, (0xff : BitVec 8).getLsbD (7 - i) = true := by decide

theorem getLsbD_remainder : ∀ i < 8, ∀ remainder < 8, 0 < remainder →
    ((0xff : BitVec 8) <<< (8 - remainder)).getLsbD (7 - i) = decide (i < remainder) := by
  decide

namespace FridaAllocatorOptions

variable {options : FridaAllocatorOptions}

/-- Below the limit the mask takes nothing away. -/
theorem mapToShadow_eq {address : Nat} (h : address < 2 ^ (options.shadowBit + 4)) :
    options.mapToShadow address = options.shadowOffset + address / 8 := by
  unfold mapToShadow
  rw [Nat.one_shiftLeft, Nat.shiftRight_eq_div_pow, Nat.and_two_pow_sub_one_of_lt_two_pow]
  refine Nat.div_lt_of_lt_mul ?_
  rw [← pow_add]
  exact lt_of_lt_of_eq h (by congr 1; omega)

variable {shadow : FridaShadow} {p size x : Nat}

/-- In the granule where the interval ends only its first bytes are in it. -/
theorem getLsbD_unpoison (hp : p % 8 = 0) (hlimit : p + size < 2 ^ (options.shadowBit + 4))
    (hx : x < 2 ^ (options.shadowBit + 4)) :
    (shadow.unpoison (options.mapToShadow p) size (options.mapToShadow x)).getLsbD (7 - x % 8) =
        true ↔
      (shadow (options.mapToShadow x)).getLsbD (7 - x % 8) = true ∨ InInterval x (p, size) := by
  have hbit : x % 8 < 8 := Nat.mod_lt _ (by decide)
  rw [mapToShadow_eq hx, mapToShadow_eq (by omega)]
  unfold FridaShadow.unpoison FridaShadow.write FridaShadow.fill InInterval
  dsimp only
  rcases Nat.eq_zero_or_pos (size % 8) with hzero | hpos
  · rw [if_neg (by omega)]
    split_ifs with hfill
    · exact iff_of_true (getLsbD_ones _ hbit) (Or.inr ⟨by omega, by omega⟩)
    · exact (or_iff_left (by omega)).symm
  · rw [if_pos hpos, Function.update_apply]
    split_ifs with heq hfill hfill
    · omega
    · rw [BitVec.getLsbD_or, Bool.or_eq_true, getLsbD_remainder _ hbit _ (by omega) hpos,
        decide_eq_true_iff, ← heq]
      refine or_congr_right ⟨fun h => ⟨by omega, by omega⟩, fun h => by omega⟩
    · exact iff_of_true (getLsbD_ones _ hbit) (Or.inr ⟨by omega, by omega⟩)
    · exact (or_iff_left (by omega)).symm

theorem getLsbD_poison (hp : p % 8 = 0) (hlimit : p + size < 2 ^ (options.shadowBit + 4))
    (hx : x < 2 ^ (options.shadowBit + 4)) :
    (shadow.poison (options.mapToShadow p) size (options.mapToShadow x)).getLsbD (7 - x % 8) =
        true ↔
      (shadow (options.mapToShadow x)).getLsbD (7 - x % 8) = true ∧ ¬InInterval x (p, size) := by
  have hbit : x % 8 < 8 := Nat.mod_lt _ (by decide)
  rw [mapToShadow_eq hx, mapToShadow_eq (by omega)]
  unfold FridaShadow.poison FridaShadow.write FridaShadow.fill InInterval
  dsimp only
  rcases Nat.eq_zero_or_pos (size % 8) with hzero | hpos
  · rw [if_neg (by omega)]
    split_ifs with hfill
    · exact iff_of_false (by simp) fun h => h.2 ⟨by omega, by omega⟩
    · exact (and_iff_left (by omega)).symm
  · rw [if_pos hpos, Function.update_apply]
    split_ifs with heq hfill hfill
    · omega
    · rw [BitVec.getLsbD_and, BitVec.getLsbD_not, getLsbD_remainder _ hbit _ (by omega) hpos,
        ← heq]
      have : 7 - x % 8 < 8 := by omega
      simp only [this, Bool.and_eq_true, decide_true, Bool.true_and, Bool.not_eq_true',
        decide_eq_false_iff_not]
      refine and_congr_right fun _ => not_congr ⟨fun h => ⟨by omega, by omega⟩, fun h => by omega⟩
    · exact iff_of_false (by simp) fun h => h.2 ⟨by omega, by omega⟩
    · exact (and_iff_left (by omega)).symm

end FridaAllocatorOptions

/-! ## What is kept -/

/-- Two intervals without a common address, if they are not empty. -/
def IntervalsApart (u v : Nat × Nat) : Prop := u.1 + u.2 ≤ v.1 ∨ v.1 + v.2 ≤ u.1

theorem IntervalsApart.symm {u v : Nat × Nat} (h : IntervalsApart u v) : IntervalsApart v u :=
  Or.symm h

theorem IntervalsApart.not_inInterval {u v : Nat × Nat} (h : IntervalsApart u v) {x : Nat}
    (hu : InInterval x u) :
    ¬InInterval x v := by
  intro hv
  rcases h with h | h
  · exact absurd (Nat.lt_of_lt_of_le hu.2 (h.trans hv.1)) (lt_irrefl _)
  · exact absurd (Nat.lt_of_lt_of_le hv.2 (h.trans hu.1)) (lt_irrefl _)

namespace FridaAllocator

/-- The metadata of all chunks, some of which are held out of the map and the
queue. -/
def everywhere (a : FridaAllocator) (held : List AllocationMetadata) : List AllocationMetadata :=
  held ++ (a.allocations.entries.map (·.2) ++ a.allocationQueue.flat)

structure Sound (a : FridaAllocator) (live : List (Nat × Nat)) (held : List AllocationMetadata) :
    Prop where
  chunks : ((a.everywhere held).map AllocationMetadata.chunk).Perm a.mappings
  apart : a.mappings.Pairwise IntervalsApart
  aligned : ∀ m ∈ a.mappings, a.options.pageSize.bytes ∣ m.1
  below : ∀ m ∈ a.mappings, m.1 + m.2 ≤ a.addressLimit
  nonempty : ∀ m ∈ a.mappings, 0 < m.2
  keyed : ∀ e ∈ a.allocations.entries, e.1 = e.2.address + a.options.pageSize.bytes
  sized : ∀ e ∈ a.allocations.entries,
    a.options.roundUpToPage e.2.size + 2 * a.options.pageSize.bytes ≤ e.2.actualSize
  queued : ∀ e ∈ a.allocationQueue.entries, ∀ m ∈ e.2, m.actualSize = e.1 ∧ m.freed = false
  mem_live : ∀ u, u ∈ live ↔
    ∃ e ∈ a.allocations.entries, e.2.freed = false ∧ u = (e.1, e.2.size)
  nodup : (live.map (·.1)).Nodup
  shadow : ∀ x, (∃ m ∈ a.mappings, InInterval x m) → (a.Unpoisoned x ↔ ∃ u ∈ live, InInterval x u)

variable {a : FridaAllocator} {live : List (Nat × Nat)} {held : List AllocationMetadata}

theorem roundUpToPage_gt (options : FridaAllocatorOptions) (size : Nat) :
    size < options.roundUpToPage size := by
  unfold FridaAllocatorOptions.roundUpToPage
  rw [Nat.add_div_right _ options.pageSize.pos, Nat.mul_comm]
  exact Nat.lt_mul_div_succ size options.pageSize.pos

theorem Sound.mem_mappings (h : a.Sound live held) {m : AllocationMetadata}
    (hm : m ∈ a.everywhere held) : m.chunk ∈ a.mappings :=
  h.chunks.mem_iff.mp (List.mem_map_of_mem hm)

theorem mem_everywhere {e : Nat × AllocationMetadata} (he : e ∈ a.allocations.entries) :
    e.2 ∈ a.everywhere held :=
  List.mem_append_right _ (List.mem_append_left _ (List.mem_map_of_mem he))

/-- The chunks are apart wherever they are. -/
theorem Sound.chunks_apart (h : a.Sound live held) :
    (a.everywhere held).Pairwise fun m m' => IntervalsApart m.chunk m'.chunk :=
  List.pairwise_map.mp ((h.chunks.pairwise_iff IntervalsApart.symm).mpr h.apart)

theorem Sound.apart_of_ne (h : a.Sound live held) {m m' : AllocationMetadata}
    (hm : m ∈ a.everywhere held) (hm' : m' ∈ a.everywhere held) (hne : m ≠ m') :
    IntervalsApart m.chunk m'.chunk := by
  have : Std.Symm fun m m' : AllocationMetadata => IntervalsApart m.chunk m'.chunk :=
    ⟨fun _ _ hapart => hapart.symm⟩
  exact h.chunks_apart.forall hm hm' hne

theorem Sound.unique (h : a.Sound live held) {m m' : AllocationMetadata} {x : Nat}
    (hm : m ∈ a.everywhere held) (hm' : m' ∈ a.everywhere held) (hx : InInterval x m.chunk)
    (hx' : InInterval x m'.chunk) : m = m' := by
  by_contra hne
  exact (h.apart_of_ne hm hm' hne).not_inInterval hx hx'

/-- An allocation is in its chunk, with a page in front and a page behind. -/
theorem Sound.allocation (h : a.Sound live held) {e : Nat × AllocationMetadata}
    (he : e ∈ a.allocations.entries) :
    e.2.address + a.options.pageSize.bytes = e.1 ∧
      e.1 + a.options.roundUpToPage e.2.size + a.options.pageSize.bytes ≤
        e.2.address + e.2.actualSize ∧ e.2.size < a.options.roundUpToPage e.2.size := by
  have hkey := h.keyed e he
  have hsize := h.sized e he
  exact ⟨hkey.symm, by omega, roundUpToPage_gt _ _⟩

theorem Sound.within_chunk (h : a.Sound live held) {e : Nat × AllocationMetadata} {x : Nat}
    (he : e ∈ a.allocations.entries) (hx : InInterval x (e.1, e.2.size)) :
    InInterval x e.2.chunk := by
  obtain ⟨hkey, hend, hsize⟩ := h.allocation he
  exact ⟨by have := hx.1; show e.2.address ≤ x; omega,
    by have := hx.2; show x < e.2.address + e.2.actualSize; omega⟩

/-- Two entries of the map with a common address are one. -/
theorem Sound.entry_unique (h : a.Sound live held) {e e' : Nat × AllocationMetadata} {x : Nat}
    (he : e ∈ a.allocations.entries) (he' : e' ∈ a.allocations.entries)
    (hx : InInterval x e.2.chunk) (hx' : InInterval x e'.2.chunk) : e = e' := by
  have heq := h.unique (mem_everywhere he) (mem_everywhere he') hx hx'
  exact Prod.ext ((h.keyed e he).trans (by rw [heq, ← h.keyed e' he'])) heq

/-- The shadow of an allocation is its own. -/
theorem Sound.addressable (h : a.Sound live held) {m : AllocationMetadata}
    (hm : m ∈ a.everywhere held) {size : Nat}
    (hsize : a.options.roundUpToPage size + 2 * a.options.pageSize.bytes ≤ m.actualSize) :
    (m.address + a.options.pageSize.bytes) % 8 = 0 ∧
      m.address + a.options.pageSize.bytes + size < 2 ^ (a.options.shadowBit + 4) := by
  have haligned := h.aligned _ (h.mem_mappings hm)
  have hbelow := h.below _ (h.mem_mappings hm)
  have hgt := roundUpToPage_gt a.options size
  have hpos := a.options.pageSize.pos
  constructor
  · exact Nat.mod_eq_zero_of_dvd
      (a.options.pageSize.granules.trans ((Nat.dvd_add_self_right).mpr haligned))
  · have : m.address + m.actualSize ≤ 2 ^ (a.options.shadowBit + 4) := hbelow
    omega

/-! ## Serving a chunk -/

/-- A chunk that is held is not one of the map. -/
theorem Sound.key_fresh {m : AllocationMetadata} (h : a.Sound live (m :: held)) :
    a.allocations.find? (m.address + a.options.pageSize.bytes) = none := by
  refine OrderedMap.find?_eq_none_iff.mpr fun m' hm' => ?_
  have hnonempty : 0 < m.actualSize :=
    h.nonempty _ (h.mem_mappings (List.mem_append_left _ (List.mem_cons_self ..)))
  have hdisjoint : IntervalsApart m.chunk m'.chunk :=
    (List.pairwise_cons.mp h.chunks_apart).1 _ (mem_everywhere hm')
  have hpos := a.options.pageSize.pos
  have hwithin : InInterval m.address m.chunk :=
    ⟨le_refl _, by show m.address < m.address + m.actualSize; omega⟩
  refine hdisjoint.not_inInterval hwithin ⟨?_, ?_⟩
  · have hkey := h.keyed _ hm'
    dsimp only at hkey
    show m'.address ≤ m.address
    omega
  · have hkey := h.keyed _ hm'
    have hsize := h.sized _ hm'
    dsimp only at hkey hsize
    show m.address < m'.address + m'.actualSize
    omega

theorem Sound.serve {m : AllocationMetadata} (h : a.Sound live (m :: held))
    (hfreed : m.freed = false)
    (hsize : a.options.roundUpToPage m.size + 2 * a.options.pageSize.bytes ≤ m.actualSize) :
    (a.serve m).2.Sound (((a.serve m).1, m.size) :: live) held := by
  have hm : m ∈ a.everywhere (m :: held) := List.mem_append_left _ (List.mem_cons_self ..)
  have hfresh := h.key_fresh
  have hkey : ∀ e ∈ a.allocations.entries, e.1 ≠ m.address + a.options.pageSize.bytes :=
    fun e he heq => OrderedMap.find?_eq_none_iff.mp hfresh e.2 (heq ▸ he)
  have hmem : ∀ e, e ∈ (a.serve m).2.allocations.entries ↔
      e = (m.address + a.options.pageSize.bytes, m) ∨ e ∈ a.allocations.entries := by
    intro e
    refine OrderedMap.mem_insert.trans (or_congr_right ⟨And.left, fun he => ⟨he, hkey e he⟩⟩)
  obtain ⟨halign, hlimit⟩ := h.addressable hm hsize
  refine ⟨?_, h.apart, h.aligned, h.below, h.nonempty, ?_, ?_, h.queued, ?_, ?_, ?_⟩
  · refine List.Perm.trans (List.Perm.map _ ?_) h.chunks
    have hperm := (OrderedMap.perm_insert_of_fresh hfresh m).map (·.2)
    refine List.Perm.trans (List.Perm.append_left held (hperm.append_right _)) ?_
    exact List.perm_middle
  · intro e he
    rcases (hmem e).mp he with rfl | he
    · rfl
    · exact h.keyed e he
  · intro e he
    rcases (hmem e).mp he with rfl | he
    · exact hsize
    · exact h.sized e he
  · intro u
    rw [List.mem_cons, h.mem_live]
    constructor
    · rintro (rfl | ⟨e, he, hlive, rfl⟩)
      · exact ⟨_, (hmem _).mpr (Or.inl rfl), hfreed, rfl⟩
      · exact ⟨e, (hmem e).mpr (Or.inr he), hlive, rfl⟩
    · rintro ⟨e, he, hlive, rfl⟩
      rcases (hmem e).mp he with rfl | he
      · exact Or.inl rfl
      · exact Or.inr ⟨e, he, hlive, rfl⟩
  · refine List.nodup_cons.mpr ⟨fun hin => ?_, h.nodup⟩
    obtain ⟨u, hu, heq⟩ := List.mem_map.mp hin
    obtain ⟨e, he, -, rfl⟩ := (h.mem_live u).mp hu
    exact hkey e he heq
  · rintro x ⟨m', hm', hx⟩
    have hxlimit : x < 2 ^ (a.options.shadowBit + 4) := lt_of_lt_of_le hx.2 (h.below m' hm')
    refine (FridaAllocatorOptions.getLsbD_unpoison halign hlimit hxlimit).trans ?_
    rw [List.exists_mem_cons_iff, or_comm]
    exact or_congr_right (h.shadow x ⟨m', hm', hx⟩)

/-! ## Taking a chunk -/

theorem Sound.fit (h : a.Sound live held) {size : Nat} {m : AllocationMetadata}
    {queue : OrderedMap Nat (List AllocationMetadata)}
    (hfit : a.findSmallestFit size = some (m, queue)) :
    { a with allocationQueue := queue }.Sound live (m :: held) ∧ m.freed = false ∧
      size ≤ m.actualSize := by
  unfold findSmallestFit at hfit
  obtain ⟨⟨k, l⟩, hfind, hlast⟩ := Option.bind_eq_some_iff.mp hfit
  obtain ⟨m', hlast', heq⟩ := Option.map_eq_some_iff.mp hlast
  obtain ⟨rfl, rfl⟩ := Prod.mk.inj heq
  have hentry := List.mem_of_find?_eq_some hfind
  have hsize : size ≤ k := by
    have := List.find?_some hfind
    exact (of_decide_eq_true this).1
  have hl : l = l.dropLast ++ [m'] := (List.dropLast_append_getLast? m' hlast').symm
  have hm := h.queued _ hentry m' (List.mem_of_getLast? hlast')
  rw [hl] at hentry
  refine ⟨⟨?_, h.apart, h.aligned, h.below, h.nonempty, h.keyed, h.sized, ?_, h.mem_live, h.nodup,
    h.shadow⟩, hm.2, hm.1 ▸ hsize⟩
  · refine List.Perm.trans (List.Perm.map _ ?_) h.chunks
    have hperm := OrderedMap.perm_flat_pop hentry
    unfold everywhere
    rw [List.cons_append, ← List.append_assoc, ← List.append_assoc]
    exact List.perm_middle.symm.trans (hperm.append_left _)
  · intro e he m hm
    rcases OrderedMap.mem_insert.mp he with rfl | ⟨he, -⟩
    · exact h.queued _ (List.mem_of_find?_eq_some hfind) m (List.dropLast_subset _ hm)
    · exact h.queued e he m hm

/-- A fresh mapping is a chunk that is held. -/
theorem Sound.map (h : a.Sound live held) {address len hint : Nat} (hlen : 0 < len)
    (hfresh : a.Fresh (address, len)) (m : AllocationMetadata) (hm : m.chunk = (address, len)) :
    { a with currentMappingAddr := hint, mappings := (address, len) :: a.mappings }.Sound live
      (m :: held) := by
  refine ⟨?_, ?_, ?_, ?_, ?_, h.keyed, h.sized, h.queued, h.mem_live, h.nodup, ?_⟩
  · unfold everywhere
    rw [List.cons_append, List.map_cons, hm]
    exact h.chunks.cons _
  · exact List.pairwise_cons.mpr ⟨fun m' hm' => hfresh.disjoint m' hm', h.apart⟩
  · intro m' hm'
    rcases List.mem_cons.mp hm' with rfl | hm'
    · exact hfresh.aligned
    · exact h.aligned m' hm'
  · intro m' hm'
    rcases List.mem_cons.mp hm' with rfl | hm'
    · exact hfresh.within
    · exact h.below m' hm'
  · intro m' hm'
    rcases List.mem_cons.mp hm' with rfl | hm'
    · exact hlen
    · exact h.nonempty m' hm'
  · rintro x ⟨m', hm', hx⟩
    rcases List.mem_cons.mp hm' with rfl | hm'
    · refine iff_of_false ?_ ?_
      · show ¬(a.shadow (a.options.mapToShadow x)).getLsbD _ = true
        rw [hfresh.zeroed x hx]
        simp
      · rintro ⟨u, hu, hwithin⟩
        obtain ⟨e, he, -, rfl⟩ := (h.mem_live u).mp hu
        have hin := h.mem_mappings (mem_everywhere he)
        exact IntervalsApart.not_inInterval (hfresh.disjoint _ hin) hx (h.within_chunk he hwithin)
    · exact h.shadow x ⟨m', hm', hx⟩

theorem Sound.held_congr {m m' : AllocationMetadata} (h : a.Sound live (m :: held))
    (hchunk : m'.chunk = m.chunk) : a.Sound live (m' :: held) := by
  refine ⟨?_, h.apart, h.aligned, h.below, h.nonempty, h.keyed, h.sized, h.queued, h.mem_live,
    h.nodup, h.shadow⟩
  have hchunks := h.chunks
  unfold everywhere at hchunks ⊢
  rw [List.cons_append, List.map_cons] at hchunks ⊢
  rwa [hchunk]

theorem Sound.total (h : a.Sound live held) (total : Nat) :
    { a with totalAllocationSize := total }.Sound live held :=
  ⟨h.chunks, h.apart, h.aligned, h.below, h.nonempty, h.keyed, h.sized, h.queued, h.mem_live,
    h.nodup, h.shadow⟩

theorem roundedUpSize_eq {options : FridaAllocatorOptions} {size len : Nat}
    (h : options.roundedUpSize size = some len) :
    len = options.roundUpToPage size + 2 * options.pageSize.bytes := by
  unfold FridaAllocatorOptions.roundedUpSize at h
  dsimp only at h
  split_ifs at h
  exact (Option.some.inj h).symm

/-- An allocation of this size is charged `len`, and the limits allow it. -/
def Passes (a : FridaAllocator) (size len : Nat) : Prop :=
  allocatedSize size ≤ a.options.maxAllocation ∧
    a.options.roundedUpSize (allocatedSize size) = some len ∧
    (a.totalAllocationSize + len) % 2 ^ 64 ≤ a.options.maxTotalAllocation

/-- The size of the chunk that serves `len` bytes, when there is one. -/
def chunkSize (a : FridaAllocator) (len : Nat) (mmap : Mmap) : Option Nat :=
  match a.findSmallestFit len with
  | some (metadata, _) => some metadata.actualSize
  | none => (mmap a.currentMappingAddr len).map fun _ => len

/-- What an allocation does: it is refused, it finds no chunk, or it serves one
that was held. -/
theorem Sound.alloc_cases (h : a.Sound live []) {size : Nat} {mmap : Mmap} {ptr : Nat}
    {a' : FridaAllocator} (hfresh : ∀ len address,
      a.options.roundedUpSize (allocatedSize size) = some len →
      mmap a.currentMappingAddr len = some address → a.Fresh (address, len))
    (halloc : a.alloc size mmap = some (ptr, a')) :
    ((∀ len, ¬ a.Passes size len) ∧ ptr = 0 ∧ a' = a) ∨
    ∃ len, a.Passes size len ∧
      ((a.chunkSize len mmap = none ∧ ptr = 0 ∧
        a' = { a with totalAllocationSize := (a.totalAllocationSize + len) % 2 ^ 64 }) ∨
      ∃ (b : FridaAllocator) (m : AllocationMetadata), b.Sound live [m] ∧
        b.options = a.options ∧ b.allocations = a.allocations ∧
        b.totalAllocationSize = (a.totalAllocationSize + len) % 2 ^ 64 ∧ m.freed = false ∧
        m.size = allocatedSize size ∧ len ≤ m.actualSize ∧
        a.chunkSize len mmap = some m.actualSize ∧ b.serve m = (ptr, a')) := by
  unfold FridaAllocator.alloc at halloc
  dsimp only at halloc
  split_ifs at halloc with hmax
  · obtain ⟨rfl, rfl⟩ := Prod.mk.inj (Option.some.inj halloc)
    exact .inl ⟨fun len hpass => absurd hpass.1 (Nat.not_le.mpr hmax), rfl, rfl⟩
  · obtain ⟨len, hlen, halloc⟩ := Option.map_eq_some_iff.mp halloc
    split_ifs at halloc with htotal
    · obtain ⟨rfl, rfl⟩ := Prod.mk.inj halloc
      refine .inl ⟨fun len' hpass => ?_, rfl, rfl⟩
      obtain rfl := Option.some.inj (hlen.symm.trans hpass.2.1)
      exact absurd hpass.2.2 (Nat.not_le.mpr htotal)
    · have hsound := h.total ((a.totalAllocationSize + len) % 2 ^ 64)
      refine .inr ⟨len, ⟨Nat.le_of_not_lt hmax, hlen, Nat.le_of_not_lt htotal⟩, ?_⟩
      have hfit : ∀ total, FridaAllocator.findSmallestFit { a with totalAllocationSize := total }
          len = a.findSmallestFit len := fun _ => rfl
      rw [hfit] at halloc
      rw [chunkSize]
      cases hsmall : a.findSmallestFit len with
      | some found =>
          obtain ⟨m, queue⟩ := found
          rw [hsmall] at halloc
          obtain ⟨hheld, hfreed, hle⟩ := hsound.fit (hfit _ ▸ hsmall)
          refine .inr ⟨_, _, hheld.held_congr ?_, ?_, ?_, ?_, ?_, ?_, ?_, ?_, halloc⟩
          · rfl
          · rfl
          · rfl
          · rfl
          · exact hfreed
          · rfl
          · exact hle
          · rfl
      | none =>
          rw [hsmall] at halloc
          cases hmap : mmap a.currentMappingAddr len with
          | none =>
              simp only [hmap] at halloc
              obtain ⟨rfl, rfl⟩ := Prod.mk.inj halloc
              exact .inl ⟨by simp only [Option.map_none], rfl, rfl⟩
          | some address =>
              simp only [hmap] at halloc
              have hnew := hfresh len address hlen hmap
              have hpos : 0 < len := by
                have := a.options.pageSize.pos
                have := roundedUpSize_eq hlen
                omega
              refine .inr ⟨_, _, hsound.map hpos
                ⟨hnew.aligned, hnew.within, hnew.disjoint, hnew.zeroed⟩ _ ?_,
                ?_, ?_, ?_, ?_, ?_, ?_, ?_, halloc⟩
              · rfl
              · rfl
              · rfl
              · rfl
              · rfl
              · rfl
              · exact Nat.le_refl len
              · simp only [Option.map_some]

theorem serve_ne_zero (b : FridaAllocator) (m : AllocationMetadata) : (b.serve m).1 ≠ 0 := by
  have := b.options.pageSize.pos
  show m.address + b.options.pageSize.bytes ≠ 0
  omega

theorem Sound.alloc (h : a.Sound live []) {size : Nat} {mmap : Mmap} {ptr : Nat}
    {a' : FridaAllocator} (hfresh : ∀ len address,
      a.options.roundedUpSize (allocatedSize size) = some len →
      mmap a.currentMappingAddr len = some address → a.Fresh (address, len))
    (halloc : a.alloc size mmap = some (ptr, a')) :
    a'.Sound (if ptr = 0 then live else (ptr, allocatedSize size) :: live) [] := by
  obtain ⟨-, rfl, rfl⟩ | ⟨len, hpass, ⟨-, rfl, rfl⟩ |
    ⟨b, m, hb, hoptions, -, -, hfreed, hsize, hle, -, hserve⟩⟩ := h.alloc_cases hfresh halloc
  · exact h
  · exact h.total _
  · have hfits : b.options.roundUpToPage m.size + 2 * b.options.pageSize.bytes ≤ m.actualSize := by
      rw [hoptions, hsize, ← roundedUpSize_eq hpass.2.1]
      exact hle
    have hsound := hb.serve hfreed hfits
    have hptr := serve_ne_zero b m
    rw [hserve] at hsound hptr
    rw [if_neg hptr, ← hsize]
    exact hsound

/-! ## Releasing an allocation -/

theorem Sound.release (h : a.Sound live []) {ptr : Nat} {reportError : Bool}
    {a' : FridaAllocator} (hrelease : a.release ptr reportError = some a') :
    a'.Sound (live.filter fun u => u.1 ≠ ptr) [] := by
  unfold FridaAllocator.release at hrelease
  cases hfind : a.allocations.find? ptr with
  | none =>
      rw [hfind] at hrelease
      dsimp only at hrelease
      split_ifs at hrelease
      obtain rfl := Option.some.inj hrelease
      -- nothing that is live is at `ptr`
      have hfilter : live.filter (fun u => u.1 ≠ ptr) = live := by
        refine List.filter_eq_self.mpr fun u hu => decide_eq_true ?_
        obtain ⟨e, he, -, rfl⟩ := (h.mem_live u).mp hu
        rintro rfl
        exact OrderedMap.find?_eq_none_iff.mp hfind e.2 he
      rw [hfilter]
      exact h
  | some m =>
      rw [hfind] at hrelease
      dsimp only at hrelease
      split_ifs at hrelease
      obtain rfl := Option.some.inj hrelease
      have hentry := OrderedMap.find?_eq_some_iff.mp hfind
      have hkey : ptr = m.address + a.options.pageSize.bytes := h.keyed _ hentry
      obtain ⟨halign, hlimit⟩ := h.addressable (mem_everywhere hentry) (h.sized _ hentry)
      refine ⟨?_, h.apart, h.aligned, h.below, h.nonempty, ?_, ?_, h.queued, ?_, ?_, ?_⟩
      · have hperm := (OrderedMap.perm_insert_of_mem hentry { m with freed := true }).map
          (·.2.chunk)
        have hchunks := (List.perm_cons _).mp hperm
        refine List.Perm.trans ?_ h.chunks
        simp only [everywhere, List.nil_append, List.map_append, List.map_map]
        exact hchunks.append_right _
      · intro e he
        rcases OrderedMap.mem_insert.mp he with rfl | ⟨he, -⟩
        · exact hkey
        · exact h.keyed e he
      · intro e he
        rcases OrderedMap.mem_insert.mp he with rfl | ⟨he, -⟩
        · exact h.sized (ptr, m) hentry
        · exact h.sized e he
      · intro u
        rw [List.mem_filter, h.mem_live, decide_eq_true_iff]
        constructor
        · rintro ⟨⟨e, he, hlive, rfl⟩, hne⟩
          exact ⟨e, OrderedMap.mem_insert.mpr (Or.inr ⟨he, hne⟩), hlive, rfl⟩
        · rintro ⟨e, he, hlive, rfl⟩
          rcases OrderedMap.mem_insert.mp he with rfl | ⟨he, hne⟩
          · cases hlive
          · exact ⟨⟨e, he, hlive, rfl⟩, hne⟩
      · exact h.nodup.sublist ((List.filter_sublist).map _)
      · rintro x ⟨m', hm', hx⟩
        have hxlimit : x < 2 ^ (a.options.shadowBit + 4) := lt_of_lt_of_le hx.2 (h.below m' hm')
        rw [← hkey] at halign hlimit
        refine (FridaAllocatorOptions.getLsbD_poison halign hlimit hxlimit).trans ?_
        rw [show ((a.shadow (a.options.mapToShadow x)).getLsbD (7 - x % 8) = true) ↔
          ∃ u ∈ live, InInterval x u from h.shadow x ⟨m', hm', hx⟩]
        constructor
        · rintro ⟨⟨u, hu, hwithin⟩, hnot⟩
          refine ⟨u, List.mem_filter.mpr ⟨hu, decide_eq_true fun heq => ?_⟩, hwithin⟩
          obtain ⟨⟨k, m''⟩, he, -, rfl⟩ := (h.mem_live u).mp hu
          obtain rfl : k = ptr := heq
          exact hnot (OrderedMap.value_unique he hentry ▸ hwithin)
        · rintro ⟨u, hu, hwithin⟩
          obtain ⟨hu, hne⟩ := List.mem_filter.mp hu
          refine ⟨⟨u, hu, hwithin⟩, fun hin => of_decide_eq_true hne ?_⟩
          obtain ⟨e, he, -, rfl⟩ := (h.mem_live u).mp hu
          have heq := h.entry_unique he hentry (h.within_chunk he hwithin)
            (h.within_chunk hentry hin)
          exact congrArg (·.1) heq

/-! ## Resetting -/

/-- The metadata of a freed chunk in the queue. -/
def cleaned (m : AllocationMetadata) : AllocationMetadata := { m with size := 0, freed := false }

theorem foldl_take_tmp (options : FridaAllocatorOptions) (es : List (Nat × AllocationMetadata))
    (r : Resetting) : (es.foldl (Resetting.take options) r).tmpAllocations =
      r.tmpAllocations ++ (es.filter fun e => !e.2.freed).map (·.2) := by
  induction es generalizing r with
  | nil => simp
  | cons e es ih =>
      rw [List.foldl_cons, ih]
      cases hfreed : e.2.freed <;> simp [Resetting.take, hfreed]

theorem foldl_take_flat (options : FridaAllocatorOptions)
    (es : List (Nat × AllocationMetadata)) (r : Resetting) :
    (es.foldl (Resetting.take options) r).allocationQueue.flat.Perm
      ((es.filter fun e => e.2.freed).map (fun e => cleaned e.2) ++ r.allocationQueue.flat) := by
  induction es generalizing r with
  | nil => exact List.Perm.refl _
  | cons e es ih =>
      rw [List.foldl_cons]
      refine (ih _).trans ?_
      cases hfreed : e.2.freed
      · simp [Resetting.take, hfreed]
      · simp only [Resetting.take, hfreed, if_true, List.filter_cons_of_pos, List.map_cons]
        refine ((OrderedMap.perm_flat_push _ _ _).append_left _).trans ?_
        exact List.perm_middle

theorem foldl_take_queued (options : FridaAllocatorOptions)
    (es : List (Nat × AllocationMetadata)) (r : Resetting)
    (h : ∀ e ∈ r.allocationQueue.entries, ∀ m ∈ e.2, m.actualSize = e.1 ∧ m.freed = false) :
    ∀ e ∈ (es.foldl (Resetting.take options) r).allocationQueue.entries, ∀ m ∈ e.2,
      m.actualSize = e.1 ∧ m.freed = false := by
  induction es generalizing r with
  | nil => exact h
  | cons e es ih =>
      rw [List.foldl_cons]
      refine ih _ ?_
      unfold Resetting.take
      dsimp only
      split_ifs
      · intro e' he' m hm
        rcases OrderedMap.mem_insert.mp he' with rfl | ⟨he', -⟩
        · rcases List.mem_append.mp hm with hm | hm
          · cases hfind : r.allocationQueue.find? e.2.actualSize with
            | none =>
                rw [hfind] at hm
                cases hm
            | some l =>
                rw [hfind] at hm
                exact h _ (OrderedMap.find?_eq_some_iff.mp hfind) m hm
          · obtain rfl := List.mem_singleton.mp hm
            exact ⟨rfl, rfl⟩
        · exact h e' he' m hm
      · exact h

/-- What is poisoned again has been poisoned by the release. -/
theorem foldl_take_shadow {options : FridaAllocatorOptions}
    {es : List (Nat × AllocationMetadata)}
    (hes : ∀ e ∈ es, e.1 % 8 = 0 ∧ e.1 + e.2.size < 2 ^ (options.shadowBit + 4)) {x : Nat}
    (hx : x < 2 ^ (options.shadowBit + 4)) (r : Resetting)
    (hpoisoned : ∀ e ∈ es, e.2.freed = true → InInterval x (e.1, e.2.size) →
      ¬(r.shadow (options.mapToShadow x)).getLsbD (7 - x % 8) = true) :
    ((es.foldl (Resetting.take options) r).shadow (options.mapToShadow x)).getLsbD (7 - x % 8) =
        true ↔
      (r.shadow (options.mapToShadow x)).getLsbD (7 - x % 8) = true := by
  induction es generalizing r with
  | nil => exact Iff.rfl
  | cons e es ih =>
      rw [List.foldl_cons]
      have hhead := hes e (List.mem_cons_self ..)
      have htake : ((r.take options e).shadow (options.mapToShadow x)).getLsbD (7 - x % 8) =
          true ↔ (r.shadow (options.mapToShadow x)).getLsbD (7 - x % 8) = true := by
        unfold Resetting.take
        dsimp only
        split_ifs with hfreed
        · refine (FridaAllocatorOptions.getLsbD_poison hhead.1 hhead.2 hx).trans ?_
          refine and_iff_left_of_imp fun hset hin => ?_
          exact hpoisoned e (List.mem_cons_self ..) hfreed hin hset
        · exact Iff.rfl
      refine (ih (fun e he => hes e (List.mem_cons_of_mem _ he)) _
        fun e' he' hfreed hin => ?_).trans
        htake
      rw [htake]
      exact hpoisoned e' (List.mem_cons_of_mem _ he') hfreed hin

/-- The allocations that are not freed are still in the map. -/
theorem Sound.perm_reset (h : a.Sound live held) : a.reset.allocations.entries.Perm
    (a.allocations.entries.filter fun e => !e.2.freed) := by
  have hrekey : ((a.allocations.entries.filter fun e => !e.2.freed).map fun e =>
      (e.2.address + a.options.pageSize.bytes, e.2)) =
      a.allocations.entries.filter fun e => !e.2.freed := by
    refine (List.map_congr_left fun e he => ?_).trans (List.map_id _)
    exact Prod.ext (h.keyed e (List.mem_of_mem_filter he)).symm rfl
  unfold FridaAllocator.reset
  dsimp only
  rw [foldl_take_tmp, List.nil_append, List.map_map, Function.comp_def, hrekey]
  refine (OrderedMap.perm_foldl_insert ?_ fun _ _ => rfl).trans ?_
  · exact a.allocations.nodup_keys.sublist ((List.filter_sublist).map _)
  · rw [OrderedMap.empty, List.append_nil]

theorem Sound.reset (h : a.Sound live []) : a.reset.Sound live [] := by
  have hperm := h.perm_reset
  have hmem : ∀ e, e ∈ a.reset.allocations.entries ↔
      e ∈ a.allocations.entries ∧ e.2.freed = false := by
    intro e
    rw [hperm.mem_iff, List.mem_filter]
    simp
  refine ⟨?_, h.apart, h.aligned, h.below, h.nonempty, ?_, ?_, ?_, ?_, h.nodup, ?_⟩
  · refine List.Perm.trans ?_ h.chunks
    have hflat := foldl_take_flat a.options a.allocations.entries
      ⟨a.shadow, a.allocationQueue, []⟩
    have hentries := hperm.map fun e => e.2.chunk
    have hqueue := hflat.map AllocationMetadata.chunk
    have hsplit := (List.filter_append_perm (fun e => e.2.freed) a.allocations.entries).map
      fun e => e.2.chunk
    simp only [everywhere, List.nil_append, List.map_append, List.map_map] at hqueue hsplit ⊢
    refine (hentries.append hqueue).trans ?_
    rw [← List.append_assoc]
    exact (List.perm_append_comm.trans hsplit).append_right _
  · exact fun e he => h.keyed e ((hmem e).mp he).1
  · exact fun e he => h.sized e ((hmem e).mp he).1
  · exact foldl_take_queued a.options a.allocations.entries ⟨_, _, []⟩ h.queued
  · intro u
    rw [h.mem_live]
    constructor
    · rintro ⟨e, he, hlive, rfl⟩
      exact ⟨e, (hmem e).mpr ⟨he, hlive⟩, hlive, rfl⟩
    · rintro ⟨e, he, hlive, rfl⟩
      exact ⟨e, ((hmem e).mp he).1, hlive, rfl⟩
  · rintro x ⟨m', hm', hx⟩
    have hxlimit : x < 2 ^ (a.options.shadowBit + 4) := lt_of_lt_of_le hx.2 (h.below m' hm')
    refine (foldl_take_shadow (fun e he => ?_) hxlimit ⟨a.shadow, a.allocationQueue, []⟩
      fun e he hfreed hin => ?_).trans (h.shadow x ⟨m', hm', hx⟩)
    · rw [h.keyed e he]
      exact h.addressable (mem_everywhere he) (h.sized e he)
    · refine (h.shadow x ⟨m', hm', hx⟩).not.mpr ?_
      rintro ⟨u, hu, hwithin⟩
      obtain ⟨e', he', hlive, rfl⟩ := (h.mem_live u).mp hu
      obtain rfl := h.entry_unique he he' (h.within_chunk he hin) (h.within_chunk he' hwithin)
      exact absurd (hfreed.symm.trans hlive) (by decide)

end FridaAllocator

/-! ## Runs -/

namespace FridaAllocatorRun

variable {r r' : FridaAllocatorRun}

/-- The page in front of an allocation is between it and any that is lower. -/
theorem separated_of_sound (h : r.allocator.Sound r.live [])
    {e e' : Nat × AllocationMetadata} (he : e ∈ r.allocator.allocations.entries)
    (he' : e' ∈ r.allocator.allocations.entries)
    (hle : e.2.chunk.1 + e.2.chunk.2 ≤ e'.2.chunk.1) :
    r.allocator.Separated (e.1, e.2.size) (e'.1, e'.2.size) := by
  have hmapping := h.mem_mappings (FridaAllocator.mem_everywhere he')
  obtain ⟨-, hend, hsize⟩ := h.allocation he
  obtain ⟨hkey', hend', -⟩ := h.allocation he'
  refine ⟨e'.2.address, h.aligned _ hmapping, ?_, le_of_eq hkey', fun x hx => ?_⟩
  · have : e.2.address + e.2.actualSize ≤ e'.2.address := hle
    show e.1 + e.2.size ≤ e'.2.address
    omega
  · obtain ⟨hlow, hhigh⟩ := hx
    dsimp only at hlow hhigh
    have hchunk : InInterval x e'.2.chunk :=
      ⟨hlow, by show x < e'.2.address + e'.2.actualSize; omega⟩
    refine (h.shadow x ⟨_, hmapping, hchunk⟩).not.mpr ?_
    rintro ⟨u, hu, hwithin⟩
    obtain ⟨e'', he'', -, rfl⟩ := (h.mem_live u).mp hu
    obtain rfl := h.entry_unique he'' he' (h.within_chunk he'' hwithin) hchunk
    have : e''.1 ≤ x := hwithin.1
    omega

theorem exact_of_sound (h : r.allocator.Sound r.live []) : r.Exact := by
  refine ⟨h.shadow, ?_, h.chunks, ?_⟩
  · refine (List.pairwise_map.mp h.nodup).imp_of_mem fun {u v} hu hv hne => ?_
    obtain ⟨e, he, -, rfl⟩ := (h.mem_live u).mp hu
    obtain ⟨e', he', -, rfl⟩ := (h.mem_live v).mp hv
    have hapart : IntervalsApart e.2.chunk e'.2.chunk := by
      refine h.apart_of_ne (FridaAllocator.mem_everywhere he) (FridaAllocator.mem_everywhere he')
        fun heq => hne ?_
      show e.1 = e'.1
      rw [h.keyed e he, h.keyed e' he', heq]
    rcases hapart with hle | hle
    · exact Or.inl (separated_of_sound h he he' hle)
    · exact Or.inr (separated_of_sound h he' he hle)
  · refine ((h.chunks.map (·.1)).nodup_iff).mpr (List.pairwise_map.mpr ?_)
    refine h.apart.imp_of_mem fun {m m'} hm hm' hapart heq => ?_
    have := h.nonempty m hm
    have := h.nonempty m' hm'
    rcases hapart with hle | hle
    · omega
    · omega

theorem sound_step {call : FridaAllocatorCall} (h : r.allocator.Sound r.live [])
    (hfresh : r.MapsFresh call) (hstep : step r call = some r') :
    r'.allocator.Sound r'.live [] := by
  cases call with
  | alloc size mmap =>
      obtain ⟨⟨ptr, a⟩, halloc, rfl⟩ := Option.map_eq_some_iff.mp hstep
      exact h.alloc hfresh halloc
  | release ptr reportError =>
      obtain ⟨a, hrelease, rfl⟩ := Option.map_eq_some_iff.mp hstep
      exact h.release hrelease
  | reset =>
      obtain rfl := Option.some.inj hstep
      exact h.reset

theorem sound_new (options : FridaAllocatorOptions) (shadow : FridaShadow) (baseMappingAddr : Nat) :
    (new options shadow baseMappingAddr).allocator.Sound [] [] := by
  refine ⟨List.Perm.refl _, List.Pairwise.nil, ?_, ?_, ?_, ?_, ?_, ?_, ?_, List.nodup_nil, ?_⟩
  all_goals simp [new, OrderedMap.empty]

/-- After every sequence of calls whose mappings are fresh, the shadow is exact. -/
theorem exact_of_run (options : FridaAllocatorOptions) (shadow : FridaShadow)
    (baseMappingAddr : Nat) (calls : List FridaAllocatorCall)
    (h : StepsMeet step (new options shadow baseMappingAddr) calls MapsFresh)
    (hrun : run step (new options shadow baseMappingAddr) calls = some r) : r.Exact := by
  refine exact_of_sound ?_
  exact h.invariant (fun r => r.allocator.Sound r.live [])
    (sound_new options shadow baseMappingAddr)
    (fun r call r' _ hr hfresh hstep => sound_step hr hfresh hstep) hrun

/-- Pages of 4096 bytes, and the least shadow there is. -/
def pages4096 : FridaAllocatorOptions :=
  ⟨2 ^ 30, 2 ^ 32, false, ⟨4096, Nat.zero_lt_succ 4095, ⟨512, rfl⟩⟩, 4096, 2 ^ 44, 44⟩

/-- The last allocation gets the chunk that the first one has left. -/
def reuse : List FridaAllocatorCall :=
  [.alloc 5000 fun hint _ => some hint, .release (3 * 2 ^ 44 + 4096) false, .reset,
    .alloc 0 fun _ _ => none]

theorem reuse_mapsFresh :
    StepsMeet step (new pages4096 (fun _ => 0) (3 * 2 ^ 44)) reuse MapsFresh := by
  unfold reuse
  rw [stepsMeet_cons]
  refine ⟨fun len address hlen hmap => ?_, fun r _ => ?_⟩
  · have hrounded : pages4096.roundedUpSize (allocatedSize 5000) = some 16384 := rfl
    obtain rfl := Option.some.inj (hrounded.symm.trans hlen)
    obtain rfl := Option.some.inj hmap
    exact ⟨by decide, by decide, by simp [new], fun _ _ => rfl⟩
  rw [stepsMeet_cons]
  refine ⟨trivial, fun r _ => ?_⟩
  rw [stepsMeet_cons]
  refine ⟨trivial, fun r _ => ?_⟩
  rw [stepsMeet_cons]
  exact ⟨fun _ _ _ hmap => (by cases hmap), fun _ _ => stepsMeet_nil⟩

theorem exact_reuse : ∃ r, run step (new pages4096 (fun _ => 0) (3 * 2 ^ 44)) reuse = some r ∧
    r.live = [(3 * 2 ^ 44 + 4096, 16)] ∧ r.Exact := by
  have hlast : (run step (new pages4096 (fun _ => 0) (3 * 2 ^ 44)) reuse).map (·.live) =
      some [(3 * 2 ^ 44 + 4096, 16)] := by decide +kernel
  obtain ⟨r, hrun, hlive⟩ := Option.map_eq_some_iff.mp hlast
  exact ⟨r, hrun, hlive,
    exact_of_run pages4096 (fun _ => 0) (3 * 2 ^ 44) reuse reuse_mapsFresh hrun⟩

end FridaAllocatorRun

end Libaflmm
