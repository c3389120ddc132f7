import Libaflmm.AsanQuarantine

/-!
# The shadow of the guest allocator

The marks an allocation and a deallocation leave in the guest shadow: the
bytes of every live allocation are valid, the red zones around it and the
chunks in quarantine are not, and no call touches the shadow outside of the
chunk it works on.

The red zone behind an allocation starts at its last byte and ends a multiple
of 16 after its start. Where the alignment is an odd multiple of 8, the chunk
may end 8 bytes before that (`Roomy`).
-/

namespace Libaflmm

namespace GuestShadow

theorem poisoned_cells_of_outside {start len g : Nat} {v : UInt8} {s : GuestShadow}
    (h : 8 * g + 8 ≤ start ∨ start + len ≤ 8 * g) :
    (s.poisoned start len v).cells g = s.cells g := by
  simp only [poisoned]
  rw [if_neg (by omega), if_neg (by omega)]

theorem unpoisoned_cells_of_outside {start len g : Nat} {s : GuestShadow}
    (h : 8 * g + 8 ≤ start ∨ start + len ≤ 8 * g) :
    (s.unpoisoned start len).cells g = s.cells g := by
  simp only [unpoisoned]
  rw [if_neg (by omega), if_neg (by omega)]

/-- The two shadows have the same bytes outside of `i`. -/
def SameOutside (i : Interval) (s t : GuestShadow) : Prop :=
  ∀ a, a ∉ i → t.cells (a / 8) = s.cells (a / 8)

theorem Poisoned.congr {s t : GuestShadow} {a : Nat} (h : t.cells (a / 8) = s.cells (a / 8)) :
    t.Poisoned a ↔ s.Poisoned a := by
  simp only [Poisoned, ALLOC_ALIGN_SIZE, h]

/-! ## The marks of an allocation -/

/-- The marks of an allocation of `len` bytes at `data`, between red zones. -/
def allocated (orig data len poisonLen : Nat) (s : GuestShadow) : GuestShadow :=
  ((s.poisoned orig (data - orig) PoisonType.asanHeapLeftRz.toUInt8).unpoisoned data len).poisoned
    (data + len) poisonLen PoisonType.asanStackRightRz.toUInt8

/-- A negative mark is below the offset of every byte. -/
theorem mark_bounds {k : Int8} (hk : k < 0) : ∀ r < 8, k ≠ 0 ∧ k < (r + 1).toInt8 := by
  intro r hr
  rw [Int8.lt_iff_toInt_lt] at hk ⊢
  have hoffset : (r + 1).toInt8.toInt = (r + 1 : Nat) := Int8.toInt_ofNat_of_lt (by omega)
  rw [hoffset]
  refine ⟨fun hzero => ?_, ?_⟩
  · rw [hzero] at hk
    exact absurd hk (Int.lt_irrefl _)
  · have hneg : k.toInt < 0 := hk
    omega

theorem count_bounds : ∀ k < 8, k ≠ 0 → ∀ r < 8,
    ((k.toUInt8.toInt8 ≠ 0 ∧ k.toUInt8.toInt8 < (r + 1).toInt8) ↔ k ≤ r) := by
  decide

section

variable {orig data len poisonLen a : Nat} {s : GuestShadow}

theorem not_poisoned_of_zero (h : s.cells (a / 8) = 0) : ¬s.Poisoned a := by
  simp [Poisoned, ALLOC_ALIGN_SIZE, h]

theorem poisoned_of_mark {p : PoisonType} (hp : p.toUInt8.toInt8 < 0)
    (h : s.cells (a / 8) = p.toUInt8) : s.Poisoned a := by
  simp only [Poisoned, ALLOC_ALIGN_SIZE, h]
  exact mark_bounds hp (a % 8) (Nat.mod_lt _ (by omega))

/-- A cell that counts the first `k` of its bytes as valid. -/
theorem poisoned_iff_of_count {k : Nat} (h : s.cells (a / 8) = k.toUInt8) (hk : k ≠ 0)
    (hk8 : k < 8) : s.Poisoned a ↔ k ≤ a % 8 := by
  simp only [Poisoned, ALLOC_ALIGN_SIZE, h]
  exact count_bounds k hk8 hk (a % 8) (Nat.mod_lt _ (by decide))

theorem allocated_valid (hdata : data % 8 = 0) (hend : (data + len + poisonLen) % 8 = 0)
    (ha : data ≤ a ∧ a < data + len) :
    ¬(allocated orig data len poisonLen s).Poisoned a := by
  by_cases hlast : data + len < 8 * (a / 8) + 8
  · -- the cell of the last byte counts the bytes up to the end of the data
    have hcell : (allocated orig data len poisonLen s).cells (a / 8) =
        ((data + len) % 8).toUInt8 := by
      simp only [allocated, poisoned]
      rw [if_neg (by omega), if_pos (by omega)]
    rw [poisoned_iff_of_count hcell (by omega) (by omega)]
    omega
  · apply not_poisoned_of_zero
    simp only [allocated]
    rw [poisoned_cells_of_outside (by omega)]
    simp only [unpoisoned]
    rw [if_pos (by omega)]

theorem allocated_left (hdata : data % 8 = 0) (horig : orig % 8 = 0) (ha : orig ≤ a ∧ a < data) :
    (allocated orig data len poisonLen s).Poisoned a := by
  apply poisoned_of_mark (p := .asanHeapLeftRz) (by decide)
  simp only [allocated]
  rw [poisoned_cells_of_outside (by omega), unpoisoned_cells_of_outside (by omega)]
  simp only [poisoned]
  rw [if_pos (by omega)]

theorem allocated_right (hend : (data + len + poisonLen) % 8 = 0)
    (ha : data + len ≤ a ∧ a < data + len + poisonLen) :
    (allocated orig data len poisonLen s).Poisoned a := by
  by_cases hfirst : 8 * (a / 8) < data + len
  · have hcell : (allocated orig data len poisonLen s).cells (a / 8) =
        ((data + len) % 8).toUInt8 := by
      simp only [allocated, poisoned]
      rw [if_neg (by omega), if_pos (by omega)]
    rw [poisoned_iff_of_count hcell (by omega) (by omega)]
    omega
  · apply poisoned_of_mark (p := .asanStackRightRz) (by decide)
    simp only [allocated, poisoned]
    rw [if_pos (by omega)]

end

/-! ## What stays -/

theorem SameOutside.refl (i : Interval) (s : GuestShadow) : SameOutside i s s := fun _ _ => rfl

theorem SameOutside.trans {i : Interval} {s t u : GuestShadow} (hst : SameOutside i s t)
    (htu : SameOutside i t u) : SameOutside i s u :=
  fun a ha => (htu a ha).trans (hst a ha)

section

variable {i : Interval} {start len : Nat} {s : GuestShadow} (hstart : i.start % 8 = 0)
  (hstop : i.stop % 8 = 0) (hlow : i.start ≤ start) (hhigh : start + len ≤ i.stop)

include hstart hstop hlow hhigh

theorem sameOutside_poisoned (v : UInt8) : SameOutside i s (s.poisoned start len v) := by
  intro a ha
  rw [Interval.mem_def] at ha
  exact poisoned_cells_of_outside (by omega)

theorem sameOutside_unpoisoned : SameOutside i s (s.unpoisoned start len) := by
  intro a ha
  rw [Interval.mem_def] at ha
  exact unpoisoned_cells_of_outside (by omega)

end

end GuestShadow

namespace DefaultFrontend

open GuestShadow

section

variable {T εT : Type} {f : DefaultFrontend GuestShadow T}

/-! ## Calls to the shadow -/

theorem leaves_onTracking {x : Call εT T Unit}
    {Q : Except (DefaultFrontendError GuestShadowError εT) Unit →
      DefaultFrontend GuestShadow T → Prop}
    (h : ∀ (r : Except εT Unit) u, Q (r.mapError .trackingError) (f.withMarks f.shadow u)) :
    (onTracking x : FrontendCall GuestShadow T GuestShadowError εT Unit).Leaves f Q := by
  intro r t hrun
  obtain ⟨⟨r, u⟩, -, heq⟩ := Option.map_eq_some_iff.mp hrun
  obtain ⟨rfl, rfl⟩ := Prod.mk.inj heq
  exact h r u

section

variable {start len : Nat}
  {Q : Except (DefaultFrontendError GuestShadowError εT) Unit →
    DefaultFrontend GuestShadow T → Prop}
  (herror : ∀ e, Q (.error (.shadowError e)) f)

include herror

theorem leaves_onShadow_poison {p : PoisonType}
    (hok : Q (.ok ()) (f.withMarks (f.shadow.poisoned start len p.toUInt8) f.tracking)) :
    (onShadow (Shadow.poison start len p) : FrontendCall GuestShadow T _ εT Unit).Leaves f Q := by
  intro r t hrun
  rcases run_poison start len p f.shadow with ⟨e, h⟩ | ⟨-, h⟩
  · obtain ⟨rfl, rfl⟩ := Prod.mk.inj
      (Option.some.inj ((run_onShadow_of_error εT h).symm.trans hrun))
    exact herror e
  · obtain ⟨rfl, rfl⟩ := Prod.mk.inj (Option.some.inj ((run_onShadow_of_ok εT h).symm.trans hrun))
    exact hok

theorem leaves_onShadow_unpoison
    (hok : Q (.ok ()) (f.withMarks (f.shadow.unpoisoned start len) f.tracking)) :
    (onShadow (Shadow.unpoison start len) : FrontendCall GuestShadow T _ εT Unit).Leaves f Q := by
  intro r t hrun
  rcases run_unpoison start len f.shadow with ⟨e, h⟩ | ⟨-, h⟩
  · obtain ⟨rfl, rfl⟩ := Prod.mk.inj
      (Option.some.inj ((run_onShadow_of_error εT h).symm.trans hrun))
    exact herror e
  · obtain ⟨rfl, rfl⟩ := Prod.mk.inj (Option.some.inj ((run_onShadow_of_ok εT h).symm.trans hrun))
    exact hok

end

variable [Tracking T εT]

/-- A call has changed the marks only, and those of the shadow in `i` only. -/
def MarksWithin (i : Interval) (f t : DefaultFrontend GuestShadow T) : Prop :=
  ∃ s u, t = f.withMarks s u ∧ SameOutside i f.shadow s

variable (εT) in
/-- **The marks of an allocation** whose red zone fits the chunk `i`. -/
theorem markAllocated_leaves {i : Interval} (orig data len : Nat) (hstart : i.start % 8 = 0)
    (hstop : i.stop % 8 = 0) (hlow : i.start ≤ orig) (hdata : orig ≤ data)
    (hhigh : data + (len + 15) / 16 * 16 + f.redZoneSize ≤ i.stop) :
    (markAllocated orig data len : FrontendCall GuestShadow T _ εT Unit).Leaves f fun r t =>
      MarksWithin i f t ∧ (r = .ok () → t.shadow =
        allocated orig data len ((len + 15) / 16 * 16 - len + f.redZoneSize) f.shadow) := by
  have hleft : SameOutside i f.shadow
      (f.shadow.poisoned orig (data - orig) PoisonType.asanHeapLeftRz.toUInt8) :=
    sameOutside_poisoned hstart hstop hlow (by omega) _
  have hmid : SameOutside i _ ((f.shadow.poisoned orig (data - orig)
      PoisonType.asanHeapLeftRz.toUInt8).unpoisoned data len) :=
    hleft.trans (sameOutside_unpoisoned hstart hstop (by omega) (by omega))
  rw [markAllocated, Call.leaves_bind]
  refine leaves_onTracking fun r u => ?_
  rcases r with e | _
  · exact ⟨⟨_, u, rfl, SameOutside.refl i _⟩, fun h => nomatch h⟩
  show Call.Leaves (onShadow _ >>= _) _ _
  rw [Call.leaves_bind]
  refine leaves_onShadow_poison (fun e => ?_) ?_
  · exact ⟨⟨_, u, rfl, SameOutside.refl i _⟩, fun h => nomatch h⟩
  show Call.Leaves (onShadow _ >>= _) _ _
  rw [Call.leaves_bind]
  refine leaves_onShadow_unpoison (fun e => ?_) ?_
  · exact ⟨⟨_, u, rfl, hleft⟩, fun h => nomatch h⟩
  show Call.Leaves (Call.read _ >>= _) _ _
  rw [Call.leaves_bind, Call.leaves_read]
  show Call.Leaves (unwrap _ >>= _) _ _
  cases hup : checkedAlignUp len with
  | none =>
      intro r t hrun
      cases hrun
  | some alignedLen =>
      obtain ⟨-, rfl⟩ := checkedAlignUp_eq_some.mp hup
      rw [Call.leaves_bind]
      refine fun r t hrun => ?_
      obtain ⟨rfl, rfl⟩ := Prod.mk.inj (Option.some.inj ((run_unwrap_some _ _).symm.trans hrun))
      refine leaves_onShadow_poison (fun e => ?_) ?_
      · exact ⟨⟨_, u, rfl, hmid⟩, fun h => nomatch h⟩
      · have hright := sameOutside_poisoned (s := (f.shadow.poisoned orig (data - orig)
          PoisonType.asanHeapLeftRz.toUInt8).unpoisoned data len) hstart hstop
          (show i.start ≤ data + len by omega)
          (show data + len + ((len + 15) / 16 * 16 - len + f.redZoneSize) ≤ i.stop by omega)
          PoisonType.asanStackRightRz.toUInt8
        exact ⟨⟨_, u, rfl, hmid.trans hright⟩, fun _ => rfl⟩

end

/-! ## What purging and freeing keep -/

section

variable {S T εS εT : Type}

theorem Held.purged {f : DefaultFrontend S T} {addr : Nat} {alloc : Allocation} {rest : List Nat}
    (h : f.Held) (hq : f.quarantine = addr :: rest) : (f.purged addr alloc).Held := by
  obtain ⟨hnot, hnodup⟩ := List.nodup_cons.mp (hq ▸ h.nodup)
  have htail : (f.purged addr alloc).quarantine = rest := by
    rw [DefaultFrontend.purged, hq, List.tail_cons]
  constructor
  · rwa [htail]
  · intro addr' hmem
    rw [htail] at hmem
    obtain ⟨alloc', hlookup, hfreed⟩ := h.freed addr' (hq ▸ List.mem_cons_of_mem _ hmem)
    refine ⟨alloc', lookup_erase_eq_some.mpr ⟨?_, hlookup⟩, hfreed⟩
    rintro rfl
    exact hnot hmem

/-- What purging leaves of a frontend. -/
structure Purged (f t : DefaultFrontend S T) : Prop where
  shadow : t.shadow = f.shadow
  redZoneSize : t.redZoneSize = f.redZoneSize
  quarantine : ∀ addr ∈ t.quarantine, addr ∈ f.quarantine
  lookup : ∀ addr alloc, t.allocations.lookup addr = some alloc →
    f.allocations.lookup addr = some alloc
  live : ∀ addr alloc, f.allocations.lookup addr = some alloc → alloc.freed = false →
    t.allocations.lookup addr = some alloc

theorem Purged.refl (f : DefaultFrontend S T) : Purged f f :=
  ⟨rfl, rfl, fun _ h => h, fun _ _ h => h, fun _ _ h _ => h⟩

theorem purged_cons {f t : DefaultFrontend S T} {addr : Nat} {alloc : Allocation}
    {rest : List Nat} (hq : f.quarantine = addr :: rest)
    (hlookup : f.allocations.lookup addr = some alloc) (hfreed : alloc.freed = true)
    (h : Purged (f.purged addr alloc) t) : Purged f t := by
  constructor
  · exact h.shadow
  · exact h.redZoneSize
  · intro addr' hmem
    have := h.quarantine addr' hmem
    rw [DefaultFrontend.purged, hq, List.tail_cons] at this
    exact hq ▸ List.mem_cons_of_mem _ this
  · intro addr' alloc' h'
    exact (lookup_erase_eq_some.mp (h.lookup addr' alloc' h')).2
  · intro addr' alloc' h' hlive
    refine h.live addr' alloc' (lookup_erase_eq_some.mpr ⟨?_, h'⟩) hlive
    rintro rfl
    rw [hlookup] at h'
    obtain rfl := Option.some.inj h'
    rw [hfreed] at hlive
    cases hlive

variable (εS εT) in
theorem purgeRounds_leaves {f : DefaultFrontend S T} {queue : List Nat} (hf : f.Booked)
    (hh : f.Held) (hq : f.quarantine = queue) :
    (purgeRounds queue : FrontendCall S T εS εT Unit).Leaves f fun _ t =>
      t.Booked ∧ t.Held ∧ Purged f t := by
  induction queue generalizing f with
  | nil =>
      rw [purgeRounds, Call.leaves_bind, Call.leaves_read]
      show Call.Leaves (if _ then _ else _) _ _
      split
      · exact Call.leaves_ofResult.mpr ⟨hf, hh, Purged.refl f⟩
      · exact Call.leaves_pure.mpr ⟨hf, hh, Purged.refl f⟩
  | cons addr rest ih =>
      intro r t hrun
      by_cases hle : f.quarantineUsed ≤ f.quarantineSize
      · rw [run_purgeRounds_of_le εS εT _ hle] at hrun
        obtain ⟨rfl, rfl⟩ := Prod.mk.inj (Option.some.inj hrun)
        exact ⟨hf, hh, Purged.refl f⟩
      · obtain ⟨alloc, hlookup, hfreed⟩ := hh.freed addr (by simp [hq])
        rw [run_purgeRounds_cons εS εT hf hq (Nat.lt_of_not_le hle) hlookup] at hrun
        split at hrun
        · have hrest : (f.purged addr alloc).quarantine = rest := by
            rw [DefaultFrontend.purged, hq, List.tail_cons]
          obtain ⟨htf, hth, hpurged⟩ := ih (hf.purged hlookup) (hh.purged hq) hrest r t hrun
          exact ⟨htf, hth, purged_cons hq hlookup hfreed hpurged⟩
        · cases hrun

end

section

variable {T εT : Type} [Tracking T εT] {f : DefaultFrontend GuestShadow T}

/-- What a deallocation leaves, when it finds a live allocation. -/
structure Deallocated (f t : DefaultFrontend GuestShadow T) (addr : Nat) (alloc : Allocation) :
    Prop where
  booked : t.Booked
  held : t.Held
  redZoneSize : t.redZoneSize = f.redZoneSize
  quarantine : ∀ addr' ∈ t.quarantine, addr' = addr ∨ addr' ∈ f.quarantine
  lookup : ∀ addr' alloc', t.allocations.lookup addr' = some alloc' →
    if addr' = addr then alloc' = { alloc with freed := true }
    else f.allocations.lookup addr' = some alloc'
  live : ∀ addr' alloc', addr' ≠ addr → f.allocations.lookup addr' = some alloc' →
    alloc'.freed = false → t.allocations.lookup addr' = some alloc'
  marks : t.shadow = f.shadow ∧ addr ∉ t.quarantine ∨
    t.shadow = f.shadow.poisoned alloc.backendAddr alloc.backendLen
      PoisonType.asanHeapFreed.toUInt8

section

variable {addr : Nat} {alloc : Allocation} (hf : f.Booked) (hh : f.Held)
  (hlookup : f.allocations.lookup addr = some alloc) (hlive : alloc.freed = false)

include hh hlookup hlive

theorem Held.markFreed : (f.markFreed addr alloc).Held := by
  refine ⟨hh.nodup, fun addr' hmem => ?_⟩
  rw [lookup_markFreed hlookup, if_neg]
  · exact hh.freed addr' hmem
  · rintro rfl
    exact hh.notMem_quarantine hlookup hlive hmem

theorem Held.quarantined : ((f.markFreed addr alloc).quarantined addr alloc).Held := by
  have hnot := hh.notMem_quarantine hlookup hlive
  constructor
  · show (f.quarantine ++ [addr]).Nodup
    exact List.nodup_append_comm.mp (List.nodup_cons.mpr ⟨hnot, hh.nodup⟩)
  · intro addr' hmem
    show ∃ a, (f.markFreed addr alloc).allocations.lookup addr' = some a ∧ _
    rw [lookup_markFreed hlookup]
    split
    · exact ⟨_, rfl, rfl⟩
    · next hne =>
        refine hh.freed addr' ?_
        simpa [DefaultFrontend.quarantined, DefaultFrontend.markFreed, hne] using hmem

omit hh hlive in
theorem deallocated_of_purged {g t : DefaultFrontend GuestShadow T}
    (hg : g.allocations = (f.markFreed addr alloc).allocations)
    (hrz : g.redZoneSize = f.redZoneSize)
    (hq : ∀ addr' ∈ g.quarantine, addr' = addr ∨ addr' ∈ f.quarantine) (htf : t.Booked)
    (hth : t.Held) (h : Purged g t)
    (hmarks : t.shadow = f.shadow ∧ addr ∉ t.quarantine ∨
      t.shadow = f.shadow.poisoned alloc.backendAddr alloc.backendLen
        PoisonType.asanHeapFreed.toUInt8) :
    Deallocated f t addr alloc := by
  constructor
  · exact htf
  · exact hth
  · exact h.redZoneSize.trans hrz
  · exact fun addr' hmem => hq addr' (h.quarantine addr' hmem)
  · intro addr' alloc' h'
    have hold := h.lookup addr' alloc' h'
    rw [hg, lookup_markFreed hlookup] at hold
    split at hold
    · next heq => rw [if_pos heq, Option.some.inj hold]
    · next hne => rwa [if_neg hne]
  · intro addr' alloc' hne h' hlive'
    refine h.live addr' alloc' ?_ hlive'
    rw [hg, lookup_markFreed hlookup, if_neg hne, h']
  · exact hmarks

include hf

/-- **Deallocation** of a live allocation marks its chunk as freed, or leaves
the shadow as it is and the allocation out of quarantine. -/
theorem dealloc_leaves : (dealloc addr : FrontendCall GuestShadow T _ εT Unit).Leaves f
    fun _ t => Deallocated f t addr alloc := by
  have hmf := hf.markFreed hlookup
  have hmh := hh.markFreed hlookup hlive
  have hout : ∀ s u, ((f.markFreed addr alloc).withMarks s u).Held :=
    fun s u => ⟨hmh.nodup, hmh.freed⟩
  rw [Call.Leaves, run_dealloc_of_live hf hlookup hlive, quarantineChunk]
  refine Call.leaves_bind.mpr (leaves_onShadow_poison (fun e => ?_) ?_)
  · exact deallocated_of_purged hlookup rfl rfl (fun _ => Or.inr) hmf hmh (Purged.refl _)
      (Or.inl ⟨rfl, hh.notMem_quarantine hlookup hlive⟩)
  refine Call.leaves_bind.mpr (leaves_onTracking fun r u => ?_)
  rcases r with e | _
  · refine deallocated_of_purged hlookup ?_ ?_ ?_ (hmf.withMarks _ _) (hout _ _) (Purged.refl _)
      (Or.inr rfl)
    · rfl
    · rfl
    · exact fun _ => Or.inr
  refine Call.leaves_bind.mpr (Call.leaves_read.mpr ?_)
  show Call.Leaves (unwrap (checkedAdd f.quarantineUsed alloc.backendLen) >>= _) _ _
  cases checkedAdd f.quarantineUsed alloc.backendLen with
  | none =>
      intro r t hrun
      cases hrun
  | some used =>
      have hqh := hh.quarantined hlookup hlive
      rw [Call.Leaves, Call.run_bind_of_ok (run_unwrap_some _ _),
        Call.run_bind_of_ok (Call.run_update _ _), purgeQuarantine,
        Call.run_bind_of_ok (Call.run_read _ _)]
      refine (purgeRounds_leaves _ εT ?_ ?_ rfl).mono fun r t ht => ?_
      · exact ⟨hmf.redZone, hmf.addr_ne, hmf.layout, hmf.backed, hmf.apart, hmf.bound, hmf.proper⟩
      · exact ⟨hqh.nodup, hqh.freed⟩
      · obtain ⟨htf, hth, hpurged⟩ := ht
        refine deallocated_of_purged hlookup ?_ ?_ ?_ htf hth hpurged (Or.inr hpurged.shadow)
        · rfl
        · rfl
        · intro addr' hmem
          rcases List.mem_append.mp hmem with hold | hnew
          · exact Or.inr hold
          · exact Or.inl (List.mem_singleton.mp hnew)

end

end

/-! ## Room for the red zone -/

/-- The red zone behind the data ends in the chunk: not where an odd multiple
of 8 as alignment moves the data by all of it, and the length leaves 8 bytes
or more of its last 16 unused. -/
def Room (redZoneSize len align orig : Nat) : Prop :=
  ¬(align % 16 = 8 ∧ (orig + redZoneSize) % align = 0 ∧ 1 ≤ len % 16 ∧ len % 16 ≤ 8)

instance (redZoneSize len align orig : Nat) : Decidable (Room redZoneSize len align orig) :=
  inferInstanceAs (Decidable (¬_))

theorem dataAddr_mod_eight {redZoneSize align orig : Nat} (horig : orig % 8 = 0)
    (hrz : redZoneSize % 8 = 0) (halign : align % 8 = 0) :
    dataAddr redZoneSize align orig % 8 = 0 := by
  by_cases hzero : align = 0
  · simp only [dataAddr, if_pos hzero]
    omega
  · have hdvd : 8 ∣ align := Nat.dvd_of_mod_eq_zero halign
    have hdata : align ∣ dataAddr redZoneSize align orig :=
      Nat.dvd_of_mod_eq_zero (dataAddr_mod hzero)
    exact Nat.mod_eq_zero_of_dvd (hdvd.trans hdata)

theorem dataAddr_room {redZoneSize len align orig : Nat} (horig : orig % 16 = 0)
    (hrz : redZoneSize % 16 = 0) (halign : align % 8 = 0)
    (hroom : Room redZoneSize len align orig) :
    dataAddr redZoneSize align orig + (len + 15) / 16 * 16 + redZoneSize ≤
      orig + ((len + align + 15) / 16 * 16 + redZoneSize * 2) := by
  have hmod : dataAddr redZoneSize align orig % 8 = 0 :=
    dataAddr_mod_eight (show orig % 8 = 0 by omega) (show redZoneSize % 8 = 0 by omega) halign
  have hle := (dataAddr_bounds redZoneSize align orig).2
  by_cases hodd : align % 16 = 8
  · by_cases hfull : (orig + redZoneSize) % align = 0
    · have hlen : ¬(1 ≤ len % 16 ∧ len % 16 ≤ 8) := fun h => hroom ⟨hodd, hfull, h⟩
      omega
    · have hlt : dataAddr redZoneSize align orig ≠ orig + redZoneSize + align := by
        simp only [dataAddr]
        rw [if_neg (by omega)]
        omega
      omega
  · omega

/-! ## Runs -/

/-- The allocator, and the allocations handed out by it and not freed since. -/
structure Session (T : Type) where
  frontend : DefaultFrontend GuestShadow T
  live : List (Nat × Nat)

namespace Session

variable {T εT : Type}

def update {ε : Type} (live : List (Nat × Nat)) : Op → Except ε Nat → List (Nat × Nat)
  | .alloc len _ _, .ok data => (data, len) :: live
  | .alloc _ _ _, .error _ => live
  | .dealloc addr, _ => live.filter fun e => e.1 ≠ addr

variable [Tracking T εT] in
def step (s : Session T) (op : Op) : Option (Session T) :=
  ((call op).run s.frontend).map fun (r, t) => ⟨t, update s.live op r⟩

/-- The chunk an operation works on. -/
def worksOn (s : Session T) : Op → Interval
  | .alloc len align ptr =>
      match layoutFor s.frontend.redZoneSize len align with
      | some layout => if ptr = 0 then ⟨0, 0⟩ else bytes (ptr, layout)
      | none => ⟨0, 0⟩
  | .dealloc addr =>
      match s.frontend.allocations.lookup addr with
      | some alloc => bytes (chunk alloc)
      | none => ⟨0, 0⟩

/-- The bytes of an allocation are valid, and `redZoneSize` bytes on both sides are not. -/
structure Guarded (shadow : GuestShadow) (redZoneSize data len : Nat) : Prop where
  valid : ∀ a, data ≤ a ∧ a < data + len → ¬shadow.Poisoned a
  before : ∀ a, data ≤ a + redZoneSize ∧ a < data → shadow.Poisoned a
  after : ∀ a, data + len ≤ a ∧ a < data + len + redZoneSize → shadow.Poisoned a

/-- **The shadow is exact.** -/
structure Exact (s : Session T) : Prop where
  live : ∀ data len, (data, len) ∈ s.live →
    Guarded s.frontend.shadow s.frontend.redZoneSize data len
  quarantine : ∀ addr ∈ s.frontend.quarantine, ∀ alloc,
    s.frontend.allocations.lookup addr = some alloc →
      ∀ a ∈ bytes (chunk alloc), s.frontend.shadow.Poisoned a

def Roomy (s : Session T) : Op → Prop
  | .alloc len align ptr => Room s.frontend.redZoneSize len align ptr
  | .dealloc _ => True

instance (s : Session T) : ∀ op, Decidable (Roomy s op)
  | .alloc len align ptr =>
      inferInstanceAs (Decidable (Room s.frontend.redZoneSize len align ptr))
  | .dealloc _ => isTrue trivial

/-- The shadow is exact, and the allocations are where the books say. -/
structure Sound (s : Session T) : Prop where
  booked : s.frontend.Booked
  held : s.frontend.Held
  chunk : ∀ addr alloc, s.frontend.allocations.lookup addr = some alloc →
    alloc.backendAddr % 16 = 0 ∧ alloc.backendLen % 16 = 0 ∧ addr ∈ bytes (chunk alloc)
  entry : ∀ data len, (data, len) ∈ s.live → ∃ alloc,
    s.frontend.allocations.lookup data = some alloc ∧ alloc.freed = false ∧
      alloc.backendAddr + s.frontend.redZoneSize ≤ data ∧
      data + len + s.frontend.redZoneSize ≤ alloc.backendAddr + alloc.backendLen
  exact : s.Exact

theorem Guarded.congr {i : Interval} {s t : GuestShadow} {redZoneSize data len : Nat}
    (h : Guarded s redZoneSize data len) (hsame : SameOutside i s t)
    (hout : ∀ a, data ≤ a + redZoneSize ∧ a < data + len + redZoneSize → a ∉ i) :
    Guarded t redZoneSize data len := by
  constructor
  · intro a ha
    rw [Poisoned.congr (hsame a (hout a (by omega)))]
    exact h.valid a ha
  · intro a ha
    rw [Poisoned.congr (hsame a (hout a (by omega)))]
    exact h.before a ha
  · intro a ha
    rw [Poisoned.congr (hsame a (hout a (by omega)))]
    exact h.after a ha

variable {s t : Session T} {op : Op}

/-- A step that changes nothing but the log of the backend. -/
theorem Sound.of_frontend {f : DefaultFrontend GuestShadow T} {live : List (Nat × Nat)}
    (hs : s.Sound) (hf : f.Booked) (hshadow : f.shadow = s.frontend.shadow)
    (hrz : f.redZoneSize = s.frontend.redZoneSize)
    (hallocations : f.allocations = s.frontend.allocations)
    (hquarantine : f.quarantine = s.frontend.quarantine) (hlive : ∀ e ∈ live, e ∈ s.live) :
    Sound ⟨f, live⟩ := by
  constructor
  · exact hf
  · exact ⟨hquarantine ▸ hs.held.nodup, hquarantine ▸ hallocations ▸ hs.held.freed⟩
  · exact hallocations ▸ hs.chunk
  · exact fun data len hmem => hrz ▸ hallocations ▸ hs.entry data len (hlive _ hmem)
  · constructor
    · exact fun data len hmem => hshadow ▸ hrz ▸ hs.exact.live data len (hlive _ hmem)
    · exact hshadow ▸ hquarantine ▸ hallocations ▸ hs.exact.quarantine

section

variable {len align ptr : Nat} {layout : Layout} (hs : s.Sound)
  (hlayout : layoutFor s.frontend.redZoneSize len align = some layout)
  (hfits : Fits s.frontend.backend layout ptr)

variable (ptr) in
include hs hlayout in
/-- The red zone before the data and the data are in the chunk, and the red
zone behind it where there is room. -/
theorem data_bounds :
    ptr + s.frontend.redZoneSize ≤ dataAddr s.frontend.redZoneSize align ptr ∧
      dataAddr s.frontend.redZoneSize align ptr + len + s.frontend.redZoneSize ≤
        ptr + layout.size ∧ layout.size % 16 = 0 := by
  have hrz := hs.booked.redZone
  obtain ⟨hsize, -⟩ := layoutFor_eq_some hlayout
  obtain ⟨heq, -⟩ := allocatedSize_eq_some.mp hsize
  have hdata := dataAddr_bounds s.frontend.redZoneSize align ptr
  omega

include hs hfits in
theorem entry_apart {addr : Nat} {alloc : Allocation}
    (hlookup : s.frontend.allocations.lookup addr = some alloc) {a : Nat}
    (ha : a ∈ bytes (DefaultFrontend.chunk alloc)) : a ∉ bytes (ptr, layout) := by
  intro hnew
  have hmem : DefaultFrontend.chunk alloc ∈ outstanding s.frontend.backend :=
    hs.booked.backed.subset
      (List.mem_map.mpr ⟨⟨addr, alloc⟩, AList.mem_lookup_iff.mp hlookup, rfl⟩)
  exact hfits.apart _ hmem (Interval.overlaps_iff.mpr ⟨a, hnew, ha⟩)

include hs hlayout hfits

/-- **An allocation** that gets a chunk. -/
theorem sound_withChunk {shadow : GuestShadow} {tracking : T} {live : List (Nat × Nat)}
    (hptr : ptr ≠ 0) (hlen : 0 < len)
    (hsame : SameOutside (bytes (ptr, layout)) s.frontend.shadow shadow)
    (hlive : ∀ data len', (data, len') ∈ live → (data, len') ∈ s.live ∨
      data = dataAddr s.frontend.redZoneSize align ptr ∧ len' = len ∧
        Guarded shadow s.frontend.redZoneSize data len') :
    Sound ⟨(s.frontend.withChunk len align ptr layout).withMarks shadow tracking, live⟩ := by
  obtain ⟨hlow, hhigh, hsize⟩ := data_bounds ptr hs hlayout
  have hlookup : ∀ addr,
      (s.frontend.withChunk len align ptr layout).allocations.lookup addr = _ :=
    fun addr => lookup_withChunk
  -- the address of the new allocation is in no chunk of an old one
  have hne : ∀ addr alloc, s.frontend.allocations.lookup addr = some alloc →
      addr ≠ dataAddr s.frontend.redZoneSize align ptr := by
    rintro addr alloc hold rfl
    refine entry_apart hs hfits hold (hs.chunk _ alloc hold).2.2 ?_
    exact ⟨show ptr ≤ _ by omega, show _ < ptr + layout.size by omega⟩
  constructor
  · exact (hs.booked.withChunk hlayout hptr hfits).withMarks _ _
  · refine ⟨hs.held.nodup, fun addr hmem => ?_⟩
    obtain ⟨alloc, hold, hfreed⟩ := hs.held.freed addr hmem
    exact ⟨alloc, ((hlookup addr).trans (if_neg (hne addr alloc hold))).trans hold, hfreed⟩
  · intro addr alloc hnew
    have hnew := (hlookup addr).symm.trans hnew
    split at hnew
    · next heq =>
        obtain rfl := Option.some.inj hnew
        obtain ⟨-, halign, -⟩ := layoutFor_eq_some hlayout
        have hmod := hfits.align
        rw [halign] at hmod
        refine ⟨hmod, hsize, ?_⟩
        rw [heq]
        exact ⟨show ptr ≤ _ by omega, show _ < ptr + layout.size by omega⟩
    · exact hs.chunk addr alloc hnew
  · intro data len' hmem
    rcases hlive data len' hmem with hold | ⟨rfl, rfl, -⟩
    · obtain ⟨alloc, hentry, hrest⟩ := hs.entry data len' hold
      exact ⟨alloc, ((hlookup data).trans (if_neg (hne data alloc hentry))).trans hentry, hrest⟩
    · exact ⟨_, (hlookup _).trans (if_pos rfl), rfl, hlow, hhigh⟩
  · constructor
    · intro data len' hmem
      rcases hlive data len' hmem with hold | ⟨-, -, hguarded⟩
      · obtain ⟨alloc, hentry, -, hfrom, hupto⟩ := hs.entry data len' hold
        refine (hs.exact.live data len' hold).congr hsame fun a ha => ?_
        exact entry_apart hs hfits hentry ⟨show alloc.backendAddr ≤ a by omega,
          show a < alloc.backendAddr + alloc.backendLen by omega⟩
      · exact hguarded
    · intro addr hmem alloc hnew a ha
      obtain ⟨old, hold, -⟩ := hs.held.freed addr hmem
      rw [show ((s.frontend.withChunk len align ptr layout).withMarks shadow tracking).allocations =
        (s.frontend.withChunk len align ptr layout).allocations from rfl, hlookup addr,
        if_neg (hne addr old hold)] at hnew
      exact (Poisoned.congr (hsame a (entry_apart hs hfits hnew ha))).mpr
        (hs.exact.quarantine addr hmem alloc hnew a ha)

end

/-- **A deallocation** of a live allocation. -/
theorem sound_deallocated {f : DefaultFrontend GuestShadow T} {addr : Nat} {alloc : Allocation}
    (hs : s.Sound) (hlookup : s.frontend.allocations.lookup addr = some alloc)
    (hd : Deallocated s.frontend f addr alloc) :
    Sound ⟨f, s.live.filter fun e => e.1 ≠ addr⟩ ∧
      SameOutside (bytes (DefaultFrontend.chunk alloc)) s.frontend.shadow f.shadow := by
  obtain ⟨hstart, hlen, -⟩ := hs.chunk addr alloc hlookup
  have hsame : SameOutside (bytes (DefaultFrontend.chunk alloc)) s.frontend.shadow f.shadow := by
    rcases hd.marks with ⟨heq, -⟩ | heq
    · rw [heq]
      exact SameOutside.refl _ _
    · rw [heq]
      exact sameOutside_poisoned (show alloc.backendAddr % 8 = 0 by omega)
        (show (alloc.backendAddr + alloc.backendLen) % 8 = 0 by omega) le_rfl le_rfl _
  have hout : ∀ addr' alloc', addr' ≠ addr →
      s.frontend.allocations.lookup addr' = some alloc' →
        ∀ a ∈ bytes (DefaultFrontend.chunk alloc'), a ∉ bytes (DefaultFrontend.chunk alloc) :=
    fun addr' alloc' hne hold a ha hin => hs.booked.apart_of_ne hold hlookup hne
      (Interval.overlaps_iff.mpr ⟨a, ha, hin⟩)
  refine ⟨?_, hsame⟩
  constructor
  · exact hd.booked
  · exact hd.held
  · intro addr' alloc' hnew
    have hold := hd.lookup addr' alloc' hnew
    split at hold
    · next heq =>
        rw [hold, heq]
        exact hs.chunk addr alloc hlookup
    · exact hs.chunk addr' alloc' hold
  · intro data len hmem
    obtain ⟨hlive, hne⟩ := List.mem_filter.mp hmem
    obtain ⟨alloc', hentry, hfreed, hrest⟩ := hs.entry data len hlive
    rw [show (⟨f, _⟩ : Session T).frontend = f from rfl, hd.redZoneSize]
    exact ⟨alloc', hd.live data alloc' (of_decide_eq_true hne) hentry hfreed, hfreed, hrest⟩
  · constructor
    · intro data len hmem
      obtain ⟨hlive, hne⟩ := List.mem_filter.mp hmem
      obtain ⟨alloc', hentry, -, hfrom, hupto⟩ := hs.entry data len hlive
      rw [show (⟨f, _⟩ : Session T).frontend = f from rfl, hd.redZoneSize]
      refine (hs.exact.live data len hlive).congr hsame fun a ha => ?_
      exact hout data alloc' (of_decide_eq_true hne) hentry a
        ⟨show alloc'.backendAddr ≤ a by omega,
          show a < alloc'.backendAddr + alloc'.backendLen by omega⟩
    · intro addr' hmem alloc' hnew a ha
      have hold := hd.lookup addr' alloc' hnew
      split at hold
      · next heq =>
          subst heq
          rcases hd.marks with ⟨-, hnot⟩ | heq
          · exact absurd hmem hnot
          · show f.shadow.Poisoned a
            rw [heq]
            rw [hold, Interval.mem_def] at ha
            have hbounds : alloc.backendAddr ≤ a ∧ a < alloc.backendAddr + alloc.backendLen := ha
            apply poisoned_of_mark (p := .asanHeapFreed) (by decide)
            simp only [poisoned]
            rw [if_pos (by omega)]
      · next hne =>
          rcases hd.quarantine addr' hmem with heq | hold'
          · exact absurd heq hne
          · exact (Poisoned.congr (hsame a (hout addr' alloc' hne hold a ha))).mpr
              (hs.exact.quarantine addr' hold' alloc' hold a ha)

theorem sound_new {shadow : GuestShadow} {tracking : T} {redZoneSize quarantineSize : Nat}
    {f : DefaultFrontend GuestShadow T}
    (hnew : new shadow tracking redZoneSize quarantineSize =
      (.ok f : Except (DefaultFrontendError GuestShadowError εT) _)) : Sound ⟨f, []⟩ := by
  obtain ⟨hf, ha, -⟩ := booked_new hnew
  rw [new] at hnew
  split at hnew
  · cases hnew
  split at hnew
  · cases hnew
  obtain rfl := Except.ok.inj hnew
  exact ⟨hf, ha.held, by simp, by simp, by simp, by simp⟩

variable [Tracking T εT]

/-- The marks of `alloc`, once it has its chunk. -/
theorem alloc_marks {len align ptr : Nat} {layout : Layout} (hs : s.Sound)
    (hlayout : layoutFor s.frontend.redZoneSize len align = some layout)
    (hfits : Fits s.frontend.backend layout ptr)
    (hroom : Room s.frontend.redZoneSize len align ptr) :
    let data := dataAddr s.frontend.redZoneSize align ptr
    (markAllocated ptr data len >>= fun _ => pure data :
      FrontendCall GuestShadow T GuestShadowError εT Nat).Leaves
      (s.frontend.withChunk len align ptr layout) fun r t =>
        MarksWithin (bytes (ptr, layout)) (s.frontend.withChunk len align ptr layout) t ∧
          ∀ d, r = .ok d → d = data ∧ Guarded t.shadow s.frontend.redZoneSize data len := by
  intro data
  have hrz := hs.booked.redZone
  obtain ⟨hlow, hhigh, hmul⟩ := data_bounds ptr hs hlayout
  obtain ⟨hsize, halign, -, halign8⟩ := layoutFor_eq_some hlayout
  obtain ⟨heq, -⟩ := allocatedSize_eq_some.mp hsize
  have hptr := hfits.align
  rw [halign] at hptr
  have hroomy := dataAddr_room hptr hrz halign8 hroom
  rw [← heq] at hroomy
  have hdata : data % 8 = 0 :=
    dataAddr_mod_eight (show ptr % 8 = 0 by omega) (show _ % 8 = 0 by omega) halign8
  have hmarks := markAllocated_leaves εT ptr data len
    (f := s.frontend.withChunk len align ptr layout) (i := bytes (ptr, layout))
    (show ptr % 8 = 0 by omega) (show (ptr + layout.size) % 8 = 0 by omega) le_rfl
    (show ptr ≤ data by omega) hroomy
  refine Call.leaves_bind.mpr (hmarks.mono fun r t ht => ?_)
  rcases r with e | _
  · exact ⟨ht.1, fun d h => nomatch h⟩
  · refine Call.leaves_pure.mpr ⟨ht.1, fun d h => ⟨(Except.ok.inj h).symm, ?_⟩⟩
    rw [ht.2 rfl]
    have hend : (data + len + ((len + 15) / 16 * 16 - len + s.frontend.redZoneSize)) % 8 = 0 := by
      omega
    constructor
    · exact fun a ha => allocated_valid hdata hend ha
    · exact fun a ha => allocated_left hdata (show ptr % 8 = 0 by omega) (by omega)
    · exact fun a ha => allocated_right hend (by
        show data + len ≤ a ∧ a < data + len + ((len + 15) / 16 * 16 - len + s.frontend.redZoneSize)
        omega)

/-- **A step** keeps the shadow exact, and changes it in its chunk only. -/
theorem sound_step (hs : s.Sound) (hfits : s.frontend.BackendFits op)
    (hlen : ∀ len align ptr, op = .alloc len align ptr → 0 < len) (hroom : s.Roomy op)
    (hstep : step s op = some t) :
    t.Sound ∧ SameOutside (s.worksOn op) s.frontend.shadow t.frontend.shadow := by
  obtain ⟨⟨r, f⟩, hcall, rfl⟩ := Option.map_eq_some_iff.mp hstep
  have hrz := hs.booked.redZone
  cases op with
  | alloc len align ptr =>
      rw [call, alloc] at hcall
      cases hlayout : layoutFor s.frontend.redZoneSize len align with
      | none =>
          obtain ⟨e, hrun, -⟩ := run_allocChunk_of_none GuestShadowError εT ptr hrz hlayout
          rw [Call.run_bind_of_error hrun] at hcall
          obtain ⟨rfl, rfl⟩ := Prod.mk.inj (Option.some.inj hcall)
          exact ⟨hs, SameOutside.refl _ _⟩
      | some layout =>
          have hbound : ptr + layout.size < 2 ^ 64 := by
            by_cases hptr : ptr = 0
            · obtain ⟨-, -, hsize, -⟩ := layoutFor_eq_some hlayout
              omega
            · exact (hfits layout hlayout hptr).bound
          have hrun := run_allocChunk_of_some GuestShadowError εT hrz hlayout hbound
          split at hrun
          · next hptr =>
              subst hptr
              rw [Call.run_bind_of_error hrun] at hcall
              obtain ⟨rfl, rfl⟩ := Prod.mk.inj (Option.some.inj hcall)
              refine ⟨?_, SameOutside.refl _ _⟩
              exact hs.of_frontend (hs.booked.withNull layout) rfl rfl rfl rfl fun _ h => h
          · next hptr =>
              have hnew := hfits layout hlayout hptr
              rw [Call.run_bind_of_ok hrun] at hcall
              obtain ⟨⟨shadow, u, rfl, hsame⟩, hok⟩ :=
                alloc_marks hs hlayout hnew hroom r f hcall
              have hworks : s.worksOn (.alloc len align ptr) = bytes (ptr, layout) := by
                simp only [worksOn, hlayout, if_neg hptr]
              rw [hworks]
              refine ⟨sound_withChunk hs hlayout hnew hptr (hlen len align ptr rfl) hsame ?_, hsame⟩
              intro data len' hmem
              rcases r with e | d
              · exact Or.inl hmem
              · obtain ⟨rfl, hguarded⟩ := hok d rfl
                rcases List.mem_cons.mp hmem with heq | hold
                · obtain ⟨rfl, rfl⟩ := Prod.mk.inj heq
                  exact Or.inr ⟨rfl, rfl, hguarded⟩
                · exact Or.inl hold
  | dealloc addr =>
      rw [call, Call.run_map] at hcall
      obtain ⟨⟨r, f⟩, hrun, heq⟩ := Option.map_eq_some_iff.mp hcall
      obtain ⟨rfl, rfl⟩ := Prod.mk.inj heq
      by_cases hlive :
          ∃ alloc, s.frontend.allocations.lookup addr = some alloc ∧ alloc.freed = false
      · obtain ⟨alloc, hlookup, hlive⟩ := hlive
        have hworks : s.worksOn (.dealloc addr) = bytes (DefaultFrontend.chunk alloc) := by
          simp only [worksOn, hlookup]
        rw [hworks]
        exact sound_deallocated hs hlookup
          (dealloc_leaves hs.booked hs.held hlookup hlive r _ hrun)
      · have hdead : ∀ alloc, s.frontend.allocations.lookup addr = some alloc →
            alloc.freed = true := by
          intro alloc hlookup
          by_contra hfreed
          exact hlive ⟨alloc, hlookup, Bool.eq_false_of_not_eq_true hfreed⟩
        rw [run_dealloc_of_not_live hdead] at hrun
        obtain ⟨-, rfl⟩ := Prod.mk.inj (Option.some.inj hrun)
        refine ⟨?_, SameOutside.refl _ _⟩
        exact hs.of_frontend hs.booked rfl rfl rfl rfl fun e he => (List.mem_filter.mp he).1

/-- **The shadow is exact** in every state a run reaches, and no step changes
the shadow outside of the chunk it works on, where every red zone has room. -/
theorem run_exact {shadow : GuestShadow} {tracking : T} {redZoneSize quarantineSize : Nat}
    {f : DefaultFrontend GuestShadow T} {ops : List Op}
    (hnew : new shadow tracking redZoneSize quarantineSize =
      (.ok f : Except (DefaultFrontendError GuestShadowError εT) _))
    (hlen : ∀ len align ptr, .alloc len align ptr ∈ ops → 0 < len)
    (hbackend : StepsMeet step ⟨f, []⟩ ops fun s op => s.frontend.BackendFits op)
    (hroom : StepsMeet step ⟨f, []⟩ ops Roomy) :
    (∀ pre, pre <+: ops → ∀ s, Libaflmm.run step ⟨f, []⟩ pre = some s → s.Exact) ∧
      StepsMeet step ⟨f, []⟩ ops fun s op => ∀ t, step s op = some t →
        SameOutside (s.worksOn op) s.frontend.shadow t.frontend.shadow := by
  have hboth : StepsMeet step ⟨f, []⟩ ops
      fun s op => s.frontend.BackendFits op ∧ s.Roomy op :=
    fun pre op hp s hs => ⟨hbackend pre op hp s hs, hroom pre op hp s hs⟩
  have hreach : ∀ pre, pre <+: ops → ∀ s, Libaflmm.run step ⟨f, []⟩ pre = some s → s.Sound := by
    intro pre hp s hrun
    refine (hboth.of_prefix hp).invariant Sound (sound_new hnew) ?_ hrun
    intro s op t hop hs hmeets hstep
    refine (sound_step hs hmeets.1 ?_ hmeets.2 hstep).1
    rintro len align ptr rfl
    exact hlen len align ptr (hp.subset hop)
  refine ⟨fun pre hp s hrun => (hreach pre hp s hrun).exact, ?_⟩
  intro pre op hp s hrun t hstep
  have hmeets := hboth pre op hp s hrun
  refine (sound_step (hreach pre ((List.prefix_append _ _).trans hp) s hrun) hmeets.1 ?_ hmeets.2
    hstep).2
  rintro len align ptr rfl
  exact hlen len align ptr (hp.subset (by simp))

theorem run_exact_purge :
    let ops := [.alloc 5 0 4096, .alloc 30 8 8192, .dealloc 4112, .dealloc 8216]
    (∀ pre, pre <+: ops → ∀ s, Libaflmm.run step ⟨guestFrontend, []⟩ pre = some s → s.Exact) ∧
      StepsMeet step ⟨guestFrontend, []⟩ ops fun s op => ∀ t, step s op = some t →
        SameOutside (s.worksOn op) s.frontend.shadow t.frontend.shadow :=
  run_exact guestFrontend_eq_new
    (fun len align ptr h => by
      simp only [List.mem_cons, Op.alloc.injEq, reduceCtorEq, List.not_mem_nil, or_false] at h
      omega)
    (by decide +kernel) (by decide +kernel)

/-- Without red zones, an allocation of 8 bytes at a multiple of 8 poisons the
first 8 bytes of the chunk behind its own. -/
theorem not_run_exact :
    let f := { guestFrontend with redZoneSize := 0 }
    let ops := [.alloc 16 0 4112, .alloc 8 8 4096]
    StepsMeet step ⟨f, []⟩ ops (fun s op => s.frontend.BackendFits op) ∧
      ∃ s, Libaflmm.run step ⟨f, []⟩ ops = some s ∧ ¬s.Exact := by
  intro f ops
  have hpoisoned : (Libaflmm.run step ⟨f, []⟩ ops).map (fun s =>
      (decide ((4112, 16) ∈ s.live), decide (s.frontend.shadow.Poisoned 4112))) =
        some (true, true) := by
    decide +kernel
  obtain ⟨s, hrun, heq⟩ := Option.map_eq_some_iff.mp hpoisoned
  obtain ⟨hlive, hbad⟩ := Prod.mk.inj heq
  refine ⟨by decide +kernel, s, hrun, fun hexact => ?_⟩
  exact (hexact.live 4112 16 (of_decide_eq_true hlive)).valid 4112 (by omega)
    (of_decide_eq_true hbad)

end Session

end DefaultFrontend

end Libaflmm
