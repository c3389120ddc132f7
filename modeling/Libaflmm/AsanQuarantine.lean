import Libaflmm.AsanFrontend

/-!
# The books of the guest allocator

The map of allocations, the quarantine and its byte count change together
(`Accounted`), and every entry of the map is backed by a chunk of the backend
that has not been given back (`Booked`).

The second holds in every state a run reaches. The first is lost where a
deallocation marks an allocation as freed and then fails before the
allocation is in quarantine, and where a new allocation takes the address of
one in quarantine.
-/

namespace Libaflmm

/-- A shadow whose calls return. -/
class LawfulShadow (S : Type) {ε : outParam Type} [Shadow S ε] : Prop where
  poison_returns (start len : Nat) (p : PoisonType) (s : S) :
    (Shadow.poison start len p).run s ≠ none
  unpoison_returns (start len : Nat) (s : S) : (Shadow.unpoison start len).run s ≠ none

class LawfulTracking (T : Type) {ε : outParam Type} [Tracking T ε] : Prop where
  track_returns (start len : Nat) (t : T) : (Tracking.track start len).run t ≠ none
  untrack_returns (start : Nat) (t : T) : (Tracking.untrack start).run t ≠ none

instance : LawfulShadow GuestShadow where
  poison_returns start len p s := by
    rcases GuestShadow.run_poison start len p s with ⟨e, h⟩ | ⟨-, h⟩ <;>
      exact fun hnone => nomatch h.symm.trans hnone
  unpoison_returns start len s := by
    rcases GuestShadow.run_unpoison start len s with ⟨e, h⟩ | ⟨-, h⟩ <;>
      exact fun hnone => nomatch h.symm.trans hnone

namespace GuestTracking

theorem run_track (start len : Nat) (t : GuestTracking) :
    ∃ r u, (track start len).run t = some (r, u) := by
  rw [track]
  split
  · exact ⟨_, _, rfl⟩
  split
  · exact ⟨_, _, rfl⟩
  rw [Call.run_bind_of_ok (Call.run_read _ _)]
  split
  · exact ⟨_, _, rfl⟩
  · exact ⟨_, _, rfl⟩

theorem run_untrack (start : Nat) (t : GuestTracking) :
    ∃ r u, (untrack start).run t = some (r, u) := by
  rw [untrack, Call.run_bind_of_ok (Call.run_read _ _)]
  split
  · exact ⟨_, _, rfl⟩
  · exact ⟨_, _, rfl⟩

end GuestTracking

instance : LawfulTracking GuestTracking where
  track_returns start len t := by
    obtain ⟨r, u, h⟩ := GuestTracking.run_track start len t
    exact fun hnone => nomatch h.symm.trans hnone
  untrack_returns start t := by
    obtain ⟨r, u, h⟩ := GuestTracking.run_untrack start t
    exact fun hnone => nomatch h.symm.trans hnone

namespace DefaultFrontend

/-- Every call gives back a chunk that is outstanding. -/
def Proper : List BackendCall → Prop
  | [] => True
  | .alloc _ _ :: calls => Proper calls
  | .dealloc ptr layout :: calls => (ptr, layout) ∈ outstanding calls ∧ Proper calls

def freedLen (_ : Nat) (alloc : Allocation) : Nat := if alloc.freed then alloc.backendLen else 0

def chunk (alloc : Allocation) : Nat × Layout :=
  (alloc.backendAddr, ⟨alloc.backendLen, alloc.backendAlign⟩)

def chunks (allocations : HashMap Nat Allocation) : List (Nat × Layout) :=
  allocations.entries.map fun e => chunk e.2

section

variable {S T εS εT : Type}

/-- The quarantine holds the freed allocations, and its counter their bytes. -/
structure Accounted (f : DefaultFrontend S T) : Prop where
  nodup : f.quarantine.Nodup
  mem_quarantine : ∀ addr, addr ∈ f.quarantine ↔
    ∃ alloc, f.allocations.lookup addr = some alloc ∧ alloc.freed = true
  used : f.quarantineUsed = HashMap.total freedLen f.allocations

/-- Every allocation in quarantine has an entry that is marked as freed. -/
structure Held (f : DefaultFrontend S T) : Prop where
  nodup : f.quarantine.Nodup
  freed : ∀ addr ∈ f.quarantine, ∃ alloc, f.allocations.lookup addr = some alloc ∧
    alloc.freed = true

theorem Held.notMem_quarantine {f : DefaultFrontend S T} {addr : Nat} {alloc : Allocation}
    (h : f.Held) (hlookup : f.allocations.lookup addr = some alloc)
    (hlive : alloc.freed = false) : addr ∉ f.quarantine := by
  intro hmem
  obtain ⟨alloc', h', hfreed⟩ := h.freed addr hmem
  rw [hlookup] at h'
  obtain rfl := Option.some.inj h'
  rw [hlive] at hfreed
  cases hfreed

theorem Accounted.held {f : DefaultFrontend S T} (h : f.Accounted) : f.Held :=
  ⟨h.nodup, fun addr => (h.mem_quarantine addr).mp⟩

structure Booked (f : DefaultFrontend S T) : Prop where
  redZone : f.redZoneSize % 16 = 0
  addr_ne : ∀ addr alloc, f.allocations.lookup addr = some alloc → addr ≠ 0
  layout : ∀ addr alloc, f.allocations.lookup addr = some alloc →
    alloc.backendAlign = 16 ∧ alloc.backendLen ≤ 2 ^ 63 - 16
  backed : (chunks f.allocations).Subperm (outstanding f.backend)
  apart : (outstanding f.backend).Pairwise fun c d => ¬(bytes c).Overlaps (bytes d)
  bound : ∀ c ∈ outstanding f.backend, c.1 + c.2.size < 2 ^ 64
  proper : Proper f.backend

/-! ## The map and its chunks -/

theorem chunks_replace {m : HashMap Nat Allocation} {addr : Nat} {alloc : Allocation}
    (h : m.lookup addr = some alloc) :
    chunks (m.replace addr { alloc with freed := true }) = chunks m :=
  HashMap.map_kreplace (g := fun e => chunk e.2) h rfl

theorem chunks_erase {m : HashMap Nat Allocation} {addr : Nat} {alloc : Allocation}
    (h : m.lookup addr = some alloc) :
    List.Perm (chunks m) (chunk alloc :: chunks (m.erase addr)) :=
  (HashMap.perm_cons_erase h).map fun e : (Σ _ : Nat, Allocation) => chunk e.2

theorem chunks_insert (m : HashMap Nat Allocation) (addr : Nat) (alloc : Allocation) :
    (chunks (AList.insert addr alloc m)).Subperm (chunk alloc :: chunks m) := by
  have hsub : List.Sublist (m.entries.kerase addr) m.entries := List.kerase_sublist addr m.entries
  exact ((hsub.map fun e => chunk e.2).cons_cons (chunk alloc)).subperm

/-- The chunks are apart, so that their bytes fit the address space. -/
theorem Booked.total_lt {f : DefaultFrontend S T} (h : f.Booked) :
    HashMap.total freedLen f.allocations < 2 ^ 64 := by
  obtain ⟨l, hperm, hsub⟩ := h.backed
  have hbytes : ((outstanding f.backend).map fun c => (bytes c).length).sum ≤ 2 ^ 64 - 1 := by
    have hstop : ∀ i ∈ (outstanding f.backend).map bytes, i.stop ≤ 2 ^ 64 - 1 := by
      intro i hi
      obtain ⟨c, hc, rfl⟩ := List.mem_map.mp hi
      exact Nat.le_sub_one_of_lt (h.bound c hc)
    have hsum := Interval.sum_length_le (List.pairwise_map.mpr h.apart) hstop
    rwa [List.map_map] at hsum
  have hentries : HashMap.total (fun _ alloc => (bytes (chunk alloc)).length) f.allocations =
      ((chunks f.allocations).map fun c => (bytes c).length).sum := by
    rw [HashMap.total, chunks, List.map_map]
    rfl
  have hfreed : HashMap.total freedLen f.allocations ≤
      HashMap.total (fun _ alloc => (bytes (chunk alloc)).length) f.allocations := by
    refine HashMap.total_le_total fun _ alloc => ?_
    simp only [freedLen, bytes, chunk, Interval.length]
    split <;> omega
  have hle : (l.map fun c => (bytes c).length).sum ≤
      ((outstanding f.backend).map fun c => (bytes c).length).sum :=
    (hsub.map _).sum_le_sum fun _ _ => Nat.zero_le _
  have heq := (hperm.map fun c => (bytes c).length).sum_eq
  omega

/-- The entries of two addresses have chunks apart from each other. -/
theorem Booked.apart_of_ne {f : DefaultFrontend S T} (hf : f.Booked) {addr addr' : Nat}
    {alloc alloc' : Allocation} (h : f.allocations.lookup addr = some alloc)
    (h' : f.allocations.lookup addr' = some alloc') (hne : addr ≠ addr') :
    ¬(bytes (chunk alloc)).Overlaps (bytes (chunk alloc')) := by
  obtain ⟨l, hperm, hsub⟩ := hf.backed
  have hchunks := (hperm.pairwise_iff fun h h' => h h'.symm).mp (hf.apart.sublist hsub)
  rw [DefaultFrontend.chunks, List.pairwise_map] at hchunks
  have : Std.Symm fun e e' : (Σ _ : Nat, Allocation) =>
      ¬(bytes (chunk e.2)).Overlaps (bytes (chunk e'.2)) := ⟨fun _ _ h h' => h h'.symm⟩
  refine hchunks.forall (AList.mem_lookup_iff.mp h) (AList.mem_lookup_iff.mp h') ?_
  exact fun heq => hne (congrArg Sigma.fst heq)

/-- The books are about the map, the quarantine and the backend only. -/
theorem accounted_withMarks {f : DefaultFrontend S T} {s : S} {t : T} :
    (f.withMarks s t).Accounted ↔ f.Accounted := by
  constructor
  · exact fun h => ⟨h.nodup, h.mem_quarantine, h.used⟩
  · exact fun h => ⟨h.nodup, h.mem_quarantine, h.used⟩

theorem Booked.withMarks {f : DefaultFrontend S T} (h : f.Booked) (s : S) (t : T) :
    (f.withMarks s t).Booked :=
  ⟨h.redZone, h.addr_ne, h.layout, h.backed, h.apart, h.bound, h.proper⟩

/-! ## Purging -/

/-- The frontend after the first allocation in quarantine has been given back. -/
def purged (f : DefaultFrontend S T) (addr : Nat) (alloc : Allocation) : DefaultFrontend S T :=
  { f with
    quarantine := f.quarantine.tail
    allocations := f.allocations.erase addr
    backend := .dealloc alloc.backendAddr ⟨alloc.backendLen, alloc.backendAlign⟩ :: f.backend
    quarantineUsed := f.quarantineUsed - alloc.backendLen }

theorem lookup_erase_eq_some {m : HashMap Nat Allocation} {addr addr' : Nat} {alloc : Allocation} :
    (m.erase addr).lookup addr' = some alloc ↔ addr' ≠ addr ∧ m.lookup addr' = some alloc := by
  rw [HashMap.lookup_erase]
  split
  · next h => simp [h]
  · next h => simp [h]

theorem Booked.purged {f : DefaultFrontend S T} {addr : Nat} {alloc : Allocation} (h : f.Booked)
    (hlookup : f.allocations.lookup addr = some alloc) : (f.purged addr alloc).Booked := by
  have hperm := chunks_erase hlookup
  have hmem : chunk alloc ∈ outstanding f.backend :=
    h.backed.subset (hperm.mem_iff.mpr (List.mem_cons_self ..))
  have hsub : List.Sublist ((outstanding f.backend).erase (chunk alloc)) (outstanding f.backend) :=
    List.erase_sublist
  constructor
  · exact h.redZone
  · exact fun addr' alloc' h' => h.addr_ne addr' alloc' (lookup_erase_eq_some.mp h').2
  · exact fun addr' alloc' h' => h.layout addr' alloc' (lookup_erase_eq_some.mp h').2
  · have herase := ((hperm.subperm_right).mp h.backed).erase (chunk alloc)
    rwa [List.erase_cons_head] at herase
  · exact h.apart.sublist hsub
  · exact fun c hc => h.bound c (hsub.subset hc)
  · exact ⟨hmem, h.proper⟩

theorem Accounted.purged {f : DefaultFrontend S T} {addr : Nat} {alloc : Allocation}
    {rest : List Nat} (h : f.Accounted) (hq : f.quarantine = addr :: rest)
    (hlookup : f.allocations.lookup addr = some alloc) (hfreed : alloc.freed = true) :
    (f.purged addr alloc).Accounted := by
  have htotal := HashMap.total_erase (f := freedLen) hlookup
  obtain ⟨hnot, hnodup⟩ := List.nodup_cons.mp (hq ▸ h.nodup)
  have htail : f.quarantine.tail = rest := by rw [hq, List.tail_cons]
  constructor
  · show f.quarantine.tail.Nodup
    rwa [htail]
  · intro addr'
    show addr' ∈ f.quarantine.tail ↔ ∃ a, (f.allocations.erase addr).lookup addr' = some a ∧ _
    simp only [lookup_erase_eq_some, and_assoc, exists_and_left, ← h.mem_quarantine, hq,
      List.mem_cons]
    constructor
    · intro hmem
      exact ⟨fun heq => hnot (heq ▸ hmem), Or.inr hmem⟩
    · rintro ⟨hne, heq | hmem⟩
      · exact absurd heq hne
      · exact hmem
  · show f.quarantineUsed - alloc.backendLen = _
    rw [h.used, ← htotal, freedLen, if_pos hfreed, Nat.add_sub_cancel]
    rfl

variable (εS εT) in
/-- **A round** of `purge_quarantine`, while the quarantine holds too much. -/
theorem run_purgeRounds_cons {f : DefaultFrontend S T} {addr : Nat} {rest : List Nat}
    {alloc : Allocation} (hf : f.Booked) (hq : f.quarantine = addr :: rest)
    (hfull : f.quarantineSize < f.quarantineUsed)
    (hlookup : f.allocations.lookup addr = some alloc) :
    (purgeRounds (addr :: rest) : FrontendCall S T εS εT Unit).run f =
      if alloc.backendLen ≤ f.quarantineUsed then (purgeRounds rest).run (f.purged addr alloc)
      else none := by
  obtain ⟨halign, hlen⟩ := hf.layout addr alloc hlookup
  have hlayout : Layout.fromSizeAlign alloc.backendLen alloc.backendAlign =
      some ⟨alloc.backendLen, alloc.backendAlign⟩ := by
    rw [halign, Layout.fromSizeAlign, if_pos ⟨by decide, by decide, hlen⟩]
  rw [purgeRounds, Call.run_bind_of_ok (Call.run_read _ _), if_pos (decide_eq_true hfull),
    Call.run_bind_of_ok (Call.run_update _ _), Call.run_bind_of_ok (Call.run_read _ _)]
  simp only [hlookup, hlayout]
  rw [Call.run_bind_of_ok (Call.run_update _ _), Call.run_bind_of_ok (Call.run_update _ _),
    Call.run_bind_of_ok (Call.run_read _ _)]
  split
  · rw [Call.run_bind_of_ok (run_unwrap_some _ _), Call.run_bind_of_ok (Call.run_update _ _),
      purged, hq]
    rfl
  · rfl

variable (εS εT) in
theorem run_purgeRounds_of_le {f : DefaultFrontend S T} (queue : List Nat)
    (hle : f.quarantineUsed ≤ f.quarantineSize) :
    (purgeRounds queue : FrontendCall S T εS εT Unit).run f = some (.ok (), f) := by
  have hfull : ¬f.quarantineSize < f.quarantineUsed := Nat.not_lt.mpr hle
  cases queue with
  | nil =>
      rw [purgeRounds, Call.run_bind_of_ok (Call.run_read _ _), if_neg (by simp [hfull])]
      rfl
  | cons addr rest =>
      rw [purgeRounds, Call.run_bind_of_ok (Call.run_read _ _), if_neg (by simp [hfull])]
      rfl

variable (εS εT) in
theorem purgeRounds_yields {f : DefaultFrontend S T} {queue : List Nat} (hf : f.Booked)
    (ha : f.Accounted) (hq : f.quarantine = queue) :
    (purgeRounds queue : FrontendCall S T εS εT Unit).Yields f fun r t =>
      r = .ok () ∧ t.Booked ∧ t.Accounted ∧ t.quarantineUsed ≤ t.quarantineSize := by
  induction queue generalizing f with
  | nil =>
      have hused : f.quarantineUsed = 0 := by
        rw [ha.used]
        refine HashMap.total_eq_zero fun addr alloc hlookup => if_neg fun hfreed => ?_
        have := (ha.mem_quarantine addr).mpr ⟨alloc, hlookup, hfreed⟩
        rw [hq] at this
        exact List.not_mem_nil this
      have hle : f.quarantineUsed ≤ f.quarantineSize := by omega
      exact (Call.yields_of_run (run_purgeRounds_of_le εS εT [] hle)).mpr ⟨rfl, hf, ha, hle⟩
  | cons addr rest ih =>
      by_cases hle : f.quarantineUsed ≤ f.quarantineSize
      · exact (Call.yields_of_run (run_purgeRounds_of_le εS εT _ hle)).mpr ⟨rfl, hf, ha, hle⟩
      · obtain ⟨alloc, hlookup, hfreed⟩ := (ha.mem_quarantine addr).mp (by simp [hq])
        have hround := run_purgeRounds_cons εS εT hf hq (Nat.lt_of_not_le hle) hlookup
        have hused : alloc.backendLen ≤ f.quarantineUsed := by
          have htotal := HashMap.total_erase (f := freedLen) hlookup
          rw [← ha.used, freedLen, if_pos hfreed] at htotal
          omega
        rw [if_pos hused] at hround
        have hrest : (f.purged addr alloc).quarantine = rest := by rw [purged, hq, List.tail_cons]
        obtain ⟨r, t, hrun, ht⟩ :=
          ih (hf.purged hlookup) (ha.purged hq hlookup hfreed) hrest
        exact ⟨r, t, hround.trans hrun, ht⟩

/-! ## Marks -/

/-- A call that returned has changed the marks only. -/
def MarksOnly (f : DefaultFrontend S T) {α : Type} (r : Except (DefaultFrontendError εS εT) α)
    (t : DefaultFrontend S T) : Prop :=
  r ≠ .error .quarantineCorruption ∧ ∃ s u, t = f.withMarks s u

theorem onShadow_yields {x : Call εS S Unit} {f : DefaultFrontend S T}
    (hx : ∀ s, x.run s ≠ none) (s : S) (u : T) :
    (onShadow x : FrontendCall S T εS εT Unit).Yields (f.withMarks s u) (f.MarksOnly) := by
  cases hrun : x.run s with
  | none => exact absurd hrun (hx s)
  | some p =>
      rcases p with ⟨⟨e⟩ | ⟨_⟩, s'⟩
      · refine ⟨_, _, run_onShadow_of_error εT (f := f.withMarks s u) hrun, by simp, s', u, rfl⟩
      · refine ⟨_, _, run_onShadow_of_ok εT (f := f.withMarks s u) hrun, by simp, s', u, rfl⟩

theorem onTracking_yields {x : Call εT T Unit} {f : DefaultFrontend S T}
    (hx : ∀ u, x.run u ≠ none) (s : S) (u : T) :
    (onTracking x : FrontendCall S T εS εT Unit).Yields (f.withMarks s u) (f.MarksOnly) := by
  cases hrun : x.run u with
  | none => exact absurd hrun (hx u)
  | some p =>
      rcases p with ⟨⟨e⟩ | ⟨_⟩, u'⟩
      · refine ⟨_, _, run_onTracking_of_error εS (f := f.withMarks s u) hrun, by simp, s, u', rfl⟩
      · refine ⟨_, _, run_onTracking_of_ok εS (f := f.withMarks s u) hrun, by simp, s, u', rfl⟩

theorem yields_bind_marks {α β : Type} {x : FrontendCall S T εS εT α}
    {k : α → FrontendCall S T εS εT β} {f : DefaultFrontend S T} {s : S} {u : T}
    (hx : x.Yields (f.withMarks s u) f.MarksOnly)
    (hk : ∀ a s u, (k a).Yields (f.withMarks s u) f.MarksOnly) :
    (x >>= k).Yields (f.withMarks s u) f.MarksOnly := by
  rw [Call.yields_bind]
  refine hx.mono fun r t ht => ?_
  obtain ⟨hr, s', u', rfl⟩ := ht
  cases r with
  | error e => exact ⟨fun heq => hr (congrArg _ (Except.error.inj heq)), s', u', rfl⟩
  | ok a => exact hk a s' u'

/-! ## Deallocation -/

/-- The frontend after an allocation has been marked as freed. -/
def markFreed (f : DefaultFrontend S T) (addr : Nat) (alloc : Allocation) : DefaultFrontend S T :=
  { f with allocations := f.allocations.replace addr { alloc with freed := true } }

def quarantined (f : DefaultFrontend S T) (addr : Nat) (alloc : Allocation) :
    DefaultFrontend S T :=
  { f with
    quarantineUsed := f.quarantineUsed + alloc.backendLen
    quarantine := f.quarantine ++ [addr] }

theorem lookup_markFreed {f : DefaultFrontend S T} {addr addr' : Nat} {alloc : Allocation}
    (hlookup : f.allocations.lookup addr = some alloc) :
    (f.markFreed addr alloc).allocations.lookup addr' =
      if addr' = addr then some { alloc with freed := true } else f.allocations.lookup addr' := by
  have hmem : addr ∈ f.allocations := by
    rw [← AList.lookup_isSome, hlookup]
    rfl
  exact HashMap.lookup_replace hmem

theorem Booked.markFreed {f : DefaultFrontend S T} {addr : Nat} {alloc : Allocation}
    (h : f.Booked) (hlookup : f.allocations.lookup addr = some alloc) :
    (f.markFreed addr alloc).Booked := by
  have hold : ∀ addr' alloc', (f.markFreed addr alloc).allocations.lookup addr' = some alloc' →
      ∃ old, f.allocations.lookup addr' = some old ∧ old.backendAlign = alloc'.backendAlign ∧
        old.backendLen = alloc'.backendLen := by
    intro addr' alloc' h'
    rw [lookup_markFreed hlookup] at h'
    split at h'
    · next heq =>
        obtain rfl := Option.some.inj h'
        exact ⟨alloc, heq ▸ hlookup, rfl, rfl⟩
    · exact ⟨alloc', h', rfl, rfl⟩
  constructor
  · exact h.redZone
  · intro addr' alloc' h'
    obtain ⟨old, hold', -⟩ := hold addr' alloc' h'
    exact h.addr_ne addr' old hold'
  · intro addr' alloc' h'
    obtain ⟨old, hold', halign, hlen⟩ := hold addr' alloc' h'
    rw [← halign, ← hlen]
    exact h.layout addr' old hold'
  · show (DefaultFrontend.chunks (f.allocations.replace addr _)).Subperm _
    rw [chunks_replace hlookup]
    exact h.backed
  · exact h.apart
  · exact h.bound
  · exact h.proper

section

variable {f : DefaultFrontend S T} {addr : Nat} {alloc : Allocation} (hf : f.Booked)
  (ha : f.Accounted) (hlookup : f.allocations.lookup addr = some alloc)
  (hlive : alloc.freed = false)

include ha hlookup hlive

/-- An allocation that is marked as freed and not in quarantine spoils the books. -/
theorem not_accounted_markFreed : ¬(f.markFreed addr alloc).Accounted := by
  intro hbad
  refine ha.held.notMem_quarantine hlookup hlive ((hbad.mem_quarantine addr).mpr ?_)
  exact ⟨_, by rw [lookup_markFreed hlookup, if_pos rfl], rfl⟩

theorem total_markFreed : HashMap.total freedLen (f.markFreed addr alloc).allocations =
    f.quarantineUsed + alloc.backendLen := by
  have htotal := HashMap.total_replace (f := freedLen) (v := { alloc with freed := true }) hlookup
  rw [← ha.used, freedLen, if_neg (by simp [hlive])] at htotal
  exact htotal

theorem Accounted.quarantined : ((f.markFreed addr alloc).quarantined addr alloc).Accounted := by
  constructor
  · show (f.quarantine ++ [addr]).Nodup
    refine ha.nodup.append (List.nodup_singleton addr) ?_
    intro a hmem hsingle
    rw [List.mem_singleton] at hsingle
    exact ha.held.notMem_quarantine hlookup hlive (hsingle ▸ hmem)
  · intro addr'
    show addr' ∈ f.quarantine ++ [addr] ↔
      ∃ a, (f.markFreed addr alloc).allocations.lookup addr' = some a ∧ _
    rw [List.mem_append, List.mem_singleton, ha.mem_quarantine, lookup_markFreed hlookup]
    split
    · next heq => exact iff_of_true (Or.inr heq) ⟨_, rfl, rfl⟩
    · next hne => exact or_iff_left hne
  · exact (total_markFreed ha hlookup hlive).symm

end

/-! ## Allocation -/

theorem booked_new {shadow : S} {tracking : T} {redZoneSize quarantineSize : Nat}
    {f : DefaultFrontend S T}
    (hnew : new shadow tracking redZoneSize quarantineSize =
      (.ok f : Except (DefaultFrontendError εS εT) _)) :
    f.Booked ∧ f.Accounted ∧ f.quarantineUsed ≤ f.quarantineSize := by
  rw [new] at hnew
  split at hnew
  · cases hnew
  · next hrz =>
      split at hnew
      · cases hnew
      · obtain rfl := Except.ok.inj hnew
        refine ⟨?_, ?_, Nat.zero_le _⟩
        · exact ⟨not_not.mp hrz, by simp, by simp, List.Subperm.refl _, List.Pairwise.nil,
            by simp [outstanding], trivial⟩
        · exact ⟨List.nodup_nil, by simp, rfl⟩

theorem Booked.withNull {f : DefaultFrontend S T} (h : f.Booked) (layout : Layout) :
    Booked { f with backend := .alloc layout 0 :: f.backend } := by
  have hout : outstanding (.alloc layout 0 :: f.backend) = outstanding f.backend := if_pos rfl
  exact ⟨h.redZone, h.addr_ne, h.layout, hout ▸ h.backed, hout ▸ h.apart, hout ▸ h.bound, h.proper⟩

section

variable {f : DefaultFrontend S T} {len align ptr : Nat} {layout : Layout}

theorem lookup_withChunk {addr : Nat} :
    (f.withChunk len align ptr layout).allocations.lookup addr =
      if addr = dataAddr f.redZoneSize align ptr then
        some ⟨len, ptr, layout.size, layout.align, false⟩
      else f.allocations.lookup addr :=
  HashMap.lookup_insert

theorem Booked.withChunk (h : f.Booked) (hlayout : layoutFor f.redZoneSize len align = some layout)
    (hptr : ptr ≠ 0) (hfits : Fits f.backend layout ptr) :
    (f.withChunk len align ptr layout).Booked := by
  obtain ⟨-, halign, hsize, -⟩ := layoutFor_eq_some hlayout
  have hout : outstanding (.alloc layout ptr :: f.backend) =
      (ptr, layout) :: outstanding f.backend := if_neg hptr
  constructor
  · exact h.redZone
  · intro addr alloc hlookup
    rw [lookup_withChunk] at hlookup
    split at hlookup
    · have := dataAddr_bounds f.redZoneSize align ptr
      omega
    · exact h.addr_ne addr alloc hlookup
  · intro addr alloc hlookup
    rw [lookup_withChunk] at hlookup
    split at hlookup
    · obtain rfl := Option.some.inj hlookup
      exact ⟨halign, hsize⟩
    · exact h.layout addr alloc hlookup
  · show (DefaultFrontend.chunks (AList.insert _ _ f.allocations)).Subperm (outstanding (_ :: _))
    rw [hout]
    exact (chunks_insert _ _ _).trans ((List.subperm_cons _).mpr h.backed)
  · show (outstanding (_ :: _)).Pairwise _
    rw [hout]
    exact List.pairwise_cons.mpr ⟨hfits.apart, h.apart⟩
  · show ∀ c ∈ outstanding (_ :: _), _
    rw [hout]
    exact List.forall_mem_cons.mpr ⟨hfits.bound, h.bound⟩
  · exact h.proper

theorem accounted_withChunk (h : f.Accounted) :
    (f.withChunk len align ptr layout).Accounted ↔
      dataAddr f.redZoneSize align ptr ∉ f.quarantine := by
  constructor
  · intro hnew hmem
    obtain ⟨alloc, hlookup, hfreed⟩ := (hnew.mem_quarantine _).mp hmem
    rw [lookup_withChunk, if_pos rfl] at hlookup
    obtain rfl := Option.some.inj hlookup
    cases hfreed
  · intro hnot
    constructor
    · exact h.nodup
    · intro addr
      rw [lookup_withChunk]
      split
      · next heq =>
          refine iff_of_false (heq ▸ hnot) ?_
          rintro ⟨alloc, hlookup, hfreed⟩
          obtain rfl := Option.some.inj hlookup
          cases hfreed
      · exact h.mem_quarantine addr
    · have hold : ∀ alloc, f.allocations.lookup (dataAddr f.redZoneSize align ptr) = some alloc →
          freedLen (dataAddr f.redZoneSize align ptr) alloc = 0 := by
        intro alloc hlookup
        exact if_neg fun hfreed => hnot ((h.mem_quarantine _).mpr ⟨alloc, hlookup, hfreed⟩)
      show f.quarantineUsed = HashMap.total freedLen (AList.insert _ _ f.allocations)
      rw [HashMap.total_insert, HashMap.total_erase_of_zero hold, h.used, freedLen,
        if_neg Bool.false_ne_true, Nat.zero_add]

end

variable [Shadow S εS] [Tracking T εT]

/-- The shadow takes the mark of a freed chunk, and the allocation is tracked. -/
def Frees (f : DefaultFrontend S T) (addr : Nat) (alloc : Allocation) : Prop :=
  (∃ s, (Shadow.poison alloc.backendAddr alloc.backendLen .asanHeapFreed).run f.shadow =
    some (.ok (), s)) ∧
  ∃ t, (Tracking.untrack addr).run f.tracking = some (.ok (), t)

instance {ε σ : Type} (o : Option (Except ε Unit × σ)) : Decidable (∃ s, o = some (.ok (), s)) :=
  match o with
  | none => isFalse fun ⟨_, h⟩ => nomatch h
  | some (.error _, _) => isFalse fun ⟨_, h⟩ => nomatch h
  | some (.ok _, s) => isTrue ⟨s, rfl⟩

instance (f : DefaultFrontend S T) (addr : Nat) (alloc : Allocation) :
    Decidable (f.Frees addr alloc) :=
  inferInstanceAs (Decidable (_ ∧ _))

/-- No allocation in quarantine loses its entry, and none is marked as freed
without getting into quarantine. -/
def Orderly (f : DefaultFrontend S T) : Op → Prop
  | .alloc len align ptr =>
      layoutFor f.redZoneSize len align ≠ none → ptr ≠ 0 →
        dataAddr f.redZoneSize align ptr ∉ f.quarantine
  | .dealloc addr =>
      ∀ alloc, f.allocations.lookup addr = some alloc → alloc.freed = false → f.Frees addr alloc

theorem run_dealloc_of_live {f : DefaultFrontend S T} {addr : Nat} {alloc : Allocation}
    (hf : f.Booked) (hlookup : f.allocations.lookup addr = some alloc)
    (hlive : alloc.freed = false) :
    (dealloc addr : FrontendCall S T εS εT Unit).run f =
      (quarantineChunk addr alloc).run (f.markFreed addr alloc) := by
  rw [dealloc, if_neg (hf.addr_ne addr alloc hlookup), Call.run_bind_of_ok (Call.run_read _ _)]
  simp only [hlookup, hlive]
  rfl

/-- **Deallocation** of what is not a live allocation changes nothing. -/
theorem run_dealloc_of_not_live {f : DefaultFrontend S T} {addr : Nat}
    (hdead : ∀ alloc, f.allocations.lookup addr = some alloc → alloc.freed = true) :
    (dealloc addr : FrontendCall S T εS εT Unit).run f =
      some (if addr = 0 then .ok ()
        else if addr ∈ f.allocations then .error (.doubleFree addr)
        else .error (.invalidAddress addr), f) := by
  rw [dealloc]
  split
  · rfl
  rw [Call.run_bind_of_ok (Call.run_read _ _)]
  cases hlookup : f.allocations.lookup addr with
  | none =>
      rw [if_neg (AList.lookup_eq_none.mp hlookup)]
      rfl
  | some alloc =>
      have hmem : addr ∈ f.allocations := by
        rw [← AList.lookup_isSome, hlookup]
        rfl
      simp only [hdead alloc hlookup, if_pos hmem]
      rfl

instance (f : DefaultFrontend S T) : ∀ op, Decidable (Orderly f op)
  | .alloc len align ptr =>
      inferInstanceAs (Decidable (layoutFor f.redZoneSize len align ≠ none → ptr ≠ 0 →
        dataAddr f.redZoneSize align ptr ∉ f.quarantine))
  | .dealloc addr =>
      match h : f.allocations.lookup addr with
      | none => isTrue fun _ hlookup => by simp [h] at hlookup
      | some alloc =>
          decidable_of_iff (alloc.freed = false → f.Frees addr alloc) (by simp [Orderly, h])

variable [LawfulShadow S] [LawfulTracking T]

variable (εS εT) in
theorem quarantineChunk_yields {f : DefaultFrontend S T} {addr : Nat} {alloc : Allocation}
    (hf : f.Booked) (ha : f.Accounted) (hle : f.quarantineUsed ≤ f.quarantineSize)
    (hlookup : f.allocations.lookup addr = some alloc) (hlive : alloc.freed = false) :
    (quarantineChunk addr alloc : FrontendCall S T εS εT Unit).Yields (f.markFreed addr alloc)
      fun r t => r ≠ .error .quarantineCorruption ∧ t.Booked ∧
        t.quarantineUsed ≤ t.quarantineSize ∧ (t.Accounted ↔ f.Frees addr alloc) := by
  have hmarked := hf.markFreed hlookup
  have hspoilt := not_accounted_markFreed ha hlookup hlive
  rw [quarantineChunk]
  cases hpoison :
      (Shadow.poison alloc.backendAddr alloc.backendLen .asanHeapFreed).run f.shadow with
  | none => exact absurd hpoison (LawfulShadow.poison_returns _ _ _ _)
  | some p =>
  rcases p with ⟨⟨e⟩ | ⟨_⟩, s⟩
  · -- the mark is refused, after the allocation has been marked as freed
    have hrun := run_onShadow_of_error εT (f := f.markFreed addr alloc) hpoison
    refine (Call.yields_bind_of_error hrun).mpr ⟨by simp, ?_, hle, ?_⟩
    · exact hmarked.withMarks _ _
    · rw [accounted_withMarks]
      refine iff_of_false hspoilt fun hfrees => ?_
      obtain ⟨s', hs'⟩ := hfrees.1
      rw [hpoison] at hs'
      cases hs'
  cases huntrack : (Tracking.untrack addr).run f.tracking with
  | none => exact absurd huntrack (LawfulTracking.untrack_returns _ _)
  | some p =>
  have hfirst := run_onShadow_of_ok εT (f := f.markFreed addr alloc) hpoison
  rcases p with ⟨⟨e⟩ | ⟨_⟩, t⟩
  · have hrun := run_onTracking_of_error εS
      (f := (f.markFreed addr alloc).withMarks s (f.markFreed addr alloc).tracking) huntrack
    rw [Call.yields_bind_of_ok hfirst, Call.yields_bind_of_error hrun]
    refine ⟨by simp, ?_, hle, ?_⟩
    · exact (hmarked.withMarks _ _).withMarks _ _
    · rw [accounted_withMarks, accounted_withMarks]
      refine iff_of_false hspoilt fun hfrees => ?_
      obtain ⟨t', ht'⟩ := hfrees.2
      rw [huntrack] at ht'
      cases ht'
  · have hrun := run_onTracking_of_ok εS
      (f := (f.markFreed addr alloc).withMarks s (f.markFreed addr alloc).tracking) huntrack
    have hqa := ha.quarantined hlookup hlive
    have hqf : ((f.markFreed addr alloc).quarantined addr alloc).Booked :=
      ⟨hmarked.redZone, hmarked.addr_ne, hmarked.layout, hmarked.backed, hmarked.apart,
        hmarked.bound, hmarked.proper⟩
    have hused : checkedAdd f.quarantineUsed alloc.backendLen =
        some (f.quarantineUsed + alloc.backendLen) := by
      have hlt := hqf.total_lt
      rw [← hqa.used] at hlt
      exact checkedAdd_eq_some.mpr ⟨hlt, rfl⟩
    have hpurge := purgeRounds_yields εS εT (hqf.withMarks s t)
      (accounted_withMarks.mpr hqa) rfl
    rw [Call.yields_bind_of_ok hfirst, Call.yields_bind_of_ok hrun,
      Call.yields_bind_of_ok (Call.run_read _ _)]
    show Call.Yields (unwrap (checkedAdd f.quarantineUsed alloc.backendLen) >>= _) _ _
    rw [hused, Call.yields_bind_of_ok (run_unwrap_some _ _),
      Call.yields_bind_of_ok (Call.run_update _ _), purgeQuarantine,
      Call.yields_bind_of_ok (Call.run_read _ _)]
    refine hpurge.mono fun r u hu => ?_
    obtain ⟨rfl, hbooked, haccounted, hle'⟩ := hu
    exact ⟨by simp, hbooked, hle', iff_of_true haccounted ⟨⟨s, hpoison⟩, t, huntrack⟩⟩

theorem markAllocated_yields {f : DefaultFrontend S T} {orig data len : Nat}
    (hlen : len + 15 < 2 ^ 64) :
    (markAllocated orig data len : FrontendCall S T εS εT Unit).Yields f f.MarksOnly := by
  have hup := checkedAlignUp_eq_some.mpr ⟨hlen, rfl⟩
  show Call.Yields _ (f.withMarks f.shadow f.tracking) _
  refine yields_bind_marks (onTracking_yields (LawfulTracking.track_returns _ _) _ _) ?_
  intro _ s u
  refine yields_bind_marks (onShadow_yields (LawfulShadow.poison_returns _ _ _) _ _) ?_
  intro _ s u
  refine yields_bind_marks (onShadow_yields (LawfulShadow.unpoison_returns _ _) _ _) ?_
  intro _ s u
  rw [Call.yields_bind_of_ok (Call.run_read _ _), hup, Call.yields_bind_of_ok (run_unwrap_some _ _)]
  exact onShadow_yields (LawfulShadow.poison_returns _ _ _) _ _

theorem alloc_yields {f : DefaultFrontend S T} {len align ptr : Nat} (hf : f.Booked)
    (ha : f.Accounted) (hle : f.quarantineUsed ≤ f.quarantineSize)
    (hfits : f.BackendFits (.alloc len align ptr)) :
    (alloc len align ptr : FrontendCall S T εS εT Nat).Yields f fun r t =>
      r ≠ .error .quarantineCorruption ∧ t.Booked ∧ t.quarantineUsed ≤ t.quarantineSize ∧
        (t.Accounted ↔ f.Orderly (.alloc len align ptr)) := by
  rw [alloc]
  cases hlayout : layoutFor f.redZoneSize len align with
  | none =>
      obtain ⟨e, hrun, hne⟩ := run_allocChunk_of_none εS εT ptr hf.redZone hlayout
      rw [Call.yields_bind_of_error hrun]
      refine ⟨by simpa using hne, hf, hle, iff_of_true ha fun hsome => absurd hlayout hsome⟩
  | some layout =>
      have hbound : ptr + layout.size < 2 ^ 64 := by
        by_cases hptr : ptr = 0
        · obtain ⟨-, -, hsize, -⟩ := layoutFor_eq_some hlayout
          omega
        · exact (hfits layout hlayout hptr).bound
      have hrun := run_allocChunk_of_some εS εT hf.redZone hlayout hbound
      split at hrun
      · next hptr =>
          subst hptr
          rw [Call.yields_bind_of_error hrun]
          refine ⟨by simp, hf.withNull layout, hle, iff_of_true ?_ fun _ h => absurd rfl h⟩
          exact ⟨ha.nodup, ha.mem_quarantine, ha.used⟩
      · next hptr =>
          rw [Call.yields_bind_of_ok hrun]
          have hnew := hf.withChunk hlayout hptr (hfits layout hlayout hptr)
          have hlen : len + 15 < 2 ^ 64 := by
            obtain ⟨hsize, -⟩ := layoutFor_eq_some hlayout
            obtain ⟨-, hlt, -⟩ := allocatedSize_eq_some.mp hsize
            omega
          have hmarks := yields_bind_marks (f := f.withChunk len align ptr layout)
            (x := markAllocated ptr (dataAddr f.redZoneSize align ptr) len)
            (k := fun _ => (pure (dataAddr f.redZoneSize align ptr) : FrontendCall S T εS εT Nat))
            (markAllocated_yields hlen) fun _ s u => Call.yields_pure.mpr ⟨by simp, s, u, rfl⟩
          refine hmarks.mono fun r t ht => ?_
          obtain ⟨hr, s, u, rfl⟩ := ht
          refine ⟨hr, hnew.withMarks s u, hle, ?_⟩
          rw [accounted_withMarks, accounted_withChunk ha]
          exact ⟨fun h _ _ => h, fun h => h (by simp [hlayout]) hptr⟩

/-! ## Runs -/

/-- **The books of the allocator.** -/
structure Consistent (f : DefaultFrontend S T) : Prop extends f.Accounted where
  limit : f.quarantineUsed ≤ f.quarantineSize
  proper : Proper f.backend
  noCorruption : ∀ op r t, f.BackendFits op →
    (call op : FrontendCall S T εS εT Nat).run f = some (r, t) → r ≠ .error .quarantineCorruption
  doubleFree : ∀ addr ∈ f.quarantine,
    (dealloc addr : FrontendCall S T εS εT Unit).run f = some (.error (.doubleFree addr), f)

theorem call_yields {f : DefaultFrontend S T} {op : Op} (hf : f.Booked) (ha : f.Accounted)
    (hle : f.quarantineUsed ≤ f.quarantineSize) (hfits : f.BackendFits op) :
    (call op : FrontendCall S T εS εT Nat).Yields f fun r t =>
      r ≠ .error .quarantineCorruption ∧ t.Booked ∧ t.quarantineUsed ≤ t.quarantineSize ∧
        (t.Accounted ↔ f.Orderly op) := by
  cases op with
  | alloc len align ptr => exact alloc_yields hf ha hle hfits
  | dealloc addr =>
      have hmap : ∀ {r : Except (DefaultFrontendError εS εT) Unit},
          r ≠ .error .quarantineCorruption → r.map (fun _ => 0) ≠ .error .quarantineCorruption := by
        rintro (e | _) hr heq
        · exact hr (congrArg _ (Except.error.inj heq))
        · cases heq
      rw [call, Call.yields_map]
      by_cases hlive : ∃ alloc, f.allocations.lookup addr = some alloc ∧ alloc.freed = false
      · obtain ⟨alloc, hlookup, hlive⟩ := hlive
        obtain ⟨r, t, hrun, hr, htf, hle', hiff⟩ :=
          quarantineChunk_yields εS εT hf ha hle hlookup hlive
        refine ⟨r, t, (run_dealloc_of_live hf hlookup hlive).trans hrun, hmap hr, htf, hle', ?_⟩
        rw [hiff]
        constructor
        · intro hfrees alloc' hlookup' _
          rw [hlookup] at hlookup'
          obtain rfl := Option.some.inj hlookup'
          exact hfrees
        · exact fun horderly => horderly alloc hlookup hlive
      · have hdead : ∀ alloc, f.allocations.lookup addr = some alloc → alloc.freed = true := by
          intro alloc hlookup
          by_contra hfreed
          exact hlive ⟨alloc, hlookup, Bool.eq_false_of_not_eq_true hfreed⟩
        refine ⟨_, f, run_dealloc_of_not_live hdead, hmap ?_, hf, hle, iff_of_true ha ?_⟩
        · split
          · simp
          · split <;> simp
        · intro alloc hlookup hfreed
          exact absurd ⟨alloc, hlookup, hfreed⟩ hlive

theorem consistent_iff {f : DefaultFrontend S T} (hf : f.Booked)
    (hle : f.quarantineUsed ≤ f.quarantineSize) : f.Consistent ↔ f.Accounted := by
  refine ⟨fun h => h.toAccounted, fun ha => ⟨ha, hle, hf.proper, ?_, ?_⟩⟩
  · intro op r t hfits hrun
    exact ((call_yields hf ha hle hfits).leaves r t hrun).1
  · intro addr hmem
    obtain ⟨alloc, hlookup, hfreed⟩ := (ha.mem_quarantine addr).mp hmem
    have hdead : ∀ alloc', f.allocations.lookup addr = some alloc' → alloc'.freed = true := by
      intro alloc' h'
      rw [hlookup] at h'
      obtain rfl := Option.some.inj h'
      exact hfreed
    have hmem' : addr ∈ f.allocations := by
      rw [← AList.lookup_isSome, hlookup]
      rfl
    rw [run_dealloc_of_not_live hdead, if_neg (hf.addr_ne addr alloc hlookup), if_pos hmem']

theorem step_spec {f : DefaultFrontend S T} {op : Op} (hf : f.Booked) (hc : f.Consistent)
    (hfits : f.BackendFits op) :
    ∃ t, step f op = some t ∧ (t.Booked ∧ t.quarantineUsed ≤ t.quarantineSize) ∧
      (t.Consistent ↔ f.Orderly op) := by
  obtain ⟨r, t, hrun, -, htf, hle, hiff⟩ := call_yields hf hc.toAccounted hc.limit hfits
  refine ⟨t, ?_, ⟨htf, hle⟩, (consistent_iff htf hle).trans hiff⟩
  rw [step, hrun, Option.map_some]

/-- **The quarantine is consistent** along a run exactly when every step is orderly. -/
theorem run_consistent_iff {shadow : S} {tracking : T} {redZoneSize quarantineSize : Nat}
    {f : DefaultFrontend S T} {ops : List Op}
    (hnew : new shadow tracking redZoneSize quarantineSize =
      (.ok f : Except (DefaultFrontendError εS εT) _))
    (hbackend : StepsMeet step f ops BackendFits) :
    Survives step f ops (fun _ t => t.Consistent) ↔ StepsMeet step f ops Orderly := by
  obtain ⟨hf, ha, hle⟩ := booked_new hnew
  refine survives_iff_of_returning (fun t => t.Booked ∧ t.quarantineUsed ≤ t.quarantineSize)
    hbackend ⟨hf, hle⟩ ((consistent_iff hf hle).mpr ha) ?_
  intro t op hbooked hconsistent hfits
  exact step_spec hbooked.1 hconsistent hfits

end

/-- A frontend in the guest, with red zones of 16 bytes. -/
def guestFrontend : DefaultFrontend GuestShadow GuestTracking where
  backend := []
  shadow := ⟨fun _ => 0⟩
  tracking := GuestTracking.new
  redZoneSize := 16
  allocations := ∅
  quarantine := []
  quarantineSize := 100
  quarantineUsed := 0

theorem guestFrontend_eq_new :
    new ⟨fun _ => 0⟩ GuestTracking.new 16 100 =
      (.ok guestFrontend : Except (DefaultFrontendError GuestShadowError GuestTrackingError) _) :=
  rfl

theorem run_consistent_purge :
    Survives step guestFrontend [.alloc 5 0 4096, .alloc 20 8 8192, .dealloc 4112, .dealloc 8216]
      (fun _ t => t.Consistent) :=
  (run_consistent_iff guestFrontend_eq_new (by decide +kernel)).mpr (by decide +kernel)

/-- An allocation of no bytes is refused and keeps its entry, whose
deallocation then is refused as well. -/
theorem not_run_consistent :
    StepsMeet step guestFrontend [.alloc 0 0 4096, .dealloc 4112] BackendFits ∧
      ¬Survives step guestFrontend [.alloc 0 0 4096, .dealloc 4112] (fun _ t => t.Consistent) := by
  refine ⟨by decide +kernel, fun h => ?_⟩
  obtain ⟨t, ht, hc⟩ := h _ (List.prefix_refl _)
  have hspoilt : (run step guestFrontend [.alloc 0 0 4096, .dealloc 4112]).map
      (fun t => (t.quarantine, (t.allocations.lookup 4112).map (·.freed))) =
        some ([], some true) := by
    decide +kernel
  rw [ht, Option.map_some, Option.some.injEq, Prod.mk.injEq] at hspoilt
  obtain ⟨hq, hfreed⟩ := hspoilt
  obtain ⟨alloc, hlookup, hfreed⟩ := Option.map_eq_some_iff.mp hfreed
  have hmem := (hc.mem_quarantine 4112).mpr ⟨alloc, hlookup, hfreed⟩
  rw [hq] at hmem
  exact List.not_mem_nil hmem

end DefaultFrontend

end Libaflmm
