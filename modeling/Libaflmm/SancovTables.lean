import Mathlib.Data.List.Forall2
import Mathlib.Data.List.Induction

/-!
# The tables of sanitizer coverage

A module registers its counters, a range of bytes, when it is loaded. A range
that has one of its ends in a range of the table, or at its border, is merged
with the first such range; other ranges that it meets stay as they are, and so
does one that it has inside. So the table may have a byte twice, and it does
from the first range on that meets another than the one it is merged with.

A module registers its pairs of a PC and flags too. They are taken for as many
pairs as there are words.
-/

namespace Libaflmm

/-- The bytes from `start` up to `stop`. -/
structure CounterRange where
  start : Nat
  stop : Nat
  le : start ≤ stop

namespace CounterRange

def Covers (r : CounterRange) (addr : Nat) : Prop := r.start ≤ addr ∧ addr < r.stop

def Apart (r s : CounterRange) : Prop := ∀ addr, ¬ (r.Covers addr ∧ s.Covers addr)

/-- One of the ends of the new range is in the existing one or at its border. -/
def touches (new existing : CounterRange) : Bool :=
  (existing.start ≤ new.start && new.start ≤ existing.stop) ||
    (existing.start ≤ new.stop && new.stop ≤ existing.stop)

def merge (existing new : CounterRange) : CounterRange where
  start := min existing.start new.start
  stop := max existing.stop new.stop
  le := Nat.le_trans (Nat.min_le_left _ _) (Nat.le_trans existing.le (Nat.le_max_left _ _))

theorem covers_merge {existing new : CounterRange} (h : new.touches existing = true) (addr : Nat) :
    (existing.merge new).Covers addr ↔ existing.Covers addr ∨ new.Covers addr := by
  have hexisting := existing.le
  have hnew := new.le
  simp only [touches, Bool.or_eq_true, Bool.and_eq_true, decide_eq_true_eq] at h
  simp only [Covers, merge]
  omega

theorem Apart.symm {r s : CounterRange} (h : r.Apart s) : s.Apart r :=
  fun addr hboth => h addr hboth.symm

theorem apart_merge {existing new : CounterRange} (h : new.touches existing = true)
    (r : CounterRange) : (existing.merge new).Apart r ↔ existing.Apart r ∧ new.Apart r := by
  simp only [Apart, covers_merge h, not_and]
  constructor
  · exact fun hboth => ⟨fun addr hcov => hboth addr (.inl hcov),
      fun addr hcov => hboth addr (.inr hcov)⟩
  · rintro ⟨hexisting, hnew⟩ addr (hcov | hcov)
    · exact hexisting addr hcov
    · exact hnew addr hcov

end CounterRange

namespace Sancov

open CounterRange

/-- `__sanitizer_cov_8bit_counters_init` -/
def countersInit : List CounterRange → CounterRange → List CounterRange
  | [], new => [new]
  | existing :: maps, new =>
    if new.touches existing then existing.merge new :: maps
    else existing :: countersInit maps new

/-- What is in the table after some ranges were registered. -/
def countersMaps (registered : List CounterRange) : List CounterRange :=
  registered.foldl countersInit []

/-! ## What one range changes -/

theorem covers_countersInit {maps : List CounterRange} {new : CounterRange} {addr : Nat} :
    (∃ r ∈ countersInit maps new, r.Covers addr) ↔
      (∃ r ∈ maps, r.Covers addr) ∨ new.Covers addr := by
  induction maps with
  | nil => simp [countersInit]
  | cons existing maps ih =>
      unfold countersInit
      split
      · next h =>
          rw [List.exists_mem_cons_iff, List.exists_mem_cons_iff, covers_merge h]
          exact or_right_comm
      · rw [List.exists_mem_cons_iff, List.exists_mem_cons_iff, ih]
        exact or_assoc.symm

/-- Only the first range that it touches may have bytes of the new one. -/
def MeetsFirstOnly (maps : List CounterRange) (new : CounterRange) : Prop :=
  ∀ r ∈ maps.eraseP new.touches, r.Apart new

theorem apart_countersInit {maps : List CounterRange} {new r : CounterRange} :
    (∀ s ∈ countersInit maps new, r.Apart s) ↔ (∀ s ∈ maps, r.Apart s) ∧ r.Apart new := by
  have hcovers : ∀ maps : List CounterRange,
      (∀ s ∈ maps, r.Apart s) ↔ ∀ addr, r.Covers addr → ¬ ∃ s ∈ maps, s.Covers addr := by
    intro maps
    constructor
    · rintro h addr hr ⟨s, hs, hcov⟩
      exact h s hs addr ⟨hr, hcov⟩
    · rintro h s hs addr ⟨hr, hcov⟩
      exact h addr hr ⟨s, hs, hcov⟩
  rw [hcovers, hcovers]
  simp only [covers_countersInit, not_or]
  constructor
  · exact fun h => ⟨fun addr hr => (h addr hr).1, fun addr hboth => (h addr hboth.1).2 hboth.2⟩
  · exact fun h addr hr => ⟨h.1 addr hr, fun hcov => h.2 addr ⟨hr, hcov⟩⟩

theorem pairwise_countersInit {maps : List CounterRange} {new : CounterRange} :
    (countersInit maps new).Pairwise Apart ↔ maps.Pairwise Apart ∧ MeetsFirstOnly maps new := by
  induction maps with
  | nil => simp [countersInit, MeetsFirstOnly]
  | cons existing maps ih =>
      unfold countersInit MeetsFirstOnly
      by_cases h : new.touches existing = true
      · rw [if_pos h, List.eraseP_cons_of_pos h, List.pairwise_cons, List.pairwise_cons]
        simp only [apart_merge h]
        constructor
        · rintro ⟨hall, hmaps⟩
          exact ⟨⟨fun r hr => (hall r hr).1, hmaps⟩, fun r hr => (hall r hr).2.symm⟩
        · rintro ⟨⟨hall, hmaps⟩, hnew⟩
          exact ⟨fun r hr => ⟨hall r hr, (hnew r hr).symm⟩, hmaps⟩
      · rw [if_neg h, List.eraseP_cons_of_neg h, List.pairwise_cons, List.pairwise_cons, ih,
          apart_countersInit, List.forall_mem_cons, MeetsFirstOnly]
        tauto

/-! ## Registered ranges -/

theorem countersMaps_append (registered : List CounterRange) (new : CounterRange) :
    countersMaps (registered ++ [new]) = countersInit (countersMaps registered) new := by
  rw [countersMaps, List.foldl_append]
  rfl

theorem covers_countersMaps {registered : List CounterRange} {addr : Nat} :
    (∃ r ∈ countersMaps registered, r.Covers addr) ↔ ∃ r ∈ registered, r.Covers addr := by
  induction registered using List.reverseRecOn with
  | nil => rfl
  | append_singleton registered new ih =>
      rw [countersMaps_append, covers_countersInit, ih]
      simp only [List.mem_append, List.mem_singleton, or_and_right, exists_or, exists_eq_left]

/-- Every range met at most the first of those that it touched. -/
def MeetFirstOnly (registered : List CounterRange) : Prop :=
  ∀ before new after, registered = before ++ new :: after → MeetsFirstOnly (countersMaps before) new

theorem meetFirstOnly_append {registered : List CounterRange} {new : CounterRange} :
    MeetFirstOnly (registered ++ [new]) ↔
      MeetFirstOnly registered ∧ MeetsFirstOnly (countersMaps registered) new := by
  constructor
  · intro h
    refine ⟨fun before r after heq => h before r (after ++ [new]) ?_, h registered new [] rfl⟩
    rw [heq, List.append_assoc, List.cons_append]
  · rintro ⟨hregistered, hnew⟩ before r after heq
    rcases List.eq_nil_or_concat after with rfl | ⟨after, s, rfl⟩
    · obtain ⟨rfl, hr⟩ := List.append_inj' heq rfl
      cases hr
      exact hnew
    · rw [List.concat_eq_append, ← List.cons_append, ← List.append_assoc] at heq
      exact hregistered before r after (List.append_inj' heq rfl).1

/-- No byte is twice in the table, from the first range on that meets another
than the one it is merged with. -/
theorem pairwise_countersMaps {registered : List CounterRange} :
    (countersMaps registered).Pairwise Apart ↔ MeetFirstOnly registered := by
  induction registered using List.reverseRecOn with
  | nil =>
      refine iff_of_true List.Pairwise.nil fun before new after heq => ?_
      exact absurd heq (by simp)
  | append_singleton registered new ih =>
      rw [countersMaps_append, pairwise_countersInit, ih, meetFirstOnly_append]

/-! ## Tables of PCs -/

/-- `n` pairs of words. -/
structure PcsRange where
  beg : Nat
  pairs : Nat

structure PcTableEntry where
  addr : UInt64
  flags : UInt64

/-- A slice of entries, by where it begins and how many there are. -/
structure PcTable where
  beg : Nat
  len : Nat

/-- `__sanitizer_cov_pcs_init`; an entry may be at any address. -/
def pcsInit (tables : List PcTable) (pcsBeg pcsEnd : Nat) : Option (List PcTable) :=
  if pcsEnd < pcsBeg then none
  else
    let len := (pcsEnd - pcsBeg) / 8
    if len % 2 ≠ 0 then none else some (tables ++ [⟨pcsBeg, len⟩])

def PcsRange.endAddr (r : PcsRange) : Nat := r.beg + 16 * r.pairs

/-- The tables after some ranges were registered. -/
def pcTables (registered : List PcsRange) : Option (List PcTable) :=
  registered.foldlM (fun tables r => pcsInit tables r.beg r.endAddr) []

def entryAt (memory : Nat → UInt64) (beg i : Nat) : PcTableEntry :=
  ⟨memory (beg + 16 * i), memory (beg + 16 * i + 8)⟩

def PcTable.entries (memory : Nat → UInt64) (t : PcTable) : List PcTableEntry :=
  (List.range t.len).map (entryAt memory t.beg)

/-- Where the bytes of the words are that the entries of a table have. -/
def PcTable.Has (t : PcTable) (addr : Nat) : Prop := t.beg ≤ addr ∧ addr < t.beg + 16 * t.len

/-- `sanitizer_cov_pc_table` -/
def pcTable (memory : Nat → UInt64) (tables : List PcTable) : List (List PcTableEntry) :=
  tables.map (PcTable.entries memory)

/-- The entries that a range has. -/
def PcsRange.held (memory : Nat → UInt64) (r : PcsRange) : List PcTableEntry :=
  (List.range r.pairs).map (entryAt memory r.beg)

theorem pcTables_eq (registered : List PcsRange) :
    pcTables registered = some (registered.map fun r => ⟨r.beg, 2 * r.pairs⟩) := by
  have hinit : ∀ tables (r : PcsRange),
      pcsInit tables r.beg r.endAddr = some (tables ++ [⟨r.beg, 2 * r.pairs⟩]) := by
    intro tables r
    have hlen : (r.beg + 16 * r.pairs - r.beg) / 8 = 2 * r.pairs := by omega
    rw [pcsInit, PcsRange.endAddr, if_neg (by omega), hlen, if_neg (by omega)]
  have hfold : ∀ tables, registered.foldlM (fun tables r => pcsInit tables r.beg r.endAddr) tables =
      some (tables ++ registered.map fun r => ⟨r.beg, 2 * r.pairs⟩) := by
    induction registered with
    | nil => simp
    | cons r registered ih =>
        intro tables
        rw [List.foldlM_cons, hinit]
        simp [ih]
  rw [pcTables, hfold]
  rfl

/-- Each table has the entries of its range, and no word that is outside of it. -/
def TablesExact (memory : Nat → UInt64) (registered : List PcsRange) : Prop :=
  ∃ tables, pcTables registered = some tables ∧
    pcTable memory tables = registered.map (PcsRange.held memory) ∧
    List.Forall₂ (fun t r => ∀ addr, PcTable.Has t addr → r.beg ≤ addr ∧ addr < r.endAddr)
      tables registered

/-- A table has twice the entries of its range. -/
theorem tablesExact_iff {memory : Nat → UInt64} {registered : List PcsRange} :
    TablesExact memory registered ↔ ∀ r ∈ registered, r.pairs = 0 := by
  constructor
  · rintro ⟨tables, htables, hentries, -⟩ r hr
    rw [pcTables_eq] at htables
    cases htables
    rw [pcTable, List.map_map] at hentries
    have hlen := congrArg List.length (List.map_inj_left.mp hentries r hr)
    simp only [Function.comp_apply, PcTable.entries, PcsRange.held, List.length_map,
      List.length_range] at hlen
    omega
  · intro hzero
    refine ⟨_, pcTables_eq registered, ?_, ?_⟩
    · rw [pcTable, List.map_map]
      refine List.map_congr_left fun r hr => ?_
      simp [PcTable.entries, PcsRange.held, hzero r hr]
    · rw [List.forall₂_map_left_iff, List.forall₂_same]
      rintro r hr addr ⟨hle, hlt⟩
      simp only [hzero r hr] at hle hlt
      omega

/-! ## Both tables -/

/-- The ranges of the table of counters are apart, and have the bytes of those
that were registered. -/
def CountersExact (registered : List CounterRange) : Prop :=
  (countersMaps registered).Pairwise Apart ∧
    ∀ addr, (∃ r ∈ countersMaps registered, r.Covers addr) ↔ ∃ r ∈ registered, r.Covers addr

theorem countersExact_iff {registered : List CounterRange} :
    CountersExact registered ↔ MeetFirstOnly registered := by
  rw [CountersExact, pairwise_countersMaps]
  exact and_iff_left fun addr => covers_countersMaps

end Sancov

end Libaflmm
