import Libaflmm.AsanHost
import Libaflmm.IntervalTrees

/-!
# The chunks of the host-side sanitizer

The chunks of the guest's heap are the entries of an interval tree. An allocation
deletes the entries it overlaps; a deallocation looks up the entry that contains its
address, and flags it. Entries stay in the tree when they are freed.

A `Ledger` is what there is to know of the events: which chunks are allocated, which
are known because no later one took their place, and which of those allocated since
the snapshot have not been freed.
-/

namespace Libaflmm

/-- A range that is not empty. -/
structure Chunk where
  interval : Interval
  nonempty : interval.start < interval.stop
  fits : interval.stop < 2 ^ 64

/-- What the guest reports, with the backtrace that is collected. -/
inductive ChunkEvent
  | alloc (chunk : Chunk) (backtrace : List Nat)
  | dealloc (addr : Nat) (backtrace : List Nat)

def ChunkEvent.IsAlloc : ChunkEvent → Prop
  | alloc _ _ => True
  | dealloc _ _ => False

namespace AsanGiovese

section

variable {T : Type → Type} [IntervalTree T]

def allocInsert (backtrace : List Nat) (interval : Interval) (tree : T AllocTreeItem) :
    T AllocTreeItem :=
  IntervalTree.insert interval (.alloc backtrace) tree

def allocRemove (interval : Interval) (tree : T AllocTreeItem) : T AllocTreeItem :=
  let found := (IntervalTree.query interval tree).map Prod.fst
  found.foldl (fun tree i => IntervalTree.delete i tree) tree

/-- The error that is reported, if any, and the new tree. -/
def allocFree (backtrace : List Nat) (addr : Nat) (tree : T AllocTreeItem) :
    Option AsanError × T AllocTreeItem :=
  match IntervalTree.query ⟨addr, addr + 1⟩ tree with
  | [] => (some (.badFree addr none), tree)
  | (chunk, item) :: _ =>
    let tree := IntervalTree.insert chunk (item.free backtrace) tree
    if chunk.start ≠ addr then (some (.badFree addr (some (chunk.start, chunk.stop))), tree)
    else (none, tree)

def allocation (backtrace : List Nat) (interval : Interval) (tree : T AllocTreeItem) :
    T AllocTreeItem :=
  allocInsert backtrace interval (allocRemove interval tree)

def deallocation (backtrace : List Nat) (addr : Nat) (tree : T AllocTreeItem) :
    Option AsanError × T AllocTreeItem :=
  allocFree backtrace addr tree

/-- The part of `rollback` that is about the chunks: the answer, the tree, and the
leaks. -/
def rollbackTree (snapshotShadow detectLeaks : Bool) (savedTree tree : T AllocTreeItem) :
    AsanRollback × T AllocTreeItem × List Interval :=
  let leaks :=
    if detectLeaks then (IntervalTree.query ⟨0, 2 ^ 64 - 1⟩ tree).map Prod.fst else []
  (if leaks.isEmpty then .ok else .hasLeaks, if snapshotShadow then savedTree else tree, leaks)

/-- It is the answer of `rollback` when the chunks are those of the tree. -/
theorem rollback_eq_rollbackTree {guestBase : Nat} {order : List Nat} {detectLeaks : Bool}
    {self : AsanGiovese} {savedTree tree : T AllocTreeItem}
    (h : self.allocTree = (IntervalTree.query ⟨0, 2 ^ 64 - 1⟩ tree).map fun e =>
      ((e.1.start, e.1.stop), e.2)) :
    (self.rollback guestBase order detectLeaks).1 =
      (rollbackTree self.snapshotShadow detectLeaks savedTree tree).1 := by
  rw [rollback, rollbackTree, h]
  cases detectLeaks with
  | false => rfl
  | true =>
      simp only [if_true, List.isEmpty_map]

/-- The tree after an event. -/
def execChunk (tree : T AllocTreeItem) : ChunkEvent → T AllocTreeItem
  | .alloc chunk backtrace => allocation backtrace chunk.interval tree
  | .dealloc addr backtrace => (deallocation backtrace addr tree).2

def execChunks (events : List ChunkEvent) : T AllocTreeItem :=
  events.foldl execChunk IntervalTree.empty

end

end AsanGiovese

/-! ## Ledgers -/

structure Ledger where
  /-- the chunks that are allocated -/
  live : List Interval
  /-- the chunks that were allocated, and that no later chunk overlaps -/
  known : List Interval
  /-- the chunks allocated in the run and not freed in it -/
  unfreed : List Interval

namespace Ledger

def empty : Ledger := ⟨[], [], []⟩

def step (s : Ledger) : ChunkEvent → Ledger
  | .alloc chunk _ =>
    { live := chunk.interval :: s.live.filter fun i => ¬ i.Overlaps chunk.interval
      known := chunk.interval :: s.known.filter fun i => ¬ i.Overlaps chunk.interval
      unfreed := chunk.interval :: s.unfreed }
  | .dealloc addr _ =>
    match s.live.find? fun i => i.start = addr with
    | some i => { s with live := s.live.erase i, unfreed := s.unfreed.erase i }
    | none => s

def run (s : Ledger) (events : List ChunkEvent) : Ledger := events.foldl step s

/-- A snapshot starts a new run. -/
def snapshot (s : Ledger) : Ledger := { s with unfreed := [] }

/-- The ledger after a run that started with a snapshot. -/
def ofRun (before events : List ChunkEvent) : Ledger := (empty.run before).snapshot.run events

theorem step_alloc (s : Ledger) (chunk : Chunk) (backtrace : List Nat) :
    s.step (.alloc chunk backtrace) =
      { live := chunk.interval :: s.live.filter fun i => ¬ i.Overlaps chunk.interval
        known := chunk.interval :: s.known.filter fun i => ¬ i.Overlaps chunk.interval
        unfreed := chunk.interval :: s.unfreed } := rfl

/-- A deallocation removes the live chunk that starts at the address. -/
theorem step_dealloc_cases (s : Ledger) (addr : Nat) (backtrace : List Nat) :
    (∃ i ∈ s.live, i.start = addr ∧ s.step (.dealloc addr backtrace) =
      { s with live := s.live.erase i, unfreed := s.unfreed.erase i }) ∨
    ((∀ i ∈ s.live, i.start ≠ addr) ∧ s.step (.dealloc addr backtrace) = s) := by
  rw [step]
  cases hfind : s.live.find? fun i => i.start = addr with
  | some i =>
      refine .inl ⟨i, List.mem_of_find?_eq_some hfind, ?_, rfl⟩
      simpa using List.find?_some hfind
  | none =>
      refine .inr ⟨fun i hi => ?_, rfl⟩
      simpa using List.find?_eq_none.mp hfind i hi

theorem known_dealloc (s : Ledger) (addr : Nat) (backtrace : List Nat) :
    (s.step (.dealloc addr backtrace)).known = s.known := by
  rcases s.step_dealloc_cases addr backtrace with ⟨i, -, -, heq⟩ | ⟨-, heq⟩
  · rw [heq]
  · rw [heq]

/-- There are known chunks as soon as there has been an allocation. -/
theorem known_run_ne_nil {s : Ledger} {events : List ChunkEvent} :
    (s.run events).known ≠ [] ↔ s.known ≠ [] ∨ ∃ e ∈ events, e.IsAlloc := by
  induction events generalizing s with
  | nil => exact (or_iff_left fun ⟨_, hmem, _⟩ => List.not_mem_nil hmem).symm
  | cons e events ih =>
      rw [run, List.foldl_cons]
      refine ih.trans ?_
      rw [List.exists_mem_cons_iff, ← or_assoc]
      refine or_congr_left ?_
      cases e with
      | alloc chunk backtrace => exact iff_of_true (List.cons_ne_nil _ _) (.inr trivial)
      | dealloc addr backtrace =>
          rw [known_dealloc]
          exact (or_iff_left id).symm

/-- Without an allocation in it, a run leaves nothing to be freed. -/
theorem unfreed_run_eq_nil {s : Ledger} {events : List ChunkEvent} (hs : s.unfreed = [])
    (h : ∀ e ∈ events, ¬ e.IsAlloc) : (s.run events).unfreed = [] := by
  induction events generalizing s with
  | nil => exact hs
  | cons e events ih =>
      rw [run, List.foldl_cons]
      refine ih ?_ fun e' he' => h e' (List.mem_cons_of_mem e he')
      cases e with
      | alloc chunk backtrace => exact absurd trivial (h _ List.mem_cons_self)
      | dealloc addr backtrace =>
          rcases s.step_dealloc_cases addr backtrace with ⟨i, -, -, heq⟩ | ⟨-, heq⟩
          · rw [heq, hs]
            rfl
          · rw [heq, hs]

end Ledger

theorem Ledger.known_ofRun {before events : List ChunkEvent} :
    (ofRun before events).known ≠ [] ↔ ∃ e ∈ before ++ events, e.IsAlloc := by
  have hbefore : (empty.run before).known ≠ [] ↔ ∃ e ∈ before, e.IsAlloc :=
    known_run_ne_nil.trans (or_iff_right fun hne => hne rfl)
  rw [ofRun, known_run_ne_nil, snapshot, hbefore]
  simp only [List.mem_append, or_and_right, exists_or]

/-! ## The tree and the ledger -/

theorem Interval.overlaps_point {i : Interval} {addr : Nat} :
    i.Overlaps ⟨addr, addr + 1⟩ ↔ addr ∈ i := by
  rw [overlaps_iff]
  constructor
  · rintro ⟨a, hai, hle, hlt⟩
    have heq : addr = a := Nat.le_antisymm hle (Nat.le_of_lt_succ hlt)
    rw [heq]
    exact hai
  · intro h
    exact ⟨addr, h, Nat.le_refl _, Nat.lt_succ_self _⟩

namespace AsanGiovese

open IntervalTree LawfulIntervalTree

variable {T : Type → Type} [IntervalTree T]

/-- The entries are the known chunks, which are apart. -/
structure Represents (tree : T AllocTreeItem) (s : Ledger) : Prop where
  known : ∀ i, (∃ item, (i, item) ∈ entries tree) ↔ i ∈ s.known
  live : ∀ i ∈ s.live, i ∈ s.known
  nodup : s.live.Nodup
  apart : ∀ i ∈ s.known, ∀ j ∈ s.known, i.Overlaps j → i = j
  chunk : ∀ i ∈ s.known, i.start < i.stop ∧ i.stop < 2 ^ 64

variable {tree : T AllocTreeItem} {s : Ledger}

/-- Chunks that start at the same address are the same. -/
theorem Represents.eq_of_start (h : Represents tree s) {i j : Interval} (hi : i ∈ s.known)
    (hj : j ∈ s.known) (heq : i.start = j.start) : i = j := by
  refine h.apart i hi j hj (Interval.overlaps_iff.mpr ⟨i.start, ?_, ?_⟩)
  · exact ⟨Nat.le_refl _, (h.chunk i hi).1⟩
  · exact ⟨Nat.le_of_eq heq.symm, heq ▸ (h.chunk j hj).1⟩

theorem Represents.eq_of_mem (h : Represents tree s) {i j : Interval} {addr : Nat}
    (hi : i ∈ s.known) (hj : j ∈ s.known) (hin : addr ∈ i) (hin' : addr ∈ j) : i = j :=
  h.apart i hi j hj (Interval.overlaps_iff.mpr ⟨addr, hin, hin'⟩)

theorem Represents.start_mem (h : Represents tree s) {i : Interval} {addr : Nat} (hi : i ∈ s.known)
    (hstart : i.start = addr) : addr ∈ i :=
  ⟨Nat.le_of_eq hstart, hstart ▸ (h.chunk i hi).1⟩

section

variable [LawfulIntervalTree T]

theorem represents_empty : Represents (empty : T AllocTreeItem) .empty where
  known i := by
    rw [entries_empty]
    exact iff_of_false (fun ⟨_, hmem⟩ => List.not_mem_nil hmem) List.not_mem_nil
  live _ hi := absurd hi List.not_mem_nil
  nodup := List.nodup_nil
  apart _ hi := absurd hi List.not_mem_nil
  chunk _ hi := absurd hi List.not_mem_nil

theorem mem_entries_foldl_delete {is : List Interval} {j : Interval} {item : AllocTreeItem}
    {tree : T AllocTreeItem} :
    (j, item) ∈ entries (is.foldl (fun tree i => delete i tree) tree) ↔
      j ∉ is ∧ (j, item) ∈ entries tree := by
  induction is generalizing tree with
  | nil => exact (and_iff_right List.not_mem_nil).symm
  | cons i is ih =>
      rw [List.foldl_cons, ih, mem_delete, List.mem_cons, not_or, and_assoc, and_left_comm]

theorem mem_entries_allocRemove {interval j : Interval} {item : AllocTreeItem} :
    (j, item) ∈ entries (allocRemove interval tree) ↔
      ¬ j.Overlaps interval ∧ (j, item) ∈ entries tree := by
  rw [allocRemove, mem_entries_foldl_delete]
  refine and_congr_left fun hmem => not_congr ?_
  rw [List.mem_map]
  constructor
  · rintro ⟨⟨i, item'⟩, hquery, rfl⟩
    exact (mem_query.mp hquery).2
  · intro hover
    exact ⟨(j, item), mem_query.mpr ⟨hmem, hover⟩, rfl⟩

theorem mem_entries_allocation {backtrace : List Nat} {interval j : Interval}
    {item : AllocTreeItem} : (j, item) ∈ entries (allocation backtrace interval tree) ↔
      j = interval ∧ item = .alloc backtrace ∨
        j ≠ interval ∧ ¬ j.Overlaps interval ∧ (j, item) ∈ entries tree := by
  rw [allocation, allocInsert, mem_insert, mem_entries_allocRemove]

/-- **What a deallocation does**: it reports an address in no chunk, and flags the
chunk an address is in. -/
theorem Represents.deallocation_cases (h : Represents tree s) (backtrace : List Nat) (addr : Nat) :
    ((∀ i ∈ s.known, addr ∉ i) ∧
      deallocation backtrace addr tree = (some (.badFree addr none), tree)) ∨
    ∃ i ∈ s.known, ∃ item, (i, item) ∈ entries tree ∧ addr ∈ i ∧
      deallocation backtrace addr tree =
        (if i.start ≠ addr then some (.badFree addr (some (i.start, i.stop))) else none,
          insert i (item.free backtrace) tree) := by
  rw [deallocation, allocFree]
  cases hquery : query ⟨addr, addr + 1⟩ tree with
  | nil =>
      refine .inl ⟨fun i hi haddr => ?_, rfl⟩
      obtain ⟨item, hitem⟩ := (h.known i).mpr hi
      have hmem := mem_query.mpr ⟨hitem, Interval.overlaps_point.mpr haddr⟩
      rw [hquery] at hmem
      exact List.not_mem_nil hmem
  | cons e rest =>
      obtain ⟨i, item⟩ := e
      have hmem : (i, item) ∈ query ⟨addr, addr + 1⟩ tree := by
        rw [hquery]
        exact List.mem_cons_self
      obtain ⟨hentry, hover⟩ := mem_query.mp hmem
      refine .inr ⟨i, (h.known i).mp ⟨item, hentry⟩, item, hentry,
        Interval.overlaps_point.mp hover, ?_⟩
      dsimp only
      split
      · rfl
      · rfl

theorem Represents.alloc (h : Represents tree s) (chunk : Chunk) (backtrace : List Nat) :
    Represents (execChunk tree (.alloc chunk backtrace)) (s.step (.alloc chunk backtrace)) := by
  have hself : chunk.interval.Overlaps chunk.interval :=
    Interval.overlaps_iff.mpr ⟨chunk.interval.start, ⟨Nat.le_refl _, chunk.nonempty⟩,
      Nat.le_refl _, chunk.nonempty⟩
  have hmem {l : List Interval} {i : Interval} :
      i ∈ chunk.interval :: l.filter (fun i => ¬ i.Overlaps chunk.interval) ↔
        i = chunk.interval ∨ i ∈ l ∧ ¬ i.Overlaps chunk.interval := by
    rw [List.mem_cons, List.mem_filter, decide_eq_true_iff]
  rw [Ledger.step_alloc]
  refine ⟨fun i => ?_, fun i hi => ?_, ?_, fun i hi j hj hij => ?_, fun i hi => ?_⟩
  · rw [hmem, ← h.known i]
    constructor
    · rintro ⟨item, hitem⟩
      rcases mem_entries_allocation.mp hitem with ⟨rfl, -⟩ | ⟨-, hapart, hold⟩
      · exact .inl rfl
      · exact .inr ⟨⟨item, hold⟩, hapart⟩
    · rintro (rfl | ⟨⟨item, hold⟩, hapart⟩)
      · exact ⟨_, mem_entries_allocation.mpr (.inl ⟨rfl, rfl⟩)⟩
      · refine ⟨item, mem_entries_allocation.mpr (.inr ⟨?_, hapart, hold⟩)⟩
        rintro rfl
        exact hapart hself
  · exact hmem.mpr ((hmem.mp hi).imp_right fun hold => ⟨h.live i hold.1, hold.2⟩)
  · refine List.nodup_cons.mpr ⟨fun hin => ?_, h.nodup.filter _⟩
    exact of_decide_eq_true (List.mem_filter.mp hin).2 hself
  · rcases hmem.mp hi with rfl | ⟨hi, hiapart⟩
    · rcases hmem.mp hj with rfl | ⟨-, hjapart⟩
      · rfl
      · exact absurd hij.symm hjapart
    · rcases hmem.mp hj with rfl | ⟨hj, -⟩
      · exact absurd hij hiapart
      · exact h.apart i hi j hj hij
  · rcases hmem.mp hi with rfl | ⟨hi, -⟩
    · exact ⟨chunk.nonempty, chunk.fits⟩
    · exact h.chunk i hi

theorem Represents.dealloc (h : Represents tree s) (addr : Nat) (backtrace : List Nat) :
    Represents (execChunk tree (.dealloc addr backtrace)) (s.step (.dealloc addr backtrace)) := by
  have hkeys : ∀ i, (∃ item, (i, item) ∈ entries (execChunk tree (.dealloc addr backtrace))) ↔
      i ∈ s.known := by
    intro i
    rw [← h.known i, execChunk]
    rcases h.deallocation_cases backtrace addr with ⟨-, heq⟩ | ⟨j, -, item, hentry, -, heq⟩
    · rw [heq]
    · rw [heq]
      constructor
      · rintro ⟨item', hitem'⟩
        rcases (mem_insert _ _ _ _ _).mp hitem' with ⟨rfl, -⟩ | ⟨-, hold⟩
        · exact ⟨item, hentry⟩
        · exact ⟨item', hold⟩
      · rintro ⟨item', hitem'⟩
        by_cases hij : i = j
        · exact ⟨_, (mem_insert _ _ _ _ _).mpr (.inl ⟨hij, rfl⟩)⟩
        · exact ⟨item', (mem_insert _ _ _ _ _).mpr (.inr ⟨hij, hitem'⟩)⟩
  rcases s.step_dealloc_cases addr backtrace with ⟨i, -, -, heq⟩ | ⟨-, heq⟩
  · rw [heq]
    exact ⟨hkeys, fun j hj => h.live j (List.mem_of_mem_erase hj), h.nodup.erase i, h.apart,
      h.chunk⟩
  · rw [heq]
    exact ⟨hkeys, h.live, h.nodup, h.apart, h.chunk⟩

theorem Represents.step (h : Represents tree s) (e : ChunkEvent) :
    Represents (execChunk tree e) (s.step e) := by
  cases e with
  | alloc chunk backtrace => exact h.alloc chunk backtrace
  | dealloc addr backtrace => exact h.dealloc addr backtrace

theorem Represents.run (h : Represents tree s) (events : List ChunkEvent) :
    Represents (events.foldl execChunk tree) (s.run events) := by
  induction events generalizing tree s with
  | nil => exact h
  | cons e events ih => exact ih (h.step e)

/-! ## What is reported -/

/-- The answer at the end of a run: there are chunks in the tree. -/
theorem Represents.hasLeaks_iff (h : Represents tree s) (snapshotShadow : Bool)
    (savedTree : T AllocTreeItem) :
    (rollbackTree snapshotShadow true savedTree tree).1 = .hasLeaks ↔ s.known ≠ [] := by
  have hempty : ((query ⟨0, 2 ^ 64 - 1⟩ tree).map Prod.fst).isEmpty = true ↔ s.known = [] := by
    rw [List.isEmpty_iff, List.map_eq_nil_iff]
    constructor
    · intro hnil
      refine List.eq_nil_iff_forall_not_mem.mpr fun i hi => ?_
      obtain ⟨item, hitem⟩ := (h.known i).mpr hi
      obtain ⟨hlt, hfits⟩ := h.chunk i hi
      have hmem : (i, item) ∈ query ⟨0, 2 ^ 64 - 1⟩ tree := by
        refine mem_query.mpr ⟨hitem, Interval.overlaps_iff.mpr ⟨i.start, ?_, ?_⟩⟩
        · exact ⟨Nat.le_refl _, hlt⟩
        · exact ⟨Nat.zero_le _, Nat.lt_of_lt_of_le hlt (Nat.le_pred_of_lt hfits)⟩
      rw [hnil] at hmem
      exact List.not_mem_nil hmem
    · intro hnil
      refine List.eq_nil_iff_forall_not_mem.mpr fun e he => ?_
      have hi := (h.known e.1).mp ⟨e.2, (mem_query.mp he).1⟩
      rw [hnil] at hi
      exact List.not_mem_nil hi
  rw [rollbackTree]
  by_cases hnil : s.known = []
  · refine iff_of_false ?_ (not_not.mpr hnil)
    simp only [if_true, hempty.mpr hnil]
    exact AsanRollback.noConfusion
  · refine iff_of_true ?_ hnil
    simp only [if_true, if_neg (mt hempty.mp hnil)]

/-- A bad free is reported for an address that no known chunk starts at. -/
theorem Represents.badFree_iff (h : Represents tree s) (backtrace : List Nat) (addr : Nat) :
    (deallocation backtrace addr tree).1.isSome ↔ ∀ i ∈ s.known, i.start ≠ addr := by
  rcases h.deallocation_cases backtrace addr with ⟨hnone, heq⟩ | ⟨i, hi, item, hentry, hin, heq⟩
  · rw [heq]
    refine iff_of_true rfl fun i hi hstart => hnone i hi ?_
    exact ⟨Nat.le_of_eq hstart, hstart ▸ (h.chunk i hi).1⟩
  · rw [heq]
    by_cases hstart : i.start = addr
    · dsimp only
      rw [if_neg (not_not.mpr hstart)]
      exact iff_of_false Bool.false_ne_true fun hall => hall i hi hstart
    · dsimp only
      rw [if_pos hstart]
      refine iff_of_true rfl fun j hj hj' => hstart ?_
      have hover : i.Overlaps j := Interval.overlaps_iff.mpr
        ⟨addr, hin, Nat.le_of_eq hj', hj' ▸ (h.chunk j hj).1⟩
      rw [h.apart i hi j hj hover]
      exact hj'

/-- **Exactly when a deallocation is reported as it should**: no chunk that was
freed, and is still known, starts at the address. -/
theorem Represents.badFree_exact_iff (h : Represents tree s) (backtrace : List Nat) (addr : Nat) :
    ((deallocation backtrace addr tree).1.isSome ↔ ∀ i ∈ s.live, i.start ≠ addr) ↔
      ∀ i ∈ s.known, i.start = addr → i ∈ s.live := by
  rw [h.badFree_iff]
  constructor
  · intro hiff i hi hstart
    by_contra hdead
    refine hiff.mpr (fun j hj hstart' => hdead ?_) i hi hstart
    rw [h.eq_of_start hi (h.live j hj) (hstart.trans hstart'.symm)]
    exact hj
  · intro hall
    constructor
    · exact fun hnone i hi => hnone i (h.live i hi)
    · exact fun hnone i hi hstart => hnone i (hall i hi hstart) hstart

/-- A chunk is flagged as allocated exactly when it is. -/
def Flags (tree : T AllocTreeItem) (s : Ledger) : Prop :=
  ∀ i item, (i, item) ∈ entries tree → (item.allocated = true ↔ i ∈ s.live)

theorem Flags.alloc (hflags : Flags tree s) (chunk : Chunk) (backtrace : List Nat) :
    Flags (execChunk tree (.alloc chunk backtrace)) (s.step (.alloc chunk backtrace)) := by
  intro i item hitem
  rw [Ledger.step_alloc]
  rcases mem_entries_allocation.mp hitem with ⟨rfl, rfl⟩ | ⟨hne, hapart, hold⟩
  · exact iff_of_true rfl List.mem_cons_self
  · rw [hflags i item hold, List.mem_cons, or_iff_right hne, List.mem_filter,
      decide_eq_true_iff]
    exact (and_iff_left hapart).symm

/-- A free of the start of a chunk. -/
theorem Represents.flags_free (h : Represents tree s) (hflags : Flags tree s) {i : Interval}
    {addr : Nat} (hi : i ∈ s.known) (hstart : i.start = addr) (item : AllocTreeItem)
    (backtrace : List Nat) :
    Flags (insert i (item.free backtrace) tree) (s.step (.dealloc addr backtrace)) := by
  intro j item' hitem'
  have hlive : j ∈ (s.step (.dealloc addr backtrace)).live ↔ j ≠ i ∧ j ∈ s.live := by
    rcases s.step_dealloc_cases addr backtrace with ⟨k, hk, hkstart, heq⟩ | ⟨hnone, heq⟩
    · rw [heq, h.eq_of_start (h.live k hk) hi (hkstart.trans hstart.symm)]
      exact h.nodup.mem_erase_iff
    · rw [heq]
      refine (and_iff_right_of_imp fun hj => ?_).symm
      rintro rfl
      exact hnone j hj hstart
  rw [hlive]
  rcases (mem_insert _ _ _ _ _).mp hitem' with ⟨rfl, rfl⟩ | ⟨hne, hold⟩
  · exact iff_of_false Bool.false_ne_true fun hboth => hboth.1 rfl
  · rw [hflags j item' hold]
    exact (and_iff_right hne).symm

/-- **Exactly when a deallocation keeps the flags right**: the address is not within a
chunk that is allocated. -/
theorem Represents.flags_dealloc_iff (h : Represents tree s) (hflags : Flags tree s) (addr : Nat)
    (backtrace : List Nat) :
    Flags (execChunk tree (.dealloc addr backtrace)) (s.step (.dealloc addr backtrace)) ↔
      ∀ i ∈ s.live, addr ∈ i → i.start = addr := by
  rw [execChunk]
  rcases h.deallocation_cases backtrace addr with ⟨hnone, heq⟩ | ⟨i, hi, item, hentry, hin, heq⟩
  · rw [heq]
    refine iff_of_true ?_ fun i hi hin => absurd hin (hnone i (h.live i hi))
    rcases s.step_dealloc_cases addr backtrace with ⟨k, hk, hstart, -⟩ | ⟨-, hsame⟩
    · exact absurd (h.start_mem (h.live k hk) hstart) (hnone k (h.live k hk))
    · rw [hsame]
      exact hflags
  rw [heq]
  by_cases hstart : i.start = addr
  · refine iff_of_true (h.flags_free hflags hi hstart item backtrace) fun j hj hj' => ?_
    rw [h.eq_of_mem (h.live j hj) hi hj' hin]
    exact hstart
  have hsame : s.step (.dealloc addr backtrace) = s := by
    rcases s.step_dealloc_cases addr backtrace with ⟨k, hk, hkstart, -⟩ | ⟨-, hsame⟩
    · have hki := h.eq_of_mem (h.live k hk) hi (h.start_mem (h.live k hk) hkstart) hin
      exact absurd (hki ▸ hkstart) hstart
    · exact hsame
  rw [hsame]
  constructor
  · intro hflags' j hj hj'
    obtain rfl := h.eq_of_mem (h.live j hj) hi hj' hin
    have hflag := hflags' j (item.free backtrace) ((mem_insert _ _ _ _ _).mpr (.inl ⟨rfl, rfl⟩))
    exact absurd (hflag.mpr hj) Bool.false_ne_true
  · intro hall j item' hitem'
    rcases (mem_insert _ _ _ _ _).mp hitem' with ⟨rfl, rfl⟩ | ⟨-, hold⟩
    · exact iff_of_false Bool.false_ne_true fun hj => hstart (hall j hj hin)
    · exact hflags j item' hold

/-- **Exactly when the flags are right throughout**: no deallocation is within a chunk
that is allocated. -/
theorem Represents.flags_run_iff (h : Represents tree s) (hflags : Flags tree s)
    (events : List ChunkEvent) :
    (∀ done, done <+: events → Flags (done.foldl execChunk tree) (s.run done)) ↔
      ∀ done addr backtrace, done ++ [.dealloc addr backtrace] <+: events →
        ∀ i ∈ (s.run done).live, addr ∈ i → i.start = addr := by
  constructor
  · intro hall done addr backtrace hprefix
    have hbefore := hall done ((List.prefix_append _ _).trans hprefix)
    have hafter := hall _ hprefix
    rw [Ledger.run, List.foldl_append, List.foldl_append] at hafter
    exact ((h.run done).flags_dealloc_iff hbefore addr backtrace).mp hafter
  · intro hall done
    induction done using List.reverseRecOn with
    | nil => exact fun _ => hflags
    | append_singleton done e ih =>
        intro hprefix
        have hbefore := ih ((List.prefix_append _ _).trans hprefix)
        rw [Ledger.run, List.foldl_append, List.foldl_append]
        cases e with
        | alloc chunk backtrace => exact hbefore.alloc chunk backtrace
        | dealloc addr backtrace =>
            exact ((h.run done).flags_dealloc_iff hbefore addr backtrace).mpr
              (hall done addr backtrace hprefix)

theorem represents_execChunks (events : List ChunkEvent) :
    Represents (execChunks events : T AllocTreeItem) (Ledger.empty.run events) :=
  represents_empty.run events

theorem represents_ofRun (before run : List ChunkEvent) :
    Represents (execChunks (before ++ run) : T AllocTreeItem) (Ledger.ofRun before run) := by
  have hsnap : Represents (execChunks before : T AllocTreeItem)
      (Ledger.empty.run before).snapshot := by
    obtain ⟨hknown, hlive, hnodup, hapart, hchunk⟩ := represents_execChunks (T := T) before
    exact ⟨hknown, hlive, hnodup, hapart, hchunk⟩
  rw [execChunks, List.foldl_append]
  exact hsnap.run run

/-- **Exactly when leaks are reported as they should**: some chunk of the run was not
freed, or there was no allocation at all. -/
theorem hasLeaks_exact_iff (before run : List ChunkEvent) (snapshotShadow : Bool)
    (savedTree : T AllocTreeItem) :
    ((rollbackTree snapshotShadow true savedTree (execChunks (before ++ run))).1 = .hasLeaks ↔
        (Ledger.ofRun before run).unfreed ≠ []) ↔
      ((Ledger.ofRun before run).unfreed ≠ [] ∨ ∀ e ∈ before ++ run, ¬ e.IsAlloc) := by
  rw [(represents_ofRun before run).hasLeaks_iff, Ledger.known_ofRun]
  by_cases hunfreed : (Ledger.ofRun before run).unfreed = []
  · rw [or_iff_right (not_not.mpr hunfreed), iff_false_right (not_not.mpr hunfreed)]
    simp only [not_exists, not_and]
  · refine iff_of_true (iff_of_true ?_ hunfreed) (.inl hunfreed)
    by_contra hnone
    refine hunfreed (Ledger.unfreed_run_eq_nil rfl fun e he halloc => hnone ?_)
    exact ⟨e, List.mem_append_right before he, halloc⟩

end

def oneChunk : Chunk where
  interval := ⟨0x1000, 0x1010⟩
  nonempty := by decide
  fits := by decide

/-- A chunk that is allocated and freed in the run. -/
def allocFreed : List ChunkEvent := [.alloc oneChunk [], .dealloc 0x1000 []]

end AsanGiovese

end Libaflmm
