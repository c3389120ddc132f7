import Libaflmm.Runs
import Mathlib.Data.Finset.Card
import Mathlib.Data.Finset.Union
import Mathlib.Order.Interval.Finset.Nat

/-!
# Numbering the guards

The sanitizer has a guard of 32 bits for every edge, and registers them in
ranges, one range or several for a module. All guards are zero at first. They
are numbered in the order of registration. The number of the next guard is also
the number of edges there are.

A range whose first guard is not zero has been numbered before, and is left as
it is. The guard that is numbered first has the number zero, so that the range
it begins is numbered again whenever it is registered again.
-/

namespace Libaflmm

/-- Addresses count guards. -/
structure GuardRange where
  start : Nat
  stop : Nat
  start_le_stop : start ≤ stop
deriving DecidableEq

structure PcGuards where
  guard : Nat → Nat
  maxEdgesFound : Nat

namespace PcGuards

def new : PcGuards := ⟨fun _ => 0, 0⟩

section

variable (pointerMaps : Bool) (size : Nat)

/-- The loop of `__sanitizer_cov_trace_pc_guard_init` for `n` guards. `size` is
that of the edges map. -/
def initLoop : Nat → Nat → PcGuards → Option PcGuards
  | 0, _, g => some g
  | n + 1, start, g =>
    let guard := Function.update g.guard start (g.maxEdgesFound % 2 ^ 32)
    let found := (g.maxEdgesFound + 1) % 2 ^ 64
    if pointerMaps then initLoop n (start + 1) ⟨guard, found % size⟩
    else if found ≤ size then initLoop n (start + 1) ⟨guard, found⟩
    else none

/-- `__sanitizer_cov_trace_pc_guard_init` -/
def init (g : PcGuards) (r : GuardRange) : Option PcGuards :=
  if r.start = r.stop ∨ g.guard r.start ≠ 0 then some g
  else initLoop pointerMaps size (r.stop - r.start) r.start g

def edgesMaxNum (g : PcGuards) : Nat := if 0 < g.maxEdgesFound then g.maxEdgesFound else size

end

end PcGuards

/-! ## Numbered guards -/

namespace GuardRange

def guards (r : GuardRange) : Finset Nat := Finset.Ico r.start r.stop

/-- The guards of all the ranges. -/
def allGuards (ranges : List GuardRange) : Finset Nat :=
  ranges.toFinset.biUnion guards

def Apart (r r' : GuardRange) : Prop := r = r' ∨ Disjoint r.guards r'.guards

instance : DecidableRel Apart := fun r r' =>
  inferInstanceAs (Decidable (r = r' ∨ Disjoint r.guards r'.guards))

end GuardRange

/-- The guards, and the ranges that have been registered. -/
structure GuardRun where
  guards : PcGuards
  ranges : List GuardRange

namespace GuardRun

open GuardRange

def new : GuardRun := ⟨.new, []⟩

variable (pointerMaps : Bool) (size : Nat)

def step (t : GuardRun) (r : GuardRange) : Option GuardRun :=
  (t.guards.init pointerMaps size r).map fun guards => ⟨guards, r :: t.ranges⟩

/-- The guards that are registered are told apart, by numbers below the number
of edges, which is how many there are. -/
structure Numbered (t : GuardRun) : Prop where
  injective : ∀ a ∈ allGuards t.ranges, ∀ b ∈ allGuards t.ranges,
    t.guards.guard a = t.guards.guard b → a = b
  below : ∀ a ∈ allGuards t.ranges,
    t.guards.guard a < t.guards.edgesMaxNum size ∧ t.guards.guard a < size
  counted : (allGuards t.ranges).Nonempty →
    t.guards.edgesMaxNum size = (allGuards t.ranges).card

/-- The last range, if it was registered before, was left as it was. -/
def Stable (pre : List GuardRange) (t : GuardRun) : Prop :=
  ∀ pre' r u, pre = pre' ++ [r] → r ∈ u.ranges →
    run (step pointerMaps size) new pre' = some u → t.guards = u.guards

/-- What the sanitizer sees to: ranges are disjoint, and the map is large enough
for the guards. -/
def Allowed (t : GuardRun) (r : GuardRange) : Prop :=
  (∀ r' ∈ t.ranges, r.Apart r') ∧ (allGuards (r :: t.ranges)).card ≤ size

/-- A range that is registered again does not begin with the guard zero, unless
it is all of a map that wraps; and there are no more guards than numbers of 32 bits. -/
def Renewable (t : GuardRun) (r : GuardRange) : Prop :=
  (r ∈ t.ranges → r.start = r.stop ∨ t.guards.guard r.start ≠ 0 ∨
    pointerMaps = true ∧ r.stop - r.start = size) ∧
  (allGuards (r :: t.ranges)).card ≤ 2 ^ 32

end GuardRun

/-! ## The loop -/

/-- The number `i` places after `base`. -/
def guardIndex (pointerMaps : Bool) (size base i : Nat) : Nat :=
  if pointerMaps then (base + i) % size else base + i

theorem guardIndex_lt {pointerMaps : Bool} {size base i : Nat} (h : base + i < size) :
    guardIndex pointerMaps size base i = base + i := by
  rw [guardIndex]
  split
  · exact Nat.mod_eq_of_lt h
  · rfl

theorem guardIndex_succ (pointerMaps : Bool) (size base i : Nat) :
    guardIndex pointerMaps size (guardIndex pointerMaps size base 1) i =
      guardIndex pointerMaps size base (i + 1) := by
  simp only [guardIndex]
  split
  · rw [Nat.mod_add_mod, Nat.add_assoc, Nat.add_comm 1]
  · rw [Nat.add_assoc, Nat.add_comm 1]

/-- The guards from `start` on, numbered from `base`. -/
def renumber (pointerMaps : Bool) (size start n base : Nat) (guard : Nat → Nat) (a : Nat) : Nat :=
  if start ≤ a ∧ a < start + n then guardIndex pointerMaps size base (a - start) % 2 ^ 32
  else guard a

namespace PcGuards

variable {pointerMaps : Bool} {size : Nat}

theorem renumber_succ (start n base : Nat) (guard : Nat → Nat)
    (hbase : guardIndex pointerMaps size base 0 = base) :
    renumber pointerMaps size (start + 1) n (guardIndex pointerMaps size base 1)
        (Function.update guard start (base % 2 ^ 32)) =
      renumber pointerMaps size start (n + 1) base guard := by
  funext a
  rcases Nat.lt_trichotomy a start with hlt | rfl | hgt
  · rw [renumber, renumber, if_neg (by omega), if_neg (by omega),
      Function.update_of_ne (Nat.ne_of_lt hlt)]
  · rw [renumber, renumber, if_neg (by omega), if_pos (by omega), Function.update_self,
      Nat.sub_self, hbase]
  · by_cases hin : a < start + (n + 1)
    · rw [renumber, renumber, if_pos (by omega), if_pos (by omega), guardIndex_succ,
        show a - (start + 1) + 1 = a - start by omega]
    · rw [renumber, renumber, if_neg (by omega), if_neg (by omega),
        Function.update_of_ne (Nat.ne_of_gt hgt)]

/-- A map that wraps is never too small, and another one is as long as the
guards fit. -/
theorem initLoop_eq (hsize : size < 2 ^ 63) {n start : Nat} {g : PcGuards}
    (hwrap : pointerMaps = true → g.maxEdgesFound < size)
    (hfits : pointerMaps = false → g.maxEdgesFound + n ≤ size) :
    initLoop pointerMaps size n start g =
      some ⟨renumber pointerMaps size start n g.maxEdgesFound g.guard,
        guardIndex pointerMaps size g.maxEdgesFound n⟩ := by
  have hzero : guardIndex pointerMaps size g.maxEdgesFound 0 = g.maxEdgesFound := by
    rw [guardIndex, Nat.add_zero]
    split
    · next hpointer => exact Nat.mod_eq_of_lt (hwrap hpointer)
    · rfl
  induction n generalizing start g with
  | zero =>
      have hguard : renumber pointerMaps size start 0 g.maxEdgesFound g.guard = g.guard := by
        funext a
        rw [renumber, if_neg (by omega)]
      rw [initLoop, hzero, hguard]
  | succ n ih =>
      have hone : (g.maxEdgesFound + 1) % 2 ^ 64 = g.maxEdgesFound + 1 := by
        refine Nat.mod_eq_of_lt ?_
        cases pointerMaps with
        | true =>
            have := hwrap rfl
            omega
        | false =>
            have := hfits rfl
            omega
      rw [← renumber_succ start n _ _ hzero, ← guardIndex_succ _ _ _ n]
      cases pointerMaps with
      | true =>
          have hlt : (g.maxEdgesFound + 1) % size < size :=
            Nat.mod_lt _ (Nat.zero_lt_of_lt (hwrap rfl))
          simp only [initLoop, hone, if_true]
          rw [ih (g := ⟨_, _⟩) (fun _ => hlt) (fun h => absurd h (by decide))
            (Nat.mod_eq_of_lt hlt)]
          rfl
      | false =>
          have hle := hfits rfl
          simp only [initLoop, hone, Bool.false_eq_true, if_false]
          rw [if_pos (by omega), ih (fun h => absurd h (by decide))
            (fun _ => by dsimp only; omega) rfl]
          rfl

theorem initLoop_eq_none (hsize : size < 2 ^ 63) {n start : Nat} {g : PcGuards}
    (hle : g.maxEdgesFound ≤ size) (hfits : size < g.maxEdgesFound + n) :
    initLoop false size n start g = none := by
  induction n generalizing start g with
  | zero => omega
  | succ n ih =>
      have hone : (g.maxEdgesFound + 1) % 2 ^ 64 = g.maxEdgesFound + 1 :=
        Nat.mod_eq_of_lt (by omega)
      simp only [initLoop, hone, Bool.false_eq_true, if_false]
      split
      · next hfound => exact ih hfound (by dsimp only; omega)
      · rfl

end PcGuards

/-! ## The guards of the ranges -/

namespace GuardRange

theorem mem_guards {r : GuardRange} {a : Nat} : a ∈ r.guards ↔ r.start ≤ a ∧ a < r.stop :=
  Finset.mem_Ico

theorem mem_guards_iff {r : GuardRange} {a : Nat} :
    a ∈ r.guards ↔ r.start ≤ a ∧ a < r.start + (r.stop - r.start) := by
  have := r.start_le_stop
  rw [mem_guards]
  omega

theorem card_guards (r : GuardRange) : r.guards.card = r.stop - r.start := Nat.card_Ico _ _

theorem mem_allGuards {ranges : List GuardRange} {a : Nat} :
    a ∈ allGuards ranges ↔ ∃ r ∈ ranges, a ∈ r.guards := by
  simp [allGuards]

theorem allGuards_cons {r : GuardRange} {ranges : List GuardRange} :
    allGuards (r :: ranges) = r.guards ∪ allGuards ranges := by
  rw [allGuards, List.toFinset_cons, Finset.biUnion_insert, ← allGuards]

theorem guards_subset {r : GuardRange} {ranges : List GuardRange} (h : r ∈ ranges) :
    r.guards ⊆ allGuards ranges := fun _ ha => mem_allGuards.mpr ⟨r, h, ha⟩

theorem allGuards_cons_of_mem {r : GuardRange} {ranges : List GuardRange} (h : r ∈ ranges) :
    allGuards (r :: ranges) = allGuards ranges := by
  rw [allGuards_cons, Finset.union_eq_right]
  exact guards_subset h

/-- A range that is apart from the others is one of them, or has no guard of theirs. -/
theorem mem_or_disjoint {r : GuardRange} {ranges : List GuardRange}
    (h : ∀ r' ∈ ranges, r.Apart r') : r ∈ ranges ∨ Disjoint r.guards (allGuards ranges) := by
  by_cases hmem : r ∈ ranges
  · exact Or.inl hmem
  · refine Or.inr (Finset.disjoint_left.mpr fun a ha hall => ?_)
    obtain ⟨r', hr', ha'⟩ := mem_allGuards.mp hall
    rcases h r' hr' with rfl | hdisjoint
    · exact hmem hr'
    · exact Finset.disjoint_left.mp hdisjoint ha ha'

end GuardRange

namespace GuardRun

open GuardRange

variable {pointerMaps : Bool} {size : Nat} {t t' : GuardRun} {r : GuardRange}

/-! ## What holds in every run -/

/-- `consecutive`: the guards of a range have been numbered one after the other. -/
structure Inv (pointerMaps : Bool) (size : Nat) (t : GuardRun) : Prop where
  outside : ∀ a, a ∉ allGuards t.ranges → t.guards.guard a = 0
  bounded : ∀ a, t.guards.guard a < 2 ^ 32
  wraps : pointerMaps = true → 0 < size → t.guards.maxEdgesFound < size
  fits : pointerMaps = false → t.guards.maxEdgesFound ≤ size
  started : pointerMaps = false → (allGuards t.ranges).Nonempty → 0 < t.guards.maxEdgesFound
  fresh : allGuards t.ranges = ∅ → t.guards.maxEdgesFound = 0
  consecutive : ∀ r ∈ t.ranges, ∃ base, ∀ a ∈ r.guards, t.guards.guard a =
    guardIndex pointerMaps size base (a - r.start) % 2 ^ 32

theorem inv_new : Inv pointerMaps size new where
  outside _ _ := rfl
  bounded _ := Nat.two_pow_pos 32
  wraps _ h := h
  fits _ := Nat.zero_le _
  started _ h := absurd h (by simp [new, allGuards])
  fresh _ := rfl
  consecutive _ h := absurd h List.not_mem_nil

/-- What a step does: a range without guards is skipped, and so is one whose
first guard is not zero, which has been registered. Another one is numbered. -/
theorem step_cases (hinv : Inv pointerMaps size t) (hallowed : Allowed size t r)
    (hsize : size < 2 ^ 63) :
    step pointerMaps size t r = some ⟨t.guards, r :: t.ranges⟩ ∧
        allGuards (r :: t.ranges) = allGuards t.ranges ∧
        (r.start = r.stop ∨ t.guards.guard r.start ≠ 0) ∨
      r.start < r.stop ∧ t.guards.guard r.start = 0 ∧ 0 < size ∧
        ((pointerMaps = false → t.guards.maxEdgesFound + (r.stop - r.start) ≤ size) ∧
            step pointerMaps size t r = some ⟨⟨renumber pointerMaps size r.start
                (r.stop - r.start) t.guards.maxEdgesFound t.guards.guard,
              guardIndex pointerMaps size t.guards.maxEdgesFound (r.stop - r.start)⟩,
              r :: t.ranges⟩ ∨
          pointerMaps = false ∧ size < t.guards.maxEdgesFound + (r.stop - r.start) ∧
            step pointerMaps size t r = none) := by
  have hle := r.start_le_stop
  by_cases hskip : r.start = r.stop ∨ t.guards.guard r.start ≠ 0
  · refine Or.inl ⟨by rw [step, PcGuards.init, if_pos hskip, Option.map_some], ?_, hskip⟩
    rcases hskip with hempty | hguard
    · have hnone : r.guards = ∅ := Finset.Ico_eq_empty (by omega)
      rw [allGuards_cons, hnone, Finset.empty_union]
    · have hmem : r.start ∈ allGuards t.ranges :=
        by_contra fun h => hguard (hinv.outside _ h)
      rcases mem_or_disjoint hallowed.1 with hr | hdisjoint
      · exact allGuards_cons_of_mem hr
      · by_cases hlt : r.start < r.stop
        · exact absurd hmem
            (Finset.disjoint_left.mp hdisjoint (mem_guards.mpr ⟨Nat.le_refl _, hlt⟩))
        · have hnone : r.guards = ∅ := Finset.Ico_eq_empty hlt
          rw [allGuards_cons, hnone, Finset.empty_union]
  · rw [not_or, not_not] at hskip
    obtain ⟨hne, hguard⟩ := hskip
    have hlt : r.start < r.stop := Nat.lt_of_le_of_ne hle hne
    have hpos : 0 < size := by
      have hmem : r.start ∈ allGuards (r :: t.ranges) :=
        mem_allGuards.mpr ⟨r, List.mem_cons_self, mem_guards.mpr ⟨Nat.le_refl _, hlt⟩⟩
      exact Nat.lt_of_lt_of_le (Finset.card_pos.mpr ⟨_, hmem⟩) hallowed.2
    have hinit : t.guards.init pointerMaps size r =
        PcGuards.initLoop pointerMaps size (r.stop - r.start) r.start t.guards :=
      if_neg (not_or.mpr ⟨hne, not_not.mpr hguard⟩)
    refine Or.inr ⟨hlt, hguard, hpos, ?_⟩
    by_cases hfits : pointerMaps = false → t.guards.maxEdgesFound + (r.stop - r.start) ≤ size
    · refine Or.inl ⟨hfits, ?_⟩
      rw [step, hinit, PcGuards.initLoop_eq hsize (fun h => hinv.wraps h hpos) hfits,
        Option.map_some]
    · push Not at hfits
      obtain ⟨rfl, hlarge⟩ := hfits
      refine Or.inr ⟨rfl, hlarge, ?_⟩
      rw [step, hinit, PcGuards.initLoop_eq_none hsize (hinv.fits rfl) hlarge, Option.map_none]

theorem renumber_mem {n base : Nat} {guard : Nat → Nat} {a : Nat} (hn : n = r.stop - r.start)
    (h : a ∈ r.guards) : renumber pointerMaps size r.start n base guard a =
      guardIndex pointerMaps size base (a - r.start) % 2 ^ 32 := by
  subst hn
  exact if_pos (mem_guards_iff.mp h)

theorem renumber_notMem {n base : Nat} {guard : Nat → Nat} {a : Nat} (hn : n = r.stop - r.start)
    (h : a ∉ r.guards) : renumber pointerMaps size r.start n base guard a = guard a := by
  subst hn
  exact if_neg fun hmem => h (mem_guards_iff.mpr hmem)

theorem step_inv (hinv : Inv pointerMaps size t) (hallowed : Allowed size t r)
    (hsize : size < 2 ^ 63) (h : step pointerMaps size t r = some t') :
    Inv pointerMaps size t' := by
  rcases step_cases hinv hallowed hsize with
    ⟨hstep, hall, hskip⟩ | ⟨hlt, -, hpos, ⟨hfits, hstep⟩ | ⟨-, -, hstep⟩⟩
  · obtain rfl := Option.some.inj (hstep.symm.trans h)
    refine ⟨?_, hinv.bounded, hinv.wraps, hinv.fits, ?_, ?_, ?_⟩
    · rw [hall]
      exact hinv.outside
    · rw [hall]
      exact hinv.started
    · rw [hall]
      exact hinv.fresh
    · intro r' hr'
      rcases List.mem_cons.mp hr' with rfl | hr'
      · by_cases hmem : r' ∈ t.ranges
        · exact hinv.consecutive r' hmem
        · refine ⟨0, fun a ha => ?_⟩
          have hdisjoint := (mem_or_disjoint hallowed.1).resolve_left hmem
          have ha' : a ∈ allGuards t.ranges := hall ▸ guards_subset List.mem_cons_self ha
          exact absurd ha' (Finset.disjoint_left.mp hdisjoint ha)
      · exact hinv.consecutive r' hr'
  · obtain rfl := Option.some.inj (hstep.symm.trans h)
    have hstart : r.start ∈ r.guards := mem_guards.mpr ⟨Nat.le_refl _, hlt⟩
    refine ⟨fun a ha => ?_, fun a => ?_, fun hpointer _ => ?_, fun hplain => ?_, fun hplain _ => ?_,
      fun hnone => ?_, fun r' hr' => ?_⟩
    · rw [allGuards_cons, Finset.notMem_union] at ha
      exact (renumber_notMem rfl ha.1).trans (hinv.outside a ha.2)
    · by_cases ha : a ∈ r.guards
      · exact (renumber_mem rfl ha).trans_lt (Nat.mod_lt _ (by decide))
      · exact (renumber_notMem rfl ha).trans_lt (hinv.bounded a)
    · subst hpointer
      exact Nat.mod_lt _ hpos
    · subst hplain
      exact hfits rfl
    · subst hplain
      exact Nat.add_pos_right _ (Nat.sub_pos_of_lt hlt)
    · rw [allGuards_cons, Finset.union_eq_empty] at hnone
      rw [hnone.1] at hstart
      exact absurd hstart (Finset.notMem_empty _)
    · rcases List.mem_cons.mp hr' with rfl | hr'
      · exact ⟨_, fun a ha => renumber_mem rfl ha⟩
      · rcases hallowed.1 r' hr' with rfl | hdisjoint
        · exact ⟨_, fun a ha => renumber_mem rfl ha⟩
        · obtain ⟨base, hbase⟩ := hinv.consecutive r' hr'
          refine ⟨base, fun a ha => ?_⟩
          rw [← hbase a ha]
          exact renumber_notMem rfl fun ha' => Finset.disjoint_left.mp hdisjoint ha' ha
  · rw [hstep] at h
    cases h

/-! ## One more range -/

theorem card_le_of_numbered (hinv : Inv pointerMaps size t) (h : Numbered size t) :
    (allGuards t.ranges).card ≤ 2 ^ 32 := by
  have hcard := Finset.card_le_card_of_injOn t.guards.guard
    (fun a _ => Finset.mem_coe.mpr (Finset.mem_range.mpr (hinv.bounded a)))
    (s := allGuards t.ranges) (t := Finset.range (2 ^ 32)) fun a ha b hb => h.injective a ha b hb
  rwa [Finset.card_range] at hcard

theorem numbered_of_eq (h : Numbered size t) (hguards : t'.guards = t.guards)
    (hall : allGuards t'.ranges = allGuards t.ranges) : Numbered size t' := by
  obtain ⟨hinjective, hbelow, hcounted⟩ := h
  constructor <;> rw [hguards, hall] <;> assumption

/-- As long as the map is not full, the next number is that of the guards. -/
theorem maxEdgesFound_eq (hinv : Inv pointerMaps size t) (h : Numbered size t)
    (hlt : (allGuards t.ranges).card < size) :
    t.guards.maxEdgesFound = (allGuards t.ranges).card := by
  rcases Finset.eq_empty_or_nonempty (allGuards t.ranges) with hnone | hsome
  · rw [hinv.fresh hnone, hnone, Finset.card_empty]
  · have hcounted := h.counted hsome
    rw [PcGuards.edgesMaxNum] at hcounted
    split at hcounted
    · exact hcounted
    · omega

theorem edgesMaxNum_full (pointerMaps : Bool) {g : PcGuards} {total : Nat} (hpos : 0 < total)
    (hle : total ≤ size)
    (h : pointerMaps = false ∧ g.maxEdgesFound = total ∨
      pointerMaps = true ∧ g.maxEdgesFound = total % size) :
    g.edgesMaxNum size = total := by
  rw [PcGuards.edgesMaxNum]
  rcases h with ⟨-, hmax⟩ | ⟨-, hmax⟩
  · rw [if_pos (by omega), hmax]
  · rcases Nat.lt_or_eq_of_le hle with hlt | rfl
    · rw [Nat.mod_eq_of_lt hlt] at hmax
      rw [if_pos (by omega), hmax]
    · rw [Nat.mod_self] at hmax
      rw [if_neg (by omega)]

/-- A range that is new is told apart from the others as long as the numbers
fit into a guard. -/
theorem numbered_fresh_iff (hinv : Inv pointerMaps size t) (h : Numbered size t)
    (hallowed : Allowed size t r) (hdisjoint : Disjoint r.guards (allGuards t.ranges))
    (hlt : r.start < r.stop)
    (hinv' : Inv pointerMaps size ⟨⟨renumber pointerMaps size r.start
      (r.stop - r.start) t.guards.maxEdgesFound t.guards.guard,
      guardIndex pointerMaps size t.guards.maxEdgesFound (r.stop - r.start)⟩, r :: t.ranges⟩) :
    Numbered size ⟨⟨renumber pointerMaps size r.start
      (r.stop - r.start) t.guards.maxEdgesFound t.guards.guard,
      guardIndex pointerMaps size t.guards.maxEdgesFound (r.stop - r.start)⟩, r :: t.ranges⟩ ↔
    (allGuards (r :: t.ranges)).card ≤ 2 ^ 32 := by
  have hcard : (allGuards (r :: t.ranges)).card =
      (allGuards t.ranges).card + (r.stop - r.start) := by
    rw [allGuards_cons, Finset.card_union_of_disjoint hdisjoint, card_guards, Nat.add_comm]
  have htotal := hallowed.2
  have hmax := maxEdgesFound_eq hinv h (by omega)
  refine ⟨card_le_of_numbered hinv', fun hnumbers => ?_⟩
  have hedges : PcGuards.edgesMaxNum size ⟨renumber pointerMaps size r.start
      (r.stop - r.start) t.guards.maxEdgesFound t.guards.guard,
      guardIndex pointerMaps size t.guards.maxEdgesFound (r.stop - r.start)⟩ =
      (allGuards (r :: t.ranges)).card := by
    refine edgesMaxNum_full pointerMaps (by omega) htotal ?_
    dsimp only
    rw [hcard, hmax]
    cases pointerMaps with
    | true => exact Or.inr ⟨rfl, rfl⟩
    | false => exact Or.inl ⟨rfl, rfl⟩
  have hnew : ∀ a ∈ r.guards, renumber pointerMaps size r.start (r.stop - r.start)
      t.guards.maxEdgesFound t.guards.guard a = (allGuards t.ranges).card + (a - r.start) := by
    intro a ha
    have ha' := mem_guards.mp ha
    rw [renumber_mem rfl ha, hmax, guardIndex_lt (by omega), Nat.mod_eq_of_lt (by omega)]
  have hold : ∀ a ∈ allGuards t.ranges, renumber pointerMaps size r.start (r.stop - r.start)
      t.guards.maxEdgesFound t.guards.guard a = t.guards.guard a ∧
        t.guards.guard a < (allGuards t.ranges).card := by
    intro a ha
    refine ⟨renumber_notMem rfl fun ha' => Finset.disjoint_left.mp hdisjoint ha' ha, ?_⟩
    rw [← h.counted ⟨a, ha⟩]
    exact (h.below a ha).1
  constructor
  · intro a ha b hb heq
    rw [allGuards_cons, Finset.mem_union] at ha hb
    dsimp only at heq
    rcases ha with ha | ha <;> rcases hb with hb | hb
    · rw [hnew a ha, hnew b hb] at heq
      have ha' := mem_guards.mp ha
      have hb' := mem_guards.mp hb
      omega
    · rw [hnew a ha, (hold b hb).1] at heq
      have := (hold b hb).2
      omega
    · rw [(hold a ha).1, hnew b hb] at heq
      have := (hold a ha).2
      omega
    · rw [(hold a ha).1, (hold b hb).1] at heq
      exact h.injective a ha b hb heq
  · intro a ha
    rw [hedges]
    rw [allGuards_cons, Finset.mem_union] at ha
    dsimp only
    have hbelow : renumber pointerMaps size r.start (r.stop - r.start) t.guards.maxEdgesFound
        t.guards.guard a < (allGuards (r :: t.ranges)).card := by
      rcases ha with ha | ha
      · have ha' := mem_guards.mp ha
        rw [hnew a ha]
        omega
      · have := hold a ha
        omega
    exact ⟨hbelow, Nat.lt_of_lt_of_le hbelow htotal⟩
  · exact fun _ => hedges

/-- A range that is numbered again is left as it was if it is all of a map that
wraps, and otherwise the counter moves on. -/
theorem renumber_eq_iff (hinv : Inv pointerMaps size t) (h : Numbered size t)
    (hallowed : Allowed size t r) (hmem : r ∈ t.ranges) (hlt : r.start < r.stop)
    (hguard : t.guards.guard r.start = 0) (hpos : 0 < size) :
    (⟨renumber pointerMaps size r.start (r.stop - r.start) t.guards.maxEdgesFound t.guards.guard,
      guardIndex pointerMaps size t.guards.maxEdgesFound (r.stop - r.start)⟩ : PcGuards) =
        t.guards ↔ pointerMaps = true ∧ r.stop - r.start = size := by
  have hlen : r.stop - r.start ≤ (allGuards t.ranges).card := by
    rw [← card_guards]
    exact Finset.card_le_card (guards_subset hmem)
  have htotal := hallowed.2
  rw [allGuards_cons_of_mem hmem] at htotal
  constructor
  · intro heq
    have hmax : guardIndex pointerMaps size t.guards.maxEdgesFound (r.stop - r.start) =
        t.guards.maxEdgesFound := congrArg PcGuards.maxEdgesFound heq
    cases pointerMaps with
    | false =>
        rw [guardIndex, if_neg (by decide)] at hmax
        omega
    | true =>
        have hwraps := hinv.wraps rfl hpos
        rw [guardIndex, if_pos rfl] at hmax
        refine ⟨rfl, ?_⟩
        by_contra hne
        by_cases hfull : t.guards.maxEdgesFound + (r.stop - r.start) < size
        · rw [Nat.mod_eq_of_lt hfull] at hmax
          omega
        · rw [Nat.mod_eq_sub_mod (Nat.le_of_not_lt hfull), Nat.mod_eq_of_lt (by omega)] at hmax
          omega
  · rintro ⟨rfl, hall⟩
    have hstart : r.start ∈ r.guards := mem_guards.mpr ⟨Nat.le_refl _, hlt⟩
    have hsome : (allGuards t.ranges).Nonempty := ⟨_, guards_subset hmem hstart⟩
    have hnumbers := card_le_of_numbered hinv h
    have hcounted := h.counted hsome
    have hmax : t.guards.maxEdgesFound = 0 := by
      have hwraps := hinv.wraps rfl hpos
      rw [PcGuards.edgesMaxNum] at hcounted
      split at hcounted <;> omega
    -- the guards were numbered from zero on
    obtain ⟨base, hbase⟩ := hinv.consecutive r hmem
    have hzero : base % size = 0 := by
      have hfirst := hbase _ hstart
      rw [hguard, Nat.sub_self, guardIndex, if_pos rfl, Nat.add_zero] at hfirst
      have hmod := Nat.mod_lt base hpos
      rw [Nat.mod_eq_of_lt (show base % size < 2 ^ 32 by omega)] at hfirst
      exact hfirst.symm
    have hguards : renumber true size r.start (r.stop - r.start) t.guards.maxEdgesFound
        t.guards.guard = t.guards.guard := by
      funext a
      by_cases ha : a ∈ r.guards
      · rw [renumber_mem rfl ha, hbase a ha, hmax, guardIndex, guardIndex, if_pos rfl, if_pos rfl,
          Nat.zero_add, ← Nat.mod_add_mod base, hzero, Nat.zero_add]
      · exact renumber_notMem rfl ha
    have hcounter : guardIndex true size t.guards.maxEdgesFound (r.stop - r.start) =
        t.guards.maxEdgesFound := by
      rw [guardIndex, if_pos rfl, hmax, hall, Nat.zero_add, Nat.mod_self]
    rw [hguards, hcounter]

/-- **One more range** is numbered, or left as it was, if and only if it is
renewable. -/
theorem step_iff (hinv : Inv pointerMaps size t) (h : Numbered size t)
    (hallowed : Allowed size t r) (hsize : size < 2 ^ 63) :
    (∃ t', step pointerMaps size t r = some t' ∧ Numbered size t' ∧
      (r ∈ t.ranges → t'.guards = t.guards)) ↔ Renewable pointerMaps size t r := by
  have hnumbers := card_le_of_numbered hinv h
  rcases step_cases hinv hallowed hsize with
    ⟨hstep, hall, hskip⟩ | ⟨hlt, hguard, hpos, ⟨hfits, hstep⟩ | ⟨hplain, hlarge, hstep⟩⟩
  · refine iff_of_true ⟨_, hstep, numbered_of_eq h rfl hall, fun _ => rfl⟩ ⟨fun _ => ?_, ?_⟩
    · exact hskip.imp_right Or.inl
    · rw [hall]
      exact hnumbers
  · have hinv' := step_inv hinv hallowed hsize hstep
    simp only [hstep, Option.some.injEq, exists_eq_left']
    rcases mem_or_disjoint hallowed.1 with hmem | hdisjoint
    · have hall := allGuards_cons_of_mem hmem
      have hiff := renumber_eq_iff hinv h hallowed hmem hlt hguard hpos
      constructor
      · rintro ⟨-, hsame⟩
        exact ⟨fun _ => Or.inr (Or.inr (hiff.mp (hsame hmem))), hall ▸ hnumbers⟩
      · rintro ⟨hrenew, -⟩
        have hfull := (hrenew hmem).resolve_left (Nat.ne_of_lt hlt)
        have hsame := hiff.mpr (hfull.resolve_left fun hne => hne hguard)
        exact ⟨numbered_of_eq h hsame hall, fun _ => hsame⟩
    · have hnot : r ∉ t.ranges := by
        intro hmem
        have hstart : r.start ∈ r.guards := mem_guards.mpr ⟨Nat.le_refl _, hlt⟩
        exact Finset.disjoint_left.mp hdisjoint hstart (guards_subset hmem hstart)
      rw [numbered_fresh_iff hinv h hallowed hdisjoint hlt hinv']
      exact ⟨fun hle => ⟨fun hmem => absurd hmem hnot, hle.1⟩,
        fun hrenew => ⟨hrenew.2, fun hmem => absurd hmem hnot⟩⟩
  · refine iff_of_false ?_ ?_
    · rintro ⟨t', hsome, -⟩
      rw [hstep] at hsome
      cases hsome
    · rintro ⟨hrenew, -⟩
      subst hplain
      rcases mem_or_disjoint hallowed.1 with hmem | hdisjoint
      · rcases hrenew hmem with heq | hne | ⟨habs, -⟩
        · omega
        · exact hne hguard
        · cases habs
      · -- a new range fits the map
        have htotal := hallowed.2
        rw [allGuards_cons, Finset.card_union_of_disjoint hdisjoint, card_guards] at htotal
        have hmax := maxEdgesFound_eq hinv h (by omega)
        omega

/-! ## Runs -/

theorem ranges_step (h : step pointerMaps size t r = some t') : t'.ranges = r :: t.ranges := by
  obtain ⟨guards, -, rfl⟩ := Option.map_eq_some_iff.mp h
  rfl

theorem ranges_run {calls : List GuardRange} (h : run (step pointerMaps size) new calls = some t) :
    t.ranges = calls.reverse := by
  induction calls using List.reverseRecOn generalizing t with
  | nil =>
      obtain rfl := Option.some.inj h
      rfl
  | append_singleton calls r ih =>
      rw [run_concat] at h
      obtain ⟨u, hu, hstep⟩ := Option.bind_eq_some_iff.mp h
      rw [ranges_step hstep, ih hu, List.reverse_append]
      rfl

theorem allowed_of_apart {calls : List GuardRange} (hapart : calls.Pairwise Apart)
    (hfits : (allGuards calls).card ≤ size) :
    StepsMeet (step pointerMaps size) new calls (Allowed size) := by
  intro pre r hpre t ht
  have hranges := ranges_run ht
  have hpairs := hapart.sublist hpre.sublist
  rw [List.pairwise_append] at hpairs
  constructor
  · intro r' hr'
    rw [hranges, List.mem_reverse] at hr'
    rcases hpairs.2.2 r' hr' r (List.mem_singleton_self r) with rfl | hdisjoint
    · exact Or.inl rfl
    · exact Or.inr hdisjoint.symm
  · refine (Finset.card_le_card fun a ha => ?_).trans hfits
    obtain ⟨r', hr', ha'⟩ := mem_allGuards.mp ha
    refine mem_allGuards.mpr ⟨r', hpre.subset ?_, ha'⟩
    rw [hranges] at hr'
    simpa [or_comm] using hr'

theorem stable_concat {pre : List GuardRange}
    (hpre : run (step pointerMaps size) new pre = some t) :
    Stable pointerMaps size (pre ++ [r]) t' ↔ (r ∈ t.ranges → t'.guards = t.guards) := by
  constructor
  · exact fun h hmem => h pre r t rfl hmem hpre
  · intro h pre' r' u heq hmem hu
    obtain ⟨rfl, hr⟩ := List.append_inj' heq rfl
    obtain rfl : r = r' := by simpa using hr
    obtain rfl := Option.some.inj (hpre.symm.trans hu)
    exact h hmem

/-- Along a run of registrations of disjoint ranges that fit the map, the
guards are numbered injectively and counted, and no registration of a range
that is registered changes anything, if and only if all of them are renewable. -/
theorem numbered_iff (hsize : size < 2 ^ 63) (calls : List GuardRange)
    (hapart : calls.Pairwise Apart) (hfits : (allGuards calls).card ≤ size) :
    Survives (step pointerMaps size) new calls
        (fun pre t => Numbered size t ∧ Stable pointerMaps size pre t) ↔
      StepsMeet (step pointerMaps size) new calls (Renewable pointerMaps size) := by
  refine survives_iff_stepsMeet_of (allowed_of_apart hapart hfits) ?_ ?_
  · refine ⟨⟨?_, ?_, ?_⟩, ?_⟩
    · exact fun a ha => absurd ha (by simp [new, allGuards])
    · exact fun a ha => absurd ha (by simp [new, allGuards])
    · exact fun hsome => absurd hsome (by simp [new, allGuards])
    · intro pre r u heq
      exact absurd heq.symm (by simp)
  · rintro pre t r hpre ht ⟨hnumbered, -⟩ hallowed
    have hinv : Inv pointerMaps size t := hpre.invariant (Inv pointerMaps size) inv_new
      (fun _ _ _ _ hinv ha hstep => step_inv hinv ha hsize hstep) ht
    rw [← step_iff hinv hnumbered hallowed hsize]
    refine exists_congr fun t' => and_congr_right fun _ => and_congr_right fun _ => ?_
    exact stable_concat ht

/-- Two modules, the second of which is registered twice. -/
theorem numbered_two_modules :
    Survives (step false 4) new [⟨0, 2, by decide⟩, ⟨2, 4, by decide⟩, ⟨2, 4, by decide⟩]
      (fun pre t => Numbered 4 t ∧ Stable false 4 pre t) := by
  refine (numbered_iff (by decide) _ (by decide) (by decide)).mpr ?_
  rw [stepsMeet_cons]
  refine ⟨⟨fun h => absurd h List.not_mem_nil, by decide⟩, fun t ht => ?_⟩
  obtain rfl := Option.some.inj ht
  rw [stepsMeet_cons]
  refine ⟨⟨fun h => absurd h (by decide), by decide⟩, fun t ht => ?_⟩
  obtain rfl := Option.some.inj ht
  rw [stepsMeet_cons]
  refine ⟨⟨fun _ => Or.inr (Or.inl (by decide)), by decide⟩, fun _ _ => stepsMeet_nil⟩

/-- A module that is registered twice, and numbered twice. -/
theorem not_numbered_one_module :
    ¬Survives (step false 2) new [⟨0, 1, by decide⟩, ⟨0, 1, by decide⟩]
      (fun pre t => Numbered 2 t ∧ Stable false 2 pre t) := by
  intro h
  obtain ⟨t, ht, -, hstable⟩ := h _ (List.prefix_refl _)
  obtain ⟨u, hu, -⟩ := h [⟨0, 1, by decide⟩] (by simp)
  have hone : u.guards.maxEdgesFound = 1 := by
    obtain rfl := Option.some.inj hu
    rfl
  have htwo : t.guards.maxEdgesFound = 2 := by
    obtain rfl := Option.some.inj ht
    rfl
  have hmem : (⟨0, 1, by decide⟩ : GuardRange) ∈ u.ranges := by
    rw [ranges_run hu]
    exact List.mem_singleton_self _
  have hsame := hstable [⟨0, 1, by decide⟩] ⟨0, 1, by decide⟩ u rfl hmem hu
  rw [hsame, hone] at htwo
  cases htwo

end GuardRun

end Libaflmm
