import Mathlib.Algebra.GroupWithZero.Nat
import Mathlib.Algebra.Order.BigOperators.Group.List
import Mathlib.Algebra.Order.Group.Nat
import Mathlib.Data.List.Basic
import Mathlib.Tactic.Common

/-!
# Host segments of a guest buffer

A guest buffer is cut into ranges of physical memory, each of these into
ranges of host memory, and an input is written to these one after another.

Both iterators take from the address they translate to up to the next
multiple of the page size, and then whole pages as long as they translate to
the same address (`nextRange`). Addresses are natural numbers: the buffer ends
below the end of the address space.
-/

namespace Libaflmm

/-! ## Iterators -/

section

variable {σ β : Type}

/-- `Iterator::collect`, where every item makes `len` smaller; `none` where `next` panics. -/
def collect (next : σ → Option (Option β × σ)) (len : σ → Nat)
    (hlt : ∀ s b s', next s = some (some b, s') → len s' < len s) (s : σ) : Option (List β) :=
  match _h : next s with
  | none => none
  | some (none, _) => some []
  | some (some b, s') => (collect next len hlt s').map (b :: ·)
termination_by len s
decreasing_by exact hlt s b s' ‹_›

variable {next : σ → Option (Option β × σ)} {len : σ → Nat}
  {hlt : ∀ s b s', next s = some (some b, s') → len s' < len s} {s s' : σ} {b : β}

theorem collect_of_end (h : next s = some (none, s')) : collect next len hlt s = some [] := by
  rw [collect]
  split <;> simp_all

theorem collect_of_item (h : next s = some (some b, s')) :
    collect next len hlt s = (collect next len hlt s').map (b :: ·) := by
  rw [collect]
  split <;> simp_all

theorem collect_of_panic (h : next s = none) : collect next len hlt s = none := by
  rw [collect]
  split <;> simp_all

end

/-! ## Ranges -/

structure PageSize where
  size : Nat
  pos : 0 < size

/-- `next_multiple_of` -/
def nextMultipleOf (n m : Nat) : Nat := if n % m = 0 then n else n + (m - n % m)

/-- The `while` loop of both iterators: takes more pages as long as they
translate to `start`. -/
def widen (translate : Nat → Option Nat) (page : PageSize) (start addr remaining size : Nat) :
    Option (Nat × Nat × Nat) :=
  if remaining = 0 then some (size, addr, remaining)
  else match translate addr with
    | none => none
    | some next =>
        if next ≠ start then some (size, addr, remaining)
        else
          let size' := size + min remaining page.size
          -- `self.remaining_len -= size_taken` underflows
          if remaining < size' then none
          else widen translate page start (addr + size') (remaining - size') size'
termination_by remaining
decreasing_by
  have := page.pos
  omega

structure MemoryChunk where
  addr : Nat
  size : Nat
deriving DecidableEq

structure MemoryIter where
  addr : Nat
  remainingLen : Nat

/-- The range of an iterator at `addr`, and the iterator after it. -/
def nextRange (translate : Nat → Option Nat) (page : PageSize) (addr remaining : Nat) :
    Option (MemoryChunk × MemoryIter) := do
  let start ← translate addr
  let size := min (nextMultipleOf start page.size) remaining
  let (size, addr, remaining) ←
    widen translate page start (addr + size) (remaining - size) size
  return ({ addr := start, size }, { addr, remainingLen := remaining })

section

variable {translate : Nat → Option Nat} {page : PageSize} {start addr remaining size : Nat}

theorem widen_le {n addr' rest : Nat} (hsize : 0 < size)
    (h : widen translate page start addr remaining size = some (n, addr', rest)) :
    size ≤ n ∧ n + rest ≤ size + remaining ∧ (n + rest = size + remaining →
      n = size ∧ addr' = addr ∧ rest = remaining ∧
        (remaining ≠ 0 → translate addr ≠ some start)) := by
  induction remaining using Nat.strong_induction_on generalizing addr size with
  | _ remaining ih =>
  rw [widen] at h
  split at h
  · next hzero =>
      obtain ⟨rfl, rfl, rfl⟩ : size = n ∧ addr = addr' ∧ remaining = rest := by simpa using h
      exact ⟨le_rfl, le_rfl, fun _ => ⟨rfl, rfl, rfl, fun hne => absurd hzero hne⟩⟩
  · next hpos =>
      split at h
      · cases h
      · next next htranslate =>
          split at h
          · next hne =>
              obtain ⟨rfl, rfl, rfl⟩ : size = n ∧ addr = addr' ∧ remaining = rest := by
                simpa using h
              refine ⟨le_rfl, le_rfl, fun _ => ⟨rfl, rfl, rfl, fun _ heq => hne ?_⟩⟩
              exact Option.some.inj (htranslate.symm.trans heq)
          · -- a page that is taken as well counts twice against the length that remains
            dsimp only at h
            split at h
            · cases h
            · next hroom =>
                have hpage := page.pos
                obtain ⟨hsize', hle, -⟩ := ih _ (by omega) (by omega) h
                omega

theorem nextMultipleOf_pos {n m : Nat} (hn : 0 < n) : 0 < nextMultipleOf n m := by
  rw [nextMultipleOf]
  split <;> omega

/-- How many bytes an iterator takes at once, when it is right to. -/
def taken (start : Nat) (page : PageSize) (remaining : Nat) : Nat :=
  if start = 0 then min page.size remaining else min (nextMultipleOf start page.size) remaining

theorem taken_pos (hremaining : 0 < remaining) : 0 < taken start page remaining := by
  have := page.pos
  rw [taken]
  split
  · omega
  · have := nextMultipleOf_pos (m := page.size) (Nat.pos_of_ne_zero ‹_›)
    omega

theorem taken_le : taken start page remaining ≤ remaining := by
  rw [taken]
  split
  · exact Nat.min_le_right _ _
  · exact Nat.min_le_right _ _

/-- `nextRange` takes `taken` bytes and looks what follows. -/
theorem nextRange_eq (htranslate : translate addr = some start) (hremaining : 0 < remaining) :
    nextRange translate page addr remaining =
      (widen translate page start (addr + taken start page remaining)
        (remaining - taken start page remaining) (taken start page remaining)).map
          fun r => (⟨start, r.1⟩, ⟨r.2.1, r.2.2⟩) := by
  simp only [nextRange, htranslate, Option.bind_eq_bind, Option.bind_some, Option.pure_def]
  by_cases hstart : start = 0
  · -- at address zero nothing is taken at first, and then the page as one that follows
    subst hstart
    have hzero : min (nextMultipleOf 0 page.size) remaining = 0 := by simp [nextMultipleOf]
    have hle : ¬remaining < 0 + min remaining page.size := by omega
    rw [hzero, widen, if_neg (by omega), Nat.add_zero, htranslate]
    simp only [ne_eq, not_true_eq_false, if_false, Nat.sub_zero, if_neg hle]
    rw [taken, if_pos rfl, Nat.zero_add, Nat.min_comm, Option.map_eq_bind]
    rfl
  · rw [taken, if_neg hstart, Option.map_eq_bind]
    rfl

theorem nextRange_eq_some {r : MemoryChunk} {it : MemoryIter} (hremaining : 0 < remaining)
    (h : nextRange translate page addr remaining = some (r, it)) :
    translate addr = some r.addr ∧ it.remainingLen < remaining ∧
      r.size + it.remainingLen ≤ remaining ∧
      (r.size + it.remainingLen = remaining → r.size = taken r.addr page remaining ∧
        it.addr = addr + taken r.addr page remaining ∧
          (it.remainingLen ≠ 0 → translate it.addr ≠ some r.addr)) := by
  cases htranslate : translate addr with
  | none => simp [nextRange, htranslate] at h
  | some start =>
      rw [nextRange_eq htranslate hremaining] at h
      obtain ⟨⟨n, addr', rest⟩, hwiden, heq⟩ := Option.map_eq_some_iff.mp h
      obtain ⟨rfl, rfl⟩ := Prod.mk.inj heq
      obtain ⟨hsize, hle, hexact⟩ := widen_le (taken_pos hremaining) hwiden
      have hpos : 0 < taken start page remaining := taken_pos hremaining
      have htaken : taken start page remaining ≤ remaining := taken_le
      refine ⟨rfl, show rest < _ by omega, show n + rest ≤ _ by omega, fun heq => ?_⟩
      obtain ⟨rfl, rfl, rfl, hstop⟩ := hexact (show n + rest = _ by dsimp only at heq; omega)
      exact ⟨rfl, rfl, hstop⟩

/-- A range is followed by another that starts elsewhere, or by nothing. -/
theorem nextRange_of_taken (page : PageSize) (htranslate : translate addr = some start)
    (hremaining : 0 < remaining)
    (hnext : remaining - taken start page remaining ≠ 0 →
      ∃ next, translate (addr + taken start page remaining) = some next ∧ next ≠ start) :
    nextRange translate page addr remaining =
      some (⟨start, taken start page remaining⟩, ⟨addr + taken start page remaining,
        remaining - taken start page remaining⟩) := by
  rw [nextRange_eq htranslate hremaining, widen]
  split
  · rfl
  · next hmore =>
      obtain ⟨next, hnext, hne⟩ := hnext hmore
      rw [hnext]
      simp only [if_pos hne, Option.map_some]

end

namespace MemoryIter

def next (translate : Nat → Option Nat) (page : PageSize) (it : MemoryIter) :
    Option (Option MemoryChunk × MemoryIter) :=
  if it.remainingLen = 0 then some (none, it)
  else (nextRange translate page it.addr it.remainingLen).map fun (r, it) => (some r, it)

theorem next_lt {translate : Nat → Option Nat} {page : PageSize} (it : MemoryIter)
    (r : MemoryChunk) (it' : MemoryIter) (h : next translate page it = some (some r, it')) :
    it'.remainingLen < it.remainingLen := by
  rw [next] at h
  split at h
  · cases h
  · next hpos =>
      obtain ⟨⟨r', it''⟩, hrange, heq⟩ := Option.map_eq_some_iff.mp h
      obtain ⟨rfl, rfl⟩ : r' = r ∧ it'' = it' := by simpa using heq
      exact (nextRange_eq_some (by omega) hrange).2.1

/-- The ranges of an iterator. -/
def ranges (translate : Nat → Option Nat) (page : PageSize) (it : MemoryIter) :
    Option (List MemoryChunk) :=
  collect (next translate page) remainingLen next_lt it

end MemoryIter

/-! ## Pieces -/

/-- The bytes are made up of what the iterator takes at once, each of these
groups of them meets `P`, and none is followed by one that starts at the same
address. -/
inductive Pieces (translate : Nat → Option Nat) (page : PageSize) (P : Nat → List Nat → Prop) :
    Nat → List Nat → Prop
  | nil (addr : Nat) : Pieces translate page P addr []
  | cons {addr start : Nat} {bytes : List Nat} (hne : bytes ≠ [])
      (htranslate : translate addr = some start)
      (hpiece : P start (bytes.take (taken start page bytes.length)))
      (hnext : bytes.drop (taken start page bytes.length) ≠ [] →
        translate (addr + taken start page bytes.length) ≠ some start)
      (hrest : Pieces translate page P (addr + taken start page bytes.length)
        (bytes.drop (taken start page bytes.length))) :
      Pieces translate page P addr bytes

theorem Pieces.exists_translate {translate : Nat → Option Nat} {page : PageSize}
    {P : Nat → List Nat → Prop} {addr : Nat} {bytes : List Nat}
    (h : Pieces translate page P addr bytes) (hne : bytes ≠ []) :
    ∃ start, translate addr = some start := by
  cases h with
  | nil => exact absurd rfl hne
  | cons _ htranslate => exact ⟨_, htranslate⟩

/-- The bytes of ranges, where `emit` gives those of one range. -/
def bytesOf (emit : MemoryChunk → Option (List Nat)) (rs : List MemoryChunk) : Option (List Nat) :=
  (rs.mapM emit).map List.flatten

section

variable {translate : Nat → Option Nat} {page : PageSize} {emit : MemoryChunk → Option (List Nat)}

theorem bytesOf_nil : bytesOf emit [] = some [] := rfl

theorem bytesOf_cons {r : MemoryChunk} {rs : List MemoryChunk} {bytes : List Nat} :
    bytesOf emit (r :: rs) = some bytes ↔
      ∃ l l', emit r = some l ∧ bytesOf emit rs = some l' ∧ l ++ l' = bytes := by
  simp only [bytesOf, List.mapM_cons, Option.bind_eq_bind, Option.map_eq_some_iff,
    Option.bind_eq_some_iff, Option.pure_def, Option.some.injEq]
  constructor
  · rintro ⟨_, ⟨l, hl, ls, hls, rfl⟩, rfl⟩
    exact ⟨l, ls.flatten, hl, ⟨ls, hls, rfl⟩, rfl⟩
  · rintro ⟨l, _, hl, ⟨ls, hls, rfl⟩, rfl⟩
    exact ⟨l :: ls, ⟨l, hl, ls, hls, rfl⟩, rfl⟩

namespace MemoryIter

theorem ranges_zero (addr : Nat) : ranges translate page ⟨addr, 0⟩ = some [] :=
  collect_of_end (if_pos rfl)

theorem ranges_pos {it : MemoryIter} (hpos : 0 < it.remainingLen) :
    ranges translate page it = (nextRange translate page it.addr it.remainingLen).bind
      fun r => (ranges translate page r.2).map (r.1 :: ·) := by
  have hnext : next translate page it =
      (nextRange translate page it.addr it.remainingLen).map fun (r, it) => (some r, it) :=
    if_neg (by omega)
  cases hrange : nextRange translate page it.addr it.remainingLen with
  | none =>
      rw [hrange] at hnext
      exact collect_of_panic hnext
  | some r =>
      rw [hrange] at hnext
      exact collect_of_item hnext

end MemoryIter

section

variable (hemit : ∀ r l, emit r = some l → l.length ≤ r.size)

include hemit

/-- The ranges give no more bytes than there are. -/
theorem length_bytesOf_le {it : MemoryIter} {bytes : List Nat}
    (h : (MemoryIter.ranges translate page it).bind (bytesOf emit) = some bytes) :
    bytes.length ≤ it.remainingLen := by
  obtain ⟨addr, remaining⟩ := it
  induction remaining using Nat.strong_induction_on generalizing addr bytes with
  | _ remaining ih =>
  rcases Nat.eq_zero_or_pos remaining with rfl | hpos
  · rw [MemoryIter.ranges_zero] at h
    obtain rfl := Option.some.inj h
    exact le_rfl
  · rw [MemoryIter.ranges_pos hpos, Option.bind_assoc] at h
    obtain ⟨⟨r, it'⟩, hrange, h⟩ := Option.bind_eq_some_iff.mp h
    obtain ⟨rs, hrs, hbytes⟩ := Option.bind_eq_some_iff.mp h
    obtain ⟨rs', hrs', rfl⟩ := Option.map_eq_some_iff.mp hrs
    obtain ⟨l, l', hl, hl', rfl⟩ := bytesOf_cons.mp hbytes
    obtain ⟨-, hlt, hle, -⟩ := nextRange_eq_some hpos hrange
    have hrest : l'.length ≤ it'.remainingLen :=
      ih _ hlt it'.addr (by rw [hrs', Option.bind_some, hl'])
    have hfirst := hemit r l hl
    rw [List.length_append]
    show l.length + l'.length ≤ remaining
    omega

/-- **The ranges of an iterator** give the bytes exactly when these are made
up of the pieces it takes. -/
theorem bytesOf_ranges_iff (addr : Nat) (bytes : List Nat) :
    (MemoryIter.ranges translate page ⟨addr, bytes.length⟩).bind (bytesOf emit) = some bytes ↔
      Pieces translate page (fun start l => emit ⟨start, l.length⟩ = some l) addr bytes := by
  constructor
  · intro h
    induction hn : bytes.length using Nat.strong_induction_on generalizing addr bytes with
    | _ n ih =>
    subst hn
    rcases List.eq_nil_or_concat bytes with rfl | ⟨_, _, hconcat⟩
    · exact Pieces.nil addr
    have hpos : 0 < bytes.length := by simp [hconcat]
    rw [MemoryIter.ranges_pos hpos, Option.bind_assoc] at h
    obtain ⟨⟨r, it'⟩, hrange, h⟩ := Option.bind_eq_some_iff.mp h
    obtain ⟨rs, hrs, hbytes⟩ := Option.bind_eq_some_iff.mp h
    obtain ⟨rs', hrs', rfl⟩ := Option.map_eq_some_iff.mp hrs
    obtain ⟨l, l', hl, hl', heq⟩ := bytesOf_cons.mp hbytes
    obtain ⟨htranslate, hlt, hle, hexact⟩ := nextRange_eq_some hpos hrange
    have hrest : l'.length ≤ it'.remainingLen :=
      length_bytesOf_le hemit (by rw [hrs', Option.bind_some, hl'])
    have hfirst := hemit r l hl
    have hlength : l.length + l'.length = bytes.length := by rw [← heq, List.length_append]
    -- no byte is lost only where no range was widened
    obtain ⟨hsize, haddr, hstop⟩ := hexact (show _ = bytes.length by omega)
    have hk : taken r.addr page bytes.length = l.length := by omega
    have htake : bytes.take l.length = l := by rw [← heq, List.take_left]
    have hdrop : bytes.drop l.length = l' := by rw [← heq, List.drop_left]
    have hrest' : it'.remainingLen = l'.length := by omega
    have haddr' : addr + l.length = it'.addr := by rw [← hk, haddr]
    refine Pieces.cons (fun hnil => by simp [hnil] at hpos) htranslate ?_ ?_ ?_
    · rw [hk, htake]
      have hr : (⟨r.addr, l.length⟩ : MemoryChunk) = r := by rw [← hk, ← hsize]
      rw [hr, hl]
    · rw [hk, hdrop, haddr']
      intro hne
      exact hstop (by rw [hrest']; exact fun h => hne (List.length_eq_zero_iff.mp h))
    · rw [hk, hdrop, haddr']
      refine ih l'.length (by omega) it'.addr l' ?_ rfl
      rw [← hrest', hrs', Option.bind_some, hl']
  · intro h
    induction h with
    | nil addr =>
        rw [List.length_nil, MemoryIter.ranges_zero, Option.bind_some]
        exact bytesOf_nil
    | @cons addr start bytes hne htranslate hpiece hnext hrest ih =>
        have hpos : 0 < bytes.length := List.length_pos_iff.mpr hne
        have hrange := nextRange_of_taken page htranslate hpos ?_
        · rw [MemoryIter.ranges_pos hpos, hrange, Option.bind_some]
          rw [List.length_drop] at ih
          rw [List.length_take, Nat.min_eq_left taken_le] at hpiece
          obtain ⟨rs, hrs, hbytes⟩ := Option.bind_eq_some_iff.mp ih
          rw [hrs, Option.map_some, Option.bind_some]
          exact bytesOf_cons.mpr ⟨_, _, hpiece, hbytes, List.take_append_drop _ _⟩
        · intro hmore
          have hrest_ne : bytes.drop (taken start page bytes.length) ≠ [] := by
            intro hnil
            rw [List.drop_eq_nil_iff] at hnil
            omega
          obtain ⟨next, htranslate'⟩ := hrest.exists_translate hrest_ne
          exact ⟨next, htranslate', fun heq => hnext hrest_ne (heq ▸ htranslate')⟩

end

end

/-! ## Guest buffers -/

inductive GuestAddrKind
  | physical (addr : Nat)
  | virtual (addr : Nat)

/-- What the iterators ask of QEMU. -/
structure SystemQemu where
  targetPageSize : PageSize
  hostPageSize : PageSize
  /-- `cpu_get_phys_page_attrs_debug`: the physical page of a virtual one -/
  physPage : Nat → Option Nat
  /-- `libafl_paddr2host` -/
  paddr2host : Nat → Nat

structure QemuMemoryChunk where
  addr : GuestAddrKind
  size : Nat

abbrev PhysMemoryChunk := MemoryChunk

abbrev HostMemoryChunk := MemoryChunk

abbrev HostMemoryIter := MemoryIter

structure PhysMemoryIter where
  addr : GuestAddrKind
  remainingLen : Nat

namespace SystemQemu

variable (q : SystemQemu)

def getPhysAddr (vaddr : Nat) : Option Nat :=
  let offset := vaddr % q.targetPageSize.size
  (q.physPage (vaddr - offset)).map (· + offset)

end SystemQemu

namespace HostMemoryIter

def next (q : SystemQemu) : HostMemoryIter → Option (Option HostMemoryChunk × HostMemoryIter) :=
  MemoryIter.next (fun addr => some (q.paddr2host addr)) q.hostPageSize

end HostMemoryIter

namespace PhysMemoryIter

def next (q : SystemQemu) (it : PhysMemoryIter) :
    Option (Option PhysMemoryChunk × PhysMemoryIter) :=
  match it.addr with
  | .physical paddr =>
      if it.remainingLen = 0 then some (none, it)
      else some (some { addr := paddr, size := it.remainingLen }, { it with remainingLen := 0 })
  | .virtual vaddr =>
      -- a panic where `vaddr` has no physical address
      (MemoryIter.next q.getPhysAddr q.targetPageSize ⟨vaddr, it.remainingLen⟩).map
        fun (chunk, it) => (chunk, { addr := .virtual it.addr, remainingLen := it.remainingLen })

theorem next_lt {q : SystemQemu} (it : PhysMemoryIter) (chunk : PhysMemoryChunk)
    (it' : PhysMemoryIter) (h : next q it = some (some chunk, it')) :
    it'.remainingLen < it.remainingLen := by
  rw [next] at h
  split at h
  · split at h
    · cases h
    · next hpos =>
        obtain ⟨-, rfl⟩ := Prod.mk.inj (Option.some.inj h)
        exact Nat.pos_of_ne_zero hpos
  · obtain ⟨⟨c, it''⟩, hnext, heq⟩ := Option.map_eq_some_iff.mp h
    obtain ⟨rfl, rfl⟩ := Prod.mk.inj heq
    exact MemoryIter.next_lt _ chunk it'' hnext

end PhysMemoryIter

namespace QemuMemoryChunk

def physIter (chunk : QemuMemoryChunk) : PhysMemoryIter := ⟨chunk.addr, chunk.size⟩

def toHostSegments (q : SystemQemu) (chunk : QemuMemoryChunk) : Option (List HostMemoryChunk) := do
  let physMemChunks ← collect (PhysMemoryIter.next q) PhysMemoryIter.remainingLen
    PhysMemoryIter.next_lt chunk.physIter
  let segments ← physMemChunks.mapM fun phys =>
    collect (HostMemoryIter.next q) MemoryIter.remainingLen MemoryIter.next_lt
      ⟨phys.addr, phys.size⟩
  return segments.flatten

/-- The host address of a byte of the buffer. -/
def hostAddr (q : SystemQemu) (chunk : QemuMemoryChunk) (i : Nat) : Option Nat :=
  match chunk.addr with
  | .physical paddr => some (q.paddr2host (paddr + i))
  | .virtual vaddr => (q.getPhysAddr (vaddr + i)).map q.paddr2host

/-- The host addresses of the bytes of the buffer, when all of it is mapped. -/
def hostAddrs (q : SystemQemu) (chunk : QemuMemoryChunk) : Option (List Nat) :=
  (List.range chunk.size).mapM (chunk.hostAddr q)

end QemuMemoryChunk

/-! ## Writing an input -/

abbrev HostMemory := Nat → UInt8

namespace HostMemoryChunk

/-- The addresses of a segment. -/
def addrs (segment : HostMemoryChunk) : List Nat := List.range' segment.addr segment.size

def write (segment : HostMemoryChunk) (buf : List UInt8) (mem : HostMemory) : Nat × HostMemory :=
  let writeLen := min buf.length segment.size
  (writeLen, fun a =>
    if segment.addr ≤ a ∧ a < segment.addr + writeLen then buf.getD (a - segment.addr) 0
    else mem a)

end HostMemoryChunk

/-- `HostMemorySegments::write`, once `totalWritten` bytes are written. -/
def writeSegments (buf : List UInt8) :
    List HostMemoryChunk → Nat → HostMemory → Nat × HostMemory
  | [], totalWritten, mem => (totalWritten, mem)
  | segment :: segments, totalWritten, mem =>
      let (n, mem) := HostMemoryChunk.write segment (buf.drop totalWritten) mem
      let totalWritten := totalWritten + n
      if totalWritten = buf.length then (totalWritten, mem)
      else writeSegments buf segments totalWritten mem

/-- `InputLocation`, for an input without a return register. -/
structure InputLocation where
  location : List HostMemoryChunk

namespace InputLocation

def new (q : SystemQemu) (chunk : QemuMemoryChunk) : Option InputLocation :=
  (chunk.toHostSegments q).map fun location => { location }

def inputSize (self : InputLocation) (inputLen : Nat) : Nat :=
  let size := (self.location.map MemoryChunk.size).sum
  if inputLen ≤ size then inputLen else size

def write (self : InputLocation) (input : List UInt8) (mem : HostMemory) : Nat × HostMemory :=
  writeSegments input self.location 0 mem

end InputLocation

end Libaflmm
