import Libaflmm.HostSegments
import Mathlib.Logic.Function.Basic

/-!
# When the host segments are those of the guest buffer

An iterator takes up to the next multiple of the page size from the address
it translates to, not from its offset in the page, and a range is right when
all of it is contiguous. So a buffer is translated exactly when it is made up
of the pieces the two iterators take (`BufferPieces`).
-/

namespace Libaflmm

/-! ## Stores -/

/-- Stores bytes one after another, as long as there are addresses. -/
def storeAll : List Nat → List UInt8 → HostMemory → HostMemory
  | addr :: addrs, byte :: bytes, mem => storeAll addrs bytes (Function.update mem addr byte)
  | _, _, mem => mem

theorem storeAll_nil (addrs : List Nat) (mem : HostMemory) : storeAll addrs [] mem = mem := by
  cases addrs <;> rfl

theorem storeAll_append (addrs addrs' : List Nat) (bytes : List UInt8) (mem : HostMemory) :
    storeAll (addrs ++ addrs') bytes mem =
      storeAll addrs' (bytes.drop addrs.length) (storeAll addrs bytes mem) := by
  induction addrs generalizing bytes mem with
  | nil => cases bytes <;> rfl
  | cons addr addrs ih =>
      cases bytes with
      | nil => simp only [storeAll_nil, List.drop_nil]
      | cons byte bytes => exact ih bytes _

/-- What is not stored to is unchanged. -/
theorem storeAll_of_notMem {addrs : List Nat} {bytes : List UInt8} {mem : HostMemory} {a : Nat}
    (h : a ∉ addrs.take bytes.length) : storeAll addrs bytes mem a = mem a := by
  induction addrs generalizing bytes mem with
  | nil => rfl
  | cons addr addrs ih =>
      cases bytes with
      | nil => rfl
      | cons byte bytes =>
          rw [List.length_cons, List.take_succ_cons, List.mem_cons, not_or] at h
          rw [storeAll, ih h.2, Function.update_of_ne h.1]

theorem storeAll_getElem {addrs : List Nat} {bytes : List UInt8} {mem : HostMemory} {i a : Nat}
    {byte : UInt8} (hnodup : addrs.Nodup) (haddr : addrs[i]? = some a)
    (hbyte : bytes[i]? = some byte) : storeAll addrs bytes mem a = byte := by
  induction addrs generalizing bytes mem i with
  | nil => simp at haddr
  | cons addr addrs ih =>
      obtain ⟨hnot, hnodup⟩ := List.nodup_cons.mp hnodup
      cases bytes with
      | nil => simp at hbyte
      | cons byte' bytes =>
          cases i with
          | zero =>
              obtain rfl : addr = a := by simpa using haddr
              obtain rfl : byte' = byte := by simpa using hbyte
              rw [storeAll, storeAll_of_notMem fun h => hnot (List.mem_of_mem_take h),
                Function.update_self]
          | succ i =>
              rw [List.getElem?_cons_succ] at haddr hbyte
              exact ih hnodup haddr hbyte

theorem storeAll_range' (start size : Nat) (bytes : List UInt8) (mem : HostMemory) (a : Nat) :
    storeAll (List.range' start size) bytes mem a =
      if start ≤ a ∧ a < start + min bytes.length size then bytes.getD (a - start) 0
      else mem a := by
  induction size generalizing start bytes mem with
  | zero => rw [if_neg (by omega)]; rfl
  | succ size ih =>
      cases bytes with
      | nil =>
          rw [storeAll_nil, if_neg (by rw [List.length_nil]; omega)]
      | cons byte bytes =>
          rw [List.range'_succ, storeAll, ih]
          by_cases hfirst : a = start
          · subst hfirst
            rw [if_neg (by omega), Function.update_self, if_pos (by rw [List.length_cons]; omega),
              Nat.sub_self]
            rfl
          · rw [Function.update_of_ne hfirst]
            have hcond : (start + 1 ≤ a ∧ a < start + 1 + min bytes.length size) ↔
                (start ≤ a ∧ a < start + min (byte :: bytes).length (size + 1)) := by
              rw [List.length_cons]
              omega
            by_cases hin : start + 1 ≤ a ∧ a < start + 1 + min bytes.length size
            · rw [if_pos hin, if_pos (hcond.mp hin),
                show a - start = (a - (start + 1)) + 1 by omega]
              rfl
            · rw [if_neg hin, if_neg (fun h => hin (hcond.mpr h))]

theorem write_eq (segment : HostMemoryChunk) (buf : List UInt8) (mem : HostMemory) :
    HostMemoryChunk.write segment buf mem =
      (min buf.length segment.size, storeAll (HostMemoryChunk.addrs segment) buf mem) := by
  rw [HostMemoryChunk.write, HostMemoryChunk.addrs]
  congr 1
  funext a
  exact (storeAll_range' segment.addr segment.size buf mem a).symm

/-- **Writing to segments** stores to their addresses one after another. -/
theorem writeSegments_eq (buf : List UInt8) (segments : List HostMemoryChunk) (total : Nat)
    (mem : HostMemory) (htotal : total ≤ buf.length) :
    writeSegments buf segments total mem =
      (min buf.length (total + (segments.map MemoryChunk.size).sum),
        storeAll (segments.flatMap HostMemoryChunk.addrs) (buf.drop total) mem) := by
  induction segments generalizing total mem with
  | nil =>
      rw [writeSegments, List.map_nil, List.sum_nil, Nat.add_zero, Nat.min_eq_right htotal]
      rfl
  | cons segment segments ih =>
      have hlength : (HostMemoryChunk.addrs segment).length = segment.size := List.length_range' ..
      rw [writeSegments, write_eq, List.flatMap_cons, storeAll_append, hlength, List.map_cons,
        List.sum_cons, List.drop_drop, List.length_drop]
      dsimp only
      split
      · next hfull =>
          rw [List.drop_eq_nil_of_le (show buf.length ≤ total + segment.size by omega),
            storeAll_nil]
          congr 1
          omega
      · next hmore =>
          have hn : min (buf.length - total) segment.size = segment.size := by omega
          rw [hn, ih _ _ (by omega), Nat.add_assoc]

/-! ## The segments -/

theorem Pieces.congr {translate : Nat → Option Nat} {page : PageSize} {P P' : Nat → List Nat → Prop}
    (h : ∀ start l, P start l ↔ P' start l) {addr : Nat} {bytes : List Nat} :
    Pieces translate page P addr bytes ↔ Pieces translate page P' addr bytes := by
  obtain rfl : P = P' := funext fun start => funext fun l => propext (h start l)
  rfl

/-- The bytes are made up of what the iterator over host memory takes, each
piece contiguous in host memory. -/
def HostPieces (q : SystemQemu) : Nat → List Nat → Prop :=
  Pieces (fun addr => some (q.paddr2host addr)) q.hostPageSize
    fun start l => l = List.range' start l.length

/-- The bytes are made up of what the two iterators take. -/
def BufferPieces (q : SystemQemu) : GuestAddrKind → List Nat → Prop
  | .physical paddr => HostPieces q paddr
  | .virtual vaddr => Pieces q.getPhysAddr q.targetPageSize (HostPieces q) vaddr

section

variable (q : SystemQemu)

def hostRanges (phys : PhysMemoryChunk) : Option (List HostMemoryChunk) :=
  MemoryIter.ranges (fun addr => some (q.paddr2host addr)) q.hostPageSize ⟨phys.addr, phys.size⟩

/-- The host addresses of a range of physical memory, as the iterator gives them. -/
def hostBytes (phys : PhysMemoryChunk) : Option (List Nat) :=
  (hostRanges q phys).map fun rs => rs.flatMap HostMemoryChunk.addrs

theorem bytesOf_some (rs : List MemoryChunk) :
    bytesOf (fun r => some (HostMemoryChunk.addrs r)) rs =
      some (rs.flatMap HostMemoryChunk.addrs) := by
  induction rs with
  | nil => rfl
  | cons r rs ih => exact bytesOf_cons.mpr ⟨_, _, rfl, ih, rfl⟩

theorem hostBytes_eq_bind (phys : PhysMemoryChunk) :
    hostBytes q phys =
      (hostRanges q phys).bind (bytesOf fun r => some (HostMemoryChunk.addrs r)) := by
  rw [hostBytes, Option.map_eq_bind]
  exact congrArg _ (funext fun rs => (bytesOf_some rs).symm)

theorem length_hostBytes_le {phys : PhysMemoryChunk} {l : List Nat}
    (h : hostBytes q phys = some l) : l.length ≤ phys.size := by
  rw [hostBytes_eq_bind] at h
  refine length_bytesOf_le (fun r l' hl' => ?_) h
  obtain rfl := Option.some.inj hl'
  exact (List.length_range' ..).le

theorem hostBytes_iff (paddr : Nat) (bytes : List Nat) :
    hostBytes q ⟨paddr, bytes.length⟩ = some bytes ↔ HostPieces q paddr bytes := by
  rw [hostBytes_eq_bind, hostRanges, bytesOf_ranges_iff, HostPieces]
  · refine Pieces.congr fun start l => ?_
    rw [Option.some_inj]
    exact eq_comm
  · intro r l hl
    obtain rfl := Option.some.inj hl
    exact (List.length_range' ..).le

/-- The ranges of physical memory of a virtual buffer. -/
theorem collect_virtual (vaddr remaining : Nat) :
    collect (PhysMemoryIter.next q) PhysMemoryIter.remainingLen PhysMemoryIter.next_lt
        ⟨.virtual vaddr, remaining⟩ =
      MemoryIter.ranges q.getPhysAddr q.targetPageSize ⟨vaddr, remaining⟩ := by
  induction remaining using Nat.strong_induction_on generalizing vaddr with
  | _ remaining ih =>
  have hnext : PhysMemoryIter.next q ⟨.virtual vaddr, remaining⟩ =
      (MemoryIter.next q.getPhysAddr q.targetPageSize ⟨vaddr, remaining⟩).map
        fun r => (r.1, ⟨.virtual r.2.addr, r.2.remainingLen⟩) := rfl
  rw [MemoryIter.ranges]
  cases hstep : MemoryIter.next q.getPhysAddr q.targetPageSize ⟨vaddr, remaining⟩ with
  | none =>
      rw [hstep] at hnext
      rw [collect_of_panic hnext, collect_of_panic hstep]
  | some r =>
      rw [hstep] at hnext
      rcases r with ⟨_ | chunk, it⟩
      · rw [collect_of_end hnext, collect_of_end hstep]
      · rw [collect_of_item hnext, collect_of_item hstep]
        exact congrArg _ (ih _ (MemoryIter.next_lt _ _ _ hstep) it.addr)

theorem collect_physical (paddr remaining : Nat) :
    collect (PhysMemoryIter.next q) PhysMemoryIter.remainingLen PhysMemoryIter.next_lt
        ⟨.physical paddr, remaining⟩ =
      some (if remaining = 0 then [] else [⟨paddr, remaining⟩]) := by
  have hnext : PhysMemoryIter.next q ⟨.physical paddr, remaining⟩ =
      if remaining = 0 then some (none, ⟨.physical paddr, remaining⟩)
      else some (some ⟨paddr, remaining⟩, ⟨.physical paddr, 0⟩) := rfl
  by_cases hzero : remaining = 0
  · rw [if_pos hzero] at hnext ⊢
    exact collect_of_end hnext
  · rw [if_neg hzero] at hnext ⊢
    have hend : PhysMemoryIter.next q ⟨.physical paddr, 0⟩ =
        some (none, ⟨.physical paddr, 0⟩) := rfl
    rw [collect_of_item hnext, collect_of_end hend]
    rfl

theorem bytesOf_hostBytes (chunks : List PhysMemoryChunk) :
    bytesOf (hostBytes q) chunks =
      (chunks.mapM (hostRanges q)).map fun rss => rss.flatten.flatMap HostMemoryChunk.addrs := by
  induction chunks with
  | nil => rfl
  | cons chunk chunks ih =>
      simp only [bytesOf, List.mapM_cons, hostBytes] at ih ⊢
      cases hchunk : hostRanges q chunk with
      | none => rfl
      | some rs =>
          cases hchunks : chunks.mapM (hostRanges q) with
          | none =>
              rw [hchunks, Option.map_none, Option.map_eq_none_iff] at ih
              simp only [Option.map_some, Option.bind_eq_bind, Option.bind_some, ih,
                Option.bind_none, Option.map_none]
          | some rss =>
              rw [hchunks, Option.map_some] at ih
              obtain ⟨ls, hls, heq⟩ := Option.map_eq_some_iff.mp ih
              simp only [Option.map_some, Option.bind_eq_bind, Option.bind_some, hls,
                Option.pure_def, List.flatten_cons, heq, List.flatMap_append]

/-- **The segments** give the bytes of the buffer exactly when these are made
up of the pieces of the two iterators. -/
theorem toHostSegments_iff (chunk : QemuMemoryChunk) {addrs : List Nat}
    (hlength : addrs.length = chunk.size) :
    (chunk.toHostSegments q).map (fun segments => segments.flatMap HostMemoryChunk.addrs) =
        some addrs ↔
      BufferPieces q chunk.addr addrs := by
  have hsegments :
      (chunk.toHostSegments q).map (fun segments => segments.flatMap HostMemoryChunk.addrs) =
        (collect (PhysMemoryIter.next q) PhysMemoryIter.remainingLen PhysMemoryIter.next_lt
          chunk.physIter).bind (bytesOf (hostBytes q)) := by
    show Option.map _ (Option.bind _ fun chunks : List PhysMemoryChunk =>
      Option.bind (chunks.mapM (hostRanges q)) fun segments => some segments.flatten) = _
    rw [Option.map_bind]
    refine congrArg _ (funext fun chunks => ?_)
    rw [Function.comp_apply, bytesOf_hostBytes, Option.map_bind, Option.map_eq_bind]
    rfl
  rw [hsegments]
  obtain ⟨addr, size⟩ := chunk
  obtain rfl : addrs.length = size := hlength
  cases addr with
  | physical paddr =>
      rw [QemuMemoryChunk.physIter, collect_physical, Option.bind_some]
      split
      · next hzero =>
          rw [List.length_eq_zero_iff] at hzero
          subst hzero
          exact iff_of_true rfl (Pieces.nil _)
      · have hone : bytesOf (hostBytes q) [⟨paddr, addrs.length⟩] =
            hostBytes q ⟨paddr, addrs.length⟩ := by
          cases h : hostBytes q ⟨paddr, addrs.length⟩ with
          | none => simp [bytesOf, h]
          | some l => exact bytesOf_cons.mpr ⟨l, [], h, rfl, List.append_nil l⟩
        rw [hone]
        exact hostBytes_iff q paddr addrs
  | virtual vaddr =>
      rw [QemuMemoryChunk.physIter, collect_virtual,
        bytesOf_ranges_iff fun _ _ h => length_hostBytes_le q h]
      exact Pieces.congr fun start l => hostBytes_iff q start l

end

/-- Where all of the host memory is contiguous, and above its length, one
range is taken. -/
theorem hostPieces_of_contiguous {q : SystemQemu} {paddr : Nat} {bytes : List Nat}
    (hcontiguous : bytes = List.range' (q.paddr2host paddr) bytes.length)
    (hhigh : bytes.length ≤ q.paddr2host paddr) : HostPieces q paddr bytes := by
  rcases Nat.eq_zero_or_pos bytes.length with hzero | hpos
  · rw [List.length_eq_zero_iff.mp hzero]
    exact Pieces.nil _
  · have htaken : taken (q.paddr2host paddr) q.hostPageSize bytes.length = bytes.length := by
      rw [taken, if_neg (by omega), nextMultipleOf]
      split <;> omega
    have hdrop : bytes.drop (taken (q.paddr2host paddr) q.hostPageSize bytes.length) = [] := by
      rw [htaken, List.drop_length]
    refine Pieces.cons (List.length_pos_iff.mp hpos) rfl ?_ (fun h => absurd hdrop h) ?_
    · rw [htaken, List.take_length]
      exact hcontiguous
    · rw [hdrop]
      exact Pieces.nil _

/-! ## Exact translation -/

/-- **The translation of a buffer is exact**, where `addrs` are the host
addresses of its bytes: the segments are these addresses in order, and an input
is written to the first of them. -/
structure Translates (q : SystemQemu) (chunk : QemuMemoryChunk) (addrs : List Nat)
    (location : InputLocation) : Prop where
  new : InputLocation.new q chunk = some location
  covers : location.location.flatMap HostMemoryChunk.addrs = addrs
  size : (location.location.map MemoryChunk.size).sum = chunk.size
  inputSize : ∀ input : List UInt8, location.inputSize input.length = min input.length chunk.size
  count : ∀ input mem, (location.write input mem).1 = min input.length chunk.size
  unchanged : ∀ input mem, ∀ a, a ∉ addrs.take input.length →
    (location.write input mem).2 a = mem a
  written : ∀ (input : List UInt8) mem, addrs.Nodup → ∀ (i a : Nat) byte, addrs[i]? = some a →
    input[i]? = some byte → (location.write input mem).2 a = byte

theorem translates_of_covers {q : SystemQemu} {chunk : QemuMemoryChunk} {addrs : List Nat}
    {location : InputLocation} (hlength : addrs.length = chunk.size)
    (hnew : InputLocation.new q chunk = some location)
    (hcovers : location.location.flatMap HostMemoryChunk.addrs = addrs) :
    Translates q chunk addrs location := by
  have hsize : (location.location.map MemoryChunk.size).sum = chunk.size := by
    rw [← hlength, ← hcovers, List.length_flatMap]
    refine congrArg List.sum (List.map_congr_left fun r _ => ?_)
    exact (List.length_range' ..).symm
  have hwrite : ∀ input mem, location.write input mem =
      (min input.length chunk.size, storeAll addrs input mem) := by
    intro input mem
    rw [InputLocation.write, writeSegments_eq _ _ _ _ (Nat.zero_le _), Nat.zero_add, hsize, hcovers,
      List.drop_zero]
  constructor
  · exact hnew
  · exact hcovers
  · exact hsize
  · intro input
    rw [InputLocation.inputSize, hsize]
    split <;> omega
  · intro input mem
    rw [hwrite]
  · intro input mem a ha
    rw [hwrite]
    exact storeAll_of_notMem ha
  · intro input mem hnodup i a byte haddr hbyte
    rw [hwrite]
    exact storeAll_getElem hnodup haddr hbyte

theorem length_of_mapM {α β : Type} {f : α → Option β} {as : List α} {bs : List β}
    (h : as.mapM f = some bs) : bs.length = as.length := by
  induction as generalizing bs with
  | nil =>
      obtain rfl := Option.some.inj h
      rfl
  | cons a as ih =>
      simp only [List.mapM_cons, Option.bind_eq_bind, Option.bind_eq_some_iff, Option.pure_def,
        Option.some.injEq] at h
      obtain ⟨b, -, bs', hbs, rfl⟩ := h
      rw [List.length_cons, List.length_cons, ih hbs]

/-- **Guest buffers are translated exactly** when they are made up of the
pieces the iterators take. -/
theorem translates_iff {q : SystemQemu} {chunk : QemuMemoryChunk} {addrs : List Nat}
    (hmapped : chunk.hostAddrs q = some addrs) :
    (∃ location, Translates q chunk addrs location) ↔ BufferPieces q chunk.addr addrs := by
  have hlength : addrs.length = chunk.size := by
    rw [length_of_mapM hmapped, List.length_range]
  rw [← toHostSegments_iff q _ hlength]
  constructor
  · rintro ⟨location, hexact⟩
    obtain ⟨segments, hsegments, rfl⟩ := Option.map_eq_some_iff.mp hexact.new
    rw [hsegments, Option.map_some, ← hexact.covers]
  · intro h
    obtain ⟨segments, hsegments, hcovers⟩ := Option.map_eq_some_iff.mp h
    exact ⟨⟨segments⟩,
      translates_of_covers hlength (by rw [InputLocation.new, hsegments]; rfl) hcovers⟩

/-- Pages of 4 KiB, of which those of the guest are 8 KiB apart in the host. -/
def fragmentedQemu : SystemQemu where
  targetPageSize := ⟨4096, by decide⟩
  hostPageSize := ⟨4096, by decide⟩
  physPage page := some page
  paddr2host paddr := 0x7f0000000000 + paddr / 4096 * 8192 + paddr % 4096

theorem translates_in_page : ∃ location,
    Translates fragmentedQemu ⟨.physical 0x1ff0, 3⟩
      [0x7f0000002ff0, 0x7f0000002ff1, 0x7f0000002ff2] location :=
  (translates_iff (by decide +kernel)).mpr (hostPieces_of_contiguous (by decide +kernel)
    (by decide +kernel))

/-- A buffer over a page border, whose pages are not contiguous in the host,
is taken for one that is. -/
theorem not_translates :
    (∀ page offset, offset < 4096 → fragmentedQemu.paddr2host (4096 * page + offset) =
      fragmentedQemu.paddr2host (4096 * page) + offset) ∧
    ∃ addrs, QemuMemoryChunk.hostAddrs fragmentedQemu ⟨.physical 0x1ffe, 4⟩ = some addrs ∧
      ¬∃ location, Translates fragmentedQemu ⟨.physical 0x1ffe, 4⟩ addrs location := by
  refine ⟨fun page offset h => ?_, [0x7f0000002ffe, 0x7f0000002fff, 0x7f0000004000, 0x7f0000004001],
    by decide +kernel, ?_⟩
  · simp only [fragmentedQemu]
    omega
  · rintro ⟨location, hexact⟩
    obtain ⟨segments, hsegments, rfl⟩ := Option.map_eq_some_iff.mp hexact.new
    have hpieces := (toHostSegments_iff fragmentedQemu ⟨.physical 0x1ffe, 4⟩ rfl).mp
      ((congrArg (Option.map _) hsegments).trans (congrArg some hexact.covers))
    cases hpieces with
    | cons _ htranslate hpiece =>
        obtain rfl := Option.some.inj htranslate
        revert hpiece
        decide +kernel

end Libaflmm
