import Libaflmm.QasanMallocSound

/-!
# Runs of libqasan's allocator

A program that frees and writes only what it has allocated can call the allocator for as
long as it likes: no call crashes, and nothing is reported. Nothing ever leaves the
quarantine, as the number of its bytes is never counted up: what is freed stays poisoned
to the end of the run, unless it was too large for the quarantine or the quarantine was
locked.
-/

namespace Libaflmm

namespace Qasan

namespace HeapRun

variable {guestBase : Nat} {r : HeapRun} {b : Block} {t : Libqasan} (hbase : 8 ∣ guestBase)

include hbase

omit hbase in
theorem Sound.data_ne_zero (h : r.Sound guestBase) (hb : b ∈ r.live) : b.data ≠ 0 := by
  have hheader := (h.wellFormed b (List.mem_append_left _ hb)).header
  unfold sizeofChunkBegin at hheader
  omega

omit hbase in
theorem released_heap (r : HeapRun) (s t : Libqasan) (ptr : Nat) (contended : Bool) :
    ({ r with heap := s } : HeapRun).released t ptr contended = r.released t ptr contended := by
  unfold released
  cases r.live.find? fun b => b.data = ptr with
  | none => rfl
  | some b => rfl

omit hbase in
theorem allocated_zero (r : HeapRun) (f : Nat → Block) : r.allocated (0, r.heap) f = r := by
  unfold allocated
  rw [if_pos rfl]

omit hbase in
theorem allocated_pos (r : HeapRun) {data : Nat} (h : data ≠ 0) (t : Libqasan) (f : Nat → Block) :
    r.allocated (data, t) f = { r with heap := t, live := f data :: r.live } := by
  unfold allocated
  rw [if_neg h]

theorem Sound.malloc (h : r.Sound guestBase) {size : Nat} {backend : Backend}
    (hmay : r.MayAllocate size backend) :
    (r.allocated (r.heap.malloc guestBase size backend) (plain size fun _ => 0xff)).Sound
      guestBase := by
  rcases malloc_cases hbase hmay with ⟨-, heq⟩ | ⟨orig, t, heq, hfresh, hadds⟩
  · rw [heq, allocated_zero]
    exact h
  · have hne : orig + sizeofChunkBegin ≠ 0 := Nat.succ_ne_zero _
    rw [heq, allocated_pos r hne]
    exact h.add (plain_wellFormed hmay.bound hfresh _) (plain_apart hfresh _) hadds

theorem Sound.calloc (h : r.Sound guestBase) {nmemb size : Nat} {backend : Backend}
    (hmay : r.MayAllocate (size * nmemb % 2 ^ 64) backend) :
    (r.allocated (r.heap.calloc guestBase nmemb size backend)
      (plain (size * nmemb % 2 ^ 64) fun _ => 0)).Sound guestBase := by
  unfold Libqasan.calloc
  rcases malloc_cases hbase hmay with ⟨-, heq⟩ | ⟨orig, t, heq, hfresh, hadds⟩
  · simp only [heq, if_true, allocated_zero]
    exact h
  · have hne : orig + sizeofChunkBegin ≠ 0 := Nat.succ_ne_zero _
    simp only [heq, if_neg hne, allocated_pos r hne]
    exact h.add (plain_wellFormed hmay.bound hfresh _) (plain_apart hfresh _) (hadds.memset 0)

omit hbase in
/-- A block that was made larger or smaller has what the old one had. -/
theorem Adds.memcpy {size orig : Nat} (h : r.Sound guestBase) (hb : b ∈ r.live)
    (hfresh : r.Fresh orig (chunkBytes size)) (hsize : size + 311 < 2 ^ 64)
    (hadds : Adds guestBase r.heap (plain size (fun _ => 0xff) (orig + sizeofChunkBegin)) t) :
    Adds guestBase r.heap (plain size (r.moved b.data) (orig + sizeofChunkBegin))
      (t.memcpy (orig + sizeofChunkBegin) b.data (if size < b.size then size else b.size)) := by
  obtain ⟨-, -, -, hfind, -⟩ := h.split hb
  have hapart := plain_apart hfresh (fun _ => 0xff) b (List.mem_append_left _ hb)
  have hnew := (plain_wellFormed hsize hfresh fun _ => 0xff).inside
  have hold := (h.wellFormed b (List.mem_append_left _ hb)).inside
  have hdata : (plain size (fun _ => 0xff) (orig + sizeofChunkBegin)).data =
      orig + sizeofChunkBegin := rfl
  have hlen : (plain size (fun _ => 0xff) (orig + sizeofChunkBegin)).size = size := rfl
  unfold Block.Apart at hapart
  refine hadds.fill (fun i hi => ?_) fun x hx => if_neg fun hin => hx ⟨hin.1, ?_⟩
  · rw [hlen] at hi
    unfold moved
    rw [hfind, hdata]
    by_cases hib : i < b.size
    · have hcond : orig + sizeofChunkBegin ≤ orig + sizeofChunkBegin + i ∧
          orig + sizeofChunkBegin + i <
            orig + sizeofChunkBegin + (if size < b.size then size else b.size) := by
        split_ifs <;> omega
      rw [if_pos hcond, Nat.add_sub_cancel_left, hadds.bytes _ (by omega)]
      exact (h.contents b hb i hib).trans (if_pos hib).symm
    · have hcond : ¬(orig + sizeofChunkBegin ≤ orig + sizeofChunkBegin + i ∧
          orig + sizeofChunkBegin + i <
            orig + sizeofChunkBegin + (if size < b.size then size else b.size)) := by
        split_ifs <;> omega
      rw [if_neg hcond, ← hdata, hadds.contents i hi]
      exact (if_neg hib).symm
  · have hhi := hin.2
    rw [hdata, hlen]
    split_ifs at hhi <;> omega

theorem Sound.realloc (h : r.Sound guestBase) {ptr size : Nat} {backend : Backend}
    (hmay : r.MayAllocate size backend) (hptr : r.Frees ptr) (fuel : Nat) (contended : Bool) :
    ∃ r', step guestBase fuel r (.realloc ptr size backend contended) = some r' ∧
      r'.Sound guestBase := by
  simp only [step, Libqasan.realloc]
  rcases malloc_cases hbase hmay with ⟨-, heq⟩ | ⟨orig, t, heq, hfresh, hadds⟩
  · rw [heq]
    exact ⟨r, rfl, h⟩
  have hne : orig + sizeofChunkBegin ≠ 0 := Nat.succ_ne_zero _
  rcases hptr with rfl | ⟨b, hb, rfl⟩
  · have hmoved : r.moved 0 = fun _ => 0xff := by
      unfold moved
      rw [List.find?_eq_none.mpr fun c hc => decide_eq_true_iff.not.mpr (h.data_ne_zero hc)]
    have hfind : (plain size (fun _ => 0xff) (orig + sizeofChunkBegin) :: r.live).find?
        (fun b => b.data = 0) = none := by
      refine List.find?_eq_none.mpr fun c hc => decide_eq_true_iff.not.mpr ?_
      rcases List.mem_cons.mp hc with rfl | hc
      · exact hne
      · exact h.data_ne_zero hc
    simp only [heq, if_neg hne, if_true, Option.map_some, hmoved, released, hfind]
    exact ⟨_, rfl, h.add (plain_wellFormed hmay.bound hfresh _) (plain_apart hfresh _) hadds⟩
  · have hblock : b ∈ r.blocks := List.mem_append_left _ hb
    have hwf := h.wellFormed b hblock
    have hn : (t.chunks (b.data - sizeofChunkBegin)).requestedSize = b.size := by
      have hchunk := hadds.chunks b.chunk ((plain_apart hfresh _ b hblock).symm.chunk_ne hwf
        (plain_wellFormed hmay.bound hfresh _))
      exact (congrArg ChunkBegin.requestedSize hchunk).trans (h.headed b hblock).1
    have hsound := h.add (plain_wellFormed hmay.bound hfresh _) (plain_apart hfresh _)
      (Adds.memcpy h hb hfresh hmay.bound hadds)
    obtain ⟨t', hfree, hsound'⟩ := hsound.free hbase (List.mem_cons_of_mem _ hb) fuel contended
    simp only [heq, if_neg hne, if_neg (h.data_ne_zero hb), hn, hfree, Option.map_some]
    exact ⟨_, rfl, released_heap _ _ _ _ _ ▸ hsound'⟩

theorem Sound.memalign (h : r.Sound guestBase) {align len : Nat} {backend : Backend}
    (halign : 0 < align) (hlen : len + align < 2 ^ 64)
    (hmay : r.MayAllocate ((len + align) % 2 ^ 64) backend) :
    ∃ result, r.heap.memalign guestBase align len backend = some result ∧
      (r.allocated result (aligned align len backend)).Sound guestBase := by
  unfold Libqasan.memalign
  rcases posixMemalign_cases hbase halign hlen hmay with
    ⟨ret, heq, hret⟩ | ⟨data, t, heq, hne, hwf, hapart, hadds⟩
  · refine ⟨(ret.ptr, r.heap), congrArg (Option.map _) heq, ?_⟩
    rw [hret, allocated_zero]
    exact h
  · refine ⟨(data, t), congrArg (Option.map _) heq, ?_⟩
    rw [allocated_pos r hne]
    exact h.add hwf hapart hadds

omit hbase in
/-- A write changes nothing but the contents of a block. -/
theorem write_eq (addr : Nat) (v : UInt8) (b : Block) :
    ∃ contents, b.write addr v = { b with contents } := by
  unfold Block.write
  by_cases hin : b.data ≤ addr ∧ addr < b.data + b.size
  · exact ⟨_, if_pos hin⟩
  · exact ⟨b.contents, if_neg hin⟩

omit hbase in
theorem write_contents (s : Libqasan) (addr : Nat) (v : UInt8) {i : Nat} (hi : i < b.size)
    (hb : s.bytes (b.data + i) = b.contents i) :
    (s.memset addr v 1).bytes (b.data + i) = (b.write addr v).contents i := by
  unfold Libqasan.memset Block.write
  by_cases haddr : addr = b.data + i
  · subst haddr
    rw [if_pos ⟨Nat.le_add_right _ _, Nat.add_lt_add_left hi _⟩, Nat.add_sub_cancel_left]
    show (if _ then v else _) = Function.update b.contents i v i
    rw [if_pos ⟨Nat.le_refl _, Nat.lt_succ_self _⟩, Function.update_self]
  · have hother : (if addr ≤ b.data + i ∧ b.data + i < addr + 1 then v
        else s.bytes (b.data + i)) = b.contents i := by
      rw [if_neg (by omega)]
      exact hb
    by_cases hin : b.data ≤ addr ∧ addr < b.data + b.size
    · rw [if_pos hin]
      exact hother.trans (Function.update_of_ne (by omega) ..).symm
    · rw [if_neg hin]
      exact hother

omit hbase in
theorem Sound.write (h : r.Sound guestBase) (addr : Nat) (v : UInt8) :
    Sound guestBase { r with
      heap := r.heap.memset addr v 1, live := r.live.map (Block.write addr v) } := by
  have hmem : ∀ {P : Block → Prop}, (∀ b contents, P b → P { b with contents }) →
      (∀ b ∈ r.live, P b) → ∀ b ∈ r.live.map (Block.write addr v), P b := by
    intro P hP hlive b hb
    obtain ⟨c, hc, rfl⟩ := List.mem_map.mp hb
    obtain ⟨contents, heq⟩ := write_eq addr v c
    exact heq ▸ hP c contents (hlive c hc)
  have hblocks : ∀ {P : Block → Prop}, (∀ b contents, P b → P { b with contents }) →
      (∀ b ∈ r.blocks, P b) → ∀ b ∈ r.live.map (Block.write addr v) ++ r.quarantined, P b := by
    intro P hP hall b hb
    rcases List.mem_append.mp hb with hb | hb
    · exact hmem hP (fun c hc => hall c (List.mem_append_left _ hc)) b hb
    · exact hall b (List.mem_append_right _ hb)
  constructor
  · exact hblocks (fun b _ hb => ⟨hb.orig_pos, hb.orig_aligned, hb.total, hb.data, hb.header,
      hb.fits, hb.bound, hb.size, hb.plain⟩) h.wellFormed
  · obtain ⟨hlive, hquar, hacross⟩ := List.pairwise_append.mp h.apart
    refine List.pairwise_append.mpr ⟨?_, hquar, ?_⟩
    · refine List.pairwise_map.mpr (hlive.imp fun {b c} hbc => ?_)
      obtain ⟨_, hb⟩ := write_eq addr v b
      obtain ⟨_, hc⟩ := write_eq addr v c
      rw [hb, hc]
      exact hbc
    · exact hmem (fun _ _ hb => hb) hacross
  · exact hblocks (fun b _ hb => hb) h.headed
  · exact hmem (fun b _ hb => hb) h.live
  · intro b hb i hi
    obtain ⟨c, hc, rfl⟩ := List.mem_map.mp hb
    obtain ⟨contents, heq⟩ := write_eq addr v c
    have hsame : (c.write addr v).data = c.data ∧ (c.write addr v).size = c.size := by
      rw [heq]
      exact ⟨rfl, rfl⟩
    rw [hsame.1]
    rw [hsame.2] at hi
    exact write_contents r.heap addr v hi (h.contents c hc i hi)
  · exact h.poisoned
  · exact h.linked
  · exact h.small
  · exact h.quarantineEnd
  · exact h.quarantineBytes
  · exact h.returned
  · exact h.enabled
  · exact h.reports

theorem Sound.step (h : r.Sound guestBase) (fuel : Nat) {call : Call} (hvalid : r.Valid call) :
    ∃ r', r.step guestBase fuel call = some r' ∧ r'.Sound guestBase := by
  cases call with
  | malloc size backend => exact ⟨_, rfl, h.malloc hbase hvalid⟩
  | calloc nmemb size backend => exact ⟨_, rfl, h.calloc hbase hvalid⟩
  | realloc ptr size backend contended =>
      obtain ⟨hmay, hptr⟩ := hvalid
      exact h.realloc hbase hmay hptr fuel contended
  | memalign align len backend =>
      obtain ⟨halign, hlen, hmay⟩ := hvalid
      obtain ⟨result, heq, hsound⟩ := h.memalign hbase halign hlen hmay
      exact ⟨_, congrArg (Option.map _) heq, hsound⟩
  | alignedAlloc align len backend =>
      obtain ⟨halign, hlen, hmay⟩ := hvalid
      simp only [HeapRun.step, Libqasan.alignedAlloc]
      rw [if_neg halign.ne']
      by_cases hrem : len % align ≠ 0
      · rw [if_pos hrem, Option.map_some, allocated_zero]
        exact ⟨r, rfl, h⟩
      · obtain ⟨result, heq, hsound⟩ := h.memalign hbase halign hlen hmay
        rw [if_neg hrem, heq]
        exact ⟨_, rfl, hsound⟩
  | free ptr contended =>
      rcases hvalid with rfl | ⟨b, hb, rfl⟩
      · refine ⟨r, ?_, h⟩
        have hnone : r.live.find? (fun b => b.data = 0) = none :=
          List.find?_eq_none.mpr fun c hc => decide_eq_true_iff.not.mpr (h.data_ne_zero hc)
        simp only [HeapRun.step, Libqasan.free, if_true, Option.map_some, released, hnone]
      · obtain ⟨t, hfree, hsound⟩ := h.free hbase hb fuel contended
        exact ⟨_, congrArg (Option.map _) hfree, hsound⟩
  | usableSize ptr =>
      obtain ⟨b, hb, rfl⟩ := hvalid
      refine ⟨_, rfl, ?_⟩
      have hload := (h.checks hbase hb).1
      show Sound guestBase { r with heap := r.heap.checkLoad guestBase b.chunk _ }
      rw [hload]
      exact h
  | write addr v => exact ⟨_, rfl, h.write addr v⟩

omit hbase in
theorem start_sound (guestBase : Nat) (chunks : Nat → ChunkBegin) (bytes : Nat → UInt8)
    (host : AsanGiovese) : (start chunks bytes host).Sound guestBase := by
  have hnone : ∀ {P : Block → Prop}, ∀ b ∈ ([] : List Block), P b := fun b hb => by cases hb
  exact ⟨hnone, .nil, hnone, hnone, hnone, hnone, rfl, hnone, rfl, rfl, rfl, rfl, rfl⟩

/-- A run of valid calls from a sound heap returns, and the heap is sound after it. -/
theorem Sound.run (h : r.Sound guestBase) (fuel : Nat) {calls : List Call}
    (hvalid : StepsMeet (HeapRun.step guestBase fuel) r calls Valid) :
    ∃ r', Libaflmm.run (HeapRun.step guestBase fuel) r calls = some r' ∧ r'.Sound guestBase :=
  hvalid.survives (Sound guestBase) h (fun _ _ hs hv => hs.step hbase fuel hv) (fun _ hs => hs)
    calls (List.prefix_refl _)

omit hbase in
/-- A chunk that is in quarantine stays there. -/
theorem step_quarantined {fuel : Nat} {r r' : HeapRun} {call : Call}
    (h : r.step guestBase fuel call = some r') : r.quarantined <:+ r'.quarantined := by
  have hreleased : ∀ (r : HeapRun) s ptr contended,
      r.quarantined <:+ (r.released s ptr contended).quarantined := by
    intro r s ptr contended
    unfold released
    split
    · exact List.suffix_refl _
    · split
      · exact List.suffix_cons _ _
      · exact List.suffix_refl _
  cases call with
  | malloc | calloc | usableSize | write =>
      obtain rfl := Option.some.inj h
      exact List.suffix_refl _
  | memalign | alignedAlloc =>
      obtain ⟨_, -, rfl⟩ := Option.map_eq_some_iff.mp h
      exact List.suffix_refl _
  | realloc ptr size _ contended =>
      obtain ⟨result, -, rfl⟩ := Option.map_eq_some_iff.mp h
      split
      · exact List.suffix_refl _
      · exact hreleased { r with live := plain size (r.moved ptr) result.1 :: r.live } result.2
          ptr contended
  | free =>
      obtain ⟨_, -, rfl⟩ := Option.map_eq_some_iff.mp h
      exact hreleased _ _ _ _

omit hbase in
theorem run_quarantined {fuel : Nat} {r' : HeapRun} {calls : List Call}
    (h : run (step guestBase fuel) r calls = some r') : r.quarantined <:+ r'.quarantined :=
  run_invariant (fun s => r.quarantined <:+ s.quarantined)
    (fun _ _ _ hs hstep => hs.trans (step_quarantined hstep)) (List.suffix_refl _) h

/-- Around an allocation exactly the accesses that leave it are invalid. -/
theorem Sound.invalid_iff (h : r.Sound guestBase) (hb : b ∈ r.live) {addr n : Nat} (hn : 0 < n)
    (hlo : b.data - REDZONE_SIZE ≤ addr) (hhi : addr + n ≤ b.data + b.size + REDZONE_SIZE) :
    r.heap.host.isInvalidAccessN guestBase addr n = true ↔
      ¬(b.data ≤ addr ∧ addr + n ≤ b.data + b.size) := by
  have hwf := h.wellFormed b (List.mem_append_left _ hb)
  constructor
  · rintro hinvalid ⟨hfrom, hto⟩
    rw [not_invalid_live hbase hwf (h.live b hb) hfrom hto] at hinvalid
    exact Bool.false_ne_true hinvalid
  · intro hout
    by_cases hbefore : addr < b.data
    · exact invalid_redzone hbase hwf (h.live b hb) ⟨Nat.le_refl addr, by omega⟩
        (.inl ⟨hlo, hbefore⟩)
    · exact invalid_redzone hbase hwf (h.live b hb) (x := addr + n - 1) (by omega)
        (.inr (by omega))

/-- A second deallocation of a chunk in quarantine is a write to its data, which is
reported unless it has none. -/
theorem Sound.free_again (h : r.Sound guestBase) (hb : b ∈ r.quarantined) (fuel : Nat)
    (contended : Bool) :
    ∃ t, r.heap.free guestBase fuel b.data contended = some t ∧
      t.reports = if b.size = 0 then [] else [.write b.data b.size] := by
  have hwf := h.wellFormed b (List.mem_append_right _ hb)
  have hheaded := h.headed b (List.mem_append_right _ hb)
  have hload : r.heap.checkLoad guestBase b.chunk (sizeofChunkBegin - REDZONE_SIZE) = r.heap :=
    checkLoad_of_valid (not_invalid_header hbase hwf (h.poisoned b hb) fun x hx => if_pos hx)
  obtain ⟨reports, hstore, hreports⟩ : ∃ reports,
      r.heap.checkStore guestBase b.data b.size = { r.heap with reports } ∧
        reports = if b.size = 0 then [] else [.write b.data b.size] := by
    by_cases hsize : b.size = 0
    · refine ⟨r.heap.reports, checkStore_of_valid ?_, ?_⟩
      · rw [hsize, AsanGiovese.isInvalidAccessN, if_pos rfl]
      · rw [if_pos hsize, h.reports]
    · refine ⟨[.write b.data b.size], ?_, (if_neg hsize).symm⟩
      have hinvalid : r.heap.host.isInvalidAccessN guestBase b.data b.size = true :=
        invalid_freed hbase hwf (h.poisoned b hb) (x := b.data) (by omega) (by omega)
      unfold Libqasan.checkStore
      rw [if_pos ⟨h.enabled, hinvalid⟩, h.reports, List.nil_append]
  have hne : b.data ≠ 0 := by
    have hheader := hwf.header
    unfold sizeofChunkBegin at hheader
    omega
  have hsize : (r.heap.chunks b.chunk).requestedSize < QUARANTINE_MAX_BYTES := by
    rw [hheaded.1]
    exact h.small b hb
  unfold Libqasan.free
  rw [if_neg hne]
  simp only [show b.data - sizeofChunkBegin = b.chunk from rfl, hload, hheaded.1, hstore]
  cases contended with
  | false =>
      have hpush : ({ r.heap with reports } : Libqasan).swapState.quarantinePush fuel false
          b.chunk = some (true, _) := quarantinePush_small fuel h.quarantineBytes hsize
      rw [hpush]
      exact ⟨_, rfl, hreports⟩
  | true =>
      have hpush : ({ r.heap with reports } : Libqasan).swapState.quarantinePush fuel true
          b.chunk = some (false, _) :=
        quarantinePush_other fuel fun hboth => Bool.false_ne_true hboth.2.symm
      rw [hpush]
      exact ⟨_, rfl, hreports⟩

end HeapRun

end Qasan

end Libaflmm
