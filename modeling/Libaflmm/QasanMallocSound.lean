import Libaflmm.QasanMarks
import Mathlib.Data.List.Nodup
import Mathlib.Logic.Function.Basic

/-!
# The heap of libqasan stays sound

What has to hold of the heap between two calls (`HeapRun.Sound`), and that it survives
an allocation and a deallocation. A call that allocates changes nothing but its own
block, one that frees nothing but the marks of its block and the links of the
quarantine.
-/

namespace Libaflmm

namespace Qasan

open AsanGiovese (mark)

/-! ## The quarantine -/

/-- The chunks from `top` on are these, each linked to the next one and back. -/
def Linked (chunks : Nat → ChunkBegin) : Nat → List Block → Prop
  | top, [] => top = 0
  | top, b :: bs =>
    top = b.chunk ∧ Linked chunks (chunks b.chunk).next bs ∧
      ∀ c ∈ bs.head?, (chunks c.chunk).prev = b.chunk

theorem Linked.congr {chunks chunks' : Nat → ChunkBegin} {top : Nat} {bs : List Block}
    (h : Linked chunks top bs) (hnext : ∀ b ∈ bs, (chunks' b.chunk).next = (chunks b.chunk).next)
    (hprev : ∀ b ∈ bs.tail, (chunks' b.chunk).prev = (chunks b.chunk).prev) :
    Linked chunks' top bs := by
  induction bs generalizing top with
  | nil => exact h
  | cons b bs ih =>
      obtain ⟨htop, hrest, hback⟩ := h
      refine ⟨htop, ?_, fun c hc => ?_⟩
      · rw [hnext b List.mem_cons_self]
        exact ih hrest (fun c hc => hnext c (List.mem_cons_of_mem b hc))
          fun c hc => hprev c (List.mem_of_mem_tail hc)
      · rw [hprev c (List.mem_of_mem_head? hc)]
        exact hback c hc

/-- What the quarantine does to the headers when a chunk goes on top. -/
def link (chunks : Nat → ChunkBegin) (top ck : Nat) : Nat → ChunkBegin :=
  let chunks := Function.update chunks ck { chunks ck with next := top }
  if top ≠ 0 then Function.update chunks top { chunks top with prev := ck } else chunks

theorem link_sizes (chunks : Nat → ChunkBegin) (top ck p : Nat) :
    (link chunks top ck p).requestedSize = (chunks p).requestedSize ∧
      (link chunks top ck p).alignedOrig = (chunks p).alignedOrig := by
  unfold link
  by_cases htop : top = 0
  · by_cases hck : p = ck
    · subst hck
      simp [htop]
    · simp [htop, hck]
  · by_cases hp : p = top
    · subst hp
      by_cases hck : p = ck
      · subst hck
        simp [htop]
      · simp [htop, hck]
    · by_cases hck : p = ck
      · subst hck
        simp [htop, hp]
      · simp [htop, hp, hck]

theorem link_next_self (chunks : Nat → ChunkBegin) {top ck : Nat} (h : ck ≠ top) :
    (link chunks top ck ck).next = top := by
  unfold link
  by_cases htop : top = 0
  · simp [htop]
  · simp [htop, h]

theorem link_next_of_ne (chunks : Nat → ChunkBegin) (top : Nat) {ck p : Nat} (h : p ≠ ck) :
    (link chunks top ck p).next = (chunks p).next := by
  unfold link
  by_cases htop : top = 0
  · simp [htop, h]
  · by_cases hp : p = top
    · subst hp
      simp [htop, h]
    · simp [htop, hp, h]

theorem link_prev_of_ne (chunks : Nat → ChunkBegin) {top ck p : Nat} (h : p ≠ ck) (h' : p ≠ top) :
    (link chunks top ck p).prev = (chunks p).prev := by
  unfold link
  by_cases htop : top = 0
  · simp [htop, h]
  · simp [htop, h, h']

theorem link_prev_top (chunks : Nat → ChunkBegin) {top : Nat} (h : top ≠ 0) (ck : Nat) :
    (link chunks top ck top).prev = ck := by
  unfold link
  simp [h]

theorem Linked.push {chunks : Nat → ChunkBegin} {top : Nat} {b : Block} {bs : List Block}
    (h : Linked chunks top bs) (hck : ∀ c ∈ bs, c.chunk ≠ b.chunk) (hb : b.chunk ≠ 0)
    (hpos : ∀ c ∈ bs, c.chunk ≠ 0) (hnodup : (bs.map Block.chunk).Nodup) :
    Linked (link chunks top b.chunk) b.chunk (b :: bs) := by
  cases bs with
  | nil =>
      obtain rfl : top = 0 := h
      exact ⟨rfl, link_next_self chunks hb, fun c hc => by cases hc⟩
  | cons c bs =>
      obtain ⟨htop, hrest, hback⟩ := h
      obtain ⟨hfirst, hnodup⟩ := List.nodup_cons.mp hnodup
      have hne : b.chunk ≠ top := by
        rw [htop]
        exact (hck c List.mem_cons_self).symm
      have hlinked : Linked chunks top (c :: bs) := ⟨htop, hrest, hback⟩
      refine ⟨rfl, ?_, fun d hd => ?_⟩
      · rw [link_next_self chunks hne]
        refine hlinked.congr (fun d hd => link_next_of_ne chunks top (hck d hd)) fun d hd => ?_
        refine link_prev_of_ne chunks (hck d (List.mem_cons_of_mem c hd)) ?_
        rw [htop]
        exact fun heq => hfirst (heq ▸ List.mem_map_of_mem hd)
      · obtain rfl : c = d := Option.some.inj hd
        rw [← htop]
        refine link_prev_top chunks ?_ b.chunk
        rw [htop]
        exact hpos c List.mem_cons_self

/-! ## What holds of a heap -/

/-- The header has what the deallocation will need. -/
def Block.Headed (chunks : Nat → ChunkBegin) (b : Block) : Prop :=
  (chunks b.chunk).requestedSize = b.size ∧
    (chunks b.chunk).alignedOrig = if b.aligned then b.orig else 0

namespace HeapRun

variable (guestBase : Nat)

/-- The blocks that the backend has not got back. -/
def blocks (r : HeapRun) : List Block := r.live ++ r.quarantined

/-- **The heap is sound.** The blocks are apart; what the program may use is valid, and
what is around it is not; the chunks in quarantine are poisoned and linked, the last one
first; none of them has been given back, and nothing was reported. -/
structure Sound (r : HeapRun) : Prop where
  wellFormed : ∀ b ∈ r.blocks, b.WellFormed
  apart : r.blocks.Pairwise Block.Apart
  headed : ∀ b ∈ r.blocks, b.Headed r.heap.chunks
  live : ∀ b ∈ r.live, b.Marked guestBase r.heap.host b.liveMark
  contents : ∀ b ∈ r.live, ∀ i < b.size, r.heap.bytes (b.data + i) = b.contents i
  poisoned : ∀ b ∈ r.quarantined, b.Marked guestBase r.heap.host b.freedMark
  linked : Linked r.heap.chunks r.heap.quarantineTop r.quarantined
  small : ∀ b ∈ r.quarantined, b.size < QUARANTINE_MAX_BYTES
  quarantineEnd : r.heap.quarantineEnd = 0
  quarantineBytes : r.heap.quarantineBytes = 0
  returned : r.heap.freed = r.returned
  enabled : r.heap.enabled = true
  reports : r.heap.reports = []

/-- What the backend may answer: a block that is apart from the others. -/
def Fresh (r : HeapRun) (orig total : Nat) : Prop :=
  0 < orig ∧ orig % ALLOC_ALIGN_SIZE = 0 ∧ orig + total < 2 ^ 64 ∧
    ∀ b ∈ r.blocks, b.stop ≤ orig ∨ orig + total ≤ b.orig

/-- The size can be rounded up, and the backend answers with a fresh block. -/
structure MayAllocate (r : HeapRun) (size : Nat) (backend : Backend) : Prop where
  bound : size + 311 < 2 ^ 64
  fresh : ∀ orig, backend (chunkBytes size) = some orig → r.Fresh orig (chunkBytes size)

/-- The pointer is null, or it is an allocation. -/
def Frees (r : HeapRun) (ptr : Nat) : Prop := ptr = 0 ∨ ∃ b ∈ r.live, b.data = ptr

/-- What a program may call. -/
def Valid (r : HeapRun) : Call → Prop
  | .malloc size backend => r.MayAllocate size backend
  | .calloc nmemb size backend => r.MayAllocate (size * nmemb % 2 ^ 64) backend
  | .realloc ptr size backend _ => r.MayAllocate size backend ∧ r.Frees ptr
  | .memalign align len backend | .alignedAlloc align len backend =>
    0 < align ∧ len + align < 2 ^ 64 ∧ r.MayAllocate ((len + align) % 2 ^ 64) backend
  | .free ptr _ => r.Frees ptr
  | .usableSize ptr => ∃ b ∈ r.live, b.data = ptr
  | .write addr _ => ∃ b ∈ r.live, b.data ≤ addr ∧ addr < b.data + b.size

/-! ### An allocation -/

/-- A heap with a new block, which is the only thing that has changed. -/
structure Adds (s : Libqasan) (b : Block) (t : Libqasan) : Prop where
  headed : b.Headed t.chunks
  chunks : ∀ p, p ≠ b.chunk → t.chunks p = s.chunks p
  live : b.Marked guestBase t.host b.liveMark
  marks : ∀ x, ¬(b.orig ≤ x ∧ x < b.stop) →
    AsanGiovese.mark guestBase t.host x = AsanGiovese.mark guestBase s.host x
  contents : ∀ i < b.size, t.bytes (b.data + i) = b.contents i
  bytes : ∀ x, ¬(b.data ≤ x ∧ x < b.data + b.size) → t.bytes x = s.bytes x
  quarantineTop : t.quarantineTop = s.quarantineTop
  quarantineEnd : t.quarantineEnd = s.quarantineEnd
  quarantineBytes : t.quarantineBytes = s.quarantineBytes
  freed : t.freed = s.freed
  enabled : t.enabled = s.enabled
  reports : t.reports = s.reports

end HeapRun

theorem Block.Apart.symm {b c : Block} (h : b.Apart c) : c.Apart b := Or.symm h

theorem Block.WellFormed.inside {b : Block} (h : b.WellFormed) :
    b.orig ≤ b.chunk ∧ b.chunk + 160 = b.data ∧ b.data + b.room + REDZONE_SIZE ≤ b.stop ∧
      b.size ≤ b.room := by
  have hheader := h.header
  unfold sizeofChunkBegin REDZONE_SIZE at hheader
  have hchunk := h.chunk_eq
  have hroom := h.room_eq
  exact ⟨by omega, hchunk, h.fits, by omega⟩

theorem Block.Apart.chunk_ne {b c : Block} (h : b.Apart c) (hb : b.WellFormed)
    (hc : c.WellFormed) : b.chunk ≠ c.chunk := by
  obtain ⟨hlo, hchunk, hhi, -⟩ := hb.inside
  obtain ⟨hlo', hchunk', hhi', -⟩ := hc.inside
  unfold Block.Apart at h
  omega

/-- What is in a block is not in another one. -/
theorem Block.Apart.outside {b c : Block} (h : b.Apart c) (hc : c.WellFormed) {x : Nat}
    (hx : c.chunk ≤ x ∧ x < c.data + c.room + REDZONE_SIZE) : ¬(b.orig ≤ x ∧ x < b.stop) := by
  obtain ⟨hlo, -, hhi, -⟩ := hc.inside
  unfold Block.Apart at h
  omega

namespace HeapRun

variable {guestBase : Nat} {r : HeapRun} {b : Block} {s t : Libqasan}

/-- A sound heap with a new block. -/
theorem Sound.add (h : r.Sound guestBase) (hb : b.WellFormed)
    (hapart : ∀ c ∈ r.blocks, b.Apart c) (hadds : Adds guestBase r.heap b t) :
    Sound guestBase { r with heap := t, live := b :: r.live } := by
  have hlive : ∀ c ∈ r.live, c ∈ r.blocks := fun c hc => List.mem_append_left _ hc
  have hquar : ∀ c ∈ r.quarantined, c ∈ r.blocks := fun c hc => List.mem_append_right _ hc
  have hchunks : ∀ c ∈ r.blocks, t.chunks c.chunk = r.heap.chunks c.chunk := fun c hc =>
    hadds.chunks _ ((hapart c hc).symm.chunk_ne (h.wellFormed c hc) hb)
  have hmarks : ∀ c ∈ r.blocks, ∀ {marks}, c.Marked guestBase r.heap.host marks →
      c.Marked guestBase t.host marks := fun c hc marks hold x hlo hhi =>
    (hadds.marks x ((hapart c hc).outside (h.wellFormed c hc) ⟨hlo, hhi⟩)).trans (hold x hlo hhi)
  constructor
  · intro c hc
    rcases List.mem_cons.mp hc with rfl | hc
    · exact hb
    · exact h.wellFormed c hc
  · exact List.pairwise_cons.mpr ⟨hapart, h.apart⟩
  · intro c hc
    rcases List.mem_cons.mp hc with rfl | hc
    · exact hadds.headed
    · rw [Block.Headed, hchunks c hc]
      exact h.headed c hc
  · intro c hc
    rcases List.mem_cons.mp hc with rfl | hc
    · exact hadds.live
    · exact hmarks c (hlive c hc) (h.live c hc)
  · intro c hc i hi
    rcases List.mem_cons.mp hc with rfl | hc
    · exact hadds.contents i hi
    · rw [hadds.bytes, h.contents c hc i hi]
      obtain ⟨hlo, hchunk, hhi, hroom⟩ := hb.inside
      obtain ⟨hlo', hchunk', hhi', hroom'⟩ := (h.wellFormed c (hlive c hc)).inside
      have hcb := hapart c (hlive c hc)
      unfold Block.Apart at hcb
      omega
  · exact fun c hc => hmarks c (hquar c hc) (h.poisoned c hc)
  · refine (hadds.quarantineTop ▸ h.linked.congr ?_ ?_)
    · exact fun c hc => by rw [hchunks c (hquar c hc)]
    · exact fun c hc => by rw [hchunks c (hquar c (List.mem_of_mem_tail hc))]
  · exact h.small
  · exact hadds.quarantineEnd.trans h.quarantineEnd
  · exact hadds.quarantineBytes.trans h.quarantineBytes
  · exact hadds.freed.trans h.returned
  · exact hadds.enabled.trans h.enabled
  · exact hadds.reports.trans h.reports

/-! ### The calls that allocate -/

open Libqasan (alignedData)

theorem swapState_swapState (s : Libqasan) : s.swapState.swapState = s := by
  unfold Libqasan.swapState
  simp only [Bool.not_not]

theorem plain_orig (size orig : Nat) (contents : Nat → UInt8) :
    (plain size contents (orig + sizeofChunkBegin)).orig = orig :=
  Nat.add_sub_cancel ..

theorem plain_wellFormed {size orig : Nat} (hsize : size + 311 < 2 ^ 64)
    (hfresh : r.Fresh orig (chunkBytes size)) (contents : Nat → UInt8) :
    (plain size contents (orig + sizeofChunkBegin)).WellFormed := by
  obtain ⟨hpos, haligned, hbound, -⟩ := hfresh
  have horig := plain_orig size orig contents
  have hroom : (plain size contents (orig + sizeofChunkBegin)).room = (size + 15) / 16 * 16 :=
    qasanAlignUp_eq (show size + 15 < 2 ^ 64 by omega)
  have hbytes := chunkBytes_eq hsize
  unfold ALLOC_ALIGN_SIZE at haligned
  refine ⟨by rw [horig]; exact hpos, by rw [horig]; exact haligned, ?_, ?_, ?_, ?_, ?_, ?_, ?_⟩
  · show chunkBytes size % 8 = 0
    omega
  · show (orig + sizeofChunkBegin) % 8 = 0
    unfold sizeofChunkBegin REDZONE_SIZE
    omega
  · rw [horig]
    exact Nat.le_refl _
  · rw [hroom, Block.stop, horig]
    show orig + sizeofChunkBegin + _ + _ ≤ orig + chunkBytes size
    unfold sizeofChunkBegin REDZONE_SIZE
    omega
  · rw [Block.stop, horig]
    exact hbound
  · show size + 15 < 2 ^ 64
    omega
  · intro _
    rw [horig]
    rfl

theorem plain_apart {size orig : Nat} (hfresh : r.Fresh orig (chunkBytes size))
    (contents : Nat → UInt8) :
    ∀ c ∈ r.blocks, (plain size contents (orig + sizeofChunkBegin)).Apart c := by
  intro c hc
  obtain ⟨-, -, -, hapart⟩ := hfresh
  rw [Block.Apart, Block.stop, plain_orig]
  exact (hapart c hc).symm

/-- A block that was added to a heap, with other contents. -/
theorem Adds.fill (h : Adds guestBase s b t) {contents bytes : Nat → _}
    (hcontents : ∀ i < b.size, bytes (b.data + i) = contents i)
    (hbytes : ∀ x, ¬(b.data ≤ x ∧ x < b.data + b.size) → bytes x = t.bytes x) :
    Adds guestBase s { b with contents } { t with bytes } :=
  ⟨h.headed, h.chunks, h.live, h.marks, hcontents, fun x hx => (hbytes x hx).trans (h.bytes x hx),
    h.quarantineTop, h.quarantineEnd, h.quarantineBytes, h.freed, h.enabled, h.reports⟩

theorem Adds.memset (h : Adds guestBase s b t) (v : UInt8) :
    Adds guestBase s { b with contents := fun _ => v } (t.memset b.data v b.size) :=
  h.fill (fun _ hi => if_pos ⟨Nat.le_add_right _ _, Nat.add_lt_add_left hi _⟩)
    fun _ hx => if_neg hx

variable (hbase : 8 ∣ guestBase)

include hbase

/-- `malloc` fails and changes nothing, or it adds a block. -/
theorem malloc_cases {size : Nat} {backend : Backend} (hmay : r.MayAllocate size backend) :
    (backend (chunkBytes size) = none ∧ r.heap.malloc guestBase size backend = (0, r.heap)) ∨
    ∃ orig t, r.heap.malloc guestBase size backend = (orig + sizeofChunkBegin, t) ∧
      r.Fresh orig (chunkBytes size) ∧
      Adds guestBase r.heap (plain size (fun _ => 0xff) (orig + sizeofChunkBegin)) t := by
  have hswap := swapState_swapState r.heap
  unfold Libqasan.malloc
  simp only [hswap]
  cases hanswer : backend (chunkBytes size) with
  | none => exact .inl ⟨rfl, rfl⟩
  | some orig =>
      have hfresh := hmay.fresh orig hanswer
      have hb := plain_wellFormed hmay.bound hfresh fun _ => 0xff
      obtain ⟨hlive, hmarks⟩ := mark_place hbase r.heap.host hb
      have horig := plain_orig size orig fun _ => 0xff
      have hchunk : (plain size (fun _ => 0xff) (orig + sizeofChunkBegin)).chunk = orig := horig
      rw [hchunk, horig] at hlive hmarks
      refine .inr ⟨orig, _, rfl, hfresh, ?_, fun p hp => ?_, hlive, ?_, fun i hi => ?_,
        fun x hx => ?_, rfl, rfl, rfl, rfl, rfl, rfl⟩
      · rw [Block.Headed, hchunk]
        have hself : Function.update r.heap.chunks orig ⟨size, 0, 0, 0⟩ orig =
          ⟨size, 0, 0, 0⟩ := Function.update_self ..
        exact ⟨congrArg ChunkBegin.requestedSize hself, congrArg ChunkBegin.alignedOrig hself⟩
      · exact Function.update_of_ne (hchunk ▸ hp) ..
      · rw [horig]
        exact hmarks
      · exact if_pos ⟨Nat.le_add_right _ _, Nat.add_lt_add_left hi _⟩
      · exact if_neg hx

omit hbase in
/-- The data of an aligned chunk is aligned, and it is behind a header. -/
theorem alignedData_bounds (orig : Nat) {align : Nat} (halign : 0 < align) :
    align ∣ alignedData orig align ∧ orig + sizeofChunkBegin < alignedData orig align ∧
      alignedData orig align ≤ orig + sizeofChunkBegin + align := by
  have hlt := Nat.mod_lt (orig + sizeofChunkBegin) halign
  refine ⟨⟨(orig + sizeofChunkBegin) / align + 1, ?_⟩, ?_, ?_⟩
  · have hdiv := Nat.div_add_mod (orig + sizeofChunkBegin) align
    rw [Nat.mul_add, Nat.mul_one]
    simp only [alignedData]
    omega
  · simp only [alignedData]
    omega
  · simp only [alignedData]
    omega

omit hbase in
theorem aligned_wellFormed {align len orig : Nat} {backend : Backend} (halign : 0 < align)
    (h8 : align % 8 = 0) (hlen : len + align < 2 ^ 64)
    (hmay : r.MayAllocate ((len + align) % 2 ^ 64) backend)
    (hanswer : backend (chunkBytes ((len + align) % 2 ^ 64)) = some orig) :
    (aligned align len backend (alignedData orig align)).orig = orig ∧
      (aligned align len backend (alignedData orig align)).WellFormed := by
  obtain ⟨hpos, haligned, hbound, -⟩ := hmay.fresh orig hanswer
  obtain ⟨hdvd, hlo, hhi⟩ := alignedData_bounds orig halign
  have horig : (aligned align len backend (alignedData orig align)).orig = orig := by
    rw [aligned, hanswer, Option.getD_some]
  have hmod := Nat.mod_eq_of_lt hlen
  have hsize := hmay.bound
  rw [hmod] at hsize hbound
  have hbytes := chunkBytes_eq hsize
  have htotal : (aligned align len backend (alignedData orig align)).total =
      chunkBytes (len + align) := by rw [aligned, hmod]
  have hroom : (aligned align len backend (alignedData orig align)).room =
      (len + 15) / 16 * 16 := qasanAlignUp_eq (show len + 15 < 2 ^ 64 by omega)
  have hdata : alignedData orig align % 8 = 0 :=
    Nat.mod_eq_zero_of_dvd ((Nat.dvd_of_mod_eq_zero h8).trans hdvd)
  unfold ALLOC_ALIGN_SIZE at haligned
  refine ⟨horig, by rw [horig]; exact hpos, by rw [horig]; exact haligned, ?_, hdata, ?_, ?_, ?_,
    ?_, fun h => by cases h⟩
  · rw [htotal]
    omega
  · rw [horig]
    exact hlo.le
  · rw [hroom, Block.stop, horig, htotal]
    show alignedData orig align + _ + _ ≤ _
    unfold sizeofChunkBegin REDZONE_SIZE at *
    omega
  · rw [Block.stop, horig, htotal]
    exact hbound
  · show len + 15 < 2 ^ 64
    omega

/-- `posix_memalign` fails and changes nothing, or it adds a block. -/
theorem posixMemalign_cases {align len : Nat} {backend : Backend} (halign : 0 < align)
    (hlen : len + align < 2 ^ 64) (hmay : r.MayAllocate ((len + align) % 2 ^ 64) backend) :
    (∃ ret, r.heap.posixMemalign guestBase align len backend = some (ret, r.heap) ∧ ret.ptr = 0) ∨
    ∃ data t, r.heap.posixMemalign guestBase align len backend = some (.ok data, t) ∧
      data ≠ 0 ∧ (aligned align len backend data).WellFormed ∧
      (∀ c ∈ r.blocks, (aligned align len backend data).Apart c) ∧
      Adds guestBase r.heap (aligned align len backend data) t := by
  have hswap := swapState_swapState r.heap
  unfold Libqasan.posixMemalign
  simp only [hswap]
  by_cases heinval : align % 2 ≠ 0 ∨ align % 8 ≠ 0
  · exact .inl ⟨.einval, if_pos heinval, rfl⟩
  rw [if_neg heinval]
  by_cases hzero : len = 0
  · exact .inl ⟨.ok 0, if_pos hzero, rfl⟩
  rw [if_neg hzero]
  cases hanswer : backend (chunkBytes ((len + align) % 2 ^ 64)) with
  | none => exact .inl ⟨.enomem, rfl, rfl⟩
  | some orig =>
      have hfresh := hmay.fresh orig hanswer
      obtain ⟨horig, hb⟩ := aligned_wellFormed halign (by omega) hlen hmay hanswer
      obtain ⟨hlive, hmarks⟩ := mark_place hbase r.heap.host hb
      rw [horig] at hlive hmarks
      have hchunk : (aligned align len backend (alignedData orig align)).chunk =
        alignedData orig align - sizeofChunkBegin := rfl
      simp only [if_neg halign.ne']
      refine .inr ⟨alignedData orig align, _, rfl, ?_, hb, fun c hc => ?_, ?_,
        fun p hp => ?_, hlive, ?_, fun i hi => ?_, fun x hx => ?_, rfl, rfl, rfl, rfl, rfl, rfl⟩
      · have hlo := (alignedData_bounds orig halign).2.1
        omega
      · rw [Block.Apart, Block.stop, horig]
        exact (hfresh.2.2.2 c hc).symm
      · rw [Block.Headed, hchunk, horig]
        simp only [Libqasan.memset, Libqasan.poison, Libqasan.setChunk, Libqasan.unpoison,
          Function.update_self, aligned, if_true, and_self]
      · rw [hchunk] at hp
        simp only [Libqasan.memset, Libqasan.poison, Libqasan.setChunk, Libqasan.unpoison,
          Function.update_of_ne hp]
      · rw [horig]
        exact hmarks
      · exact if_pos ⟨Nat.le_add_right _ _, Nat.add_lt_add_left hi _⟩
      · exact if_neg hx

/-! ### The calls that free -/

omit hbase

/-- An allocation among the others. -/
theorem Sound.split (h : r.Sound guestBase) (hb : b ∈ r.live) :
    ∃ l₁ l₂, r.live = l₁ ++ b :: l₂ ∧ (r.live.find? fun c => c.data = b.data) = some b ∧
      (r.live.filter fun c => c.data ≠ b.data) = l₁ ++ l₂ := by
  obtain ⟨l₁, l₂, hlive⟩ := List.append_of_mem hb
  have hapart := (List.pairwise_append.mp h.apart).1
  rw [hlive] at hapart
  have hdata : ∀ c ∈ l₁ ++ l₂, c.data ≠ b.data := by
    intro c hc heq
    have hcb : b.Apart c := by
      obtain ⟨-, hafter, hbefore⟩ := List.pairwise_append.mp hapart
      rcases List.mem_append.mp hc with hc | hc
      · exact (hbefore c hc b List.mem_cons_self).symm
      · exact (List.pairwise_cons.mp hafter).1 c hc
    have hc' : c ∈ r.live := by
      rw [hlive]
      rcases List.mem_append.mp hc with hc | hc
      · exact List.mem_append_left _ hc
      · exact List.mem_append_right _ (List.mem_cons_of_mem _ hc)
    refine hcb.chunk_ne (h.wellFormed b (List.mem_append_left _ hb))
      (h.wellFormed c (List.mem_append_left _ hc')) ?_
    rw [Block.chunk, Block.chunk, heq]
  refine ⟨l₁, l₂, hlive, ?_, ?_⟩
  · rw [hlive, List.find?_append, List.find?_eq_none.mpr, Option.none_or, List.find?_cons_of_pos]
    · exact decide_eq_true rfl
    · intro c hc
      rw [decide_eq_true_iff]
      exact hdata c (List.mem_append_left _ hc)
  · have hkeep : ∀ l, l ⊆ l₁ ++ l₂ → (l.filter fun c => c.data ≠ b.data) = l := fun l hl =>
      List.filter_eq_self.mpr fun c hc => decide_eq_true (hdata c (hl hc))
    rw [hlive, List.filter_append, List.filter_cons_of_neg (by simp),
      hkeep l₁ (List.subset_append_left _ _), hkeep l₂ (List.subset_append_right _ _)]

/-- A heap in which a block was freed, and maybe linked. -/
structure Discards (guestBase : Nat) (s : Libqasan) (b : Block) (t : Libqasan) : Prop where
  headers : ∀ p, (t.chunks p).requestedSize = (s.chunks p).requestedSize ∧
    (t.chunks p).alignedOrig = (s.chunks p).alignedOrig
  freed : b.Marked guestBase t.host b.freedMark
  marks : ∀ x, ¬(b.orig ≤ x ∧ x < b.stop) →
    AsanGiovese.mark guestBase t.host x = AsanGiovese.mark guestBase s.host x
  bytes : t.bytes = s.bytes
  quarantineEnd : t.quarantineEnd = s.quarantineEnd
  quarantineBytes : t.quarantineBytes = s.quarantineBytes
  enabled : t.enabled = s.enabled
  reports : t.reports = s.reports

/-- A sound heap without an allocation, which is in quarantine or was given back. -/
theorem Sound.discard (h : r.Sound guestBase) {l₁ l₂ : List Block} (hlive : r.live = l₁ ++ b :: l₂)
    (hdiscards : Discards guestBase r.heap b t) {quarantined : List Block}
    (hquar : quarantined = r.quarantined ∨
      quarantined = b :: r.quarantined ∧ b.size < QUARANTINE_MAX_BYTES)
    (hlinked : Linked t.chunks t.quarantineTop quarantined) :
    Sound guestBase ⟨t, l₁ ++ l₂, quarantined, t.freed⟩ := by
  have hmem : ∀ c ∈ l₁ ++ l₂, c ∈ r.live := by
    intro c hc
    rw [hlive]
    rcases List.mem_append.mp hc with hc | hc
    · exact List.mem_append_left _ hc
    · exact List.mem_append_right _ (List.mem_cons_of_mem _ hc)
  have hb : b ∈ r.live := by
    rw [hlive]
    exact List.mem_append_right _ List.mem_cons_self
  have hperm : (b :: (l₁ ++ l₂)).Perm r.live := by
    rw [hlive]
    exact List.perm_middle.symm
  have hpair : (b :: (l₁ ++ l₂ ++ r.quarantined)).Pairwise Block.Apart :=
    ((hperm.append_right r.quarantined).pairwise_iff fun hbc => hbc.symm).mpr h.apart
  obtain ⟨hapart, hrest⟩ := List.pairwise_cons.mp hpair
  have hblocks : ∀ c ∈ (⟨t, l₁ ++ l₂, quarantined, t.freed⟩ : HeapRun).blocks, c ∈ r.blocks := by
    intro c hc
    rcases List.mem_append.mp hc with hc | hc
    · exact List.mem_append_left _ (hmem c hc)
    · rcases hquar with rfl | ⟨rfl, -⟩
      · exact List.mem_append_right _ hc
      · rcases List.mem_cons.mp hc with rfl | hc
        · exact List.mem_append_left _ hb
        · exact List.mem_append_right _ hc
  have hmarks : ∀ c ∈ l₁ ++ l₂ ++ r.quarantined, ∀ {marks}, c.Marked guestBase r.heap.host marks →
      c.Marked guestBase t.host marks := by
    intro c hc marks hold x hlo hhi
    have hc' : c ∈ r.blocks := by
      rcases List.mem_append.mp hc with hc | hc
      · exact List.mem_append_left _ (hmem c hc)
      · exact List.mem_append_right _ hc
    exact (hdiscards.marks x ((hapart c hc).outside (h.wellFormed c hc') ⟨hlo, hhi⟩)).trans
      (hold x hlo hhi)
  constructor
  · exact fun c hc => h.wellFormed c (hblocks c hc)
  · rcases hquar with rfl | ⟨rfl, -⟩
    · exact hrest
    · exact (List.perm_middle.pairwise_iff fun hbc => hbc.symm).mpr hpair
  · intro c hc
    rw [Block.Headed, (hdiscards.headers c.chunk).1, (hdiscards.headers c.chunk).2]
    exact h.headed c (hblocks c hc)
  · exact fun c hc => hmarks c (List.mem_append_left _ hc) (h.live c (hmem c hc))
  · intro c hc i hi
    rw [hdiscards.bytes]
    exact h.contents c (hmem c hc) i hi
  · intro c hc
    rcases hquar with rfl | ⟨rfl, -⟩
    · exact hmarks c (List.mem_append_right _ hc) (h.poisoned c hc)
    · rcases List.mem_cons.mp hc with rfl | hc
      · exact hdiscards.freed
      · exact hmarks c (List.mem_append_right _ hc) (h.poisoned c hc)
  · exact hlinked
  · intro c hc
    rcases hquar with rfl | ⟨rfl, hsmall⟩
    · exact h.small c hc
    · rcases List.mem_cons.mp hc with rfl | hc
      · exact hsmall
      · exact h.small c hc
  · exact hdiscards.quarantineEnd.trans h.quarantineEnd
  · exact hdiscards.quarantineBytes.trans h.quarantineBytes
  · rfl
  · exact hdiscards.enabled.trans h.enabled
  · exact hdiscards.reports.trans h.reports

theorem makeRoom_of_empty {size : Nat} (fuel : Nat) (s : Libqasan) (hs : s.quarantineBytes = 0)
    (hsize : size < QUARANTINE_MAX_BYTES) : s.makeRoom size fuel = some s := by
  have hlt : (size + s.quarantineBytes) % 2 ^ 64 < QUARANTINE_MAX_BYTES := by
    rw [hs, Nat.add_zero]
    exact (Nat.mod_le _ _).trans_lt hsize
  unfold Libqasan.makeRoom
  exact if_pos hlt

/-- A chunk goes into the quarantine, and no other one leaves it. -/
theorem quarantinePush_small (fuel : Nat) {ck : Nat} {s : Libqasan} (hs : s.quarantineBytes = 0)
    (hsize : (s.chunks ck).requestedSize < QUARANTINE_MAX_BYTES) :
    s.quarantinePush fuel false ck =
      some (true, { s with chunks := link s.chunks s.quarantineTop ck, quarantineTop := ck }) := by
  unfold Libqasan.quarantinePush
  rw [if_neg (Nat.not_le.mpr hsize), if_neg Bool.false_ne_true, makeRoom_of_empty fuel s hs hsize]
  unfold link
  by_cases htop : s.quarantineTop = 0
  · simp [Libqasan.setChunk, htop]
  · simp [Libqasan.setChunk, htop]

theorem quarantinePush_other (fuel : Nat) {ck : Nat} {s : Libqasan} {contended : Bool}
    (h : ¬((s.chunks ck).requestedSize < QUARANTINE_MAX_BYTES ∧ contended = false)) :
    s.quarantinePush fuel contended ck = some (false, s) := by
  unfold Libqasan.quarantinePush
  by_cases hsize : QUARANTINE_MAX_BYTES ≤ (s.chunks ck).requestedSize
  · rw [if_pos hsize]
  · have hcontended : contended = true := by
      cases contended with
      | false => exact absurd ⟨Nat.lt_of_not_le hsize, rfl⟩ h
      | true => rfl
    rw [if_neg hsize, if_pos hcontended]

theorem checkLoad_of_valid {s : Libqasan} {addr n : Nat}
    (h : s.host.isInvalidAccessN guestBase addr n = false) : s.checkLoad guestBase addr n = s := by
  refine if_neg ?_
  rw [h]
  exact fun hboth => Bool.false_ne_true hboth.2

theorem checkStore_of_valid {s : Libqasan} {addr n : Nat}
    (h : s.host.isInvalidAccessN guestBase addr n = false) : s.checkStore guestBase addr n = s := by
  refine if_neg ?_
  rw [h]
  exact fun hboth => Bool.false_ne_true hboth.2

theorem backendFree_eq (s : Libqasan) (hb : b.WellFormed) (hheaded : b.Headed s.chunks) :
    s.backendFree b.chunk = { s with freed := s.freed ++ [b.orig] } := by
  have horig : (if (s.chunks b.chunk).alignedOrig ≠ 0 then (s.chunks b.chunk).alignedOrig
      else b.chunk) = b.orig := by
    rw [hheaded.2]
    cases haligned : b.aligned with
    | true => exact if_pos hb.orig_pos.ne'
    | false =>
        rw [if_neg Bool.false_ne_true, if_neg (not_not.mpr rfl), Block.chunk, hb.plain haligned]
        exact Nat.add_sub_cancel ..
  unfold Libqasan.backendFree
  simp only [horig]

include hbase

/-- The checks of a pointer that is an allocation pass. -/
theorem Sound.checks (h : r.Sound guestBase) (hb : b ∈ r.live) :
    r.heap.checkLoad guestBase b.chunk (sizeofChunkBegin - REDZONE_SIZE) = r.heap ∧
      r.heap.checkStore guestBase b.data b.size = r.heap := by
  have hwf := h.wellFormed b (List.mem_append_left _ hb)
  have hlive := h.live b hb
  constructor
  · refine checkLoad_of_valid (not_invalid_header hbase hwf hlive fun x hx => ?_)
    exact if_pos hx
  · exact checkStore_of_valid (not_invalid_live hbase hwf hlive (Nat.le_refl _) (Nat.le_refl _))

/-- **What a deallocation does.** The checks pass, and the chunk goes into the quarantine
or back to the backend. -/
theorem Sound.free (h : r.Sound guestBase) (hb : b ∈ r.live) (fuel : Nat) (contended : Bool) :
    ∃ t, r.heap.free guestBase fuel b.data contended = some t ∧
      Sound guestBase (r.released t b.data contended) := by
  obtain ⟨hload, hstore⟩ := h.checks hbase hb
  obtain ⟨l₁, l₂, hlive, hfind, hfilter⟩ := h.split hb
  have hblock : b ∈ r.blocks := List.mem_append_left _ hb
  have hwf := h.wellFormed b hblock
  have hheaded := h.headed b hblock
  obtain ⟨hlo, hchunk, -, -⟩ := hwf.inside
  have hpos := hwf.orig_pos
  obtain ⟨hfreed, hmarks⟩ := mark_free hbase r.heap.host hwf (h.live b hb)
  have hswap : r.heap.enabled = !r.heap.swapState.enabled := (Bool.not_not _).symm
  unfold Libqasan.free
  rw [if_neg (by omega)]
  simp only [show b.data - sizeofChunkBegin = b.chunk from rfl, hload, hheaded.1, hstore]
  by_cases hsmall : b.size < QUARANTINE_MAX_BYTES ∧ contended = false
  · obtain ⟨hsize, rfl⟩ := hsmall
    have hpush : r.heap.swapState.quarantinePush fuel false b.chunk = some (true,
        { r.heap.swapState with
          chunks := link r.heap.chunks r.heap.quarantineTop b.chunk, quarantineTop := b.chunk }) :=
      quarantinePush_small fuel h.quarantineBytes (by
        show (r.heap.chunks b.chunk).requestedSize < _
        rwa [hheaded.1])
    rw [hpush]
    refine ⟨_, rfl, ?_⟩
    unfold released
    rw [hfind]
    simp only [hfilter, hsize, true_and, if_true]
    have hothers : ∀ c ∈ r.quarantined, b.Apart c := fun c hc =>
      (List.pairwise_append.mp h.apart).2.2 b hb c hc
    have hwfq : ∀ c ∈ r.quarantined, c.WellFormed := fun c hc =>
      h.wellFormed c (List.mem_append_right _ hc)
    have hchunks : ∀ c ∈ r.quarantined, c.chunk ≠ b.chunk := fun c hc =>
      (hothers c hc).symm.chunk_ne (hwfq c hc) hwf
    have hnodup : (r.quarantined.map Block.chunk).Nodup := by
      rw [List.Nodup, List.pairwise_map]
      refine (List.pairwise_append.mp h.apart).2.1.imp_of_mem fun hc hd hcd => ?_
      exact hcd.chunk_ne (hwfq _ hc) (hwfq _ hd)
    have hnonzero : ∀ c ∈ r.quarantined, c.chunk ≠ 0 := fun c hc =>
      ((hwfq c hc).orig_pos.trans_le (hwfq c hc).inside.1).ne'
    have hlinked := h.linked.push hchunks (by omega) hnonzero hnodup
    have hdiscards : Discards guestBase r.heap b (({ r.heap.swapState with
          chunks := link r.heap.chunks r.heap.quarantineTop b.chunk
          quarantineTop := b.chunk } : Libqasan).swapState.poison guestBase b.data
            (qasanAlignUp b.size ALLOC_ALIGN_SIZE) ASAN_HEAP_FREED) :=
      ⟨link_sizes r.heap.chunks _ _, hfreed, hmarks, rfl, rfl, rfl, hswap.symm, rfl⟩
    have hsound := h.discard hlive hdiscards (.inr ⟨rfl, hsize⟩) hlinked
    exact h.returned ▸ hsound
  · have hpush : r.heap.swapState.quarantinePush fuel contended b.chunk =
        some (false, r.heap.swapState) := quarantinePush_other fuel (by
      show ¬((r.heap.chunks b.chunk).requestedSize < _ ∧ _)
      rwa [hheaded.1])
    rw [hpush]
    refine ⟨_, rfl, ?_⟩
    unfold released
    rw [hfind]
    simp only [hfilter, hsmall, if_false]
    have hback := backendFree_eq r.heap.swapState hwf hheaded
    simp only [Bool.false_eq_true, if_false, hback]
    have hdiscards : Discards guestBase r.heap b (({ r.heap.swapState with
          freed := r.heap.freed ++ [b.orig] } : Libqasan).swapState.poison guestBase b.data
            (qasanAlignUp b.size ALLOC_ALIGN_SIZE) ASAN_HEAP_FREED) :=
      ⟨fun _ => ⟨rfl, rfl⟩, hfreed, hmarks, rfl, rfl, rfl, hswap.symm, rfl⟩
    have hsound := h.discard hlive hdiscards (.inl rfl) h.linked
    exact h.returned ▸ hsound

end HeapRun

end Qasan

end Libaflmm
