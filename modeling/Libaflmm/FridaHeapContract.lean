import Libaflmm.FridaHeapHooks

/-!
# When the heap hooks keep the contract

One lemma for each operation on the heap, the move of the old block to a new
one, and then for each hook when it keeps the contract of its function. What the
allocator does is `Sound.alloc_cases`.
-/

namespace Libaflmm

/-! ## The operations -/

namespace FridaAllocator

variable {a : FridaAllocator} {size : Nat} {mmap : Mmap}

theorem alloc_eq_none_iff : a.alloc size mmap = none ↔ ¬ a.Answers size := by
  unfold FridaAllocator.alloc Answers
  dsimp only
  split_ifs with hmax hpanics
  · simp [hpanics]
  · simp [hpanics]
  · rw [Option.map_eq_none_iff, Option.not_isSome_iff_eq_none]

theorem Serves.answers (h : a.Serves size mmap) : a.Answers size := by
  obtain ⟨len, ⟨hmax, hlen, -⟩, -⟩ := h
  rw [Answers, if_neg (Nat.not_lt.mpr hmax), hlen]
  rfl

end FridaAllocator

theorem FridaShadow.poison_eq_zero {shadow : FridaShadow} {x : Nat} (h : shadow x = 0)
    (start size : Nat) : shadow.poison start size x = 0 := by
  unfold FridaShadow.poison FridaShadow.write FridaShadow.fill
  dsimp only
  split_ifs
  all_goals simp only [Function.update_apply]
  all_goals split_ifs <;> simp_all

namespace FridaHeap

variable {h h' : FridaHeap} {live : List (Nat × Nat)} {ptr old size : Nat} {reportError : Bool}

/-- The heap of a run that has these live blocks. -/
structure Good (h : FridaHeap) (live : List (Nat × Nat)) : Prop where
  sound : h.allocator.Sound live []
  pos : ∀ u ∈ live, 0 < u.2

theorem Good.live_iff (hgood : h.Good live) : h.Live ptr size ↔ (ptr, size) ∈ live := by
  rw [hgood.sound.mem_live]
  constructor
  · rintro ⟨m, hfind, hfreed, rfl⟩
    exact ⟨(ptr, m), OrderedMap.find?_eq_some_iff.mp hfind, hfreed, rfl⟩
  · rintro ⟨⟨k, m⟩, hmem, hfreed, heq⟩
    obtain ⟨rfl, rfl⟩ := Prod.mk.inj heq
    exact ⟨m, OrderedMap.find?_eq_some_iff.mpr hmem, hfreed, rfl⟩

theorem Good.find?_zero (hgood : h.Good live) : h.allocator.allocations.find? 0 = none := by
  refine OrderedMap.find?_eq_none_iff.mpr fun m hm => ?_
  have hkey := hgood.sound.keyed _ hm
  have hpos := h.allocator.options.pageSize.pos
  dsimp only at hkey
  omega

theorem Good.ne_zero (hgood : h.Good live) (hlive : h.Live ptr size) : ptr ≠ 0 := by
  rintro rfl
  obtain ⟨m, hfind, -⟩ := hlive
  rw [hgood.find?_zero] at hfind
  cases hfind

theorem Live.getUsableSize (hlive : h.Live ptr size) : h.getUsableSize ptr = some size := by
  obtain ⟨m, hfind, -, rfl⟩ := hlive
  rw [FridaHeap.getUsableSize, hfind]
  rfl

/-- What is mapped for an allocation is fresh. -/
def MapsFresh (h : FridaHeap) (mmap : Mmap) : Prop := ∀ size len address,
  h.allocator.options.roundedUpSize (allocatedSize size) = some len →
    mmap h.allocator.currentMappingAddr len = some address → h.allocator.Fresh (address, len)

/-- An allocation that does not panic: a new block when it is served, and null
otherwise, with nothing but the allocator changed. -/
theorem Good.alloc (hgood : h.Good live) {mmap : Mmap} (hfresh : h.MapsFresh mmap)
    (hanswers : h.allocator.Answers size) :
    ∃ ret h', h.alloc size mmap = some (ret, h') ∧ h'.memory = h.memory ∧
      h'.written = h.written ∧ (ret ≠ 0 ↔ h.allocator.Serves size mmap) ∧
      (ret ≠ 0 → h.allocator.allocations.find? ret = none) ∧
      h'.Good (if ret = 0 then live else (ret, allocatedSize size) :: live) := by
  obtain ⟨⟨ret, a⟩, halloc⟩ := Option.ne_none_iff_exists'.mp
    (mt FridaAllocator.alloc_eq_none_iff.mp (not_not.mpr hanswers))
  have hcases := hgood.sound.alloc_cases (hfresh size) halloc
  refine ⟨ret, { h with allocator := a }, by rw [FridaHeap.alloc, halloc]; rfl, rfl, rfl, ?_, ?_,
    ?_, ?_⟩
  · obtain ⟨hrefused, rfl, -⟩ | ⟨len, hpass, ⟨hnone, rfl, -⟩ |
      ⟨b, m, -, -, -, -, -, -, -, hchunk, hserve⟩⟩ := hcases
    · refine iff_of_false (fun hne => hne rfl) ?_
      rintro ⟨len, hpass, -⟩
      exact hrefused len hpass
    · refine iff_of_false (fun hne => hne rfl) ?_
      rintro ⟨len', hpass', hne⟩
      obtain rfl := Option.some.inj (hpass.2.1.symm.trans hpass'.2.1)
      exact hne hnone
    · refine iff_of_true ?_ ⟨len, hpass, by rw [hchunk]; exact Option.some_ne_none _⟩
      have hptr := FridaAllocator.serve_ne_zero b m
      rwa [hserve] at hptr
  · intro hne
    obtain ⟨-, rfl, -⟩ | ⟨len, -, ⟨-, rfl, -⟩ | ⟨b, m, hb, -, hsame, -, -, -, -, -, hserve⟩⟩ :=
      hcases
    · exact absurd rfl hne
    · exact absurd rfl hne
    · have hkey := hb.key_fresh
      rw [hsame] at hkey
      rwa [← (Prod.mk.inj hserve).1]
  · exact hgood.sound.alloc (hfresh size) halloc
  · intro u hu
    split at hu
    · exact hgood.pos u hu
    · rcases List.mem_cons.mp hu with rfl | hu
      · show 0 < allocatedSize size
        rw [allocatedSize]
        split <;> omega
      · exact hgood.pos u hu

theorem Good.release_live (hgood : h.Good live) (hlive : h.Live ptr old) (reportError : Bool) :
    ∃ h', h.release ptr reportError = some h' ∧ h'.memory = h.memory ∧ h'.written = h.written ∧
      h'.Good (live.filter fun u => u.1 ≠ ptr) := by
  obtain ⟨m, hfind, hfreed, -⟩ := hlive
  obtain ⟨a, hrelease⟩ : ∃ a, h.allocator.release ptr reportError = some a := by
    rw [FridaAllocator.release, hfind]
    exact ⟨_, if_neg (by simp [hfreed])⟩
  refine ⟨{ h with allocator := a }, by rw [FridaHeap.release, hrelease]; rfl, rfl, rfl,
    hgood.sound.release hrelease, fun u hu => hgood.pos u (List.mem_of_mem_filter hu)⟩

theorem Good.release_null (hgood : h.Good live) (reportError : Bool) :
    h.release 0 reportError = some h := by
  rw [FridaHeap.release, FridaAllocator.release, hgood.find?_zero]
  rfl

theorem Good.congr (hgood : h.Good live) (hsame : h'.allocator = h.allocator) : h'.Good live :=
  ⟨hsame ▸ hgood.sound, hgood.pos⟩

theorem write_null {len : Nat} (hlen : len ≠ 0) (byte : Nat → UInt8) :
    h.write 0 len byte = none := by
  rw [write, if_neg hlen]
  rfl

/-- What a write leaves. -/
theorem write_spec (h : FridaHeap) {dest : Nat} (hdest : dest ≠ 0) (len : Nat)
    (byte : Nat → UInt8) :
    ∃ h', h.write dest len byte = some h' ∧ h'.allocator = h.allocator ∧
      (∀ i, h'.memory (dest + i) = if i < len then byte i else h.memory (dest + i)) ∧
      h'.written = (if len = 0 then [] else [(dest, len)]) ++ h.written := by
  by_cases hlen : len = 0
  · refine ⟨h, if_pos hlen, rfl, fun i => ?_, by rw [if_pos hlen]; rfl⟩
    rw [if_neg (by omega)]
  · refine ⟨_, (if_neg hlen).trans (if_neg hdest), rfl, fun i => ?_, by rw [if_neg hlen]; rfl⟩
    simp

/-- A release does not change what the next allocation does. -/
theorem release_frame (hrelease : h.release ptr reportError = some h') (mmap : Mmap) :
    (∀ size, h'.allocator.Answers size ↔ h.allocator.Answers size) ∧
      (∀ size, h'.allocator.Serves size mmap ↔ h.allocator.Serves size mmap) ∧
      (h.MapsFresh mmap → h'.MapsFresh mmap) := by
  obtain ⟨a, hstep, rfl⟩ := Option.map_eq_some_iff.mp hrelease
  unfold FridaAllocator.release at hstep
  split at hstep
  · split_ifs at hstep
    obtain rfl := Option.some.inj hstep
    exact ⟨fun _ => Iff.rfl, fun _ => Iff.rfl, id⟩
  · split_ifs at hstep
    obtain rfl := Option.some.inj hstep
    refine ⟨fun _ => Iff.rfl, fun _ => Iff.rfl, fun hfresh size len address hlen hmap => ?_⟩
    obtain ⟨haligned, hwithin, hdisjoint, hzeroed⟩ := hfresh size len address hlen hmap
    exact ⟨haligned, hwithin, hdisjoint,
      fun x hx => FridaShadow.poison_eq_zero (hzeroed x hx) _ _⟩

/-- A key of the map is still one after its release. -/
theorem release_key (hrelease : h.release ptr reportError = some h') (hlive : h.Live ptr old) :
    h'.allocator.allocations.find? ptr ≠ none := by
  obtain ⟨a, hstep, rfl⟩ := Option.map_eq_some_iff.mp hrelease
  obtain ⟨m, hfind, -⟩ := hlive
  unfold FridaAllocator.release at hstep
  rw [hfind] at hstep
  dsimp only at hstep
  split_ifs at hstep
  obtain rfl := Option.some.inj hstep
  rw [OrderedMap.find?_insert, if_pos rfl]
  exact Option.some_ne_none _

/-! ## Copying and releasing -/

/-- The last part of a reallocation: `n` bytes of the old block are copied to the
new one, and the old one is released. -/
theorem Good.move {ret n : Nat} (hgood : h.Good ((ret, allocatedSize size) :: live))
    (hlive : (ptr, old) ∈ live) (hret : ret ≠ 0) (reportError : Bool) :
    ∃ h₁ h₂, h.memcpy ret ptr n = some h₁ ∧ h₁.release ptr reportError = some h₂ ∧
      h₂.Live ret (allocatedSize size) ∧ (∀ k, ¬ h₂.Live ptr k) ∧ ret ≠ ptr ∧
      (∀ i < n, h₂.memory (ret + i) = h.memory (ptr + i)) ∧
      h₂.written = (if n = 0 then [] else [(ret, n)]) ++ h.written := by
  obtain ⟨h₁, hcopy, hsame, hmemory, hwritten⟩ :=
    write_spec h hret n fun i => h.memory (ptr + i)
  have hgood₁ := hgood.congr hsame
  have hlive₁ : h₁.Live ptr old := hgood₁.live_iff.mpr (List.mem_cons_of_mem _ hlive)
  obtain ⟨h₂, hrelease, hmemory₂, hwritten₂, hgood₂⟩ := hgood₁.release_live hlive₁ reportError
  have hne : ret ≠ ptr := by
    rintro rfl
    exact (List.nodup_cons.mp hgood.sound.nodup).1 (List.mem_map_of_mem (f := (·.1)) hlive)
  refine ⟨h₁, h₂, hcopy, hrelease, ?_, fun k hk => ?_, hne, fun i hi => ?_, ?_⟩
  · exact hgood₂.live_iff.mpr (List.mem_filter.mpr ⟨List.mem_cons_self, decide_eq_true hne⟩)
  · have hkey := (List.mem_filter.mp (hgood₂.live_iff.mp hk)).2
    exact of_decide_eq_true hkey rfl
  · rw [hmemory₂, hmemory, if_pos hi]
  · rw [hwritten₂, hwritten]

end FridaHeap

/-! ## The contract of each hook -/

namespace HeapHook

open FridaHeap

variable {env : HookEnv} {h : FridaHeap} {live : List (Nat × Nat)} {old ptr size : Nat}

theorem calloc_iff (hgood : h.Good live) (hfresh : h.MapsFresh env.mmap) (nmemb size : Nat) :
    KeepsContract env h old (calloc nmemb size) ↔ Manages env h old (calloc nmemb size) := by
  simp only [KeepsContract, Manages, exec, hookCalloc, Nat.mul_comm nmemb size]
  by_cases hanswers : h.allocator.Answers (size * nmemb % 2 ^ 64)
  · rw [and_iff_right hanswers]
    obtain ⟨ret, h₁, halloc, -, -, hserves, -, hgood₁⟩ := hgood.alloc hfresh hanswers
    rw [halloc]
    simp only [Option.bind_eq_bind, Option.bind_some, memset]
    by_cases hret : ret = 0
    · subst hret
      have hnone : ¬ h.allocator.Serves (size * nmemb % 2 ^ 64) env.mmap :=
        fun hs => hserves.mpr hs rfl
      by_cases hzero : size * nmemb % 2 ^ 64 = 0
      · refine iff_of_true ⟨0, h₁, ?_, .inl rfl⟩ ⟨fun hs => absurd hs hnone, fun _ => hzero⟩
        rw [write, if_pos hzero]
        rfl
      · refine iff_of_false ?_ fun hright => hzero (hright.2 hnone)
        rintro ⟨ret, after, hsome, -⟩
        rw [write_null hzero] at hsome
        cases hsome
    · have hs := hserves.mp hret
      rw [if_neg hret] at hgood₁
      obtain ⟨h₂, hset, hsame, hmemory, -⟩ :=
        write_spec h₁ hret (size * nmemb % 2 ^ 64) fun _ => 0
      have hlive : ∀ n, h₂.Live ret n ↔ n = allocatedSize (size * nmemb % 2 ^ 64) := by
        intro n
        have hblock : h₂.Live ret (allocatedSize (size * nmemb % 2 ^ 64)) :=
          (hgood₁.congr hsame).live_iff.mpr List.mem_cons_self
        constructor
        · rintro ⟨m, hfind, -, rfl⟩
          obtain ⟨m', hfind', -, hsize⟩ := hblock
          obtain rfl := Option.some.inj (hfind.symm.trans hfind')
          exact hsize
        · rintro rfl
          exact hblock
      rw [hset]
      constructor
      · rintro ⟨ret', after, hsome, hcase⟩
        obtain ⟨rfl, rfl⟩ := Prod.mk.inj (Option.some.inj hsome)
        obtain ⟨n, hn, hle, -⟩ := hcase.resolve_left hret
        obtain rfl := (hlive n).mp hn
        refine ⟨fun _ => ?_, fun hns => absurd hs hns⟩
        have hbound : allocatedSize (size * nmemb % 2 ^ 64) < 2 ^ 64 := by
          rw [allocatedSize]
          split <;> omega
        omega
      · rintro ⟨hproduct, -⟩
        have hmod : size * nmemb % 2 ^ 64 = size * nmemb := Nat.mod_eq_of_lt (hproduct hs)
        refine ⟨ret, h₂, rfl, .inr ⟨_, (hlive _).mpr rfl, ?_, fun i hi => ?_⟩⟩
        · rw [hmod, allocatedSize]
          split <;> omega
        · rw [hmemory, if_pos (by omega)]
  · rw [FridaHeap.alloc, FridaAllocator.alloc_eq_none_iff.mpr hanswers]
    refine iff_of_false ?_ fun hright => hanswers hright.1
    rintro ⟨ret, after, hsome, -⟩
    cases hsome

/-- A panic of the allocator is one of the hook. -/
theorem not_reallocated_none : ¬ h.Reallocated ptr old size none := by
  rintro ⟨ret, after, hsome, -⟩
  cases hsome

theorem alloc_none {n : Nat} (hanswers : ¬ h.allocator.Answers n) : h.alloc n env.mmap = none := by
  rw [FridaHeap.alloc, FridaAllocator.alloc_eq_none_iff.mpr hanswers]
  rfl

/-- The old block of a reallocation, in a heap that has these live blocks. -/
theorem old_cases (hgood : h.Good live) (hold : ptr = 0 ∧ old = 0 ∨ h.Live ptr old) :
    (ptr = 0 ∧ old = 0) ∨ (ptr ≠ 0 ∧ (ptr, old) ∈ live) := by
  rcases hold with hnull | hlive
  · exact .inl hnull
  · exact .inr ⟨hgood.ne_zero hlive, hgood.live_iff.mp hlive⟩

/-- The part of `hook_realloc` and `hook__o_realloc` with a new block: what the
old one held is moved to it. -/
theorem moves {ret : Nat} {h₁ : FridaHeap} (hret : ret ≠ 0) (hmemory : h₁.memory = h.memory)
    (hwritten : h₁.written = h.written) (hgood₁ : h₁.Good ((ret, allocatedSize size) :: live))
    (hlive : (ptr, old) ∈ live) (reportError : Bool) :
    ∃ h₂ h₃, h₁.memcpy ret ptr (if size < old then size else old) = some h₂ ∧
      h₂.release ptr reportError = some h₃ ∧ h.Moved h₃ ret ptr old size := by
  obtain ⟨h₂, h₃, hcopy, hrelease, hlive₃, hdead, -, hbytes, hwritten₃⟩ :=
    hgood₁.move (n := if size < old then size else old) hlive hret reportError
  refine ⟨h₂, h₃, hcopy, hrelease, hlive₃, fun i hi => ?_, hdead, _, hwritten ▸ hwritten₃, ?_⟩
  · rw [hbytes i (by split <;> omega), hmemory]
  · intro w hw
    by_cases hzero : (if size < old then size else old) = 0
    · rw [if_pos hzero] at hw
      cases hw
    · rw [if_neg hzero] at hw
      obtain rfl := List.mem_singleton.mp hw
      refine ⟨Nat.le_refl ret, Nat.add_le_add_left ?_ ret⟩
      show (if size < old then size else old) ≤ allocatedSize size
      rw [allocatedSize]
      split <;> split <;> omega

/-- Without an old block the new one is all there is. -/
theorem moved_null {ret : Nat} {h₁ : FridaHeap} (hwritten : h₁.written = h.written)
    (hgood₁ : h₁.Good ((ret, allocatedSize size) :: live)) : h.Moved h₁ ret 0 0 size := by
  refine ⟨hgood₁.live_iff.mpr List.mem_cons_self, fun i hi => ?_, fun k hk => ?_, [], hwritten, ?_⟩
  · omega
  · exact hgood₁.ne_zero hk rfl
  · intro w hw
    cases hw

theorem oRealloc_iff (hgood : h.Good live) (hfresh : h.MapsFresh env.mmap)
    (hold : ptr = 0 ∧ old = 0 ∨ h.Live ptr old) :
    KeepsContract env h old (oRealloc ptr size) ↔ Manages env h old (oRealloc ptr size) := by
  simp only [KeepsContract, Manages, exec, hookORealloc]
  by_cases hanswers : h.allocator.Answers size
  · rw [and_iff_right hanswers]
    obtain ⟨ret, h₁, halloc, hmemory, hwritten, hserves, -, hgood₁⟩ := hgood.alloc hfresh hanswers
    rw [halloc]
    simp only [Option.bind_eq_bind, Option.bind_some]
    by_cases hret : ret = 0
    · -- no new block, and the old one is released all the same
      subst hret
      rw [if_pos rfl] at hgood₁
      rw [if_neg (by simp)]
      have hnone : ¬ h.allocator.Serves size env.mmap := fun hs => hserves.mpr hs rfl
      rcases old_cases hgood hold with ⟨rfl, rfl⟩ | ⟨hptr, hlive⟩
      · rw [hgood₁.release_null]
        refine iff_of_true ⟨0, h₁, rfl, .inl ⟨rfl, .inl rfl, fun i hi => ?_, hwritten⟩⟩ (.inr rfl)
        omega
      · obtain ⟨h₂, hrelease, -, -, hgood₂⟩ :=
          hgood₁.release_live (hgood₁.live_iff.mpr hlive) env.reportError
        rw [hrelease]
        refine iff_of_false ?_ fun hright => hright.elim hnone hptr
        rintro ⟨ret, after, hsome, hkept | hmoved⟩
        · obtain ⟨-, rfl⟩ := Prod.mk.inj (Option.some.inj hsome)
          have hmem := hgood₂.live_iff.mp (hkept.2.live.resolve_left hptr)
          exact of_decide_eq_true (List.mem_filter.mp hmem).2 rfl
        · obtain ⟨rfl, -⟩ := Prod.mk.inj (Option.some.inj hsome)
          exact hmoved.1 rfl
    · rw [if_neg hret] at hgood₁
      refine iff_of_true ?_ (.inl (hserves.mp hret))
      rcases old_cases hgood hold with ⟨rfl, rfl⟩ | ⟨hptr, hlive⟩
      · rw [if_neg (by simp), hgood₁.release_null]
        exact ⟨ret, h₁, rfl, .inr ⟨hret, moved_null hwritten hgood₁⟩⟩
      · have husable : h₁.getUsableSize ptr = some old :=
          (hgood₁.live_iff.mpr (List.mem_cons_of_mem _ hlive)).getUsableSize
        obtain ⟨h₂, h₃, hcopy, hrelease, hmoved⟩ :=
          moves hret hmemory hwritten hgood₁ hlive env.reportError
        rw [if_pos ⟨hptr, hret⟩, husable]
        simp only [Option.bind_some, hcopy, hrelease]
        exact ⟨ret, h₃, rfl, .inr ⟨hret, hmoved⟩⟩
  · rw [alloc_none hanswers]
    exact iff_of_false not_reallocated_none fun hright => hanswers hright.1

/-- A released block is not live, whatever is allocated next. -/
theorem not_kept_of_released {h₁ : FridaHeap} {live₁ : List (Nat × Nat)} (hgood₁ : h₁.Good live₁)
    (hptr : ptr ≠ 0) (hgone : ∀ k, (ptr, k) ∉ live₁) : ¬ h.Kept h₁ ptr old :=
  fun hkept => hgone old (hgood₁.live_iff.mp (hkept.live.resolve_left hptr))

/-- `hook_realloc` with a size of zero. -/
theorem realloc_zero_iff (hgood : h.Good live) (hfresh : h.MapsFresh env.mmap)
    (hold : ptr = 0 ∧ old = 0 ∨ h.Live ptr old) :
    KeepsContract env h old (realloc ptr 0) ↔ Manages env h old (realloc ptr 0) := by
  simp only [KeepsContract, Manages, exec, hookRealloc, if_true]
  have hrelease : ∃ h₁ live₁, h.release ptr env.reportError = some h₁ ∧ h₁.Good live₁ ∧
      h₁.memory = h.memory ∧ h₁.written = h.written ∧ (∀ k, (ptr, k) ∉ live₁) ∧
      (ptr ≠ 0 → h₁.allocator.allocations.find? ptr ≠ none) := by
    rcases old_cases hgood hold with ⟨rfl, -⟩ | ⟨hptr, hlive⟩
    · refine ⟨h, live, hgood.release_null _, hgood, rfl, rfl, fun k hk => ?_, fun hne => ?_⟩
      · exact hgood.ne_zero (hgood.live_iff.mpr hk) rfl
      · exact absurd rfl hne
    · obtain ⟨h₁, hsome, hmemory, hwritten, hgood₁⟩ :=
        hgood.release_live (hgood.live_iff.mpr hlive) env.reportError
      refine ⟨h₁, _, hsome, hgood₁, hmemory, hwritten, fun k hk => ?_, fun _ => ?_⟩
      · exact of_decide_eq_true (List.mem_filter.mp hk).2 rfl
      · exact release_key hsome (hgood.live_iff.mpr hlive)
  obtain ⟨h₁, live₁, hsome, hgood₁, hmemory, hwritten, hgone, hkey⟩ := hrelease
  have hkept : ptr = 0 → h.Kept h₁ ptr old := by
    intro hptr
    refine ⟨.inl hptr, fun i _ => by rw [hmemory], hwritten⟩
  rw [hsome]
  simp only [Option.bind_eq_bind, Option.bind_some]
  cases henv : env.apple with
  | false =>
      simp only [Bool.false_eq_true, if_false]
      constructor
      · rintro ⟨ret, after, hret, hcase | hcase⟩
        · obtain ⟨-, rfl⟩ := Prod.mk.inj (Option.some.inj hret)
          by_contra hptr
          exact not_kept_of_released hgood₁ hptr hgone hcase.2
        · obtain ⟨rfl, -⟩ := Prod.mk.inj (Option.some.inj hret)
          exact absurd rfl hcase.1
      · intro hptr
        exact ⟨0, h₁, rfl, .inl ⟨rfl, hkept hptr⟩⟩
  | true =>
      simp only [if_true]
      obtain ⟨hanswers₁, hserves₁, hfresh₁⟩ := release_frame hsome env.mmap
      by_cases hanswers : h.allocator.Answers 0
      · rw [and_iff_right hanswers]
        obtain ⟨ret, h₂, halloc, hmemory₂, hwritten₂, hserves, hnew, hgood₂⟩ :=
          hgood₁.alloc (hfresh₁ hfresh) ((hanswers₁ 0).mpr hanswers)
        rw [hserves₁] at hserves
        rw [halloc]
        by_cases hret : ret = 0
        · subst hret
          rw [if_pos rfl] at hgood₂
          have hnone : ¬ h.allocator.Serves 0 env.mmap := fun hs => hserves.mpr hs rfl
          rw [or_iff_right hnone]
          constructor
          · rintro ⟨ret, after, heq, hcase | hcase⟩
            · obtain ⟨-, rfl⟩ := Prod.mk.inj (Option.some.inj heq)
              by_contra hptr
              exact not_kept_of_released hgood₂ hptr hgone hcase.2
            · obtain ⟨rfl, -⟩ := Prod.mk.inj (Option.some.inj heq)
              exact absurd rfl hcase.1
          · intro hptr
            refine ⟨0, h₂, rfl, .inl ⟨rfl, .inl hptr, fun i _ => ?_, hwritten₂.trans hwritten⟩⟩
            rw [hmemory₂, hmemory]
        · rw [if_neg hret] at hgood₂
          refine iff_of_true ⟨ret, h₂, rfl, .inr ⟨hret, ?_, fun i hi => ?_, fun k hk => ?_, [],
            hwritten₂.trans hwritten, ?_⟩⟩ (.inl (hserves.mp hret))
          · exact hgood₂.live_iff.mpr List.mem_cons_self
          · omega
          · -- the key of the old block is still in the map, so that the new one differs
            rcases List.mem_cons.mp (hgood₂.live_iff.mp hk) with heq | hmem
            · obtain ⟨rfl, -⟩ := Prod.mk.inj heq
              exact hkey hret (hnew hret)
            · exact hgone k hmem
          · intro w hw
            cases hw
      · rw [alloc_none (mt (hanswers₁ 0).mp hanswers)]
        exact iff_of_false not_reallocated_none fun hright => hanswers hright.1

theorem realloc_iff (hgood : h.Good live) (hfresh : h.MapsFresh env.mmap)
    (hold : ptr = 0 ∧ old = 0 ∨ h.Live ptr old) :
    KeepsContract env h old (realloc ptr size) ↔ Manages env h old (realloc ptr size) := by
  by_cases hzero : size = 0
  · subst hzero
    exact realloc_zero_iff hgood hfresh hold
  simp only [KeepsContract, Manages, exec, hookRealloc, if_neg hzero]
  by_cases hanswers : h.allocator.Answers size
  · refine iff_of_true ?_ hanswers
    obtain ⟨ret, h₁, halloc, hmemory, hwritten, -, -, hgood₁⟩ := hgood.alloc hfresh hanswers
    rw [halloc]
    simp only [Option.bind_eq_bind, Option.bind_some]
    by_cases hret : ret = 0
    · subst hret
      rw [if_pos rfl] at hgood₁
      rw [if_neg (by simp)]
      refine ⟨0, h₁, rfl, .inl ⟨rfl, ?_, fun i _ => by rw [hmemory], hwritten⟩⟩
      rcases old_cases hgood hold with ⟨hptr, -⟩ | ⟨-, hlive⟩
      · exact .inl hptr
      · exact .inr (hgood₁.live_iff.mpr hlive)
    · rw [if_neg hret] at hgood₁
      rcases old_cases hgood hold with ⟨rfl, rfl⟩ | ⟨hptr, hlive⟩
      · rw [if_neg (by simp)]
        exact ⟨ret, h₁, rfl, .inr ⟨hret, moved_null hwritten hgood₁⟩⟩
      · have husable : h₁.getUsableSize ptr = some old :=
          (hgood₁.live_iff.mpr (List.mem_cons_of_mem _ hlive)).getUsableSize
        obtain ⟨h₂, h₃, hcopy, hrelease, hmoved⟩ :=
          moves hret hmemory hwritten hgood₁ hlive env.reportError
        rw [if_pos ⟨hptr, hret⟩, husable]
        simp only [Option.bind_some, hcopy, hrelease]
        exact ⟨ret, h₃, rfl, .inr ⟨hret, hmoved⟩⟩
  · rw [alloc_none hanswers]
    exact iff_of_false not_reallocated_none hanswers

/-- Clearing the new block when zeroed memory is asked for, before the rest `k`. -/
theorem clears (size : Nat) {ret : Nat} (hret : ret ≠ 0) (flags : UInt32) :
    ∃ h', (∀ k : FridaHeap → Option (Nat × FridaHeap),
        (if flags &&& 8 = 8 then (h.memset ret 0 size).bind k else k h) = k h') ∧
      h'.allocator = h.allocator ∧
      (∀ i, h'.memory (ret + i) = if flags &&& 8 = 8 ∧ i < size then 0 else h.memory (ret + i)) ∧
      ∃ new, h'.written = new ++ h.written ∧ ∀ w ∈ new, w = (ret, size) := by
  by_cases hflag : flags &&& 8 = 8
  · obtain ⟨h', hset, hsame, hmemory, hwritten⟩ := write_spec h hret size fun _ => 0
    refine ⟨h', fun k => ?_, hsame, fun i => ?_, _, hwritten, fun w hw => ?_⟩
    · rw [if_pos hflag, memset, hset, Option.bind_some]
    · rw [hmemory]
      simp [hflag]
    · split at hw
      · cases hw
      · exact List.mem_singleton.mp hw
  · refine ⟨h, fun k => if_neg hflag, rfl, fun i => ?_, [], rfl, fun w hw => by cases hw⟩
    rw [if_neg fun hboth => hflag hboth.1]

/-- The hooks for Windows: the whole old block is copied, and then cleared. -/
theorem heapReAlloc_iff (hgood : h.Good live) (hfresh : h.MapsFresh env.mmap) (flags : UInt32)
    (hold : h.isManaged env.baseMappingAddr ptr = true ∧ h.Live ptr old) :
    KeepsContract env h old (heapReAlloc flags ptr size) ↔
      Manages env h old (heapReAlloc flags ptr size) := by
  obtain ⟨hmanaged, hlive⟩ := hold
  have hmem := hgood.live_iff.mp hlive
  have hpos : old ≠ 0 := Nat.ne_of_gt (hgood.pos _ hmem)
  simp only [KeepsContract, Manages, exec, hookHeapReAlloc]
  rw [if_neg (not_not.mpr hmanaged)]
  by_cases hanswers : h.allocator.Answers size
  · obtain ⟨ret, h₁, halloc, hmemory, hwritten, hserves, -, hgood₁⟩ := hgood.alloc hfresh hanswers
    rw [halloc]
    simp only [Option.bind_eq_bind, Option.bind_some]
    by_cases hret : ret = 0
    · subst hret
      rw [if_pos rfl] at hgood₁
      rw [(hgood₁.live_iff.mpr hmem).getUsableSize, Option.bind_some, memcpy, write_null hpos]
      exact iff_of_false not_reallocated_none fun hright => hserves.mpr hright.1 rfl
    · rw [if_neg hret] at hgood₁
      rw [and_iff_right (hserves.mp hret),
        (hgood₁.live_iff.mpr (List.mem_cons_of_mem _ hmem)).getUsableSize]
      obtain ⟨h₂, h₃, hcopy, hrelease, hlive₃, hdead, hne, hbytes, hwritten₃⟩ :=
        hgood₁.move (n := old) hmem hret env.reportError
      obtain ⟨h₄, hclear, hsame, hmemory₄, new, hwritten₄, hnew⟩ :=
        clears (h := h₃) size hret flags
      simp only [Option.bind_some, hcopy, hrelease]
      rw [hclear, if_neg fun hboth => hret hboth.2]
      by_cases hplace : flags &&& 0x10 = 0x10
      · rw [if_pos ⟨hplace, hne⟩]
        exact iff_of_false not_reallocated_none fun hright => hright.2.1 hplace
      rw [if_neg fun hboth => hplace hboth.1, and_iff_right hplace]
      rw [if_neg hpos, hwritten] at hwritten₃
      have hall : h₄.written = (new ++ [(ret, old)]) ++ h.written := by
        rw [hwritten₄, hwritten₃, List.append_assoc]
      have hsize : size ≤ allocatedSize size := by
        rw [allocatedSize]
        split <;> omega
      constructor
      · rintro ⟨ret', after, hresult, hcase | hcase⟩
        · obtain ⟨rfl, -⟩ := Prod.mk.inj (Option.some.inj hresult)
          exact absurd hcase.1 hret
        · obtain ⟨rfl, rfl⟩ := Prod.mk.inj (Option.some.inj hresult)
          obtain ⟨-, hcopied, -, within, hwithin, hinside⟩ := hcase.2
          obtain rfl := List.append_cancel_right (hall.symm.trans hwithin)
          have hblock := (hinside (ret, old) (by simp)).2
          dsimp only at hblock
          refine ⟨by omega, fun hflag i hi => ?_⟩
          rw [← hcopied i hi, hmemory₄, if_pos ⟨hflag, by omega⟩]
      · rintro ⟨hfits, hzero⟩
        refine ⟨ret, h₄, rfl, .inr ⟨hret, ?_, fun i hi => ?_, fun k hk => ?_, _, hall, ?_⟩⟩
        · simpa only [Live, hsame] using hlive₃
        · rw [hmemory₄]
          split
          · next hflag => exact (hzero hflag.1 i hi).symm
          · rw [hbytes i (by omega), hmemory]
        · refine hdead k ?_
          simpa only [Live, hsame] using hk
        · intro w hw
          rcases List.mem_append.mp hw with hw | hw
          · rw [hnew w hw]
            exact ⟨Nat.le_refl ret, Nat.add_le_add_left hsize ret⟩
          · rw [List.mem_singleton.mp hw]
            exact ⟨Nat.le_refl ret, Nat.add_le_add_left hfits ret⟩
  · rw [alloc_none hanswers]
    exact iff_of_false not_reallocated_none fun hright => hanswers hright.1.answers

end HeapHook

/-! ## Reached heaps -/

/-- The allocator is in a state that its calls have led to. -/
def FridaHeap.Reached (h : FridaHeap) : Prop :=
  ∃ options shadow baseMappingAddr calls r,
    StepsMeet FridaAllocatorRun.step (.new options shadow baseMappingAddr) calls
      FridaAllocatorRun.MapsFresh ∧
    run FridaAllocatorRun.step (.new options shadow baseMappingAddr) calls = some r ∧
    r.allocator = h.allocator

theorem FridaHeap.Reached.good {h : FridaHeap} (hreached : h.Reached) : ∃ live, h.Good live := by
  obtain ⟨options, shadow, baseMappingAddr, calls, r, hfresh, hrun, hsame⟩ := hreached
  have hinv := hfresh.invariant
    (fun r => r.allocator.Sound r.live [] ∧ ∀ u ∈ r.live, 0 < u.2)
    ⟨FridaAllocatorRun.sound_new options shadow baseMappingAddr, fun u hu => by cases hu⟩
    (fun r call r' _ hr hcall hstep => ⟨FridaAllocatorRun.sound_step hr.1 hcall hstep, ?_⟩) hrun
  · exact ⟨r.live, hsame ▸ hinv.1, hinv.2⟩
  intro u hu
  cases call with
  | alloc size mmap =>
      obtain ⟨⟨ptr, a⟩, -, rfl⟩ := Option.map_eq_some_iff.mp hstep
      dsimp only at hu
      split at hu
      · exact hr.2 u hu
      · rcases List.mem_cons.mp hu with rfl | hu
        · show 0 < allocatedSize size
          rw [allocatedSize]
          split <;> omega
        · exact hr.2 u hu
  | release ptr reportError =>
      obtain ⟨a, -, rfl⟩ := Option.map_eq_some_iff.mp hstep
      exact hr.2 u (List.mem_of_mem_filter hu)
  | reset =>
      obtain rfl := Option.some.inj hstep
      exact hr.2 u hu

namespace HeapHook

variable {env : HookEnv} {h : FridaHeap} {old : Nat}

/-- **When the hooks keep the contract**: exactly when the allocator answers
and the hook can deal with the answer. -/
theorem keepsContract_iff (hreached : h.Reached) (hfresh : h.MapsFresh env.mmap)
    {hook : HeapHook} (hold : hook.OldBlock env h old) :
    hook.KeepsContract env h old ↔ hook.Manages env h old := by
  obtain ⟨live, hgood⟩ := hreached.good
  cases hook with
  | calloc nmemb size => exact calloc_iff hgood hfresh nmemb size
  | oCalloc nmemb size => exact @calloc_iff env h live old hgood hfresh nmemb size
  | realloc ptr size => exact realloc_iff hgood hfresh hold
  | oRealloc ptr size => exact oRealloc_iff hgood hfresh hold
  | heapReAlloc flags ptr size => exact heapReAlloc_iff hgood hfresh flags hold
  | rtlReAllocateHeap flags ptr size => exact heapReAlloc_iff hgood hfresh flags hold

/-- The heap after an allocation of 8 bytes. -/
def allocatedEight : FridaHeap :=
  ⟨((⟨FridaAllocatorRun.pages4096, fun _ => 0, .empty, .empty, [(3 * 2 ^ 44, 12288)], 0,
    (0 + 12288) % 2 ^ 64, FridaAllocatorRun.pages4096.nextMappingAddr (3 * 2 ^ 44) 12288⟩ :
      FridaAllocator).serve ⟨3 * 2 ^ 44, 8, 12288, false, false⟩).2, fun x => .ofNat x, []⟩

/-- No memory is mapped, and the pages are managed. -/
def noMemory : HookEnv := ⟨fun _ _ => none, false, 3 * 2 ^ 44, false, fun _ => none⟩

theorem reached_allocatedEight : allocatedEight.Reached := by
  let start := FridaAllocatorRun.new FridaAllocatorRun.pages4096 (fun _ => 0) (3 * 2 ^ 44)
  have hrounded : FridaAllocatorRun.pages4096.roundedUpSize (allocatedSize 8) = some 12288 := rfl
  have halloc : start.allocator.alloc 8 (fun hint _ => some hint) =
      some (3 * 2 ^ 44 + 4096, allocatedEight.allocator) := by
    unfold FridaAllocator.alloc
    dsimp only
    rw [if_neg (by decide)]
    show (FridaAllocatorRun.pages4096.roundedUpSize (allocatedSize 8)).map _ = _
    rw [hrounded, Option.map_some]
    rw [if_neg (by decide)]
    rfl
  refine ⟨FridaAllocatorRun.pages4096, fun _ => 0, 3 * 2 ^ 44, [.alloc 8 fun hint _ => some hint],
    ⟨allocatedEight.allocator, [(3 * 2 ^ 44 + 4096, 8)]⟩,
    stepsMeet_cons.mpr ⟨fun len address hlen hmap => ?_, fun _ _ => stepsMeet_nil⟩, ?_, rfl⟩
  · obtain rfl := Option.some.inj (hrounded.symm.trans hlen)
    obtain rfl := Option.some.inj hmap
    exact ⟨by decide, by decide, by simp [FridaAllocatorRun.new], fun _ _ => rfl⟩
  · rw [run_cons, FridaAllocatorRun.step, halloc]
    rfl

/-- The block cannot grow, and `realloc` leaves it as it is. -/
theorem keepsContract_no_memory :
    (realloc (3 * 2 ^ 44 + 4096) 100).KeepsContract noMemory allocatedEight 8 := by
  have hold : (realloc (3 * 2 ^ 44 + 4096) 100).OldBlock noMemory allocatedEight 8 :=
    Or.inr ⟨⟨3 * 2 ^ 44, 8, 12288, false, false⟩, rfl, rfl, rfl⟩
  refine (keepsContract_iff reached_allocatedEight (fun _ _ _ hlen hmap => ?_) hold).mpr ?_
  · cases hmap
  rw [Manages, if_neg (by decide), FridaAllocator.Answers]
  decide

/-- `calloc` of more than the allocator gives clears null. -/
theorem calloc_clears_null :
    ¬ ∀ (env : HookEnv) (h : FridaHeap) (old : Nat) (hook : HeapHook), h.Reached →
      h.MapsFresh env.mmap → hook.OldBlock env h old → hook.KeepsContract env h old := by
  intro hall
  obtain ⟨ret, after, hsome, -⟩ := hall noMemory allocatedEight 0 (calloc 1 (2 ^ 31))
    reached_allocatedEight (fun _ _ _ _ hmap => by cases hmap) trivial
  have hnone : (calloc 1 (2 ^ 31)).exec noMemory allocatedEight = none := rfl
  rw [hnone] at hsome
  cases hsome

end HeapHook

end Libaflmm
