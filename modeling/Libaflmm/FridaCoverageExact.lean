import Libaflmm.FridaCoverage
import Mathlib.Tactic.Ring

/-!
# What the coverage runtime of Frida counts

On x86_64 and aarch64 the code of a block enters the block into an edge map whose
previous location is the hash shifted by one, so a run counts its edges, from the
previous location that the runs before it have left. The code brings back every
register and flag it saves.

Each part of the code has one lemma that says what it leaves in the registers and
the memory; `Saved` says that the registers to bring back are in the scratch.
-/

namespace Libaflmm.CoverageRuntime

variable {n : Nat} {inner : CoverageRuntimeInner n}

/-! ## The memory of the runtime -/

/-- The map has the counts, and the previous location is in its place. -/
structure Refines (inner : CoverageRuntimeInner n) (mem : ByteMemory (8 * n))
    (m : EdgeMap 16) : Prop where
  counts : ∀ i : BitVec 16, mem (inner.map + i.setWidth _) = m.counts i
  prev : mem.load n inner.previousPc = m.prev.setWidth _

/-- Words have four or eight bytes. -/
structure WordSize (n : Nat) : Prop where
  ge : 4 ≤ n
  le : n ≤ 8

theorem WordSize.pow (hn : WordSize n) : 2 ^ 32 ≤ 2 ^ (8 * n) :=
  Nat.pow_le_pow_right (by omega) (by have := hn.ge; omega)

theorem WordSize.le_pow (hn : WordSize n) {k : Nat} (hk : k ≤ 2 ^ 32) : k ≤ 2 ^ (8 * n) :=
  Nat.le_trans hk hn.pow

theorem inRange_map (hn : WordSize n) (i : BitVec 16) :
    InRange inner.map MAP_SIZE (inner.map + i.setWidth _) := by
  unfold InRange MAP_SIZE
  have hi := i.isLt
  have hpow := hn.pow
  rw [BitVec.add_comm, BitVec.add_sub_cancel, BitVec.toNat_setWidth,
    Nat.mod_eq_of_lt (by omega)]
  omega

theorem mapAddress_inj (hn : WordSize n) {a : BitVec (8 * n)} {i j : BitVec 16} :
    a + i.setWidth _ = a + j.setWidth _ ↔ i = j := by
  refine ⟨fun h => ?_, fun h => by rw [h]⟩
  have hij : i.setWidth (8 * n) = j.setWidth (8 * n) := add_left_cancel h
  have hge := hn.ge
  have hback := congrArg (BitVec.setWidth 16) hij
  rwa [BitVec.setWidth_setWidth_of_le i (by omega), BitVec.setWidth_setWidth_of_le j (by omega),
    BitVec.setWidth_eq, BitVec.setWidth_eq] at hback

/-- A word at the previous location is there only. -/
theorem inRange_previousPc (hn : WordSize n) {x : BitVec (8 * n)}
    (h : InRange inner.previousPc n x) : InRange inner.previousPc 8 x := by
  have := hn.le
  unfold InRange at h ⊢
  omega

/-- Memory that is the same in the runtime. -/
theorem Refines.congr (hn : WordSize n) {mem mem' : ByteMemory (8 * n)} {m : EdgeMap 16}
    (h : Refines inner mem m) (hmem : ∀ x, InRuntime inner x → mem' x = mem x) :
    Refines inner mem' m where
  counts i := by rw [hmem _ (.inl (inRange_map hn i)), h.counts i]
  prev := by
    have hle := hn.le
    rw [← h.prev]
    exact ByteMemory.load_congr (hn.le_pow (by omega)) fun x hx =>
      hmem x (.inr (inRange_previousPc hn hx))

/-- The memory after a block: the byte of the edge and the previous location are new. -/
def countedMemory (inner : CoverageRuntimeInner n) (mem : ByteMemory (8 * n)) (m : EdgeMap 16)
    (b next : BitVec 16) : ByteMemory (8 * n) :=
  ByteMemory.store (n := n)
    (Function.update mem (inner.map + (m.prev ^^^ b).setWidth _)
      (bumpNeverZero (m.counts (m.prev ^^^ b))))
    inner.previousPc (next.setWidth _)

theorem Refines.enter (hn : WordSize n) {mem : ByteMemory (8 * n)} {m : EdgeMap 16}
    (h : Refines inner mem m) (next : BitVec 16 → BitVec 16) (b : BitVec 16) :
    Refines inner (countedMemory inner mem m b (next b)) (m.enter next b) where
  counts i := by
    have hout : ¬InRange inner.previousPc n (inner.map + i.setWidth _) := fun hx =>
      inner.apart _ (inRange_map hn i) (inRange_previousPc hn hx)
    unfold countedMemory
    rw [ByteMemory.store_of_not_inRange _ hout]
    change Function.update mem _ _ _ = Function.update m.counts _ _ i
    by_cases hi : i = m.prev ^^^ b
    · subst hi
      rw [Function.update_self, Function.update_self]
    · rw [Function.update_of_ne hi, Function.update_of_ne (mt (mapAddress_inj hn).mp hi), h.counts]
  prev := by
    have hle := hn.le
    exact ByteMemory.load_store_self (hn.le_pow (by omega)) _ _

/-- Elsewhere a block leaves the memory alone. -/
theorem countedMemory_of_not_inRuntime (hn : WordSize n) {mem : ByteMemory (8 * n)}
    (m : EdgeMap 16) (b next : BitVec 16) {x : BitVec (8 * n)} (hx : ¬InRuntime inner x) :
    countedMemory inner mem m b next x = mem x := by
  have hprev : ¬InRange inner.previousPc n x := fun h => hx (.inr (inRange_previousPc hn h))
  have hmap : x ≠ inner.map + (m.prev ^^^ b).setWidth _ := by
    rintro rfl
    exact hx (.inl (inRange_map hn _))
  unfold countedMemory
  rw [ByteMemory.store_of_not_inRange _ hprev, Function.update_of_ne hmap]

/-! ## Hashes -/

theorem masked_hash (h : BitVec 64) :
    h &&& (BitVec.ofNat 64 MAP_SIZE - 1) = (h.setWidth 16).setWidth 64 := by
  have hmask : BitVec.ofNat 64 MAP_SIZE - 1 = (BitVec.allOnes 16).setWidth 64 := by decide
  rw [hmask]
  apply BitVec.eq_of_getLsbD_eq
  intro i hi
  simp only [BitVec.getLsbD_and, BitVec.getLsbD_setWidth, BitVec.getLsbD_allOnes, hi, decide_true,
    Bool.true_and, Bool.and_comm]

theorem setWidth_shiftRight_one (b : BitVec 16) {k : Nat} (hk : 16 ≤ k) :
    b.setWidth k >>> 1 = (b >>> 1).setWidth k := by
  apply BitVec.eq_of_getLsbD_eq
  intro i hi
  by_cases h : 1 + i < 16
  · have hlt : 1 + i < k := by omega
    simp [hi, hlt]
  · have hout : b.getLsbD (1 + i) = false := BitVec.getLsbD_of_ge _ _ (by omega)
    simp [hi, hout]

/-! ## The scratch -/

theorem scratch_at (sp : BitVec (8 * n)) {d : Nat} (hd : d ≤ 0x98) :
    sp - BitVec.ofNat _ d = sp - 0x98#(8 * n) + BitVec.ofNat _ (0x98 - d) := by
  have hsum : 0x98#(8 * n) = BitVec.ofNat _ (0x98 - d) + BitVec.ofNat _ d := by
    rw [← BitVec.ofNat_add, Nat.sub_add_cancel hd]
  rw [hsum]
  ring

theorem inScratch_of_slot (hn : WordSize n) {sp x : BitVec (8 * n)} {d : Nat}
    (hlo : 0x88 ≤ d) (hhi : d ≤ 0x98) (hx : InRange (sp - BitVec.ofNat _ d) n x) :
    InScratch sp x := by
  have hle := hn.le
  rw [scratch_at sp hhi] at hx
  exact hx.of_add (by omega) (hn.le_pow (by omega))

theorem slots_apart (hn : WordSize n) (sp : BitVec (8 * n)) (d d' : Nat) (h : d + 8 ≤ d')
    (hd' : d' ≤ 0x98) :
    RangesApart (sp - BitVec.ofNat _ d') n (sp - BitVec.ofNat _ d) n := by
  have hle := hn.le
  rw [scratch_at sp hd', scratch_at sp (d := d) (by omega)]
  exact rangesApart_add _ (by omega) (Nat.le_trans (by omega) hn.pow)

/-! ## x86_64 and x86 -/

section X86

open X86

theorem address_belowSp (s : Machine n) (d : Nat) :
    s.address (belowSp d) = s.regs .rsp - BitVec.ofNat _ d := by
  simp [Machine.address, belowSp, sub_eq_add_neg]

theorem address_atReg (s : Machine n) (r : Gpr) : s.address (atReg r) = s.regs r := by
  simp [Machine.address, atReg]

/-- In `t`, what has to go back into `s`: the other registers are as they were, and
the scratch has `rax`, the flags and `rbx`. -/
structure Saved (s t : Machine n) : Prop where
  regs : ∀ r, r ≠ .rax → r ≠ .rbx → t.regs r = s.regs r
  xmm : t.xmm = s.xmm
  rax : t.memory.load n (s.regs .rsp - 0x88#_) = s.regs .rax
  flags : field 8 8 (t.memory.load n (s.regs .rsp - 0x90#_)) = s.flags.toByte
  rbx : t.memory.load n (s.regs .rsp - 0x98#_) = s.regs .rbx

theorem run_storeContext (s : Machine n) :
    X86.run storeContext s =
      { s with
        regs := Function.update s.regs .rax (setField 8 (s.regs .rax) s.flags.toByte)
        memory := ((s.memory.store (s.regs .rsp - 0x88#_) (s.regs .rax)).store
          (s.regs .rsp - 0x90#_) (setField 8 (s.regs .rax) s.flags.toByte)).store
            (s.regs .rsp - 0x98#_) (s.regs .rbx) } := by
  simp [X86.run, storeContext, exec, address_belowSp, Machine.write, Machine.setReg]

theorem saved_storeContext (hn : WordSize n) (s : Machine n) :
    Saved s (X86.run storeContext s) := by
  have hge := hn.ge
  have hle := hn.le
  have hpow : n ≤ 2 ^ (8 * n) := hn.le_pow (by omega)
  have h1 := slots_apart hn (s.regs .rsp) 0x88 0x90 (by omega) (by omega)
  have h2 := slots_apart hn (s.regs .rsp) 0x88 0x98 (by omega) (by omega)
  have h3 := slots_apart hn (s.regs .rsp) 0x90 0x98 (by omega) (by omega)
  rw [run_storeContext]
  refine ⟨fun r hr _ => Function.update_of_ne hr .., rfl, ?_, ?_, ?_⟩
  · dsimp only
    rw [ByteMemory.load_store_of_apart hpow _ h2.symm,
      ByteMemory.load_store_of_apart hpow _ h1.symm, ByteMemory.load_store_self hpow]
  · dsimp only
    rw [ByteMemory.load_store_of_apart hpow _ h3.symm, ByteMemory.load_store_self hpow,
      field_setField _ _ (by omega)]
  · dsimp only
    rw [ByteMemory.load_store_self hpow]

/-- Saving is within the scratch. -/
theorem storeContext_memory (hn : WordSize n) (s : Machine n) {x : BitVec (8 * n)}
    (hx : ¬InScratch (s.regs .rsp) x) : (X86.run storeContext s).memory x = s.memory x := by
  have hout : ∀ d, 0x88 ≤ d → d ≤ 0x98 → ¬InRange (s.regs .rsp - BitVec.ofNat _ d) n x :=
    fun d hlo hhi h => hx (inScratch_of_slot hn hlo hhi h)
  rw [run_storeContext]
  dsimp only
  rw [ByteMemory.store_of_not_inRange _ (hout 0x98 (by omega) (by omega)),
    ByteMemory.store_of_not_inRange _ (hout 0x90 (by omega) (by omega)),
    ByteMemory.store_of_not_inRange _ (hout 0x88 (by omega) (by omega))]

/-- Steps that use `rax` and `rbx` and leave the scratch alone. -/
theorem Saved.frame (hn : WordSize n) {s t t' : Machine n} (h : Saved s t)
    (hregs : ∀ r, r ≠ .rax → r ≠ .rbx → t'.regs r = t.regs r) (hxmm : t'.xmm = t.xmm)
    (hmem : ∀ x, InScratch (s.regs .rsp) x → t'.memory x = t.memory x) : Saved s t' := by
  have hle := hn.le
  have hslot : ∀ d, 0x88 ≤ d → d ≤ 0x98 →
      t'.memory.load n (s.regs .rsp - BitVec.ofNat _ d) =
        t.memory.load n (s.regs .rsp - BitVec.ofNat _ d) := fun d hlo hhi =>
    ByteMemory.load_congr (hn.le_pow (by omega)) fun x hx =>
      hmem x (inScratch_of_slot hn hlo hhi hx)
  exact
    { regs := fun r hrax hrbx => (hregs r hrax hrbx).trans (h.regs r hrax hrbx)
      xmm := hxmm.trans h.xmm
      rax := (hslot 0x88 (by omega) (by omega)).trans h.rax
      flags := (congrArg _ (hslot 0x90 (by omega) (by omega))).trans h.flags
      rbx := (hslot 0x98 (by omega) (by omega)).trans h.rbx }

theorem run_restoreContext (t : Machine n) :
    X86.run restoreContext t =
      { t with
        regs := Function.update (Function.update t.regs .rbx
          (t.memory.load n (t.regs .rsp - 0x98#_))) .rax (t.memory.load n (t.regs .rsp - 0x88#_))
        flags := t.flags.withByte (field 8 8 (t.memory.load n (t.regs .rsp - 0x90#_))) } := by
  simp [X86.run, restoreContext, exec, address_belowSp, Machine.setReg]

theorem restoreContext_of_saved {s t : Machine n} (h : Saved s t) :
    X86Context.of (X86.run restoreContext t) = X86Context.of s ∧
      (X86.run restoreContext t).memory = t.memory := by
  have hsp : t.regs .rsp = s.regs .rsp := h.regs .rsp (by decide) (by decide)
  rw [run_restoreContext, hsp, h.rax, h.flags, h.rbx, Flags.withByte_toByte]
  refine ⟨?_, rfl⟩
  have hregs : Function.update (Function.update t.regs .rbx (s.regs .rbx)) .rax (s.regs .rax) =
      s.regs := by
    funext r
    by_cases hrax : r = .rax
    · subst hrax
      exact Function.update_self ..
    · rw [Function.update_of_ne hrax]
      by_cases hrbx : r = .rbx
      · subst hrbx
        exact Function.update_self ..
      · rw [Function.update_of_ne hrbx, h.regs r hrax hrbx]
  unfold X86Context.of
  dsimp only
  rw [hregs, h.xmm]

/-! ### The edge -/

theorem run_loadMapByteAddress (t : Machine n) (loc : BitVec 32) :
    (X86.run (loadMapByteAddress inner loc) t).regs .rax =
      inner.map + (t.memory.load n inner.previousPc ^^^ loc.setWidth _) := by
  simp [X86.run, loadMapByteAddress, exec, address_atReg, Machine.setReg, add_comm]

theorem loadMapByteAddress_frame (inner : CoverageRuntimeInner n) (t : Machine n)
    (loc : BitVec 32) :
    (∀ r, r ≠ .rax → r ≠ .rbx →
      (X86.run (loadMapByteAddress inner loc) t).regs r = t.regs r) ∧
    (X86.run (loadMapByteAddress inner loc) t).xmm = t.xmm ∧
    (X86.run (loadMapByteAddress inner loc) t).memory = t.memory := by
  refine ⟨fun r hrax hrbx => ?_, rfl, rfl⟩
  simp [X86.run, loadMapByteAddress, exec, Machine.setReg, Function.update_of_ne hrax,
    Function.update_of_ne hrbx]

/-- Adding one and then the carry never gives zero. -/
theorem add_adc_eq_bump (b : BitVec 8) :
    b + 1#8 + (BitVec.ofBool (addFlags b 1#8 false).carry).setWidth 8 = bumpNeverZero b := by
  decide +revert

theorem run_updateMapByte (t : Machine n) (hn : WordSize n) :
    (X86.run updateMapByte t).memory =
      Function.update t.memory (t.regs .rax) (bumpNeverZero (t.memory (t.regs .rax))) := by
  have hge := hn.ge
  have h := add_adc_eq_bump (t.memory (t.regs .rax))
  have hfield : ∀ (v : BitVec (8 * n)) (b : BitVec 8), field 0 8 (setField 0 v b) = b :=
    fun v b => field_setField v b (by omega)
  simp [X86.run, updateMapByte, exec, address_atReg, Machine.setReg, Machine.writeByte,
    hfield, h]

theorem updateMapByte_frame (t : Machine n) :
    (∀ r, r ≠ .rbx → (X86.run updateMapByte t).regs r = t.regs r) ∧
      (X86.run updateMapByte t).xmm = t.xmm := by
  refine ⟨fun r hrbx => ?_, rfl⟩
  simp [X86.run, updateMapByte, exec, Machine.setReg, Machine.writeByte, Function.update_of_ne hrbx]

theorem run_updatePreviousPc (t : Machine n) (loc : BitVec 32) :
    (X86.run (updatePreviousPc inner loc) t).memory =
      t.memory.store inner.previousPc (loc.setWidth (8 * n)) := by
  simp [X86.run, updatePreviousPc, exec, address_atReg, Machine.setReg, Machine.write]

theorem updatePreviousPc_frame (inner : CoverageRuntimeInner n) (t : Machine n) (loc : BitVec 32) :
    (∀ r, r ≠ .rax → r ≠ .rbx →
      (X86.run (updatePreviousPc inner loc) t).regs r = t.regs r) ∧
    (X86.run (updatePreviousPc inner loc) t).xmm = t.xmm := by
  refine ⟨fun r hrax hrbx => ?_, rfl⟩
  simp [X86.run, updatePreviousPc, exec, Machine.setReg, Machine.write, Function.update_of_ne hrax,
    Function.update_of_ne hrbx]

/-- The three parts between saving and restoring. -/
theorem run_countEdge (hn : WordSize n) (t : Machine n) {m : EdgeMap 16}
    (h : Refines inner t.memory m) (b next : BitVec 16) :
    (X86.run (updatePreviousPc inner (next.setWidth 32)) (X86.run updateMapByte
      (X86.run (loadMapByteAddress inner (b.setWidth 32)) t))).memory =
        countedMemory inner t.memory m b next := by
  have hge := hn.ge
  have hwide : ∀ v : BitVec 16, (v.setWidth 32).setWidth (8 * n) = v.setWidth (8 * n) :=
    fun v => BitVec.setWidth_setWidth (by omega)
  have hbyte : t.memory (inner.map + (m.prev ^^^ b).setWidth _) = m.counts (m.prev ^^^ b) :=
    h.counts _
  have haddr : (X86.run (loadMapByteAddress inner (b.setWidth 32)) t).regs .rax =
      inner.map + (m.prev ^^^ b).setWidth _ := by
    rw [run_loadMapByteAddress, h.prev, hwide, ← BitVec.setWidth_xor]
  rw [run_updatePreviousPc, run_updateMapByte _ hn, (loadMapByteAddress_frame inner t _).2.2, haddr,
    hbyte, hwide]
  rfl

/-- The code of a block enters it into the map, and brings the context back. -/
theorem run_inlineCode (hn : WordSize n) (s : Machine n) {m : EdgeMap 16}
    (h : Refines inner s.memory m)
    (hsp : ∀ x, InScratch (s.regs .rsp) x → ¬InRuntime inner x)
    (next : BitVec 16 → BitVec 16) (b : BitVec 16) :
    Refines inner (X86.run (inlineCode inner (b.setWidth 32) ((next b).setWidth 32)) s).memory
      (m.enter next b) ∧
    X86Context.of (X86.run (inlineCode inner (b.setWidth 32) ((next b).setWidth 32)) s) =
      X86Context.of s ∧
    ∀ x, ¬InRuntime inner x → ¬InScratch (s.regs .rsp) x →
      (X86.run (inlineCode inner (b.setWidth 32) ((next b).setWidth 32)) s).memory x =
        s.memory x := by
  unfold inlineCode
  rw [run_append, run_append, run_append, run_append]
  have hsaved := saved_storeContext hn s
  have hframe := fun x => storeContext_memory hn s (x := x)
  generalize X86.run storeContext s = t₀ at hsaved hframe ⊢
  have h₀ : Refines inner t₀.memory m :=
    h.congr hn fun x hx => hframe x fun hs => hsp x hs hx
  have hmem := run_countEdge hn t₀ h₀ b (next b)
  rcases loadMapByteAddress_frame inner t₀ (b.setWidth 32) with ⟨hr₁, hx₁, -⟩
  generalize X86.run (loadMapByteAddress inner (b.setWidth 32)) t₀ = t₁ at hmem hr₁ hx₁ ⊢
  rcases updateMapByte_frame t₁ with ⟨hr₂, hx₂⟩
  generalize X86.run updateMapByte t₁ = t₂ at hmem hr₂ hx₂ ⊢
  rcases updatePreviousPc_frame inner t₂ ((next b).setWidth 32) with ⟨hr₃, hx₃⟩
  generalize X86.run (updatePreviousPc inner ((next b).setWidth 32)) t₂ = t₃ at hmem hr₃ hx₃ ⊢
  have hout : ∀ x, ¬InRuntime inner x → t₃.memory x = t₀.memory x := by
    intro x hx
    rw [hmem]
    exact countedMemory_of_not_inRuntime hn m b (next b) hx
  have hsaved₃ : Saved s t₃ :=
    hsaved.frame hn
      (fun r hrax hrbx => by rw [hr₃ r hrax hrbx, hr₂ r hrbx, hr₁ r hrax hrbx])
      (by rw [hx₃, hx₂, hx₁]) fun x hx => hout x (hsp x hx)
  rcases restoreContext_of_saved hsaved₃ with ⟨hcontext, hkept⟩
  rw [hkept]
  refine ⟨?_, hcontext, fun x hx hs => (hout x hx).trans (hframe x hs)⟩
  rw [hmem]
  exact h₀.enter hn next b

end X86

/-! ## aarch64 -/

section Aarch64

open Aarch64

variable {inner : CoverageRuntimeInner 8}

def bodyAarch64 (inner : CoverageRuntimeInner 8) (h64 : BitVec 64) : List (Item Label) :=
  countEdgeAarch64 ++ (updatePreviousPcAarch64 ++ (restoreContextAarch64 ++
    dataAarch64 inner h64))

/-- Adding one and then what went past the byte never gives zero. -/
theorem add_lsr_eq_bump (b : BitVec 8) :
    (((b.setWidth 64).setWidth 32 + 1#32).setWidth 64 +
      ((b.setWidth 64).setWidth 32 + 1#32).setWidth 64 >>> 8).setWidth 8 = bumpNeverZero b := by
  decide +revert

/-- What the code between spilling and restoring makes of the memory. -/
def countedAarch64 (inner : CoverageRuntimeInner 8) (mem : ByteMemory (8 * 8)) (h64 : BitVec 64) :
    ByteMemory (8 * 8) :=
  let a := inner.map + (mem.load 8 inner.previousPc ^^^ h64)
  let w := ((((mem a).setWidth 64).setWidth 32 + 1#32).setWidth 64 : BitVec 64)
  ByteMemory.store (n := 8) (Function.update mem a ((w + w >>> 8).setWidth 8)) inner.previousPc
    (h64 >>> 1)

theorem run_body (inner : CoverageRuntimeInner 8) (t : Machine) (h64 : BitVec 64) :
    ∃ t', Aarch64.run none (bodyAarch64 inner h64) t = some t' ∧
      t'.memory = countedAarch64 inner t.memory h64 ∧
      t'.sp = t.sp + 0x90 ∧ t'.nzcv = t.nzcv ∧ t'.v = t.v ∧
      t'.x 16 = t'.memory.load 8 t.sp ∧ t'.x 17 = t'.memory.load 8 (t.sp + 8) ∧
      ∀ r, r ≠ 16 → r ≠ 17 → t'.x r = t.x r := by
  refine ⟨_, rfl, ?_, rfl, rfl, rfl, ?_, ?_, ?_⟩
  · simp [Machine.setReg, Machine.write, Machine.writeByte, countedAarch64]
  · simp [Machine.setReg, Machine.write, Machine.writeByte]
  · simp [Machine.setReg, Machine.write, Machine.writeByte]
  · intro r h16 h17
    simp [Machine.setReg, Machine.write, Machine.writeByte, Function.update_of_ne h16,
      Function.update_of_ne h17]

theorem countedAarch64_eq {mem : ByteMemory (8 * 8)} {m : EdgeMap 16} (h : Refines inner mem m)
    (b : BitVec 16) :
    countedAarch64 inner mem (b.setWidth 64) = countedMemory inner mem m b (b >>> 1) := by
  have hprev : mem.load 8 inner.previousPc = m.prev.setWidth 64 := h.prev
  have hbyte : mem (inner.map + (m.prev ^^^ b).setWidth 64) = m.counts (m.prev ^^^ b) :=
    h.counts _
  unfold countedAarch64 countedMemory
  simp only
  rw [hprev, ← BitVec.setWidth_xor, hbyte, add_lsr_eq_bump, setWidth_shiftRight_one b (by omega)]

/-- In `t`, what has to go back into `s`: the other registers are as they were, and
the scratch has `x16` and `x17`. -/
structure Spilled (s t : Machine) : Prop where
  x : ∀ r, r ≠ 16 → r ≠ 17 → t.x r = s.x r
  sp : t.sp = s.sp - 0x90#64
  nzcv : t.nzcv = s.nzcv
  v : t.v = s.v
  x16 : t.memory.load 8 (s.sp - 0x90#64) = s.x 16
  x17 : t.memory.load 8 (s.sp - 0x88#64) = s.x 17
  memory : ∀ x, ¬InScratch s.sp x → t.memory x = s.memory x

theorem wordSize_eight : WordSize 8 := ⟨by omega, by omega⟩

theorem exec_spill (code : List (Item Label)) (s : Machine) :
    exec code s spill = some
      { s with
        sp := s.sp - 0x90#64
        memory := (s.memory.store (s.sp - 0x90#64) (s.x 16)).store (s.sp - 0x88#64) (s.x 17) } := by
  have hsp : s.sp + -0x90 = s.sp - 0x90#64 := by bv_omega
  have hslot : s.sp - 0x90#64 + 8 = s.sp - 0x88#64 := by bv_omega
  simp only [exec, spill, Machine.write, hsp, hslot]

theorem spilled_exec (s t : Machine) (code : List (Item Label))
    (h : exec code s spill = some t) : Spilled s t := by
  have hpow : 8 ≤ 2 ^ (8 * 8) := by decide
  have hapart := slots_apart wordSize_eight s.sp 0x88 0x90 (by omega) (by omega)
  rw [exec_spill] at h
  cases h
  refine ⟨fun r _ _ => rfl, rfl, rfl, rfl, ?_, ?_, fun x hx => ?_⟩
  · dsimp only
    exact (ByteMemory.load_store_of_apart hpow _ hapart).trans
      (ByteMemory.load_store_self hpow _ _)
  · dsimp only
    exact ByteMemory.load_store_self hpow _ _
  · have hout : ∀ d, 0x88 ≤ d → d ≤ 0x98 → ¬InRange (s.sp - BitVec.ofNat _ d) 8 x :=
      fun d hlo hhi h => hx (inScratch_of_slot wordSize_eight hlo hhi h)
    exact (ByteMemory.store_of_not_inRange _ (hout 0x88 (by omega) (by omega))).trans
      (ByteMemory.store_of_not_inRange _ (hout 0x90 (by omega) (by omega)))

/-- A near branch comes to the spill. -/
theorem enterBlock_near (body : List (Item Label)) (s : Machine) :
    enterBlock (storeContextAarch64 ++ body) s .near =
      (exec (.label .start :: body) s spill).bind (Aarch64.run none body) :=
  rfl

/-- After a long branch the code branches over the spill. -/
theorem enterBlock_long (body : List (Item Label)) (s : Machine) (x16 x17 : BitVec 64) :
    enterBlock (storeContextAarch64 ++ body) s (.long x16 x17) =
      (exec (storeContextAarch64 ++ body) s spill).bind
        fun t => Aarch64.run none body ((t.setReg 16 x16).setReg 17 x17) :=
  rfl

theorem Spilled.setReg {s t : Machine} (h : Spilled s t) (x16 x17 : BitVec 64) :
    Spilled s ((t.setReg 16 x16).setReg 17 x17) where
  x r h16 h17 := by
    rw [← h.x r h16 h17]
    exact (Function.update_of_ne h17 ..).trans (Function.update_of_ne h16 ..)
  sp := h.sp
  nzcv := h.nzcv
  v := h.v
  x16 := h.x16
  x17 := h.x17
  memory := h.memory

theorem generateInlineCodeAarch64_eq (h64 : BitVec 64) :
    generateInlineCodeAarch64 inner h64 = storeContextAarch64 ++ bodyAarch64 inner h64 :=
  rfl

/-- After a branch of either kind the registers are spilled, and the code goes on at
`start`. -/
theorem enterBlock_spilled (inner : CoverageRuntimeInner 8) (h64 : BitVec 64) (s : Machine)
    (e : Branch) :
    ∃ t, Spilled s t ∧
      enterBlock (generateInlineCodeAarch64 inner h64) s e =
        Aarch64.run none (bodyAarch64 inner h64) t := by
  rw [generateInlineCodeAarch64_eq]
  generalize bodyAarch64 inner h64 = body
  cases e with
  | near =>
      have ht := exec_spill (.label .start :: body) s
      rw [enterBlock_near, ht, Option.bind_some]
      exact ⟨_, spilled_exec s _ _ ht, rfl⟩
  | long x16 x17 =>
      have ht := exec_spill (storeContextAarch64 ++ body) s
      rw [enterBlock_long, ht, Option.bind_some]
      exact ⟨_, (spilled_exec s _ _ ht).setReg x16 x17, rfl⟩

/-- The code of a block enters it into the map, and brings the context back. -/
theorem enterBlock_exact (s : Machine) (e : Branch) {m : EdgeMap 16}
    (h : Refines inner s.memory m) (hsp : ∀ x, InScratch s.sp x → ¬InRuntime inner x)
    (b : BitVec 16) :
    ∃ s', enterBlock (generateInlineCodeAarch64 inner (b.setWidth 64)) s e = some s' ∧
      Refines inner s'.memory (m.enter (· >>> 1) b) ∧
      aarch64.context s' = aarch64.context s ∧
      ∀ x, ¬InRuntime inner x → ¬InScratch s.sp x → s'.memory x = s.memory x := by
  rcases enterBlock_spilled inner (b.setWidth 64) s e with ⟨t, ht, hrun⟩
  have h₀ : Refines inner t.memory m :=
    h.congr wordSize_eight fun x hx => ht.memory x fun hs => hsp x hs hx
  rcases run_body inner t (b.setWidth 64) with
    ⟨s', hs', hmem, hsp', hnzcv, hv, h16, h17, hx⟩
  rw [countedAarch64_eq h₀] at hmem
  have hout : ∀ x, ¬InRuntime inner x → s'.memory x = t.memory x := by
    intro x hx
    rw [hmem]
    exact countedMemory_of_not_inRuntime wordSize_eight m b (b >>> 1) hx
  have hslot : ∀ d, 0x88 ≤ d → d ≤ 0x98 →
      s'.memory.load 8 (s.sp - BitVec.ofNat _ d) = t.memory.load 8 (s.sp - BitVec.ofNat _ d) :=
    fun d hlo hhi => ByteMemory.load_congr (by decide) fun x hx =>
      hout x (hsp x (inScratch_of_slot wordSize_eight hlo hhi hx))
  have hback : s'.sp = s.sp := by
    rw [hsp', ht.sp]
    bv_omega
  have hnext : t.sp + 8 = s.sp - 0x88#64 := by
    rw [ht.sp]
    bv_omega
  have hregs : s'.x = s.x := by
    funext r
    by_cases hr16 : r = 16
    · rw [hr16, h16, ht.sp]
      exact (hslot 0x90 (by omega) (by omega)).trans ht.x16
    · by_cases hr17 : r = 17
      · rw [hr17, h17, hnext]
        exact (hslot 0x88 (by omega) (by omega)).trans ht.x17
      · rw [hx r hr16 hr17, ht.x r hr16 hr17]
  refine ⟨s', hrun.trans hs', ?_, ?_, fun x hx hs => (hout x hx).trans (ht.memory x hs)⟩
  · rw [hmem]
    exact h₀.enter wordSize_eight (· >>> 1) b
  · change Aarch64Context.mk s'.x s'.sp s'.nzcv s'.v = Aarch64Context.mk s.x s.sp s.nzcv s.v
    rw [hregs, hback, hnzcv, hv, ht.nzcv, ht.v]

end Aarch64

/-! ## Runs -/

/-- On the platform the code of a block enters it into the edge map, with `next` as
the next previous location, and leaves the context as it was. -/
structure Platform.Counts (P : Platform n) (next : BitVec 16 → BitVec 16) : Prop where
  size : WordSize n
  memory_withMemory : ∀ s m, P.memory (P.withMemory s m) = m
  inline : ∀ (inner : CoverageRuntimeInner n) (b : BitVec 16) e s m,
    Refines inner (P.memory s) m → (∀ x, InScratch (P.sp s) x → ¬InRuntime inner x) →
    ∃ s', P.inline inner (b.setWidth 64) e s = some s' ∧
      Refines inner (P.memory s') (m.enter next b) ∧ P.context s' = P.context s ∧
      ∀ x, ¬InRuntime inner x → ¬InScratch (P.sp s) x → P.memory s' x = P.memory s x

theorem x86Platform_counts (hn : WordSize n)
    (code : CoverageRuntimeInner n → BitVec 64 → List (X86.Instr n))
    (next : BitVec 16 → BitVec 16)
    (hcode : ∀ (inner : CoverageRuntimeInner n) (b : BitVec 16), code inner (b.setWidth 64) =
      inlineCode inner (b.setWidth 32) ((next b).setWidth 32)) :
    (x86Platform code).Counts next where
  size := hn
  memory_withMemory _ _ := rfl
  inline inner b e s m h hsp := by
    refine ⟨X86.run (code inner (b.setWidth 64)) s, rfl, ?_⟩
    rw [hcode]
    have hrun := run_inlineCode hn s h hsp next b
    generalize X86.run (inlineCode inner (b.setWidth 32) ((next b).setWidth 32)) s = s' at hrun ⊢
    exact hrun

theorem x86_64_counts : x86_64.Counts (· >>> 1) := by
  refine x86Platform_counts wordSize_eight _ _ fun inner b => ?_
  have hloc : (b.setWidth 64).setWidth 32 = b.setWidth 32 := BitVec.setWidth_setWidth (by omega)
  have hnext : (b.setWidth 64 >>> 1).setWidth 32 = (b >>> 1).setWidth 32 := by
    rw [setWidth_shiftRight_one b (by omega)]
    exact BitVec.setWidth_setWidth (by omega)
  unfold generateInlineCodeX86_64
  rw [hloc, hnext]

/-- On x86 the previous location is not shifted. -/
theorem x86_counts : x86.Counts id := by
  refine x86Platform_counts ⟨by omega, by omega⟩ _ _ fun inner b => ?_
  have hloc : (b.setWidth 64).setWidth 32 = b.setWidth 32 := BitVec.setWidth_setWidth (by omega)
  unfold generateInlineCodeX86
  rw [hloc]
  rfl

theorem aarch64_counts : aarch64.Counts (· >>> 1) where
  size := wordSize_eight
  memory_withMemory _ _ := rfl
  inline _ b e s _ h hsp := enterBlock_exact s e h hsp b

section Runs

variable {P : Platform n} {next : BitVec 16 → BitVec 16} (hP : P.Counts next)
  (hashStd : List (BitVec 8) → BitVec 64)

include hP

/-- One block: it is counted, and what the target had in its context is back. -/
theorem runBlock_exact (b : BlockEntry inner P) {s : P.State} {m : EdgeMap 16}
    (h : Refines inner (P.memory s) m) :
    ∃ s', runBlock hashStd s b = some s' ∧
      Refines inner (P.memory s') (m.enter next (blockHash hashStd b)) ∧
      P.context s' = P.context (b.target.run s) ∧
      ∀ x, ¬InRuntime inner x → ¬InScratch (P.sp (b.target.run s)) x →
        P.memory s' x = P.memory (b.target.run s) x := by
  unfold runBlock emitCoverageMapping
  rw [masked_hash]
  exact hP.inline inner _ _ _ m (h.congr hP.size (b.target.keeps s)) (b.target.apart s)

theorem foldlM_runBlock (blocks : List (BlockEntry inner P)) {s : P.State} {m : EdgeMap 16}
    (h : Refines inner (P.memory s) m) :
    ∃ s', blocks.foldlM (runBlock hashStd) s = some s' ∧
      Refines inner (P.memory s') (m.run next (blocks.map (blockHash hashStd))) := by
  induction blocks generalizing s m with
  | nil => exact ⟨s, rfl, h⟩
  | cons b blocks ih =>
      rcases runBlock_exact hP hashStd b h with ⟨s₁, hs₁, h₁, -⟩
      rcases ih h₁ with ⟨s', hs', h'⟩
      refine ⟨s', ?_, h'⟩
      rw [List.foldlM_cons, hs₁]
      exact hs'

theorem refines_clearMap {s : P.State} {m : EdgeMap 16} (h : Refines inner (P.memory s) m) :
    Refines inner (P.memory (P.withMemory s (clearMap inner (P.memory s)))) m.cleared where
  counts i := by
    rw [hP.memory_withMemory]
    exact if_pos (inRange_map hP.size i)
  prev := by
    have hle := hP.size.le
    rw [hP.memory_withMemory]
    refine (ByteMemory.load_congr (hP.size.le_pow (by omega)) fun x hx => ?_).trans h.prev
    exact if_neg (inner.apart.symm x (inRange_previousPc hP.size hx))

/-- A run starts with a cleared map, and with the previous location as it is. -/
theorem runTarget_exact (blocks : List (BlockEntry inner P)) {s : P.State} {m : EdgeMap 16}
    (h : Refines inner (P.memory s) m) :
    ∃ s', runTarget hashStd s blocks = some s' ∧
      Refines inner (P.memory s') (m.cleared.run next (blocks.map (blockHash hashStd))) :=
  foldlM_runBlock hP hashStd blocks (refines_clearMap hP h)

theorem foldlM_runTarget (runs : List (List (BlockEntry inner P))) {s : P.State}
    {m : EdgeMap 16} (h : Refines inner (P.memory s) m) :
    ∃ s' m', runs.foldlM (runTarget hashStd) s = some s' ∧ Refines inner (P.memory s') m' ∧
      m'.prev = lastLocation next m.prev (runs.flatten.map (blockHash hashStd)) := by
  induction runs generalizing s m with
  | nil => exact ⟨s, m, rfl, h, rfl⟩
  | cons r runs ih =>
      rcases runTarget_exact hP hashStd r h with ⟨s₁, hs₁, h₁⟩
      rcases ih h₁ with ⟨s', m', hs', h', hprev⟩
      refine ⟨s', m', ?_, h', ?_⟩
      · rw [List.foldlM_cons, hs₁]
        exact hs'
      · rw [hprev, EdgeMap.run_prev, List.flatten_cons, List.map_append, lastLocation_append]
        rfl

omit hP in
theorem refines_new (hn : WordSize n) (mem : ByteMemory (8 * n)) :
    Refines inner (new inner mem) ⟨fun _ => 0, 0⟩ where
  counts i := if_pos (.inl (inRange_map hn i))
  prev := by
    have hle := hn.le
    have hzero : ∀ x, InRange inner.previousPc n x → new inner mem x = (fun _ => 0#8) x :=
      fun x hx => if_pos (.inr (inRange_previousPc hn hx))
    rw [ByteMemory.load_congr (hn.le_pow (by omega)) hzero]
    apply BitVec.eq_of_getLsbD_eq
    intro i hi
    rw [ByteMemory.getLsbD_load _ hi]
    simp

/-- A run after any others, from a new runtime. -/
theorem runTargets_exact (s : P.State) (runs : List (List (BlockEntry inner P)))
    (blocks : List (BlockEntry inner P)) :
    ∃ s', ∃ m : EdgeMap 16, runTargets hashStd s (runs ++ [blocks]) = some s' ∧
      m.prev = lastLocation next 0 (runs.flatten.map (blockHash hashStd)) ∧
      Refines inner (P.memory s') (m.cleared.run next (blocks.map (blockHash hashStd))) := by
  have hnew : Refines inner (P.memory (P.withMemory s (new inner (P.memory s))))
      ⟨fun _ => 0, 0⟩ := by
    rw [hP.memory_withMemory]
    exact refines_new hP.size _
  rcases foldlM_runTarget hP hashStd runs hnew with ⟨s₁, m, hs₁, h₁, hprev⟩
  rcases runTarget_exact hP hashStd blocks h₁ with ⟨s', hs', h'⟩
  refine ⟨s', m, ?_, hprev, h'⟩
  unfold runTargets
  rw [List.foldlM_append, hs₁]
  change List.foldlM (runTarget hashStd) s₁ [blocks] = some s'
  rw [List.foldlM_cons, hs']
  rfl

/-- After a run every entry of the map is the count of its edges. -/
theorem runTargets_counts (s : P.State) (runs : List (List (BlockEntry inner P)))
    (blocks : List (BlockEntry inner P)) :
    ∃ s', runTargets hashStd s (runs ++ [blocks]) = some s' ∧
      ∀ i, mapEntry inner s' i = neverZero ((edges next
        (lastLocation next 0 (runs.flatten.map (blockHash hashStd)))
        (blocks.map (blockHash hashStd))).count i) := by
  rcases runTargets_exact hP hashStd s runs blocks with ⟨s', m, hs', hprev, h'⟩
  refine ⟨s', hs', fun i => (h'.counts i).trans ?_⟩
  rw [EdgeMap.run_cleared_counts, hprev]

end Runs

/-! ## Every run -/

section Sessions

variable (P : Platform n) (hashStd : List (BitVec 8) → BitVec 64)

/-- The location that the blocks of the earlier runs have left: the hash of the last of
them, shifted by one, and zero before the first. -/
def locationAfter (runs : List (List (BlockEntry inner P))) : BitVec 16 :=
  lastLocation (· >>> 1) 0 (runs.flatten.map (blockHash hashStd))

/-- After every run, from the given location on, the map counts the run's edges. -/
def CountsFrom (start : ∀ inner, List (List (BlockEntry inner P)) → BitVec 16) : Prop :=
  ∀ (inner : CoverageRuntimeInner n) (s : P.State) (runs : List (List (BlockEntry inner P)))
    (blocks : List (BlockEntry inner P)),
    ∃ s', runTargets hashStd s (runs ++ [blocks]) = some s' ∧
      ∀ i, mapEntry inner s' i =
        neverZero ((edges (· >>> 1) (start inner runs) (blocks.map (blockHash hashStd))).count i)

/-- In every run, before every block: the code leaves the context as the target had it,
and the memory apart from the runtime's and the scratch. -/
def LeavesContext : Prop :=
  ∀ (inner : CoverageRuntimeInner n) (s : P.State) (runs : List (List (BlockEntry inner P)))
    (blocks : List (BlockEntry inner P)) (b : BlockEntry inner P),
    ∃ s₁ s₂, runTargets hashStd s (runs ++ [blocks]) = some s₁ ∧
      runBlock hashStd s₁ b = some s₂ ∧
      P.context s₂ = P.context (b.target.run s₁) ∧
      ∀ x, ¬InRuntime inner x → ¬InScratch (P.sp (b.target.run s₁)) x →
        P.memory s₂ x = P.memory (b.target.run s₁) x

/-- Two platforms compute the same map along the same blocks. -/
def SameMaps {n' : Nat} (P' : Platform n') : Prop :=
  ∀ (inner : CoverageRuntimeInner n) (inner' : CoverageRuntimeInner n') (s : P.State)
    (s' : P'.State) (runs : List (List (BlockEntry inner P)))
    (runs' : List (List (BlockEntry inner' P'))),
    runs.map (·.map BlockEntry.address) = runs'.map (·.map BlockEntry.address) → runs ≠ [] →
    ∃ t t', runTargets hashStd s runs = some t ∧ runTargets hashStd s' runs' = some t' ∧
      ∀ i, mapEntry inner t i = mapEntry inner' t' i

variable {P}

theorem leavesContext_of_counts {next : BitVec 16 → BitVec 16} (hP : P.Counts next) :
    LeavesContext P hashStd := by
  intro inner s runs blocks b
  rcases runTargets_exact hP hashStd s runs blocks with ⟨s₁, m, hs₁, -, h₁⟩
  rcases runBlock_exact hP hashStd b h₁ with ⟨s₂, hs₂, -, hcontext, hmem⟩
  exact ⟨s₁, s₂, hs₁, hs₂, hcontext, hmem⟩

theorem sameMaps_of_counts {n' : Nat} {P' : Platform n'} {next : BitVec 16 → BitVec 16}
    (hP : P.Counts next) (hP' : P'.Counts next) : SameMaps P hashStd P' := by
  intro inner inner' s s' runs runs' haddr hne
  have hhash : ∀ {k : Nat} {Q : Platform k} {l : CoverageRuntimeInner k}
      (bs : List (BlockEntry l Q)), bs.map (blockHash hashStd) =
        (bs.map BlockEntry.address).map fun a => (hashStd (toLeBytes a)).setWidth 16 :=
    fun bs => by rw [List.map_map]; rfl
  have hne' : runs' ≠ [] := by
    rintro rfl
    exact hne (List.map_eq_nil_iff.mp haddr)
  rcases List.eq_nil_or_concat runs with rfl | ⟨rs, r, rfl⟩
  · exact absurd rfl hne
  · rcases List.eq_nil_or_concat runs' with rfl | ⟨rs', r', rfl⟩
    · exact absurd rfl hne'
    · rw [List.concat_eq_append, List.concat_eq_append, List.map_append, List.map_append] at haddr
      rcases List.append_inj' haddr rfl with ⟨hrs, hr⟩
      have hlast : r.map BlockEntry.address = r'.map BlockEntry.address := (List.cons.inj hr).1
      have hearlier : rs.flatten.map BlockEntry.address = rs'.flatten.map BlockEntry.address := by
        rw [List.map_flatten, List.map_flatten, hrs]
      rcases runTargets_counts hP hashStd s rs r with ⟨t, ht, hcounts⟩
      rcases runTargets_counts hP' hashStd s' rs' r' with ⟨t', ht', hcounts'⟩
      rw [List.concat_eq_append, List.concat_eq_append]
      refine ⟨t, t', ht, ht', fun i => ?_⟩
      rw [hcounts i, hcounts' i, hhash, hhash, hhash, hhash, hlast, hearlier]

/-- The coverage runtime counts edges. On x86_64 and aarch64 the map of a run has the
counts of its edges, the first from the location where the runs before ended, and so
both compute the same map. On all three processors the code leaves the target's context
as it was. -/
theorem coverage_exact :
    CountsFrom x86_64 hashStd (fun _ => locationAfter x86_64 hashStd) ∧
      CountsFrom aarch64 hashStd (fun _ => locationAfter aarch64 hashStd) ∧
      SameMaps x86_64 hashStd aarch64 ∧
      LeavesContext x86_64 hashStd ∧ LeavesContext aarch64 hashStd ∧
      LeavesContext x86 hashStd :=
  ⟨fun _ => runTargets_counts x86_64_counts hashStd,
    fun _ => runTargets_counts aarch64_counts hashStd,
    sameMaps_of_counts hashStd x86_64_counts aarch64_counts,
    leavesContext_of_counts hashStd x86_64_counts,
    leavesContext_of_counts hashStd aarch64_counts,
    leavesContext_of_counts hashStd x86_counts⟩

/-- A hash for the example below: the low byte of the address. -/
def lowByte (bs : List (BitVec 8)) : BitVec 64 := (bs.headD 0).setWidth 64

/-- A runtime for the example below. -/
def exampleInner : CoverageRuntimeInner 8 where
  map := 0x10000
  previousPc := 0x20000
  apart x hmap hprev := by
    unfold InRange MAP_SIZE at *
    bv_omega

theorem exampleInner_apart (x : BitVec (8 * 8)) (hs : InScratch 0 x) :
    ¬InRuntime exampleInner x := by
  unfold InScratch InRange at hs
  unfold InRuntime InRange MAP_SIZE exampleInner
  dsimp only
  bv_omega

/-- The block at address 2, which the target enters with its stack at the top. -/
def exampleBlock : BlockEntry exampleInner x86_64 where
  target :=
    { run := fun s => X86.Machine.setReg s .rsp 0
      keeps := fun _ _ _ => rfl
      apart := fun s x hs => by
        have hsp : x86_64.sp (X86.Machine.setReg s .rsp 0) = 0 := rfl
        rw [hsp] at hs
        exact exampleInner_apart x hs }
  address := 2
  entry := ()

/-- The first edge of a run does not start at location zero: the previous location is
the one where the run before ended. -/
theorem not_countsFrom_zero : ¬CountsFrom x86_64 lowByte fun _ _ => 0 := by
  intro h
  let s : x86_64.State := ⟨fun _ => 0, ⟨false, false, false, false, false, false⟩,
    fun _ => 0, fun _ => 0⟩
  rcases h exampleInner s [[exampleBlock]] [exampleBlock] with ⟨t, ht, hzero⟩
  rcases runTargets_counts x86_64_counts lowByte s [[exampleBlock]] [exampleBlock] with
    ⟨t', ht', hcounts⟩
  obtain rfl : t = t' := Option.some.inj (ht.symm.trans ht')
  have hentry := (hzero 2).symm.trans (hcounts 2)
  revert hentry
  decide

end Sessions

end Libaflmm.CoverageRuntime
