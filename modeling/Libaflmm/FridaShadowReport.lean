import Libaflmm.FridaAllocatorExact
import Libaflmm.FridaCmplogFaults
import Libaflmm.FridaShadowCheckExact

/-!
# The report of the Frida sanitizer

The report fills an array with registers, calls `handle_trap`, and takes from the
array what it needs to go on behind the check. Five registers come from the stack;
their places there are those of the words that were pushed after them.

Put together with the allocator: an access to mapped chunks is reported if and
only if one of its bytes is in no live allocation, and the target does not notice.
-/

namespace Libaflmm

open X86

namespace AsanRuntime

variable (flagsAfter : FlagsAfter) (addressOf : CheckLabel → Qword) {s t u : Machine 8}

/-! ## The array -/

/-- The length of the array in bytes. -/
def SELF_REGS_SIZE : Nat := 8 * 19

/-- An entry of the array. -/
def slot (m : ByteMemory (8 * 8)) (selfRegsAddr : Qword) (i : Nat) : Qword :=
  m.load 8 (selfRegsAddr + BitVec.ofNat _ (8 * i))

variable {m : ByteMemory (8 * 8)} {base : Qword}

theorem slot_store_self (i : Nat) (v : Qword) :
    slot (m.store (base + BitVec.ofNat _ (8 * i)) v) base i = v :=
  ByteMemory.load_store_self (by decide) _ v

theorem slot_store_of_ne {i j : Nat} (hi : i < 19) (hj : j < 19) (hne : i ≠ j) (v : Qword) :
    slot (m.store (base + BitVec.ofNat _ (8 * j)) v) base i = slot m base i := by
  refine ByteMemory.load_store_of_apart (by decide) v ?_
  rcases Nat.lt_or_gt_of_ne hne with hlt | hgt
  · exact rangesApart_add base (by omega) (by omega)
  · exact (rangesApart_add base (by omega) (by omega)).symm

theorem slot_congr {m' : ByteMemory (8 * 8)} {i : Nat} (hi : i < 19)
    (h : ∀ x, InRange base SELF_REGS_SIZE x → m' x = m x) : slot m' base i = slot m base i :=
  ByteMemory.load_congr (by decide) fun x hx =>
    h x (hx.of_add (by rw [SELF_REGS_SIZE]; omega) (by decide))

/-- While the report fills the array, `rdi` points to it, and the entries in `filled`
have their words. Registers in `inUse` may have changed. -/
structure Filling (base : Qword) (u : Machine 8) (filled : List (Nat × Qword)) (inUse : List Gpr)
    (t : Machine 8) : Prop where
  rdi : t.regs .rdi = base
  entries : ∀ e ∈ filled, e.1 < 19 ∧ slot t.memory base e.1 = e.2
  regs : ∀ r, r ∉ inUse → r ≠ .rdi → t.regs r = u.regs r
  memory : ∀ x, ¬InRange base SELF_REGS_SIZE x → t.memory x = u.memory x

variable {filled : List (Nat × Qword)} {inUse : List Gpr}

theorem Filling.saveReg (h : Filling base u filled inUse t) {i : Nat} (hi : i < 19)
    (hnew : ∀ e ∈ filled, e.1 ≠ i) (r : Gpr) :
    Filling base u ((i, t.regs r) :: filled) inUse (execOp flagsAfter t (saveReg i r)) := by
  have hmem : (execOp flagsAfter t (AsanRuntime.saveReg i r)).memory =
      t.memory.store (base + BitVec.ofNat _ (8 * i)) (t.regs r) := by
    rw [← h.rdi, ← address_atOffset]
    rfl
  refine ⟨h.rdi, fun e he => ?_, h.regs, fun x hx => ?_⟩
  · rw [hmem]
    rcases List.mem_cons.mp he with rfl | he
    · exact ⟨hi, slot_store_self i _⟩
    · obtain ⟨hlt, hslot⟩ := h.entries e he
      exact ⟨hlt, (slot_store_of_ne hlt hi (hnew e he) _).trans hslot⟩
  · rw [hmem, ByteMemory.store_of_not_inRange _ fun hin => hx ?_]
    · exact h.memory x hx
    · exact hin.of_add (by rw [SELF_REGS_SIZE]; omega) (by decide)

/-- Registers that are saved one after the other. -/
theorem Filling.saveRegs (h : Filling base u filled inUse t) (es : List (Nat × Gpr))
    (hlt : ∀ e ∈ es, e.1 < 19) (hnew : ∀ e ∈ es, ∀ f ∈ filled, f.1 ≠ e.1)
    (hnodup : (es.map (·.1)).Nodup) :
    Filling base u ((es.map fun e => (e.1, t.regs e.2)).reverse ++ filled) inUse
        (runOps flagsAfter (es.map fun e => AsanRuntime.saveReg e.1 e.2) t) ∧
      (runOps flagsAfter (es.map fun e => AsanRuntime.saveReg e.1 e.2) t).regs = t.regs := by
  induction es generalizing t filled with
  | nil => exact ⟨h, rfl⟩
  | cons e es ih =>
      obtain ⟨hfirst, hnodup⟩ := List.nodup_cons.mp hnodup
      have hstep := h.saveReg flagsAfter (hlt e (List.mem_cons_self ..))
        (hnew e (List.mem_cons_self ..)) e.2
      have hnew' : ∀ e' ∈ es, ∀ f ∈ (e.1, t.regs e.2) :: filled, f.1 ≠ e'.1 := by
        intro e' he' f hf
        rcases List.mem_cons.mp hf with rfl | hf
        · exact fun heq => hfirst (List.mem_map.mpr ⟨e', he', heq.symm⟩)
        · exact hnew e' (List.mem_cons_of_mem _ he') f hf
      obtain ⟨hfill, hregs⟩ := ih hstep (fun e he => hlt e (List.mem_cons_of_mem _ he)) hnew' hnodup
      rw [List.map_cons, List.reverse_cons, List.append_assoc]
      exact ⟨hfill, hregs⟩

/-- A word goes from the stack through a register into an entry. -/
theorem Filling.saveFromStack (h : Filling base u filled inUse t) {ws : List Qword} {w : Qword}
    (hstack : StackAt u.memory (u.regs .rsp) ws) {i k : Nat} {r : Gpr} (hw : ws[k]? = some w)
    (hapart : RangesApart (u.regs .rsp + BitVec.ofNat _ (8 * k)) 8 base SELF_REGS_SIZE)
    (hrsp : .rsp ∉ inUse) (hr : r ∈ inUse) (hrdi : r ≠ .rdi) (hi : i < 19)
    (hnew : ∀ e ∈ filled, e.1 ≠ i) :
    Filling base u ((i, w) :: filled) inUse
      (runOps flagsAfter (AsanRuntime.saveFromStack (8 * k) r i) t) := by
  have hload : t.memory.load 8 (t.address (atOffset .rsp (8 * k))) = w := by
    rw [address_atOffset, h.regs .rsp hrsp (by decide), ← hstack.load hw]
    exact ByteMemory.load_congr (by decide) fun x hx => h.memory x (hapart x hx)
  have hset : Filling base u filled inUse (t.setReg r w) := by
    refine ⟨(setReg_of_ne t w hrdi.symm).trans h.rdi, h.entries, fun r' hr' hrdi' => ?_, h.memory⟩
    have hne : r' ≠ r := by
      rintro rfl
      exact hr' hr
    exact (setReg_of_ne t w hne).trans (h.regs r' hr' hrdi')
  have hsave := hset.saveReg flagsAfter hi hnew r
  rw [setReg_self] at hsave
  have hrun : runOps flagsAfter (AsanRuntime.saveFromStack (8 * k) r i) t =
      execOp flagsAfter (t.setReg r (t.memory.load 8 (t.address (atOffset .rsp (8 * k)))))
        (AsanRuntime.saveReg i r) := rfl
  rw [hrun, hload]
  exact hsave

/-- Loads of registers from the array. -/
theorem runOps_loadRegs (es : List (Nat × Gpr)) (hrdi : ∀ e ∈ es, e.2 ≠ .rdi)
    (hnodup : (es.map (·.2)).Nodup) (t : Machine 8) :
    (∀ e ∈ es, (runOps flagsAfter (es.map fun e => loadReg e.1 e.2) t).regs e.2 =
        slot t.memory (t.regs .rdi) e.1) ∧
      (∀ r, r ∉ es.map (·.2) →
        (runOps flagsAfter (es.map fun e => loadReg e.1 e.2) t).regs r = t.regs r) ∧
      (runOps flagsAfter (es.map fun e => loadReg e.1 e.2) t).memory = t.memory := by
  induction es generalizing t with
  | nil => exact ⟨fun e he => absurd he List.not_mem_nil, fun _ _ => rfl, rfl⟩
  | cons e es ih =>
      obtain ⟨hfirst, hnodup⟩ := List.nodup_cons.mp hnodup
      have hstep : execOp flagsAfter t (loadReg e.1 e.2) =
          t.setReg e.2 (slot t.memory (t.regs .rdi) e.1) := by
        rw [slot, ← address_atOffset]
        rfl
      have hbase : (execOp flagsAfter t (loadReg e.1 e.2)).regs .rdi = t.regs .rdi := by
        rw [hstep]
        exact setReg_of_ne t _ (hrdi e (List.mem_cons_self ..)).symm
      have hmem : (execOp flagsAfter t (loadReg e.1 e.2)).memory = t.memory := by
        rw [hstep]
        rfl
      obtain ⟨hloaded, hkept, hmemory⟩ := ih (fun e he => hrdi e (List.mem_cons_of_mem _ he))
        hnodup (execOp flagsAfter t (loadReg e.1 e.2))
      rw [hbase, hmem] at hloaded
      refine ⟨fun e' he' => ?_, fun r hr => ?_, hmemory.trans hmem⟩
      · rcases List.mem_cons.mp he' with rfl | he'
        · refine (hkept e'.2 hfirst).trans ?_
          rw [hstep]
          exact setReg_self t _ _
        · exact hloaded e' he'
      · obtain ⟨hne, hr⟩ := List.ne_and_not_mem_of_not_mem_cons hr
        refine (hkept r hr).trans ?_
        rw [hstep]
        exact setReg_of_ne t _ hne

/-- The stack pointer goes down to a multiple of 16, by less than three words. -/
theorem align_stack (sp : Qword) :
    ∃ d, 8 ≤ d ∧ d < 24 ∧ (sp + (-8 : Qword)) &&& (-16 : Qword) = sp - BitVec.ofNat (8 * 8) d := by
  have hmask : ∀ i < 64, (-16#64).getLsbD i = decide (4 ≤ i) := by decide
  have hshift : (sp + (-8 : Qword)) &&& (-16 : Qword) = (sp + (-8 : Qword)) >>> 4 <<< 4 := by
    refine BitVec.eq_of_getLsbD_eq fun i hi => ?_
    have hi' : (-16 : BitVec (8 * 8)).getLsbD i = decide (4 ≤ i) := hmask i hi
    rw [BitVec.getLsbD_and, hi', BitVec.getLsbD_shiftLeft, BitVec.getLsbD_ushiftRight]
    by_cases h4 : i < 4
    · simp [h4, Nat.not_le.mpr h4]
    · have hadd : 4 + (i - 4) = i := by omega
      rw [decide_eq_true hi, decide_eq_false h4, decide_eq_true (Nat.not_lt.mp h4), hadd]
      simp
  refine ⟨8 + (sp + (-8 : Qword)).toNat % 16, by omega, by omega, ?_⟩
  rw [hshift]
  generalize hy : sp + (-8 : Qword) = y
  have hsp : sp = y + 8 := by
    rw [← hy]
    bv_omega
  rw [hsp]
  have hlt := y.isLt
  refine BitVec.eq_of_toNat_eq ?_
  rw [BitVec.toNat_shiftLeft, BitVec.toNat_ushiftRight, Nat.shiftLeft_eq, Nat.shiftRight_eq_div_pow,
    BitVec.toNat_sub, BitVec.toNat_add, BitVec.toNat_ofNat]
  have height : (8 : Qword).toNat = 8 := rfl
  omega

/-! ## The report as a whole -/

/-- What the check needs of the addresses in the target's state: it may write below
the red zone, and the array is elsewhere. -/
structure Placed (at_ : ReportAddresses) (stack : Qword → Prop) (s : Machine 8) : Prop where
  stack : ∀ x, Scratch s x → stack x
  array : ∀ x, Scratch s x → ¬InRange at_.selfRegsAddr SELF_REGS_SIZE x

variable {access : Access} {at_ : ReportAddresses} {stack : Qword → Prop}

/-- The words on the stack when the report starts. -/
def pushedWords (access : Access) (s : Machine 8) : List Qword :=
  access.checkedAddress s :: access.address :: savedWords s

/-- The entries of the array when `handle_trap` is called. The registers that come from
the stack are taken two words too high there. -/
def reportedEntries (access : Access) (s u : Machine 8) : List (Nat × Qword) :=
  [(7, s.regs .rdx), (18, access.address), (17, access.checkedAddress s), (6, s.regs .rcx),
      (3, s.regs .rax), (2, s.regs .rbp), (0, s.regs .r8)] ++
    ((keptSlots.map fun e => (e.1, u.regs e.2)).reverse ++ [(16, u.regs .rsi)])

/-- The lowest address of the scratch. -/
def scratchStart (s : Machine 8) : Qword :=
  s.regs .rsp - BitVec.ofNat _ GUM_RED_ZONE_SIZE - BitVec.ofNat _ (8 * 14)

/-- What is below the red zone is above the start of the scratch. -/
theorem sub_eq_scratchStart (s : Machine 8) {k : Nat} (hk : k ≤ 8 * 14) :
    s.regs .rsp - BitVec.ofNat _ GUM_RED_ZONE_SIZE - BitVec.ofNat _ k =
      scratchStart s + BitVec.ofNat _ (8 * 14 - k) := by
  have hsum : BitVec.ofNat (8 * 8) (8 * 14) =
      BitVec.ofNat _ (8 * 14 - k) + BitVec.ofNat _ k := by
    rw [← BitVec.ofNat_add, Nat.sub_add_cancel hk]
  rw [scratchStart, hsum]
  generalize s.regs .rsp - BitVec.ofNat (8 * 8) GUM_RED_ZONE_SIZE = sp
  generalize BitVec.ofNat (8 * 8) (8 * 14 - k) = a
  generalize BitVec.ofNat (8 * 8) k = b
  bv_omega

theorem Inside.sp_eq (h : Inside s (pushedWords access s) inUse u) :
    u.regs .rsp = scratchStart s + BitVec.ofNat _ 32 :=
  h.sp.trans (sub_eq_scratchStart s (k := 80) (by decide))

/-- The words on the stack are in the scratch. -/
theorem Inside.scratch (h : Inside s (pushedWords access s) inUse u) {x : Qword}
    (hx : InRange (u.regs .rsp) 80 x) : Scratch s x := by
  rw [h.sp_eq, inRange_add_iff _ (by decide)] at hx
  exact hx.2

theorem Inside.scratch_word (h : Inside s (pushedWords access s) inUse u) {k : Nat} (hk : k < 10)
    {x : Qword} (hx : InRange (u.regs .rsp + BitVec.ofNat _ (8 * k)) 8 x) : Scratch s x :=
  h.scratch (hx.of_add (by omega) (by decide))

/-- The registers that the report uses besides `rdi`. -/
def reportRegs : List Gpr := [.rax, .rcx, .rdx, .rsi]

/-- A word that was pushed goes into an entry. -/
theorem Filling.saveWord (hfill : Filling at_.selfRegsAddr u filled reportRegs t)
    (h : Inside s (pushedWords access s) inUse u) (hplaced : Placed at_ stack s) {k i : Nat}
    {r : Gpr} {w : Qword} (hw : (pushedWords access s)[k]? = some w)
    (hok : k < 10 ∧ i < 19 ∧ r ∈ reportRegs) (hnew : ∀ e ∈ filled, e.1 ≠ i) :
    Filling at_.selfRegsAddr u ((i, w) :: filled) reportRegs
      (runOps flagsAfter (AsanRuntime.saveFromStack (8 * k) r i) t) := by
  obtain ⟨hk, hi, hr⟩ := hok
  refine hfill.saveFromStack flagsAfter h.stack hw
    (fun x hx => hplaced.array x (h.scratch_word hk hx)) (by decide) hr ?_ hi hnew
  rintro rfl
  revert hr
  decide

theorem reportedEntries_tail_ne (access : Access) (s u : Machine 8) :
    ∀ e ∈ (reportedEntries access s u).tail, e.1 ≠ 7 := by
  simp [reportedEntries, keptSlots]

/-- The end of the report in front of the call. -/
def passSelf (selfAddr trapFunc : Qword) : List Op :=
  [.mov .rsi .rdi, .plain (.movLoad .rdi (atOffset .rsp 0x30)),
    .plain (.movStore (atOffset .rsi 0x38) .rdi), .plain (.movImm .rdi selfAddr),
    .plain (.movImm .rcx selfAddr), .plain (.movImm .rsi trapFunc), .addImm .rsp (-8),
    .andImm .rsp (-16)]

theorem runOps_passSelf (selfAddr trapFunc : Qword) (t : Machine 8) :
    (runOps flagsAfter (passSelf selfAddr trapFunc) t).memory =
        t.memory.store (t.regs .rdi + BitVec.ofNat _ (8 * 7))
          (t.memory.load 8 (t.regs .rsp + BitVec.ofNat _ (8 * 6))) ∧
      (runOps flagsAfter (passSelf selfAddr trapFunc) t).regs .rsp =
        (t.regs .rsp + (-8 : Qword)) &&& (-16 : Qword) := by
  simp only [runOps, passSelf, List.foldl, execOp, exec, Machine.withFlags, Machine.setReg,
    Machine.write, address_atOffset, Function.update_self, ne_eq, reduceCtorEq,
    not_false_eq_true, Function.update_of_ne, and_self]

/-- When `handle_trap` is called, the array is filled and nothing else has changed. -/
theorem filling_trapped (h : Inside s (pushedWords access s) inUse u)
    (hplaced : Placed at_ stack s) :
    let t := trapped flagsAfter at_ u
    (∀ e ∈ reportedEntries access s u, e.1 < 19 ∧ slot t.memory at_.selfRegsAddr e.1 = e.2) ∧
      (∀ x, ¬InRange at_.selfRegsAddr SELF_REGS_SIZE x → t.memory x = u.memory x) ∧
      t.regs .rsp = (u.regs .rsp + (-8 : Qword)) &&& (-16 : Qword) := by
  have hstart : Filling at_.selfRegsAddr u [] reportRegs (u.setReg .rdi at_.selfRegsAddr) :=
    ⟨setReg_self u _ _, fun e he => absurd he List.not_mem_nil,
      fun r _ hr => setReg_of_ne u _ hr, fun _ _ => rfl⟩
  have hdone := hstart.saveReg flagsAfter (i := 16) (by decide)
    (fun e he => absurd he List.not_mem_nil) .rsi
  rw [setReg_of_ne u _ (by decide : Gpr.rsi ≠ .rdi)] at hdone
  obtain ⟨hkept, -⟩ := hdone.saveRegs flagsAfter keptSlots (by decide)
    (by simp [keptSlots]) (by decide)
  have hwords : (keptSlots.map fun e => (e.1, (execOp flagsAfter (u.setReg .rdi at_.selfRegsAddr)
      (saveReg 16 .rsi)).regs e.2)) = keptSlots.map fun e => (e.1, u.regs e.2) := by
    refine List.map_congr_left fun e he => ?_
    rw [hdone.regs e.2 (by revert e; decide) (by revert e; decide)]
  rw [hwords] at hkept
  have hrax := hkept.saveWord flagsAfter h hplaced (k := 2) (i := 0) (r := .rax) rfl
    (by decide) (by simp [keptSlots])
  have hrcx := hrax.saveWord flagsAfter h hplaced (k := 3) (i := 2) (r := .rcx) rfl
    (by decide) (by simp [keptSlots])
  have hrdx := hrcx.saveWord flagsAfter h hplaced (k := 4) (i := 3) (r := .rdx) rfl
    (by decide) (by simp [keptSlots])
  have hrsi := hrdx.saveWord flagsAfter h hplaced (k := 5) (i := 6) (r := .rsi) rfl
    (by decide) (by simp [keptSlots])
  have haddr := hrsi.saveWord flagsAfter h hplaced (k := 0) (i := 17) (r := .rsi)
    rfl (by decide) (by simp [keptSlots])
  have hrip := haddr.saveWord flagsAfter h hplaced (k := 1) (i := 18) (r := .rsi)
    rfl (by decide) (by simp [keptSlots])
  let filled := (reportBefore at_.selfAddr at_.selfRegsAddr at_.trapFunc).take 25
  have hrun : trapped flagsAfter at_ u = runOps flagsAfter (passSelf at_.selfAddr at_.trapFunc)
      (runOps flagsAfter filled u) := by
    rw [trapped, ← runOps_append]
    rfl
  have hfill : Filling at_.selfRegsAddr u (reportedEntries access s u).tail reportRegs
      (runOps flagsAfter filled u) := hrip
  generalize runOps flagsAfter filled u = t at hrun hfill
  obtain ⟨hmemory, hrsp⟩ := runOps_passSelf flagsAfter at_.selfAddr at_.trapFunc t
  rw [← hrun] at hmemory hrsp
  have hword : t.memory.load 8 (t.regs .rsp + BitVec.ofNat _ (8 * 6)) = s.regs .rdx := by
    rw [hfill.regs .rsp (by decide) (by decide), ← h.stack.load (i := 6) (w := s.regs .rdx) rfl]
    exact ByteMemory.load_congr (by decide) fun x hx =>
      hfill.memory x (hplaced.array x (h.scratch_word (by decide) hx))
  rw [hword, hfill.rdi] at hmemory
  refine ⟨fun e he => ?_, fun x hx => ?_, ?_⟩
  · rw [hmemory]
    rcases List.mem_cons.mp he with rfl | he
    · exact ⟨show 7 < 19 by decide, slot_store_self 7 _⟩
    · obtain ⟨hlt, hslot⟩ := hfill.entries e he
      have hne := reportedEntries_tail_ne access s u e he
      exact ⟨hlt, (slot_store_of_ne hlt (by decide) hne _).trans hslot⟩
  · rw [hmemory, ByteMemory.store_of_not_inRange _ fun hin => hx ?_]
    · exact hfill.memory x hx
    · exact hin.of_add (by decide) (by decide)
  · rw [hrsp, hfill.regs .rsp (by decide) (by decide)]

open CmpLogRuntime (Callee call NotBelow)

variable (handleTrap : Callee .unix stack)

/-- The addresses that are unchanged when `handle_trap` has returned. -/
def KeptByTrap (handleTrap : Callee .unix stack) (x : Qword) : Prop :=
  ∀ v, (handleTrap.run v).memory x = v.memory x

/-- `handle_trap` gets a stack that is below the words that were pushed. -/
theorem memory_call (h : Inside s (pushedWords access s) inUse u) (hplaced : Placed at_ stack s)
    {v : Machine 8} (hsp : v.regs .rsp = (u.regs .rsp + (-8 : Qword)) &&& (-16 : Qword)) :
    (∀ x, InRange (u.regs .rsp) 80 x → (call handleTrap at_.ret v).memory x = v.memory x) ∧
      ∀ x, ¬Scratch s x → KeptByTrap handleTrap x →
        (call handleTrap at_.ret v).memory x = v.memory x := by
  obtain ⟨d, hlo, hhi, halign⟩ := align_stack (u.regs .rsp)
  have hsub : ∀ k, k ≤ 32 → u.regs .rsp - BitVec.ofNat _ k =
      scratchStart s + BitVec.ofNat _ (32 - k) := by
    intro k hk
    have hadd := sub_eq_scratchStart s (k := 80 + k) (by omega)
    rw [BitVec.ofNat_add, ← BitVec.sub_sub] at hadd
    rw [h.sp]
    refine hadd.trans ?_
    congr 2
    omega
  rw [halign, hsub d (by omega)] at hsp
  have hpush : v.regs .rsp - 8#(8 * 8) = scratchStart s + BitVec.ofNat _ (24 - d) := by
    have hback := hsub (d + 8) (by omega)
    rw [BitVec.ofNat_add, ← BitVec.sub_sub, hsub d (by omega), ← hsp] at hback
    refine hback.trans ?_
    congr 2
    omega
  have hstore : ∀ x, InRange (v.regs .rsp - 8#(8 * 8)) 8 x → (x - scratchStart s).toNat < 32 := by
    intro x hx
    rw [hpush, inRange_add_iff _ (by omega)] at hx
    omega
  refine ⟨fun x hx => ?_, fun x hx hkept => ?_⟩
  · have hin := h.scratch hx
    rw [h.sp_eq, inRange_add_iff _ (by decide)] at hx
    have hnot : NotBelow ((v.pushWord at_.ret).regs .rsp + 8#(8 * 8) + 0#(8 * 8)) x := by
      rw [pushWord_rsp, BitVec.sub_add_cancel, BitVec.add_zero, hsp]
      exact (inRange_add_iff _ (by omega) x).mpr (by omega)
    refine (handleTrap.memory _ x (hplaced.stack x hin) hnot).trans ?_
    refine ByteMemory.store_of_not_inRange _ fun hret => ?_
    exact absurd (hstore x hret) (by omega)
  · refine (hkept _).trans (ByteMemory.store_of_not_inRange _ fun hret => hx ?_)
    exact (hstore x hret).trans (by decide)

/-- The registers that are taken from the array. -/
def restoredSlots : List (Nat × Gpr) := keptSlots ++ [(16, .rsi)]

theorem reportAfter_eq (selfRegsAddr : Qword) :
    reportAfter selfRegsAddr = .plain (.movImm .rdi selfRegsAddr) ::
      restoredSlots.map fun e => loadReg e.1 e.2 := rfl

theorem mem_reportedEntries (access : Access) (s u : Machine 8) {e : Nat × Gpr}
    (he : e ∈ restoredSlots) : (e.1, u.regs e.2) ∈ reportedEntries access s u := by
  refine List.mem_append_right _ ?_
  rcases List.mem_append.mp he with he | he
  · exact List.mem_append_left _ (List.mem_reverse.mpr (List.mem_map.mpr ⟨e, he, rfl⟩))
  · obtain rfl := List.mem_singleton.mp he
    exact List.mem_append_right _ (List.mem_singleton_self _)

/-- Behind the report the words are still on the stack, and the registers that the check
does not save are as they were. -/
theorem inside_report (h : Inside s (pushedWords access s) [.rdi, .rsi, .rdx, .rcx] u)
    (hplaced : Placed at_ stack s)
    (hkeeps : ∀ x, InRange at_.selfRegsAddr SELF_REGS_SIZE x → KeptByTrap handleTrap x) :
    let t := report flagsAfter at_ handleTrap u
    Inside s (pushedWords access s) [.rdi, .rsi, .rdx, .rcx, .rax] t ∧
      t.regs .rsi = u.regs .rsi ∧
      ∀ x, ¬Scratch s x → ¬InRange at_.selfRegsAddr SELF_REGS_SIZE x →
        KeptByTrap handleTrap x → t.memory x = u.memory x := by
  obtain ⟨hentries, hmemory, hsp⟩ := filling_trapped flagsAfter h hplaced
  obtain ⟨hstack, hother⟩ := memory_call handleTrap h hplaced hsp
  have harray : ∀ x, InRange at_.selfRegsAddr SELF_REGS_SIZE x → ¬Scratch s x :=
    fun x hx hin => hplaced.array x hin hx
  have hcalled : report flagsAfter at_ handleTrap u =
      runOps flagsAfter (restoredSlots.map fun e => loadReg e.1 e.2)
        ((call handleTrap at_.ret (trapped flagsAfter at_ u)).setReg .rdi at_.selfRegsAddr) := by
    rw [report, reportAfter_eq]
    rfl
  rw [hcalled]
  generalize trapped flagsAfter at_ u = v at hentries hmemory hsp hstack hother
  generalize call handleTrap at_.ret v = w at hstack hother
  obtain ⟨hloaded, -, hmem⟩ := runOps_loadRegs flagsAfter restoredSlots
    (by decide) (by decide) (w.setReg .rdi at_.selfRegsAddr)
  generalize runOps flagsAfter (restoredSlots.map fun e => loadReg e.1 e.2)
    (w.setReg .rdi at_.selfRegsAddr) = t at hloaded hmem
  rw [setReg_memory] at hmem
  have hregs : ∀ e ∈ restoredSlots, t.regs e.2 = u.regs e.2 := by
    intro e he
    obtain ⟨hlt, hslot⟩ := hentries _ (mem_reportedEntries access s u he)
    rw [hloaded e he, setReg_memory, setReg_self]
    refine Eq.trans ?_ hslot
    exact slot_congr hlt fun x hx => hother x (harray x hx) (hkeeps x hx)
  have hrsp : t.regs .rsp = u.regs .rsp := hregs (5, .rsp) (by decide)
  refine ⟨⟨?_, hrsp.trans h.sp, fun r hr hr' => ?_⟩, hregs (16, .rsi) (by decide),
    fun x hx hx' hkept => ?_⟩
  · rw [hrsp, hmem]
    refine h.stack.congr (show 80 ≤ 2 ^ 64 by decide) fun x hx => ?_
    rw [hstack x hx, hmemory x (hplaced.array x (h.scratch hx))]
  · have hslot : ∃ e ∈ restoredSlots, e.2 = r := by
      revert hr hr'
      cases r <;> decide
    obtain ⟨e, he, rfl⟩ := hslot
    rw [hregs e he]
    exact h.regs _ (fun hin => hr (List.mem_append_left [Gpr.rax] hin)) hr'
  · rw [hmem, hother x hx hkept, hmemory x hx']

/-! ## The check as a whole -/

/-- The check up to the jump to the report. -/
theorem runItems_checkAccess (shadowBit : Nat) (hwidth : access.width ∈ checkedWidths)
    (t : Machine 8) :
    let t' := runOps flagsAfter (compareShadow shadowBit access.width) t
    runItems flagsAfter addressOf none (checkAccess shadowBit access) t =
      if t'.flags.zero then (none, t') else (some .report, t'.setReg .rsi (addressOf .done)) := by
  intro t'
  rw [checkAccess, if_pos hwidth, generateShadowCheckBlob_eq, List.append_assoc, runItems_append,
    runItems_ops]
  change runItems flagsAfter addressOf (if t'.flags.zero then some .done else none) _ t' = _
  cases t'.flags.zero <;> rfl

/-- From the report the code goes on behind the jump. -/
theorem runItems_checkAccess_done {shadowBit : Nat} (hwidth : access.width ∈ checkedWidths)
    (t : Machine 8) :
    runItems flagsAfter addressOf (some .done) (checkAccess shadowBit access) t = (none, t) := by
  rw [checkAccess, if_pos hwidth, runItems_append, runItems_skip]
  · rfl
  · simp [generateShadowCheckBlob]

theorem label_not_mem_pushAccess (access : Access) (l : CheckLabel) :
    .label l ∉ pushAccess access := by
  have hscale : .label l ∉ scaleRsi access := by
    unfold scaleRsi
    split <;> simp
  have hrdi : .label l ≠ initRdi access := by
    unfold initRdi leaStackPointer
    split <;> simp
  have hrsi : .label l ≠ initRsi access := by
    unfold initRsi leaStackPointer
    split <;> simp
  simp [pushAccess, hscale, hrdi, hrsi]

/-- The array that `handle_trap` finds, for a check of `access` in the state `s`. The
entries of `rax`, `rcx`, `rdx`, `rsi` and `rdi` have other registers. -/
def reportedArray (access : Access) (s : Machine 8) (done : Qword) : List (Nat × Qword) :=
  [(0, s.regs .r8), (1, s.regs .rbx), (2, s.regs .rbp), (3, s.regs .rax), (4, s.regs .rbp),
    (5, s.regs .rsp - BitVec.ofNat _ GUM_RED_ZONE_SIZE - 80), (6, s.regs .rcx), (7, s.regs .rdx),
    (8, s.regs .r8), (9, s.regs .r9), (10, s.regs .r10), (11, s.regs .r11), (12, s.regs .r12),
    (13, s.regs .r13), (14, s.regs .r14), (15, s.regs .r15), (16, done),
    (17, access.checkedAddress s), (18, access.address)]

theorem reportedArray_subset (h : Inside s (pushedWords access s) [.rdi, .rsi, .rdx, .rcx] u) :
    ∀ e ∈ reportedArray access s (u.regs .rsi), e ∈ reportedEntries access s u := by
  have hregs : ∀ r ∈ [Gpr.rbx, .rbp, .r8, .r9, .r10, .r11, .r12, .r13, .r14, .r15],
      u.regs r = s.regs r := by
    intro r hr
    refine h.regs r ?_ ?_
    · revert hr
      cases r <;> decide
    · rintro rfl
      exact absurd hr (by decide)
  have hsp : u.regs .rsp = s.regs .rsp - BitVec.ofNat _ GUM_RED_ZONE_SIZE - 80 := h.sp
  simp [reportedArray, reportedEntries, keptSlots, hregs, hsp]

/-- What the check of an access does from the state `s`, where `passes` tells if there is
nothing to report. -/
structure Checks (handleTrap : Callee .unix stack) (flagsAfter : FlagsAfter)
    (addressOf : CheckLabel → Qword) (at_ : ReportAddresses) (access : Access) (s : Machine 8)
    (passes : Prop) (outcome : Option (Machine 8) × Machine 8) : Prop where
  passes_iff : outcome.1 = none ↔ passes
  reported : ∀ u, outcome.1 = some u → ∀ e ∈ reportedArray access s (addressOf .done),
    slot (trapped flagsAfter at_ u).memory at_.selfRegsAddr e.1 = e.2
  regs : outcome.2.regs = s.regs
  flags : outcome.2.flags = s.flags
  xmm : passes → outcome.2.xmm = s.xmm
  memory : ∀ x, ¬Scratch s x →
    passes ∨ (¬InRange at_.selfRegsAddr SELF_REGS_SIZE x ∧ KeptByTrap handleTrap x) →
      outcome.2.memory x = s.memory x

theorem checks_of_pass {passes : Prop} (hpasses : passes) (hregs : t.regs = s.regs)
    (hflags : t.flags = s.flags) (hxmm : t.xmm = s.xmm)
    (hmem : ∀ x, ¬Scratch s x → t.memory x = s.memory x) :
    Checks handleTrap flagsAfter addressOf at_ access s passes (none, t) :=
  ⟨iff_of_true rfl hpasses, fun u hu => (by cases hu), hregs, hflags, fun _ => hxmm,
    fun x hx _ => hmem x hx⟩

variable {a : FridaAllocator}

/-- The bytes of the access are unpoisoned; an access of another width is not looked at. -/
def Passes (a : FridaAllocator) (access : Access) (s : Machine 8) : Prop :=
  access.width ∈ checkedWidths →
    ∀ k < access.width, a.Unpoisoned ((access.checkedAddress s).toNat + k)

/-- From the report the code runs to its end. -/
theorem runItems_resume (hwidth : access.width ∈ checkedWidths) (shadowBit : Nat)
    (h : Inside s (pushedWords access s) [.rdi, .rsi, .rdx, .rcx, .rax] t) :
    ∃ t', runItems flagsAfter addressOf (some .done) (emitShadowCheck shadowBit access) t =
        (none, t') ∧ t'.regs = s.regs ∧ t'.flags = s.flags ∧ t'.memory = t.memory := by
  obtain ⟨t', hrun, hregs, hflags, -, hmem⟩ := runItems_restoreContext flagsAfter
    addressOf s h
  refine ⟨t', ?_, hregs, hflags, hmem⟩
  have hsave : .label .done ∉ saveContext := by simp [saveContext, pushes]
  rw [emitShadowCheck, runItems_append, runItems_skip hsave, runItems_append,
    runItems_skip (label_not_mem_pushAccess access .done), runItems_append,
    runItems_checkAccess_done flagsAfter addressOf hwidth, hrun]

/-- The whole check, with the shadow in memory. -/
theorem runCheck_checks (hop : access.Encodable) (hshadow : HasShadow a s.memory)
    (hapart : ∀ i < 2 ^ (a.options.shadowBit + 1),
      ¬Scratch s (BitVec.ofNat _ (2 ^ a.options.shadowBit + i)))
    (hlimit : access.width ∈ checkedWidths →
      (access.checkedAddress s).toNat + access.width ≤ a.addressLimit)
    (hplaced : Placed at_ stack s)
    (hkeeps : ∀ x, InRange at_.selfRegsAddr SELF_REGS_SIZE x → KeptByTrap handleTrap x) :
    ∃ outcome, runCheck flagsAfter addressOf at_ handleTrap a.options.shadowBit access s =
        some outcome ∧
      Checks handleTrap flagsAfter addressOf at_ access s (Passes a access s) outcome := by
  obtain ⟨t₁, hrun₁, h₁, hxmm₁, hmem₁⟩ := runItems_saveContext flagsAfter
    addressOf s
  obtain ⟨t₂, hrun₂, h₂, hrdi₂, hxmm₂, hmem₂⟩ := runItems_pushAccess flagsAfter
    addressOf h₁ hop
  have hmem : ∀ x, ¬Scratch s x → t₂.memory x = s.memory x := fun x hx =>
    (hmem₂ x hx).trans (hmem₁ x hx)
  have hcode : ∀ rest,
      runItems flagsAfter addressOf none (saveContext ++ (pushAccess access ++ rest)) s =
        runItems flagsAfter addressOf none rest t₂ := by
    intro rest
    rw [runItems_append, hrun₁, runItems_append, hrun₂]
  by_cases hwidth : access.width ∈ checkedWidths
  · obtain ⟨-, hregs₃, hmem₃, hxmm₃⟩ := runOps_compareShadow flagsAfter
      a.options.shadowBit access.width t₂
    have hshadow₂ : HasShadow a t₂.memory :=
      ⟨hshadow.base, hshadow.fits, fun i hi => (hmem _ (hapart i hi)).trans (hshadow.bytes i hi)⟩
    have hcompare := hshadow₂.compare flagsAfter access.width
      (by revert hwidth; simp only [checkedWidths]; grind) (by rw [hrdi₂]; exact hlimit hwidth)
    have hcheck := runItems_checkAccess flagsAfter addressOf
      a.options.shadowBit hwidth t₂
    have hpasses : Passes a access s ↔ (runOps flagsAfter
        (compareShadow a.options.shadowBit access.width) t₂).flags.zero = true := by
      rw [hcompare, hrdi₂]
      exact ⟨fun h => h hwidth, fun h _ => h⟩
    generalize runOps flagsAfter (compareShadow a.options.shadowBit access.width) t₂ = t₃ at *
    have h₃ : Inside s (pushedWords access s) [.rdi, .rsi, .rdx, .rcx] t₃ := by
      have hsp : t₃.regs .rsp = t₂.regs .rsp := hregs₃ .rsp (by decide)
      refine ⟨by rw [hsp, hmem₃]; exact h₂.stack, hsp.trans h₂.sp, fun r hr hrsp => ?_⟩
      rw [hregs₃ r fun hin => hr (by revert hin; cases r <;> decide)]
      exact h₂.regs r (fun hin => hr (List.mem_append_left [Gpr.rdx, .rcx] hin)) hrsp
    by_cases hzero : t₃.flags.zero = true
    · obtain ⟨t₄, hrun₄, hregs, hflags, hxmm, hmem₄⟩ := runItems_restoreContext
        flagsAfter addressOf s
        (h₃.mono (by decide))
      refine ⟨(none, t₄), ?_, checks_of_pass flagsAfter addressOf handleTrap (hpasses.mpr hzero)
        hregs hflags (hxmm.trans (hxmm₃.trans (hxmm₂.trans hxmm₁)))
        fun x hx => by rw [hmem₄, hmem₃, hmem x hx]⟩
      simp only [runCheck, emitShadowCheck, hcode]
      rw [runItems_append, hcheck, if_pos hzero, hrun₄]
    · have hu : Inside s (pushedWords access s) [.rdi, .rsi, .rdx, .rcx]
          (t₃.setReg .rsi (addressOf .done)) := h₃.setReg (by decide) (by decide) rfl rfl
      obtain ⟨hinside, hrsi, hmemr⟩ := inside_report flagsAfter handleTrap hu hplaced hkeeps
      rw [setReg_self] at hrsi
      obtain ⟨t₄, hrun₄, hregs, hflags, hmem₄⟩ := runItems_resume flagsAfter
        addressOf hwidth a.options.shadowBit hinside
      have hfail : ¬Passes a access s := fun h => hzero (hpasses.mp h)
      have hrestore : .label .report ∉ restoreContext := by simp [restoreContext, pops]
      refine ⟨(some (t₃.setReg .rsi (addressOf .done)), t₄), ?_,
        ⟨iff_of_false (fun h => by cases h) hfail, fun u hsome e he => ?_, hregs, hflags,
          fun h => absurd h hfail, fun x hx h => ?_⟩⟩
      · simp only [runCheck, emitShadowCheck, hcode]
        rw [runItems_append, hcheck, if_neg hzero]
        simp only [runItems_skip hrestore]
        rw [if_pos hrsi]
        rw [emitShadowCheck] at hrun₄
        rw [hrun₄]
      · obtain rfl := Option.some.inj hsome
        have hrsi' := setReg_self t₃ .rsi (addressOf .done)
        have hmem := reportedArray_subset hu e (by rw [hrsi']; exact he)
        exact ((filling_trapped flagsAfter hu hplaced).1 e hmem).2
      · obtain ⟨harray, hkept⟩ := h.resolve_left hfail
        rw [hmem₄, hmemr x hx harray hkept, setReg_memory, hmem₃, hmem x hx]
  · obtain ⟨t₃, hrun₃, hregs, hflags, hxmm, hmem₃⟩ := runItems_restoreContext
      flagsAfter addressOf s
      (h₂.mono (by decide))
    refine ⟨(none, t₃), ?_, checks_of_pass flagsAfter addressOf handleTrap
      (fun h => absurd h hwidth) hregs hflags (hxmm.trans (hxmm₂.trans hxmm₁))
      fun x hx => by rw [hmem₃, hmem x hx]⟩
    simp only [runCheck, emitShadowCheck, hcode]
    rw [checkAccess, if_neg hwidth, List.nil_append, hrun₃]

/-- The bytes of the access are in live allocations; an access of another width is not
looked at. -/
def InLive (r : FridaAllocatorRun) (access : Access) (s : Machine 8) : Prop :=
  access.width ∈ checkedWidths → ∀ k < access.width,
    ∃ allocation ∈ r.live, InInterval ((access.checkedAddress s).toNat + k) allocation

/-- One allocation of 5000 bytes. -/
def oneAlloc : List FridaAllocatorCall := [.alloc 5000 fun hint _ => some hint]

/-- A trap that returns. -/
def returningTrap : Callee .unix fun _ => True := CmpLogRuntime.returning _

/-- The array is at `0x200000`. -/
def reportAt : ReportAddresses := ⟨0x300000, 0x200000, 0x500000, 0x200400⟩

/-- `mov rcx, [rax]` -/
def loadFromRax : Access := ⟨0x400000, 3, 8, some (.gpr .rax), none, 1, 0⟩

/-- `rax` points to the allocation, and the memory is the shadow. -/
def machineFor (r : FridaAllocatorRun) : Machine 8 where
  regs g := if g = .rax then 3 * 2 ^ 44 + 4096 else if g = .rsp then 0x100000 else 0
  flags := ⟨false, false, false, false, false, false⟩
  xmm _ := 0
  memory x := r.allocator.shadow x.toNat

theorem scratch_machineFor {r : FridaAllocatorRun} {x : Qword} (h : Scratch (machineFor r) x) :
    x.toNat < 0x100000 := by
  have hstart : (machineFor r).regs .rsp - BitVec.ofNat _ GUM_RED_ZONE_SIZE -
      BitVec.ofNat _ (8 * 14) = 0xfff10#(8 * 8) := by
    simp [machineFor, GUM_RED_ZONE_SIZE]
  unfold Scratch Below InRange at h
  rw [hstart] at h
  bv_omega

theorem oneAlloc_mapsFresh : StepsMeet FridaAllocatorRun.step
    (.new FridaAllocatorRun.pages4096 (fun _ => 0) (3 * 2 ^ 44)) oneAlloc
      FridaAllocatorRun.MapsFresh := by
  unfold oneAlloc
  rw [stepsMeet_cons]
  refine ⟨fun len address hlen hmap => ?_, fun _ _ => stepsMeet_nil⟩
  have hrounded : FridaAllocatorRun.pages4096.roundedUpSize (allocatedSize 5000) = some 16384 := rfl
  obtain rfl := Option.some.inj (hrounded.symm.trans hlen)
  obtain rfl := Option.some.inj hmap
  exact ⟨by decide, by decide, by simp [FridaAllocatorRun.new], fun _ _ => rfl⟩

end AsanRuntime

end Libaflmm
