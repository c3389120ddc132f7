import Libaflmm.FridaShadowCheck

/-!
# What the inline check of the Frida sanitizer does

Between its first and its last instruction the code has the target's flags and
seven of its registers on the stack. `Inside` says this of a state: the words on
the stack, and the registers that are in use. Saving the context leads to such a
state, every push and every load of a register in use keeps it, and restoring the
context leads from it back to the target's own state.
-/

namespace Libaflmm

namespace X86

variable {L : Type} [DecidableEq L] {flagsAfter : FlagsAfter} {addressOf : L → Qword}

theorem runItems_append (skip : Option L) (p q : List (Item L)) (s : Machine 8) :
    runItems flagsAfter addressOf skip (p ++ q) s =
      runItems flagsAfter addressOf (runItems flagsAfter addressOf skip p s).1 q
        (runItems flagsAfter addressOf skip p s).2 := by
  induction p generalizing skip s with
  | nil => cases skip <;> rfl
  | cons i p ih =>
      rw [List.cons_append]
      cases skip <;> cases i <;> simp only [runItems] <;> exact ih ..

/-- Straight code. -/
theorem runItems_ops (ops : List Op) (s : Machine 8) :
    runItems flagsAfter addressOf none (ops.map .op) s = (none, runOps flagsAfter ops s) := by
  induction ops generalizing s with
  | nil => rfl
  | cons o ops ih => exact ih _

/-- Code without the label is passed over. -/
theorem runItems_skip {l : L} {p : List (Item L)} (hp : .label l ∉ p) (s : Machine 8) :
    runItems flagsAfter addressOf (some l) p s = (some l, s) := by
  induction p with
  | nil => rfl
  | cons i p ih =>
      obtain ⟨hi, hp'⟩ := List.ne_and_not_mem_of_not_mem_cons hp
      cases i with
      | label l' =>
          have hne : l ≠ l' := fun h => hi (h ▸ rfl)
          simp only [runItems, if_neg hne]
          exact ih hp'
      | op o => exact ih hp'
      | je l' => exact ih hp'
      | jmp l' => exact ih hp'
      | leaLabel d l' => exact ih hp'

theorem getLsbD_bswap (v : BitVec 32) {i : Nat} (hi : i < 32) :
    (bswap v).getLsbD i = v.getLsbD (8 * (3 - i / 8) + i % 8) := by
  unfold bswap
  simp only [BitVec.getLsbD_append, BitVec.getLsbD_extractLsb']
  split_ifs with h0 h1 h2
  all_goals
    rw [decide_eq_true (by omega), Bool.true_and]
    congr 1
    omega

/-- The mask of the check selects `size` bits from the shifted word, and these
are the bits of `size` bytes from the remainder on. -/
theorem and_mask_bswap_iff (v : BitVec 32) {r size : Nat} (hr : r < 8) (hsize : size ≤ 16) :
    (bswap v <<< r) &&& ((-1#32) <<< (32 - size)) = (-1#32) <<< (32 - size) ↔
      ∀ k < size, v.getLsbD (8 * ((r + k) / 8) + (7 - (r + k) % 8)) = true := by
  have hmask : ∀ i < 32, ((-1#32) <<< (32 - size)).getLsbD i = decide (32 - size ≤ i) := by
    intro i hi
    have hones : (-1#32 : BitVec 32) = BitVec.allOnes 32 := rfl
    rw [hones, BitVec.getLsbD_shiftLeft, BitVec.getLsbD_allOnes]
    by_cases h : i < 32 - size
    · simp [h, Nat.not_le.mpr h]
    · have hlt : i - (32 - size) < 32 := by omega
      simp [hi, h, hlt, Nat.not_lt.mp h]
  have hbit : ∀ k < size, (bswap v <<< r).getLsbD (31 - k) =
      v.getLsbD (8 * ((r + k) / 8) + (7 - (r + k) % 8)) := by
    intro k hk
    have hlt : ¬31 - k < r := by omega
    have hlt' : 31 - k < 32 := by omega
    rw [BitVec.getLsbD_shiftLeft, getLsbD_bswap v (by omega), decide_eq_true hlt',
      decide_eq_false hlt, Bool.not_false, Bool.true_and, Bool.true_and]
    congr 1
    omega
  constructor
  · intro h k hk
    have hi := congrArg (·.getLsbD (31 - k)) h
    simp only [BitVec.getLsbD_and] at hi
    rw [hmask _ (by omega), decide_eq_true (by omega), Bool.and_true, hbit k hk] at hi
    exact hi
  · intro h
    refine BitVec.eq_of_getLsbD_eq fun i hi => ?_
    rw [BitVec.getLsbD_and, hmask i hi]
    by_cases hin : 32 - size ≤ i
    · have hk := hbit (31 - i) (by omega)
      rw [show 31 - (31 - i) = i by omega] at hk
      rw [hk, h _ (by omega)]
      rfl
    · simp [hin]


/-! ## Straight code -/

theorem setReg_self (s : Machine 8) (r : Gpr) (v : Qword) : (s.setReg r v).regs r = v :=
  Function.update_self ..

theorem setReg_of_ne (s : Machine 8) {r r' : Gpr} (v : Qword) (h : r' ≠ r) :
    (s.setReg r v).regs r' = s.regs r' :=
  Function.update_of_ne h ..

theorem setReg_xmm (s : Machine 8) (r : Gpr) (v : Qword) : (s.setReg r v).xmm = s.xmm := rfl

theorem setReg_memory (s : Machine 8) (r : Gpr) (v : Qword) :
    (s.setReg r v).memory = s.memory := rfl

theorem withFlags_regs (s : Machine 8) (f : Flags) : (s.withFlags f).regs = s.regs := rfl

theorem withFlags_flags (s : Machine 8) (f : Flags) : (s.withFlags f).flags = f := rfl

theorem withFlags_xmm (s : Machine 8) (f : Flags) : (s.withFlags f).xmm = s.xmm := rfl

theorem withFlags_memory (s : Machine 8) (f : Flags) : (s.withFlags f).memory = s.memory := rfl

/-- The flags are popped, and the stack pointer goes up over the red zone. -/
theorem runOps_popfx_lea (s : Machine 8) (v : Qword) :
    runOps flagsAfter [.popfx, .lea .rsp .rsp v] s =
      (s.setReg .rsp (s.regs .rsp + 8 + v)).withFlags
        (.ofWord (s.memory.load 8 (s.regs .rsp))) := by
  have hsp : ∀ w : Qword, Function.update (Function.update s.regs .rsp w) .rsp (w + v) =
      Function.update s.regs .rsp (w + v) := fun w => Function.update_idem ..
  simp only [runOps, List.foldl, execOp, Machine.withFlags, Machine.setReg,
    Function.update_self, hsp]

theorem runOps_append (p q : List Op) (s : Machine 8) :
    runOps flagsAfter (p ++ q) s = runOps flagsAfter q (runOps flagsAfter p s) :=
  List.foldl_append

theorem runOps_plain (is : List (Instr 8)) (s : Machine 8) :
    runOps flagsAfter (is.map .plain) s = run is s :=
  List.foldl_map

/-- The words of a stack, counted from its top. -/
theorem StackAt.load {m : ByteMemory (8 * 8)} {sp w : Qword} {ws : List Qword} {i : Nat}
    (h : StackAt m sp ws) (hi : ws[i]? = some w) :
    m.load 8 (sp + BitVec.ofNat (8 * 8) (8 * i)) = w := by
  induction ws generalizing sp i with
  | nil => cases hi
  | cons v ws ih =>
      obtain ⟨htop, hrest⟩ := h
      cases i with
      | zero =>
          obtain rfl := Option.some.inj hi
          rw [Nat.mul_zero, BitVec.add_zero]
          exact htop
      | succ i =>
          have hsucc : 8 * (i + 1) = 8 + 8 * i := by omega
          rw [hsucc, BitVec.ofNat_add, ← BitVec.add_assoc]
          exact ih hrest hi

end X86

open X86

namespace AsanRuntime

variable (flagsAfter : FlagsAfter) (addressOf : CheckLabel → Qword) {s t : Machine 8}

/-! ## The context -/

/-- The words that are saved on the stack, the last one first. -/
def savedWords (s : Machine 8) : List Qword :=
  savedRegisters.reverse.map s.regs ++ [s.flags.toWord]

/-- Where the code writes: below the red zone. -/
def Scratch (s : Machine 8) (x : Qword) : Prop :=
  Below (s.regs .rsp - BitVec.ofNat _ GUM_RED_ZONE_SIZE) 14 x

/-- The target's state `s`, with words on its stack and some registers in use. -/
structure Inside (s : Machine 8) (ws : List Qword) (inUse : List Gpr) (t : Machine 8) : Prop where
  stack : StackAt t.memory (t.regs .rsp) ws
  sp : t.regs .rsp =
    s.regs .rsp - BitVec.ofNat _ GUM_RED_ZONE_SIZE - BitVec.ofNat _ (8 * ws.length)
  regs : ∀ r, r ∉ inUse → r ≠ .rsp → t.regs r = s.regs r

theorem Inside.mono {ws : List Qword} {inUse inUse' : List Gpr} (h : Inside s ws inUse t)
    (hsub : inUse ⊆ inUse') : Inside s ws inUse' t :=
  ⟨h.stack, h.sp, fun r hr hrsp => h.regs r (fun hin => hr (hsub hin)) hrsp⟩

/-- A push of a register. -/
theorem Inside.push {ws : List Qword} {inUse : List Gpr} (h : Inside s ws inUse t)
    (hlen : ws.length < 14) (w : Qword) :
    Inside s (w :: ws) inUse (t.pushWord w) ∧
      ∀ x, ¬Scratch s x → (t.pushWord w).memory x = t.memory x := by
  refine ⟨⟨pushWord_stack t w h.stack (by omega), ?_, fun r hr hrsp => ?_⟩, fun x hx => ?_⟩
  · rw [pushWord_rsp, h.sp, List.length_cons]
    bv_omega
  · rw [pushWord_gpr t w hrsp, h.regs r hr hrsp]
  · refine ByteMemory.store_of_not_inRange _ fun hin => hx ?_
    rw [h.sp] at hin
    unfold Scratch Below
    unfold InRange at hin ⊢
    bv_omega

/-- A register is set that is in use. -/
theorem Inside.setReg {ws : List Qword} {inUse : List Gpr} (h : Inside s ws inUse t) {r : Gpr}
    (hr : r ∈ inUse) (hrsp : r ≠ .rsp) {v : Qword} {t' : Machine 8}
    (hregs : t'.regs = Function.update t.regs r v) (hmem : t'.memory = t.memory) :
    Inside s ws inUse t' := by
  have hsp : t'.regs .rsp = t.regs .rsp := by rw [hregs, Function.update_of_ne hrsp.symm]
  refine ⟨by rw [hsp, hmem]; exact h.stack, by rw [hsp]; exact h.sp, fun r' hr' hrsp' => ?_⟩
  have hne : r' ≠ r := fun heq => hr' (heq ▸ hr)
  rw [hregs, Function.update_of_ne hne, h.regs r' hr' hrsp']

theorem saveContext_eq :
    saveContext = ([Op.lea .rsp .rsp (-BitVec.ofNat _ GUM_RED_ZONE_SIZE), Op.pushfx] ++
      (savedRegisters.map Instr.push).map Op.plain).map Item.op := rfl

/-- After the context is saved all registers are as they were. -/
theorem runItems_saveContext (s : Machine 8) :
    ∃ t, runItems flagsAfter addressOf none saveContext s = (none, t) ∧
      Inside s (savedWords s) [] t ∧ t.xmm = s.xmm ∧
      ∀ x, ¬Scratch s x → t.memory x = s.memory x := by
  let s₁ := s.setReg .rsp (s.regs .rsp - BitVec.ofNat _ GUM_RED_ZONE_SIZE)
  have hstart : Inside s [] [] s₁ := by
    refine ⟨trivial, ?_, fun r _ hrsp => setReg_of_ne s _ hrsp⟩
    have hsp : s₁.regs .rsp = s.regs .rsp - BitVec.ofNat _ GUM_RED_ZONE_SIZE :=
      setReg_self s _ _
    rw [hsp, List.length_nil, Nat.mul_zero, BitVec.sub_zero]
  obtain ⟨hflags, hmemflags⟩ := hstart.push (by decide) s.flags.toWord
  obtain ⟨hstack, hsp, hregs, -, hxmm, hmem⟩ := run_pushes savedRegisters (by decide)
    hflags.stack (Nat.le_of_ble_eq_true rfl)
  refine ⟨X86.run (savedRegisters.map Instr.push) (s₁.pushWord s.flags.toWord), ?_, ⟨?_, ?_, ?_⟩,
    hxmm, fun x hx => ?_⟩
  · rw [saveContext_eq, runItems_ops, runOps_append, runOps_plain]
    have hlea : s.regs .rsp + -BitVec.ofNat (8 * 8) GUM_RED_ZONE_SIZE =
        s.regs .rsp - BitVec.ofNat (8 * 8) GUM_RED_ZONE_SIZE := (BitVec.sub_eq_add_neg ..).symm
    simp only [runOps, List.foldl, execOp, hlea]
    rfl
  · have hsaved : savedRegisters.reverse.map (s₁.pushWord s.flags.toWord).regs =
        savedRegisters.reverse.map s.regs := by
      refine List.map_congr_left fun r hr => hflags.regs r List.not_mem_nil ?_
      rintro rfl
      exact absurd hr (by decide)
    rw [hsaved] at hstack
    exact hstack
  · rw [hsp, hflags.sp, BitVec.sub_sub _ (BitVec.ofNat _ (8 * [s.flags.toWord].length))]
    rfl
  · intro r hr hrsp
    rw [hregs r hrsp]
    exact hflags.regs r hr hrsp
  · rw [hmem x fun hbelow => hx ?_]
    · exact hmemflags x hx
    · rw [hflags.sp] at hbelow
      unfold Scratch
      exact hbelow.push.mono (by decide)

theorem restoreContext_eq :
    restoreContext = (([Gpr.rdi, .rsi].map Instr.pop).map Op.plain ++
      ((savedRegisters.reverse.map Instr.pop).map Op.plain ++
        [Op.popfx, Op.lea .rsp .rsp (BitVec.ofNat _ GUM_RED_ZONE_SIZE)])).map Item.op := rfl

/-- The registers come back, and so do the flags and the stack pointer. -/
theorem runItems_restoreContext {a ip : Qword} (s : Machine 8)
    (h : Inside s (a :: ip :: savedWords s) [.rdi, .rsi, .rdx, .rcx, .rax] t) :
    ∃ t', runItems flagsAfter addressOf none restoreContext t = (none, t') ∧
      t'.regs = s.regs ∧ t'.flags = s.flags ∧ t'.xmm = t.xmm ∧ t'.memory = t.memory := by
  let f : Gpr → Qword := fun r => if r = .rdi then a else ip
  obtain ⟨hstack₁, hsp₁, -, hregs₁, -, hxmm₁, hmem₁⟩ := run_pops [.rdi, .rsi] (by decide)
    f (show StackAt t.memory (t.regs .rsp) ([Gpr.rdi, .rsi].map f ++ savedWords s) from h.stack)
  obtain ⟨hstack₂, hsp₂, hpopped, hkept, -, hxmm₂, hmem₂⟩ := run_pops
    savedRegisters.reverse (by decide) s.regs hstack₁
  have hsp := h.sp
  generalize hrun₁ : X86.run ([Gpr.rdi, .rsi].map Instr.pop) t = t₁ at *
  generalize hrun₂ : X86.run (savedRegisters.reverse.map Instr.pop) t₁ = t₂ at *
  refine ⟨_, by rw [restoreContext_eq, runItems_ops], ?_⟩
  rw [runOps_append, runOps_plain, hrun₁, runOps_append, runOps_plain, hrun₂]
  rw [runOps_popfx_lea, withFlags_regs, withFlags_flags, withFlags_xmm, withFlags_memory,
    setReg_xmm, setReg_memory]
  have htop : t₂.memory.load 8 (t₂.regs .rsp) = s.flags.toWord := hstack₂.1
  refine ⟨funext fun r => ?_, htop ▸ Flags.ofWord_toWord _, hxmm₂.trans hxmm₁,
    hmem₂.trans hmem₁⟩
  by_cases hrsp : r = .rsp
  · rw [hrsp, setReg_self, hsp₂, hsp₁, hsp]
    have hlen : (a :: ip :: savedWords s).length = 10 := rfl
    rw [hlen]
    generalize s.regs .rsp = sp
    have hred : savedRegisters.reverse.length = 7 := rfl
    rw [hred]
    change sp - 128#64 - 80#64 + 16#64 + 56#64 + 8#64 + 128#64 = sp
    bv_omega
  · rw [setReg_of_ne t₂ _ hrsp]
    by_cases hin : r ∈ savedRegisters.reverse
    · exact hpopped r hin
    · have hout : r ∉ [Gpr.rdi, .rsi, .rdx, .rcx, .rax] := by
        intro hmem
        exact hin (by revert hmem; cases r <;> decide)
      have hout' : r ∉ [Gpr.rdi, .rsi] := fun hmem =>
        hout (List.mem_append_left [Gpr.rdx, .rcx, .rax] hmem)
      rw [hkept r hin hrsp, hregs₁ r hout' hrsp, h.regs r hout hrsp]

/-! ## The address -/

namespace Access

variable (access : Access)

/-- The value of a register for the access: `rip` is behind the instruction. -/
def read (s : Machine 8) : AddressReg → Qword
  | .rip => access.ripAfter
  | .gpr r => s.regs r

/-- The address that the instruction itself works out. -/
def effectiveAddress (s : Machine 8) : Qword :=
  access.basereg.elim 0 (access.read s) +
    access.indexreg.elim 0 (access.read s) * BitVec.ofNat _ access.scale +
      access.disp.signExtend _

/-- The address that is checked: the code takes the stack pointer for 8 less than it is. -/
def checkedAddress (s : Machine 8) : Qword :=
  if access.basereg = some (.gpr .rsp) then access.effectiveAddress s - 8
  else access.effectiveAddress s

/-- An operand that an instruction can have. -/
structure Encodable : Prop where
  scale : access.scale ∈ [1, 2, 4, 8]
  index : access.indexreg ≠ some (.gpr .rsp)

/-- The value of the base for the check. -/
def baseValue (s : Machine 8) : Qword :=
  if access.basereg = some (.gpr .rsp) then s.regs .rsp - 8
  else access.basereg.elim 0 (access.read s)

variable {access}

theorem Encodable.shift (h : access.Encodable) (v : Qword) :
    v <<< access.shift = v * BitVec.ofNat _ access.scale := by
  have hscale := h.scale
  unfold Access.shift
  simp only [List.mem_cons, List.not_mem_nil, or_false] at hscale
  rcases hscale with hs | hs | hs | hs <;> rw [hs] <;>
    simp only [BitVec.shiftLeft_eq_mul_twoPow] <;> rfl

theorem Encodable.checkedAddress (h : access.Encodable) (s : Machine 8) :
    access.checkedAddress s = access.baseValue s +
      access.indexreg.elim 0 (access.read s) <<< access.shift + access.disp.signExtend _ := by
  rw [h.shift]
  unfold Access.checkedAddress baseValue effectiveAddress
  split_ifs with hbase
  · rw [hbase]
    change s.regs .rsp + _ + _ - 8 = s.regs .rsp - 8 + _ + _
    generalize access.indexreg.elim 0 (access.read s) * BitVec.ofNat _ access.scale = i
    generalize access.disp.signExtend _ = d
    generalize s.regs .rsp = sp
    bv_omega
  · rfl

end Access

variable {access : Access}

/-- A register is loaded, and nothing else happens but to the flags. -/
def Loads (r : Gpr) (v : Qword) (t t' : Machine 8) : Prop :=
  t'.regs = Function.update t.regs r v ∧ t'.memory = t.memory ∧ t'.xmm = t.xmm

theorem address_atOffset (t : Machine 8) (base : Gpr) (off : Nat) :
    t.address (atOffset base off) = t.regs base + BitVec.ofNat _ off := by
  change t.regs base + 0#(8 * 8) * BitVec.ofNat (8 * 8) 1 + BitVec.ofNat (8 * 8) off = _
  rw [BitVec.zero_mul, BitVec.add_zero]

theorem address_base (t : Machine 8) (base : Gpr) :
    t.address ⟨some base, none, 1, 0, false⟩ = t.regs base :=
  (address_atOffset t base 0).trans (BitVec.add_zero _)

theorem leaStackPointer_eq {ws : List Qword} {inUse : List Gpr} (h : Inside s ws inUse t)
    (hlen : ws.length = 8) :
    t.regs .rsp + BitVec.ofNat _ (GUM_RED_ZONE_SIZE + 0x8 * 7) = s.regs .rsp - 8 := by
  rw [h.sp, hlen]
  generalize s.regs .rsp = sp
  change sp - 128#64 - 64#64 + 184#64 = sp - 8#64
  bv_omega

theorem loads_initRdi (access : Access) (h : Inside s (savedWords s) [] t) :
    ∃ o, initRdi access = .op o ∧
      Loads .rdi (access.baseValue s) t (execOp flagsAfter t o) := by
  unfold Access.baseValue
  cases hbase : access.basereg with
  | none =>
      refine ⟨_, by rw [initRdi, hbase], ?_, rfl, rfl⟩
      exact congrArg (Function.update t.regs Gpr.rdi) BitVec.xor_self
  | some base =>
      cases base with
      | rip => exact ⟨_, by rw [initRdi, hbase], rfl, rfl, rfl⟩
      | gpr r =>
          by_cases hr : r = .rsp
          · subst hr
            refine ⟨_, by rw [initRdi, hbase, leaStackPointer], ?_, rfl, rfl⟩
            exact congrArg (Function.update t.regs Gpr.rdi) (leaStackPointer_eq h rfl)
          · have hinit : initRdi access = .op (.mov .rdi r) := by
              rw [initRdi, hbase]
              cases r <;> first | rfl | exact absurd rfl hr
            have hne : some (AddressReg.gpr r) ≠ some (.gpr .rsp) := fun heq =>
              hr (AddressReg.gpr.inj (Option.some.inj heq))
            refine ⟨_, hinit, ?_, rfl, rfl⟩
            rw [if_neg hne]
            exact congrArg (Function.update t.regs Gpr.rdi) (h.regs r List.not_mem_nil hr)

/-- The index is read after `rdi` has been overwritten. -/
theorem loads_initRsi (h : Inside s (savedWords s) [.rdi] t)
    (hindex : access.indexreg ≠ some (.gpr .rsp)) :
    ∃ o, initRsi access = .op o ∧
      Loads .rsi (access.indexreg.elim 0 (access.read s)) t (execOp flagsAfter t o) := by
  cases hreg : access.indexreg with
  | none =>
      refine ⟨_, by rw [initRsi, hreg], ?_, rfl, rfl⟩
      exact congrArg (Function.update t.regs Gpr.rsi) BitVec.xor_self
  | some index =>
      cases index with
      | rip => exact ⟨_, by rw [initRsi, hreg], rfl, rfl, rfl⟩
      | gpr r =>
          have hr : r ≠ .rsp := by
            rintro rfl
            exact hindex hreg
          by_cases hrdi : r = .rdi
          · subst hrdi
            refine ⟨_, by rw [initRsi, hreg], ?_, rfl, rfl⟩
            have hload := h.stack.load (i := 6) (w := s.regs .rdi) rfl
            refine congrArg (Function.update t.regs Gpr.rsi) (Eq.trans ?_ hload)
            exact congrArg (t.memory.load 8) (address_atOffset t .rsp 0x30)
          · have hinit : initRsi access = .op (.mov .rsi r) := by
              rw [initRsi, hreg]
              cases r <;> first | rfl | exact absurd rfl hr | exact absurd rfl hrdi
            refine ⟨_, hinit, ?_, rfl, rfl⟩
            refine congrArg (Function.update t.regs Gpr.rsi) (h.regs r ?_ hr)
            rw [List.mem_singleton]
            exact hrdi

theorem Loads.inside {ws : List Qword} {inUse : List Gpr} {r : Gpr} {v : Qword} {t' : Machine 8}
    (hload : Loads r v t t') (h : Inside s ws inUse t) (hr : r ∈ inUse) (hrsp : r ≠ .rsp) :
    Inside s ws inUse t' :=
  h.setReg hr hrsp hload.1 hload.2.1

theorem loads_scaleRsi (access : Access) (t : Machine 8) :
    ∃ t', runItems flagsAfter addressOf none (scaleRsi access) t = (none, t') ∧
      Loads .rsi (t.regs .rsi <<< access.shift) t t' := by
  unfold scaleRsi
  by_cases hpos : 0 < access.shift
  · rw [if_pos hpos]
    exact ⟨_, rfl, rfl, rfl, rfl⟩
  · rw [if_neg hpos, Nat.eq_zero_of_not_pos hpos, BitVec.shiftLeft_zero]
    exact ⟨t, rfl, (Function.update_eq_self ..).symm, rfl, rfl⟩

/-- Where the access is checked: its address and that of the instruction are on the stack. -/
theorem runItems_pushAccess (h : Inside s (savedWords s) [] t) (hop : access.Encodable) :
    ∃ t', runItems flagsAfter addressOf none (pushAccess access) t = (none, t') ∧
      Inside s (access.checkedAddress s :: access.address :: savedWords s) [.rdi, .rsi] t' ∧
      t'.regs .rdi = access.checkedAddress s ∧ t'.xmm = t.xmm ∧
      ∀ x, ¬Scratch s x → t'.memory x = t.memory x := by
  obtain ⟨o₁, ho₁, hload₁⟩ := loads_initRdi flagsAfter access h
  have h₁ : Inside s (savedWords s) [.rdi] (execOp flagsAfter t o₁) :=
    hload₁.inside (h.mono (List.nil_subset _)) (List.mem_singleton_self _) (by decide)
  obtain ⟨o₂, ho₂, hload₂⟩ := loads_initRsi flagsAfter h₁ hop.index
  have h₂ : Inside s (savedWords s) [.rdi, .rsi] (execOp flagsAfter (execOp flagsAfter t o₁) o₂) :=
    hload₂.inside (h₁.mono (List.subset_append_left [Gpr.rdi] [.rsi]))
      (List.mem_append_right [Gpr.rdi] (List.mem_singleton_self _)) (by decide)
  have hrun : runItems flagsAfter addressOf none (pushAccess access) t =
      runItems flagsAfter addressOf none (scaleRsi access ++
        [.op (.plain (.add .rdi .rsi)),
          .op (.lea .rdi .rdi (access.disp.signExtend _)),
          .op (.plain (.movImm .rsi access.address)),
          .op (.plain (.push .rsi)),
          .op (.plain (.push .rdi))]) (execOp flagsAfter (execOp flagsAfter t o₁) o₂) := by
    rw [pushAccess, ho₁, ho₂]
    rfl
  generalize execOp flagsAfter t o₁ = t₁ at hload₁ hload₂ h₂ hrun
  generalize execOp flagsAfter t₁ o₂ = t₂ at hload₂ h₂ hrun
  obtain ⟨t₃, hscale, hload₃⟩ := loads_scaleRsi flagsAfter addressOf
    access t₂
  have h₃ := hload₃.inside h₂ (List.mem_append_right [Gpr.rdi] (List.mem_singleton_self _))
    (by decide)
  have hrdi : t₃.regs .rdi = access.baseValue s := by
    rw [hload₃.1, Function.update_of_ne (by decide), hload₂.1, Function.update_of_ne (by decide),
      hload₁.1, Function.update_self]
  have hrsi : t₃.regs .rsi = access.indexreg.elim 0 (access.read s) <<< access.shift := by
    rw [hload₃.1, Function.update_self, hload₂.1, Function.update_self]
  have hsum : t₃.regs .rdi + t₃.regs .rsi + access.disp.signExtend _ = access.checkedAddress s := by
    rw [hrdi, hrsi, hop.checkedAddress]
  let t₄ := runOps flagsAfter [.plain (.add .rdi .rsi), .lea .rdi .rdi (access.disp.signExtend _),
    .plain (.movImm .rsi access.address)] t₃
  have h₄ : Inside s (savedWords s) [.rdi, .rsi] t₄ := by
    refine ⟨h₃.stack, h₃.sp, fun r hr hrsp => ?_⟩
    have hrdi' : r ≠ .rdi := fun heq => hr (heq ▸ List.mem_cons_self ..)
    have hrsi' : r ≠ .rsi := fun heq =>
      hr (heq ▸ List.mem_append_right [Gpr.rdi] (List.mem_singleton_self _))
    exact ((setReg_of_ne _ _ hrsi').trans ((setReg_of_ne _ _ hrdi').trans
      (setReg_of_ne _ _ hrdi'))).trans (h₃.regs r hr hrsp)
  have hrdi₄ : t₄.regs .rdi = access.checkedAddress s := hsum
  have hrsi₄ : t₄.regs .rsi = access.address := rfl
  obtain ⟨h₅, hmem₅⟩ := h₄.push (Nat.le_of_ble_eq_true rfl) (t₄.regs .rsi)
  obtain ⟨h₆, hmem₆⟩ := h₅.push (Nat.le_of_ble_eq_true rfl) (t₄.regs .rdi)
  refine ⟨(t₄.pushWord (t₄.regs .rsi)).pushWord (t₄.regs .rdi), ?_, ?_, hrdi₄, ?_,
    fun x hx => ?_⟩
  · rw [hrun, runItems_append, hscale]
    rfl
  · rw [← hrdi₄, ← hrsi₄]
    exact h₆
  · exact hload₃.2.2.trans (hload₂.2.2.trans hload₁.2.2)
  · rw [← congrFun (hload₃.2.1.trans (hload₂.2.1.trans hload₁.2.1)) x]
    exact (hmem₆ x hx).trans (hmem₅ x hx)

/-! ## The shadow -/

/-- The blob up to the comparison. -/
def compareShadow (shadowBit size : Nat) : List Op :=
  [.plain (.movImm .rdx 1), .shlImm .rdx shadowBit, .mov .rcx .rdi, .andImm .rcx 7, .shrImm .rdi 3,
    .plain (.add .rdi .rdx), .plain (.movLoad32 .rdx ⟨some .rdi, none, 1, 0, false⟩),
    .bswap32 .rdx, .shlCl32 .rdx, .plain (.movImm32 .rdi (-1)), .shlImm32 .rdi (32 - size),
    .and32 .rdx .rdi, .cmp32 .rdx .rdi]

theorem generateShadowCheckBlob_eq (shadowBit size : Nat) :
    generateShadowCheckBlob shadowBit size =
      (compareShadow shadowBit size).map .op ++ [.je .done, .leaLabel .rsi .done] := rfl

/-- The four bytes of shadow that the code loads. -/
def loadedShadow (shadowBit : Nat) (t : Machine 8) : BitVec 32 :=
  t.memory.load 4 (t.regs .rdi >>> 3 + 1#(8 * 8) <<< shadowBit)

theorem runOps_compareShadow (shadowBit size : Nat) (t : Machine 8) :
    let t' := runOps flagsAfter (compareShadow shadowBit size) t
    (t'.flags.zero = decide ((bswap (loadedShadow shadowBit t) <<< ((t.regs .rdi &&& 7).toNat % 32))
      &&& ((-1#32) <<< (32 - size)) = (-1#32) <<< (32 - size))) ∧
      (∀ r, r ∉ [Gpr.rdx, .rcx, .rdi] → t'.regs r = t.regs r) ∧
      t'.memory = t.memory ∧ t'.xmm = t.xmm := by
  refine ⟨?_, fun r hr => ?_, rfl, rfl⟩
  · have hlow : ∀ v : BitVec 32, low32 (v.setWidth (8 * 8)) = v := fun v =>
      BitVec.setWidth_setWidth_of_le v (by decide)
    simp only [runOps, compareShadow, List.foldl, execOp, exec, Machine.withFlags,
      Machine.setReg32, Machine.setReg, address_base, Function.update_self, ne_eq, reduceCtorEq,
      not_false_eq_true, Function.update_of_ne, hlow]
    rfl
  · simp only [List.mem_cons, List.not_mem_nil, or_false, not_or] at hr
    obtain ⟨hrdx, hrcx, hrdi⟩ := hr
    simp only [runOps, compareShadow, List.foldl, execOp, exec, Machine.withFlags,
      Machine.setReg32, Machine.setReg, ne_eq, hrdx, hrcx, hrdi, not_false_eq_true,
      Function.update_of_ne]

/-- The memory has the allocator's shadow where the code looks for it. -/
structure HasShadow (a : FridaAllocator) (m : ByteMemory (8 * 8)) : Prop where
  base : a.options.shadowOffset = 2 ^ a.options.shadowBit
  fits : a.options.shadowBit ≤ 60
  bytes : ∀ i < 2 ^ (a.options.shadowBit + 1),
    m (BitVec.ofNat _ (2 ^ a.options.shadowBit + i)) = a.shadow (2 ^ a.options.shadowBit + i)

variable {a : FridaAllocator}

/-- A bit of the loaded shadow is the bit of a byte behind the address. -/
theorem HasShadow.loaded (h : HasShadow a t.memory) {k : Nat}
    (hk : (t.regs .rdi).toNat % 8 + k < 24) (hlimit : (t.regs .rdi).toNat + k < a.addressLimit) :
    ((loadedShadow a.options.shadowBit t).getLsbD (8 * (((t.regs .rdi).toNat % 8 + k) / 8) +
      (7 - ((t.regs .rdi).toNat % 8 + k) % 8)) = true ↔
        a.Unpoisoned ((t.regs .rdi).toNat + k)) := by
  let addr := (t.regs .rdi).toNat
  let j := (addr % 8 + k) / 8
  let c := 7 - (addr % 8 + k) % 8
  have hj : (addr + k) / 8 = addr / 8 + j := by omega
  have hpow : 2 ^ (a.options.shadowBit + 4) = 8 * 2 ^ (a.options.shadowBit + 1) := by
    rw [Nat.pow_add, Nat.pow_add]
    omega
  have hlt : addr / 8 + j < 2 ^ (a.options.shadowBit + 1) := by
    rw [FridaAllocator.addressLimit, hpow] at hlimit
    omega
  have hbase : t.regs .rdi >>> 3 + 1#(8 * 8) <<< a.options.shadowBit + BitVec.ofNat (8 * 8) j =
      BitVec.ofNat _ (2 ^ a.options.shadowBit + (addr / 8 + j)) := by
    have hshift : t.regs .rdi >>> 3 = BitVec.ofNat (8 * 8) (addr / 8) := by
      have hlt' := (t.regs .rdi).isLt
      refine BitVec.eq_of_toNat_eq ?_
      rw [BitVec.toNat_ushiftRight, Nat.shiftRight_eq_div_pow, BitVec.toNat_ofNat,
        Nat.mod_eq_of_lt (by omega)]
    have hone : 1#(8 * 8) <<< a.options.shadowBit = BitVec.ofNat _ (2 ^ a.options.shadowBit) := by
      refine BitVec.eq_of_toNat_eq ?_
      rw [← BitVec.twoPow_eq, BitVec.toNat_twoPow, BitVec.toNat_ofNat]
    rw [hshift, hone, BitVec.ofNat_add, BitVec.ofNat_add]
    ac_rfl
  have hshadow : a.options.mapToShadow (addr + k) =
      2 ^ a.options.shadowBit + (addr / 8 + j) := by
    rw [mapToShadow_eq_mod, h.base, hj, Nat.mod_eq_of_lt hlt]
  have hbit : 8 * j + c < 8 * 4 := by omega
  have hdiv : (8 * j + c) / 8 = j := by omega
  have hmod : (8 * j + c) % 8 = c := by omega
  have hload : (loadedShadow a.options.shadowBit t).getLsbD (8 * j + c) =
      (a.shadow (2 ^ a.options.shadowBit + (addr / 8 + j))).getLsbD c := by
    rw [loadedShadow, ByteMemory.getLsbD_load _ hbit, hdiv, hmod, hbase, h.bytes _ hlt]
  have hc : 7 - (addr + k) % 8 = c := by omega
  rw [FridaAllocator.Unpoisoned, hshadow, hc]
  exact iff_of_eq (congrArg (· = true) hload)

/-- **The comparison.** It finds equal words if and only if all bytes of the
access are unpoisoned. -/
theorem HasShadow.compare (h : HasShadow a t.memory) (size : Nat) (hsize : size ≤ 16)
    (hlimit : (t.regs .rdi).toNat + size ≤ a.addressLimit) :
    (runOps flagsAfter (compareShadow a.options.shadowBit size) t).flags.zero = true ↔
      ∀ k < size, a.Unpoisoned ((t.regs .rdi).toNat + k) := by
  have hseven : (t.regs .rdi &&& 7).toNat % 32 = (t.regs .rdi).toNat % 8 := by
    have hand := Nat.and_two_pow_sub_one_eq_mod (t.regs .rdi).toNat 3
    rw [BitVec.toNat_and]
    exact (congrArg (· % 32) hand).trans (by omega)
  rw [(runOps_compareShadow _ a.options.shadowBit size t).1, decide_eq_true_iff, hseven,
    and_mask_bswap_iff _ (Nat.mod_lt _ (by decide)) hsize]
  exact forall₂_congr fun k hk => h.loaded (by omega) (by omega)

end AsanRuntime
end Libaflmm
