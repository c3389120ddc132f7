import Libaflmm.FridaCmplog

/-!
# What the comparison log of Frida does to the target

On Unix the first register that is saved goes into the red zone, so the word below
the stack pointer becomes `rax`, whatever the operands are. On Windows the saved
`rax` is in the home space of the callee, which may change it before it is taken
back. So the code is transparent for no comparison on either system. Nor are the
arguments right: the operands are popped the other way around.
-/

namespace Libaflmm.CmpLogRuntime

open X86

/-! ## Pushing -/

/-- From `a` on, `x` comes before the last `k` words of the address space. -/
def Clear (k : Nat) (a x : BitVec 64) : Prop := (x - a).toNat + 8 * k < 2 ^ 64

theorem pushWord_sp (s : Machine 8) (v : BitVec (8 * 8)) :
    (s.pushWord v).regs .rsp = s.regs .rsp - 8#64 :=
  rfl

theorem pushWord_regs (s : Machine 8) (v : BitVec (8 * 8)) {r : Gpr} (hr : r ≠ .rsp) :
    (s.pushWord v).regs r = s.regs r :=
  Function.update_of_ne hr ..

/-- A push leaves alone what is not below the stack pointer. -/
theorem pushWord_memory {s : Machine 8} {k : Nat} {x : BitVec 64} (v : BitVec (8 * 8))
    (hx : Clear (k + 1) (s.regs .rsp) x) :
    (s.pushWord v).memory x = s.memory x ∧ Clear k ((s.pushWord v).regs .rsp) x := by
  rw [pushWord_sp]
  unfold Clear at *
  refine ⟨ByteMemory.store_of_not_inRange v ?_, ?_⟩
  · unfold InRange
    bv_omega
  · bv_omega

/-- Code that pushes one word, and uses no register but `rax` for it. -/
def PushesWord (code : List (Instr 8)) : Prop :=
  ∀ s : Machine 8, ∃ t : Machine 8, ∃ v, X86.run code s = t.pushWord v ∧
    t.memory = s.memory ∧ ∀ r, r ≠ .rax → t.regs r = s.regs r

theorem pushesWord_push (g : Gpr) : PushesWord [.push g] :=
  fun s => ⟨s, s.regs g, rfl, rfl, fun _ _ => rfl⟩

theorem pushesWord_pushMem (a : Address 8) : PushesWord [.pushMem a] :=
  fun s => ⟨s, _, rfl, rfl, fun _ _ => rfl⟩

theorem pushesWord_pushImm32 (v : BitVec 32) : PushesWord [.pushImm32 v] :=
  fun s => ⟨s, _, rfl, rfl, fun _ _ => rfl⟩

/-- Code that only sets `rax`. -/
def SetsRax (i : Instr 8) : Prop := ∀ s : Machine 8, ∃ v, exec s i = s.setReg .rax v

theorem pushesWord_load {i : Instr 8} (h : SetsRax i) : PushesWord [i, .push .rax] := by
  intro s
  rcases h s with ⟨v, hv⟩
  refine ⟨s.setReg .rax v, v, ?_, rfl, fun r hr => Function.update_of_ne hr ..⟩
  change exec (exec s i) (.push .rax) = _
  rw [hv]
  rfl

theorem PushesWord.cons {i : Instr 8} {code : List (Instr 8)} (hi : SetsRax i)
    (h : PushesWord code) : PushesWord (i :: code) := by
  intro s
  rcases hi s with ⟨v, hv⟩
  rcases h (s.setReg .rax v) with ⟨t, w, hrun, hmem, hregs⟩
  refine ⟨t, w, ?_, hmem, fun r hr => (hregs r hr).trans (Function.update_of_ne hr ..)⟩
  rw [← hrun, ← hv]
  rfl

theorem setsRax_loadTmp {m : MemorySize} {size : Nat} {load : Address 8 → Instr 8}
    (h : loadTmp m = some (size, load)) (a : Address 8) : SetsRax (load a) := by
  unfold loadTmp at h
  split at h <;> cases h <;> exact fun s => ⟨_, rfl⟩

/-- Whatever the operand is, its code pushes one word. -/
theorem pushesWord_emitOperand {pc : BitVec 64} {opNum sizeOp size : Nat}
    {op : CmplogOperandType} {code : List (Instr 8)}
    (h : emitOperand pc opNum sizeOp op = some (size, code)) : PushesWord code := by
  cases op with
  | reg r =>
      unfold emitOperand at h
      rcases Option.bind_eq_some_iff.mp h with ⟨s, -, h⟩
      split at h
      · cases h
        exact pushesWord_pushMem _
      · cases h
        exact pushesWord_push _
      · cases h
  | imm v =>
      cases h
      exact pushesWord_pushImm32 _
  | mem base index disp scale memSize =>
      unfold emitOperand at h
      rcases Option.bind_eq_some_iff.mp h with ⟨⟨s, load⟩, hload, h⟩
      rcases Option.bind_eq_some_iff.mp h with ⟨size', -, h⟩
      dsimp only at h
      split at h
      · rcases Option.bind_eq_some_iff.mp h with ⟨a, -, h⟩
        cases h
        exact (pushesWord_load (setsRax_loadTmp hload a)).cons fun s => ⟨_, rfl⟩
      · rcases Option.bind_eq_some_iff.mp h with ⟨a, -, h⟩
        cases h
        exact pushesWord_load (setsRax_loadTmp hload a)

theorem PushesWord.memory {code : List (Instr 8)} (h : PushesWord code) {s : Machine 8}
    {k : Nat} {x : BitVec 64} (hx : Clear (k + 1) (s.regs .rsp) x) :
    (X86.run code s).memory x = s.memory x ∧ Clear k ((X86.run code s).regs .rsp) x := by
  rcases h s with ⟨t, v, hrun, hmem, hregs⟩
  rw [← hregs .rsp (by decide)] at hx
  rw [hrun, ← hmem]
  exact pushWord_memory v hx

theorem PushesWord.sp {code : List (Instr 8)} (h : PushesWord code) (s : Machine 8) :
    (X86.run code s).regs .rsp = s.regs .rsp - 8#64 := by
  rcases h s with ⟨t, v, hrun, -, hregs⟩
  rw [hrun, pushWord_sp, hregs .rsp (by decide)]

/-- Registers that are pushed one after the other. -/
theorem pushes_memory (gs : List Gpr) {s : Machine 8} {k : Nat} {x : BitVec 64}
    (hx : Clear (k + gs.length) (s.regs .rsp) x) :
    (X86.run (gs.map .push) s).memory x = s.memory x ∧
      Clear k ((X86.run (gs.map .push) s).regs .rsp) x := by
  induction gs generalizing s with
  | nil => exact ⟨rfl, hx⟩
  | cons g gs ih =>
      rcases pushWord_memory (k := k + gs.length) (s.regs g) hx with ⟨hmem, hclear⟩
      rcases ih hclear with ⟨hmem', hclear'⟩
      exact ⟨hmem'.trans hmem, hclear'⟩

theorem pushes_sp (gs : List Gpr) (s : Machine 8) :
    (X86.run (gs.map .push) s).regs .rsp = s.regs .rsp - BitVec.ofNat 64 (8 * gs.length) := by
  induction gs generalizing s with
  | nil => exact (BitVec.sub_zero _).symm
  | cons g gs ih =>
      have hrun := ih (s.pushWord (s.regs g))
      rw [pushWord_sp] at hrun
      refine hrun.trans ?_
      have hlen : 8 * (g :: gs).length = 8 * gs.length + 8 := Nat.mul_succ ..
      rw [BitVec.sub_sub, hlen, BitVec.ofNat_add, BitVec.add_comm]

/-! ## The code around the call -/

section Emitted

variable {os : Os} {pc address : BitVec 64} {op1 op2 : CmplogOperandType} {code : Emitted}

/-- The emitted code: two words are pushed between saving and passing the arguments. -/
theorem emitComparisonHandling_cases
    (h : emitComparisonHandling os pc address op1 op2 = some code) :
    ∃ size push1 push2, PushesWord push1 ∧ PushesWord push2 ∧
      code.before = saveRegisters os ++ (push1 ++ (push2 ++ passArguments os size address)) ∧
      code.after = restoreRegisters os := by
  rcases Option.bind_eq_some_iff.mp h with ⟨⟨size, push1⟩, h1, h⟩
  rcases Option.bind_eq_some_iff.mp h with ⟨⟨size', push2⟩, h2, h⟩
  cases h
  exact ⟨size', push1, push2, pushesWord_emitOperand h1, pushesWord_emitOperand h2, rfl, rfl⟩

theorem passArguments_frame (size : Nat) (s : Machine 8) :
    (X86.run (passArguments os size address) s).memory = s.memory ∧
      (X86.run (passArguments os size address) s).regs .rsp = s.regs .rsp + 16#64 := by
  have hsp : s.regs .rsp + 8#64 + 8#64 = s.regs .rsp + 16#64 := by bv_omega
  cases os with
  | windows => exact ⟨rfl, hsp⟩
  | unix => exact ⟨rfl, hsp⟩

/-- At the call the saved registers are on the stack, and nothing else. -/
theorem before_sp (h : emitComparisonHandling os pc address op1 op2 = some code)
    (s : Machine 8) : (X86.run code.before s).regs .rsp = s.regs .rsp - 0x38#64 := by
  rcases emitComparisonHandling_cases h with ⟨size, push1, push2, h1, h2, hbefore, -⟩
  have hsave : (X86.run (saveRegisters os) s).regs .rsp = s.regs .rsp - 0x38#64 := by
    cases os <;> exact pushes_sp _ s
  rw [hbefore, run_append, run_append, run_append, (passArguments_frame size _).2, h2.sp, h1.sp,
    hsave]
  bv_omega

/-- The code in front of the call writes below the stack pointer only. -/
theorem before_memory (h : emitComparisonHandling os pc address op1 op2 = some code)
    {s : Machine 8} {x : BitVec 64} (hx : Clear 9 (s.regs .rsp) x) :
    (X86.run code.before s).memory x = s.memory x := by
  rcases emitComparisonHandling_cases h with ⟨size, push1, push2, h1, h2, hbefore, -⟩
  have hsave : (X86.run (saveRegisters os) s).memory x = s.memory x ∧
      Clear 2 ((X86.run (saveRegisters os) s).regs .rsp) x := by
    cases os <;> exact pushes_memory _ hx
  rcases h1.memory hsave.2 with ⟨hmem1, hclear1⟩
  rcases h2.memory hclear1 with ⟨hmem2, -⟩
  rw [hbefore, run_append, run_append, run_append, (passArguments_frame size _).1, hmem2, hmem1,
    hsave.1]

theorem after_memory (h : emitComparisonHandling os pc address op1 op2 = some code)
    (s : Machine 8) : (X86.run code.after s).memory = s.memory := by
  rcases emitComparisonHandling_cases h with ⟨-, -, -, -, -, -, hafter⟩
  rw [hafter]
  cases os <;> rfl

end Emitted

/-! ## Unix -/

section Unix

variable {pc address : BitVec 64} {op1 op2 : CmplogOperandType} {code : Emitted}

/-- The registers but `rax` are pushed below it. -/
theorem run_saveRegisters_unix (s : Machine 8) :
    X86.run (saveRegisters .unix) s = X86.run
      ([Gpr.rdi, .rsi, .rdx, .rcx, .r8, .r9].map .push) (s.pushWord (s.regs .rax)) := by
  have hlist : saveRegisters .unix =
      .push .rax :: [Gpr.rdi, .rsi, .rdx, .rcx, .r8, .r9].map .push := rfl
  rw [hlist]
  exact List.foldl_cons ..

/-- After `rax` is pushed the code in front of the call writes below it only. -/
theorem unix_before_memory (h : emitComparisonHandling .unix pc address op1 op2 = some code)
    (s : Machine 8) {x : BitVec 64} (hx : InRange (s.regs .rsp - 8#64) 8 x) :
    (X86.run code.before s).memory x = (s.pushWord (s.regs .rax)).memory x := by
  rcases emitComparisonHandling_cases h with ⟨size, push1, push2, h1, h2, hbefore, -⟩
  have hclear : Clear 8 ((s.pushWord (s.regs .rax)).regs .rsp) x := by
    rw [pushWord_sp]
    unfold Clear
    unfold InRange at hx
    omega
  rw [hbefore, run_append, run_append, run_append, run_saveRegisters_unix]
  generalize s.pushWord (s.regs .rax) = t at hclear ⊢
  rcases pushes_memory (k := 2) [.rdi, .rsi, .rdx, .rcx, .r8, .r9] hclear with ⟨hmem, hclear⟩
  rcases h1.memory hclear with ⟨hmem1, hclear1⟩
  rcases h2.memory hclear1 with ⟨hmem2, -⟩
  rw [(passArguments_frame size _).1, hmem2, hmem1, hmem]

/-- The word below the stack pointer, which is in the red zone, becomes `rax`. -/
theorem unix_redZone (h : emitComparisonHandling .unix pc address op1 op2 = some code)
    {stack : BitVec 64 → Prop} (f : Callee .unix stack) (ret : BitVec 64) (s : Machine 8)
    (hstack : ∀ x, InRange (s.regs .rsp - 8#64) 8 x → stack x) :
    (X86.run code.after (call f ret (X86.run code.before s))).memory.load 8 (s.regs .rsp - 8#64) =
      s.regs .rax := by
  have hpow : 8 ≤ 2 ^ (8 * 8) := by decide
  have hsp := before_sp h s
  rw [after_memory h]
  unfold call
  refine (ByteMemory.load_congr (m := (s.pushWord (s.regs .rax)).memory) hpow
    fun x hx => ?_).trans (ByteMemory.load_store_self hpow _ _)
  have hreturn : Clear 1 ((X86.run code.before s).regs .rsp) x := by
    rw [hsp]
    unfold Clear
    unfold InRange at hx
    bv_omega
  have habove :
      NotBelow (((X86.run code.before s).pushWord ret).regs .rsp + 8 + homeSpace .unix) x := by
    rw [pushWord_sp, hsp]
    unfold NotBelow homeSpace
    unfold InRange at hx
    bv_omega
  rw [f.memory _ x (hstack x hx) habove, (pushWord_memory ret hreturn).1,
    unix_before_memory h s hx]

/-- A callee that returns at once. -/
def returning (stack : BitVec 64 → Prop) : Callee .unix stack where
  run s := s.setReg .rsp (s.regs .rsp + 8)
  sp _ := rfl
  regs _ _ _ hr := Function.update_of_ne hr ..
  xmm _ _ _ := rfl
  memory _ _ _ _ := rfl

/-- No memory, and a one in `rax`. -/
def raxIsOne : Machine 8 where
  regs := Function.update (fun _ => 0) .rax 1
  flags := ⟨false, false, false, false, false, false⟩
  xmm := fun _ => 0
  memory := fun _ => 0

theorem notBelow_redZone (sp : BitVec 64) {x : BitVec 64} (hx : InRange (sp - 8#64) 8 x) :
    NotBelow (sp - redZone .unix) x := by
  unfold NotBelow redZone
  unfold InRange at hx
  bv_omega

theorem not_handlesComparison_unix (pc address : BitVec 64) (i : Instruction)
    (op1 op2 : CmplogOperandType) : ¬HandlesComparison .unix pc address i op1 op2 := by
  rintro ⟨code, hcode, h⟩
  rcases h (fun _ => 0) (fun _ => True) (returning _) 0 raxIsOne with ⟨-, -, -, hstack⟩
  have hword := unix_redZone hcode (returning fun _ => True) 0 raxIsOne fun _ _ => trivial
  have hsame : ∀ x, InRange (raxIsOne.regs .rsp - 8#64) 8 x →
      (X86.run code.after
          (call (returning fun _ => True) 0 (X86.run code.before raxIsOne))).memory x =
        raxIsOne.memory x := fun x hx => hstack x trivial (notBelow_redZone _ hx)
  rw [ByteMemory.load_congr (by decide) hsame] at hword
  revert hword
  decide

end Unix

/-! ## Windows -/

section Windows

variable {pc address : BitVec 64} {op1 op2 : CmplogOperandType} {code : Emitted}

/-- A callee that puts `v` into its home space. -/
def spoiling (stack : BitVec 64 → Prop) (v : BitVec (8 * 8)) : Callee .windows stack where
  run s := (s.setReg .rsp (s.regs .rsp + 8)).write (s.regs .rsp + 8) v
  sp _ := rfl
  regs _ _ _ hr := Function.update_of_ne hr ..
  xmm _ _ _ := rfl
  memory s x _ hx := by
    have hout : ¬InRange (s.regs .rsp + 8) 8 x := by
      unfold NotBelow homeSpace at hx
      unfold InRange
      bv_omega
    exact if_neg hout

/-- What `rax` gets back is the first word of the home space. -/
theorem windows_rax (h : emitComparisonHandling .windows pc address op1 op2 = some code)
    (s : Machine 8) : (X86.run code.after s).regs .rax = s.memory.load 8 (s.regs .rsp) := by
  rcases emitComparisonHandling_cases h with ⟨-, -, -, -, -, -, hafter⟩
  rw [hafter]
  simp [restoreRegisters, savedRegisters, X86.run, exec, Machine.setReg]

theorem windows_spoiled (h : emitComparisonHandling .windows pc address op1 op2 = some code)
    (stack : BitVec 64 → Prop) (v : BitVec (8 * 8)) (ret : BitVec 64) (s : Machine 8) :
    (X86.run code.after (call (spoiling stack v) ret s)).regs .rax = v := by
  rw [windows_rax h]
  exact ByteMemory.load_store_self (by decide) _ v

theorem not_handlesComparison_windows (pc address : BitVec 64) (i : Instruction)
    (op1 op2 : CmplogOperandType) : ¬HandlesComparison .windows pc address i op1 op2 := by
  rintro ⟨code, hcode, h⟩
  rcases h (fun _ => 0) (fun _ => True) (spoiling _ 0) 0 raxIsOne with ⟨-, hregs, -⟩
  have hrax := hregs .rax (by decide)
  rw [windows_spoiled hcode] at hrax
  revert hrax
  decide

end Windows

/-! ## The arguments -/

section Arguments

variable {os : Os} {pc address : BitVec 64}

/-- The byte that the callee takes for the size: on Unix what the target has in `rdi`. -/
def loggedSize (os : Os) (size : Nat) (s : Machine 8) : BitVec 8 :=
  match os with
  | .windows => BitVec.ofNat 8 size
  | .unix => field 0 8 (s.regs .rdi)

/-- The word that was pushed last is the second argument. -/
theorem argumentsAt_passArguments (size : Nat) (t : Machine 8) (v : BitVec (8 * 8)) :
    argumentsAt os (X86.run (passArguments os size address) (t.pushWord v)) = some
      { size := loggedSize os size t
        op1 := v
        op2 := t.memory.load 8 (t.regs .rsp)
        retaddr := address } := by
  have htop : (t.pushWord v).memory.load 8 (t.regs .rsp - 8#64) = v :=
    ByteMemory.load_store_self (by decide) _ _
  have hnext : (t.pushWord v).memory.load 8 (t.regs .rsp) = t.memory.load 8 (t.regs .rsp) :=
    ByteMemory.load_store_of_apart (by decide) v fun x hx hx' => by
      unfold InRange at hx hx'
      bv_omega
  have hback : t.regs .rsp - 8#64 + 8#64 = t.regs .rsp := BitVec.sub_add_cancel ..
  cases os with
  | windows =>
      simp [argumentsAt, argumentRegs, passArguments, X86.run, exec, argReg1, argReg2, argReg3,
        argReg4, Machine.setReg, loggedSize, pushWord_sp, htop, hback, hnext, field_setField]
  | unix =>
      simp [argumentsAt, argumentRegs, passArguments, X86.run, exec, argReg1, argReg2, argReg3,
        argReg4, Machine.setReg, loggedSize, pushWord_sp, htop, hback, hnext, pushWord_regs]

theorem pushes_regs (gs : List Gpr) (s : Machine 8) {r : Gpr} (hr : r ≠ .rsp) :
    (X86.run (gs.map .push) s).regs r = s.regs r := by
  induction gs generalizing s with
  | nil => rfl
  | cons g gs ih => exact (ih (s.pushWord (s.regs g))).trans (pushWord_regs s _ hr)

theorem emitOperand_reg {g : Gpr} (hg : g ≠ .rax) (pc : BitVec 64) (opNum sizeOp : Nat) :
    emitOperand pc opNum sizeOp (.reg (.gpr g .full)) =
      (setSize sizeOp 8).bind fun size => some (size, [.push g]) := by
  cases g <;> first | exact absurd rfl hg | rfl

/-- Two registers are logged the other way around, and on Unix the size is not the first
argument. -/
theorem registers_swapped {g₁ g₂ : Gpr} (h₁ : g₁ ≠ .rax) (h₁' : g₁ ≠ .rsp) (h₂ : g₂ ≠ .rax)
    (h₂' : g₂ ≠ .rsp) (s : Machine 8) :
    ∃ code, emitComparisonHandling os pc address (.reg (.gpr g₁ .full)) (.reg (.gpr g₂ .full)) =
        some code ∧
      argumentsAt os (X86.run code.before s) = some
        { size := loggedSize os 8 s
          op1 := s.regs g₂
          op2 := s.regs g₁
          retaddr := address } := by
  have hcode : emitComparisonHandling os pc address (.reg (.gpr g₁ .full))
      (.reg (.gpr g₂ .full)) = some
        { before := saveRegisters os ++ ([.push g₁] ++ ([.push g₂] ++ passArguments os 8 address))
          after := restoreRegisters os } := by
    unfold emitComparisonHandling
    rw [emitOperand_reg h₁]
    change Option.bind (emitOperand pc 1 8 _) _ = _
    rw [emitOperand_reg h₂]
    rfl
  have hsave : ∀ r, r ≠ .rsp → (X86.run (saveRegisters os) s).regs r = s.regs r := fun r hr =>
    pushes_regs _ s hr
  refine ⟨_, hcode, ?_⟩
  dsimp only
  rw [run_append, run_append, run_append]
  generalize X86.run (saveRegisters os) s = t at hsave
  have hrun : X86.run [.push g₂] (X86.run [.push g₁] t) =
      (t.pushWord (t.regs g₁)).pushWord ((t.pushWord (t.regs g₁)).regs g₂) := rfl
  have hfirst : (t.pushWord (t.regs g₁)).memory.load 8 ((t.pushWord (t.regs g₁)).regs .rsp) =
      t.regs g₁ := ByteMemory.load_store_self (by decide) _ _
  have hsize : loggedSize os 8 (t.pushWord (t.regs g₁)) = loggedSize os 8 s := by
    cases os with
    | windows => rfl
    | unix =>
        unfold loggedSize
        rw [pushWord_regs t _ (by decide), hsave .rdi (by decide)]
  rw [hrun, argumentsAt_passArguments, hfirst, hsize, pushWord_regs t _ h₂', hsave g₂ h₂',
    hsave g₁ h₁']

end Arguments

/-! ## No comparison -/

/-- Whatever operands the runtime finds in the instruction, the code for them logs them and
is transparent. -/
def HandlesInstruction (os : Os) (pc address : BitVec 64) (i : Instruction) : Prop :=
  ∀ op1 op2, cmplogIsInterestingInstruction i = some (op1, op2) →
    HandlesComparison os pc address i op1 op2

/-- Only an instruction that gets no code is handled. -/
theorem handlesInstruction_iff (os : Os) (pc address : BitVec 64) (i : Instruction) :
    HandlesInstruction os pc address i ↔ cmplogIsInterestingInstruction i = none := by
  refine ⟨fun h => ?_, fun hnone op1 op2 hsome => ?_⟩
  · cases hi : cmplogIsInterestingInstruction i with
    | none => rfl
    | some ops =>
        have hops := h ops.1 ops.2 hi
        cases os with
        | windows => exact absurd hops (not_handlesComparison_windows pc address i ops.1 ops.2)
        | unix => exact absurd hops (not_handlesComparison_unix pc address i ops.1 ops.2)
  · rw [hnone] at hsome
    cases hsome

/-- `cmp rbx, rcx` on Unix. -/
theorem not_handlesInstruction_registers :
    ¬HandlesInstruction .unix 0 0x1000
      ⟨.cmp, [.register (.gpr .rbx .full), .register (.gpr .rcx .full)]⟩ := fun h =>
  not_handlesComparison_unix _ _ _ _ _ (h (.reg (.gpr .rbx .full)) (.reg (.gpr .rcx .full)) rfl)

end Libaflmm.CmpLogRuntime
