import Libaflmm.X86Machine

/-!
# The stack of an x86 machine

`StackAt m sp ws` says that the words `ws` are on the stack whose pointer is
`sp`, the first of them on top. A push puts a word on it, and a list of pops
takes the words off again. A push changes memory below the pointer only.
-/

namespace Libaflmm.X86

abbrev Qword := BitVec (8 * 8)

def StackAt (m : ByteMemory (8 * 8)) : Qword → List Qword → Prop
  | _, [] => True
  | sp, w :: ws => m.load 8 sp = w ∧ StackAt m (sp + 8#(8 * 8)) ws

variable {m m' : ByteMemory (8 * 8)} {sp : Qword} {ws : List Qword}

/-- The words stay as long as the memory does that they are in. -/
theorem StackAt.congr (h : StackAt m sp ws) (hlen : 8 * ws.length ≤ 2 ^ 64)
    (hm : ∀ x, InRange sp (8 * ws.length) x → m' x = m x) : StackAt m' sp ws := by
  induction ws generalizing sp with
  | nil => trivial
  | cons w ws ih =>
      obtain ⟨htop, hrest⟩ := h
      rw [List.length_cons] at hlen hm
      refine ⟨?_, ih hrest (by omega) fun x hx => hm x (hx.of_add (i := 8) (by omega) (by omega))⟩
      rw [← htop]
      refine ByteMemory.load_congr (by omega) fun x hx => hm x ?_
      unfold InRange at *
      omega

theorem StackAt.store (h : StackAt m sp ws) (hlen : 8 * (ws.length + 1) ≤ 2 ^ 64) (v : Qword) :
    StackAt (m.store (sp - 8#(8 * 8)) v) (sp - 8#(8 * 8)) (v :: ws) := by
  refine ⟨ByteMemory.load_store_self (by omega) _ _, ?_⟩
  rw [BitVec.sub_add_cancel]
  refine h.congr (by omega) fun x hx => ByteMemory.store_of_not_inRange v ?_
  unfold InRange at *
  bv_omega

/-- The address is one of the last `k` words below `sp`. -/
def Below (sp : Qword) (k : Nat) (x : Qword) : Prop :=
  InRange (sp - BitVec.ofNat (8 * 8) (8 * k)) (8 * k) x

section

variable (s : Machine 8)

@[simp] theorem pushWord_flags (v : Qword) : (s.pushWord v).flags = s.flags := rfl

@[simp] theorem pushWord_xmm (v : Qword) : (s.pushWord v).xmm = s.xmm := rfl

@[simp] theorem pushWord_rsp (v : Qword) :
    (s.pushWord v).regs .rsp = s.regs .rsp - 8#(8 * 8) := rfl

theorem pushWord_gpr (v : Qword) {r : Gpr} (hr : r ≠ .rsp) : (s.pushWord v).regs r = s.regs r :=
  Function.update_of_ne hr ..

theorem pushWord_stack (v : Qword) (h : StackAt s.memory (s.regs .rsp) ws)
    (hlen : 8 * (ws.length + 1) ≤ 2 ^ 64) :
    StackAt (s.pushWord v).memory ((s.pushWord v).regs .rsp) (v :: ws) :=
  h.store hlen v

end

theorem Below.mono {sp x : Qword} {j k : Nat} (h : Below sp j x) (hjk : j ≤ k) :
    Below sp k x := by
  unfold Below InRange at *
  bv_omega

theorem Below.push {sp x : Qword} {j : Nat} (h : Below (sp - 8#(8 * 8)) j x) :
    Below sp (j + 1) x := by
  unfold Below InRange at *
  bv_omega

theorem below_one {sp x : Qword} (h : InRange (sp - 8#(8 * 8)) 8 x) : Below sp 1 x := h

/-! ## Pushing and popping registers -/

/-- Registers that are pushed are on the stack, the last of them on top. -/
theorem run_pushes (gs : List Gpr) (hgs : .rsp ∉ gs) {s : Machine 8}
    (h : StackAt s.memory (s.regs .rsp) ws) (hlen : 8 * (ws.length + gs.length) ≤ 2 ^ 64) :
    let t := run (gs.map .push) s
    StackAt t.memory (t.regs .rsp) (gs.reverse.map s.regs ++ ws) ∧
      t.regs .rsp = s.regs .rsp - BitVec.ofNat (8 * 8) (8 * gs.length) ∧
      (∀ r, r ≠ .rsp → t.regs r = s.regs r) ∧ t.flags = s.flags ∧ t.xmm = s.xmm ∧
      ∀ x, ¬Below (s.regs .rsp) gs.length x → t.memory x = s.memory x := by
  induction gs generalizing s ws with
  | nil => exact ⟨h, (BitVec.sub_zero _).symm, fun _ _ => rfl, rfl, rfl, fun _ _ => rfl⟩
  | cons g gs ih =>
      obtain ⟨hg, hgs⟩ := List.ne_and_not_mem_of_not_mem_cons hgs
      rw [List.length_cons] at hlen
      have hpush := pushWord_stack s (s.regs g) h (by omega)
      obtain ⟨hstack, hsp, hregs, hflags, hxmm, hmem⟩ := ih hgs hpush
        (by rw [List.length_cons]; omega)
      have hrun : run ((g :: gs).map .push) s = run (gs.map .push) (s.pushWord (s.regs g)) := rfl
      simp only [hrun]
      refine ⟨?_, ?_, fun r hr => ?_, hflags, hxmm, fun x hx => ?_⟩
      · have hsaved : gs.reverse.map (s.pushWord (s.regs g)).regs = gs.reverse.map s.regs := by
          refine List.map_congr_left fun r hr => pushWord_gpr s _ ?_
          rintro rfl
          exact hgs (List.mem_reverse.mp hr)
        rw [hsaved] at hstack
        rw [List.reverse_cons, List.map_append, List.append_assoc]
        exact hstack
      · rw [hsp, pushWord_rsp, List.length_cons]
        bv_omega
      · rw [hregs r hr, pushWord_gpr s _ hr]
      · rw [hmem x fun hbelow => hx hbelow.push]
        exact ByteMemory.store_of_not_inRange _ fun hin =>
          hx ((below_one hin).mono (Nat.le_add_left 1 _))

/-- The registers that are popped get the words on top of the stack. -/
theorem run_pops (gs : List Gpr) (hgs : .rsp ∉ gs) (f : Gpr → Qword) {s : Machine 8}
    (h : StackAt s.memory (s.regs .rsp) (gs.map f ++ ws)) :
    let t := run (gs.map .pop) s
    StackAt t.memory (t.regs .rsp) ws ∧
      t.regs .rsp = s.regs .rsp + BitVec.ofNat (8 * 8) (8 * gs.length) ∧
      (∀ r ∈ gs, t.regs r = f r) ∧ (∀ r, r ∉ gs → r ≠ .rsp → t.regs r = s.regs r) ∧
      t.flags = s.flags ∧ t.xmm = s.xmm ∧ t.memory = s.memory := by
  induction gs generalizing s with
  | nil =>
      exact ⟨h, (BitVec.add_zero _).symm, fun r hr => absurd hr List.not_mem_nil,
        fun _ _ _ => rfl, rfl, rfl, rfl⟩
  | cons g gs ih =>
      obtain ⟨hg, hgs⟩ := List.ne_and_not_mem_of_not_mem_cons hgs
      obtain ⟨htop, hrest⟩ := h
      have hsp : (exec s (.pop g)).regs .rsp = s.regs .rsp + 8#(8 * 8) := by
        simp [exec, Machine.setReg, hg]
      have hg' : (exec s (.pop g)).regs g = f g := by
        simp only [exec, Machine.setReg, Function.update_self]
        exact htop
      have hother : ∀ r, r ≠ g → r ≠ .rsp → (exec s (.pop g)).regs r = s.regs r := by
        intro r hr hrsp
        simp [exec, Machine.setReg, hr, hrsp]
      obtain ⟨hstack, hsp', hpopped, hkept, hflags, hxmm, hmem⟩ :=
        ih hgs (s := exec s (.pop g)) (by rw [hsp]; exact hrest)
      have hrun : run ((g :: gs).map .pop) s = run (gs.map .pop) (exec s (.pop g)) := rfl
      simp only [hrun]
      refine ⟨hstack, ?_, fun r hr => ?_, fun r hr hrsp => ?_, hflags, hxmm, hmem⟩
      · rw [hsp', hsp, List.length_cons]
        bv_omega
      · by_cases hin : r ∈ gs
        · exact hpopped r hin
        · rcases List.mem_cons.mp hr with rfl | hr
          · rw [hkept r hin hg.symm, hg']
          · exact absurd hr hin
      · obtain ⟨hne, hnot⟩ := List.ne_and_not_mem_of_not_mem_cons hr
        rw [hkept r hnot hrsp, hother r hne hrsp]

end Libaflmm.X86
