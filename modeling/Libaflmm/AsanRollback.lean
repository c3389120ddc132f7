import Libaflmm.AsanHost

/-!
# What a rollback restores

A recorded page stands for 512 bytes of shadow, but its copy takes as many
bytes of shadow as the page has bytes: the shadow of 8 guest pages. A page
saved at the snapshot therefore restores more than its own shadow, and a page
recorded later clears more, over whatever the pages before it in the hash
order restored.

`rollback_restores_iff` says when no order loses anything.
-/

namespace Libaflmm

namespace AsanGiovese

inductive ShadowOp
  | poison (addr n : Nat) (poisonByte : Int8)
  | unpoison (addr n : Nat)

def ShadowOp.exec (guestBase : Nat) (self : AsanGiovese) : ShadowOp → AsanGiovese
  | .poison addr n poisonByte => (self.poison guestBase addr n poisonByte).2
  | .unpoison addr n => (self.unpoison guestBase addr n).2

def execAll (guestBase : Nat) (ops : List ShadowOp) (self : AsanGiovese) : AsanGiovese :=
  ops.foldl (ShadowOp.exec guestBase) self

/-- The shadow value of a guest byte. -/
def shadowOf (guestBase addr : Nat) (self : AsanGiovese) : Int8 :=
  self.shadow (shadowAddr guestBase addr)

/-- The operations poison some byte of the page. -/
def Poisons (ops : List ShadowOp) (page : Nat) : Prop :=
  ∃ addr n poisonByte, .poison addr n poisonByte ∈ ops ∧ n ≠ 0 ∧ page ∈ touched addr n

/-- The shadow byte lies in the copy of the page. -/
def InCopy (guestBase page c : Nat) : Prop :=
  shadowAddr guestBase page ≤ c ∧ c < shadowAddr guestBase page + SHADOW_PAGE_SIZE

/-! ## What the operations record -/

theorem exists_touched_inCopy (guestBase : Nat) {addr n a : Nat} (hle : addr ≤ a)
    (hlt : a < addr + n) :
    ∃ page ∈ touched addr n, InCopy guestBase page (shadowAddr guestBase a) := by
  refine ⟨a - a % SHADOW_PAGE_SIZE, ?_, ?_⟩
  · refine (mem_strided (by decide)).mpr
      ⟨a / SHADOW_PAGE_SIZE - addr / SHADOW_PAGE_SIZE, ?_, ?_⟩ <;>
    · simp only [SHADOW_PAGE_SIZE]
      omega
  · simp only [InCopy, shadowAddr, g2h, SHADOW_PAGE_SIZE, Nat.shiftRight_eq_div_pow]
    omega

/-- From `s` to `t`: pages stay recorded, and what changed in the shadow lies in
the copy of a recorded page. -/
structure Recorded (guestBase : Nat) (s t : AsanGiovese) : Prop where
  snapshotShadow : t.snapshotShadow = s.snapshotShadow
  savedShadow : t.savedShadow = s.savedShadow
  dirty : ∀ page ∈ s.dirtyShadow, page ∈ t.dirtyShadow
  changed : ∀ c, t.shadow c = s.shadow c ∨ ∃ page ∈ t.dirtyShadow, InCopy guestBase page c

theorem foldl_record (pages : List Nat) (s : AsanGiovese) :
    ∃ dirty : HashSet Nat,
      pages.foldl (fun s page => { s with dirtyShadow := s.dirtyShadow.insert page () }) s =
        { s with dirtyShadow := dirty } ∧
      ∀ page, page ∈ dirty ↔ page ∈ s.dirtyShadow ∨ page ∈ pages := by
  induction pages generalizing s with
  | nil => exact ⟨s.dirtyShadow, rfl, by simp⟩
  | cons p pages ih =>
      obtain ⟨dirty, heq, hmem⟩ := ih { s with dirtyShadow := s.dirtyShadow.insert p () }
      refine ⟨dirty, heq, fun page => ?_⟩
      rw [hmem, AList.mem_insert, List.mem_cons]
      tauto

theorem fill_eq_or (guestBase addr n start stop c : Nat) (v : Int8) (mem : Nat → Int8)
    (hstart : addr ≤ start) (hstop : stop ≤ addr + n) :
    fill ((strided 8 start stop).map (shadowAddr guestBase)) v mem c = mem c ∨
      ∃ a, addr ≤ a ∧ a < addr + n ∧ shadowAddr guestBase a = c := by
  rw [fill_apply]
  split
  · next hc =>
      obtain ⟨a, ha, rfl⟩ := List.mem_map.mp hc
      obtain ⟨i, rfl, hlt⟩ := (mem_strided (by decide)).mp ha
      exact Or.inr ⟨start + 8 * i, by omega, by omega, rfl⟩
  · exact Or.inl rfl

/-- `poison` records the pages of its range, and writes to the shadow of its range only. -/
theorem poison_spec (guestBase addr : Nat) {n : Nat} (poisonByte : Int8) {s t : AsanGiovese}
    (hsnap : s.snapshotShadow = true) (hn : n ≠ 0)
    (ht : (s.poison guestBase addr n poisonByte).2 = t) :
    t.snapshotShadow = s.snapshotShadow ∧ t.savedShadow = s.savedShadow ∧
      (∀ page, page ∈ t.dirtyShadow ↔ page ∈ s.dirtyShadow ∨ page ∈ touched addr n) ∧
      ∀ c, t.shadow c = s.shadow c ∨
        ∃ a, addr ≤ a ∧ a < addr + n ∧ shadowAddr guestBase a = c := by
  obtain ⟨dirty, hdirty, hmem⟩ := foldl_record (touched addr n) s
  simp only [poison, if_neg hn, hsnap, if_true, hdirty] at ht
  split at ht
  · next hmod =>
      split at ht
      · subst ht
        exact ⟨hsnap.symm, rfl, hmem, fun c => Or.inl rfl⟩
      · next hfirst =>
          subst ht
          refine ⟨hsnap.symm, rfl, hmem, fun c => ?_⟩
          have hfill := fill_eq_or guestBase addr n (addr - addr % 8 + 8)
            (addr + n - (addr + n) % 8) c poisonByte
            (Function.update s.shadow (shadowAddr guestBase addr)
              (Int8.ofNat (8 - (addr - addr % 8 + 8 - addr)))) (by omega) (by omega)
          rcases hfill with heq | hin
          · by_cases hc : shadowAddr guestBase addr = c
            · exact Or.inr ⟨addr, le_refl _, by omega, hc⟩
            · exact Or.inl (heq.trans (Function.update_of_ne (Ne.symm hc) _ _))
          · exact Or.inr hin
  · subst ht
    exact ⟨hsnap.symm, rfl, hmem, fun c =>
      fill_eq_or guestBase addr n addr _ c _ _ (le_refl _) (by omega)⟩

/-- `unpoison` records nothing, and only clears shadow. -/
theorem unpoison_spec (guestBase addr n : Nat) (s : AsanGiovese) {t : AsanGiovese}
    (ht : (s.unpoison guestBase addr n).2 = t) :
    t.snapshotShadow = s.snapshotShadow ∧ t.savedShadow = s.savedShadow ∧
      t.dirtyShadow = s.dirtyShadow ∧ ∀ c, t.shadow c = s.shadow c ∨ t.shadow c = 0 := by
  subst ht
  refine ⟨rfl, rfl, rfl, fun c => ?_⟩
  simp only [unpoison, fill_apply]
  split
  · exact Or.inr rfl
  · exact Or.inl rfl

theorem poison_zero {guestBase addr : Nat} {poisonByte : Int8} {s : AsanGiovese} :
    (s.poison guestBase addr 0 poisonByte).2 = s := by
  simp [poison]

/-- What is not zero in the shadow lies in the copy of a recorded page. -/
def DirtyShadow (guestBase : Nat) (s : AsanGiovese) : Prop :=
  ∀ c, s.shadow c ≠ 0 → ∃ page ∈ s.dirtyShadow, InCopy guestBase page c

theorem recorded_exec {guestBase : Nat} {s t : AsanGiovese} (hsnap : s.snapshotShadow = true)
    (hs : DirtyShadow guestBase s) (h : Recorded guestBase s t) (op : ShadowOp) :
    Recorded guestBase s (op.exec guestBase t) := by
  have htsnap : t.snapshotShadow = true := h.snapshotShadow.trans hsnap
  cases op with
  | poison addr n poisonByte =>
      by_cases hn : n = 0
      · subst hn
        rw [ShadowOp.exec, poison_zero]
        exact h
      · obtain ⟨hsnap', hsaved, hdirty, hshadow⟩ :=
          poison_spec guestBase addr poisonByte htsnap hn rfl
        refine ⟨hsnap'.trans h.snapshotShadow, hsaved.trans h.savedShadow, ?_, ?_⟩
        · intro page hp
          exact (hdirty page).mpr (Or.inl (h.dirty page hp))
        · intro c
          rcases hshadow c with heq | ⟨a, hle, hlt, rfl⟩
          · rcases h.changed c with hsame | ⟨page, hp, hin⟩
            · exact Or.inl (heq.trans hsame)
            · exact Or.inr ⟨page, (hdirty page).mpr (Or.inl hp), hin⟩
          · obtain ⟨page, hp, hin⟩ := exists_touched_inCopy guestBase hle hlt
            exact Or.inr ⟨page, (hdirty page).mpr (Or.inr hp), hin⟩
  | unpoison addr n =>
      obtain ⟨hsnap', hsaved, hdirty, hshadow⟩ :=
        unpoison_spec guestBase addr n t rfl
      refine ⟨hsnap'.trans h.snapshotShadow, hsaved.trans h.savedShadow, ?_, ?_⟩
      · intro page hp
        exact hdirty ▸ h.dirty page hp
      · intro c
        rcases hshadow c with heq | hzero
        · rcases h.changed c with hsame | ⟨page, hp, hin⟩
          · exact Or.inl (heq.trans hsame)
          · exact Or.inr ⟨page, hdirty ▸ hp, hin⟩
        · -- a byte that was poisoned before lies in a page that stays recorded
          by_cases hc : s.shadow c = 0
          · exact Or.inl (hzero.trans hc.symm)
          · obtain ⟨page, hp, hin⟩ := hs c hc
            exact Or.inr ⟨page, hdirty ▸ h.dirty page hp, hin⟩

theorem recorded_execAll {guestBase : Nat} {s : AsanGiovese} (hsnap : s.snapshotShadow = true)
    (hs : DirtyShadow guestBase s) (ops : List ShadowOp) :
    Recorded guestBase s (execAll guestBase ops s) := by
  induction ops using List.reverseRecOn with
  | nil => exact ⟨rfl, rfl, fun _ hp => hp, fun _ => Or.inl rfl⟩
  | append_singleton ops op ih =>
      rw [execAll, List.foldl_append]
      exact recorded_exec hsnap hs ih op

theorem poisons_concat {ops : List ShadowOp} {op : ShadowOp} {page : Nat} :
    Poisons (ops ++ [op]) page ↔ Poisons ops page ∨ Poisons [op] page := by
  simp only [Poisons, List.mem_append, or_and_right, exists_or]

theorem mem_dirtyShadow_exec {guestBase : Nat} {s : AsanGiovese} (hsnap : s.snapshotShadow = true)
    (op : ShadowOp) {page : Nat} :
    page ∈ (op.exec guestBase s).dirtyShadow ↔ page ∈ s.dirtyShadow ∨ Poisons [op] page := by
  cases op with
  | unpoison addr n => simp [ShadowOp.exec, unpoison, Poisons]
  | poison addr n poisonByte =>
      by_cases hn : n = 0
      · subst hn
        simp [ShadowOp.exec, poison_zero, Poisons]
      · obtain ⟨-, -, hdirty, -⟩ :=
          poison_spec guestBase addr poisonByte hsnap hn rfl
        rw [ShadowOp.exec, hdirty]
        simp [Poisons, hn]

theorem mem_dirtyShadow_execAll {guestBase : Nat} {s : AsanGiovese}
    (hsnap : s.snapshotShadow = true) (hs : DirtyShadow guestBase s) (ops : List ShadowOp)
    {page : Nat} :
    page ∈ (execAll guestBase ops s).dirtyShadow ↔ page ∈ s.dirtyShadow ∨ Poisons ops page := by
  induction ops using List.reverseRecOn with
  | nil => simp [execAll, Poisons]
  | append_singleton ops op ih =>
      have hsnap' := (recorded_execAll hsnap hs ops).snapshotShadow.trans hsnap
      rw [execAll, List.foldl_append]
      show page ∈ (op.exec guestBase (execAll guestBase ops s)).dirtyShadow ↔ _
      rw [mem_dirtyShadow_exec hsnap', ih, poisons_concat, or_assoc]

/-! ## Snapshot and rollback -/

theorem lookup_foldl_insert {K V : Type} [DecidableEq K] {f : K → V} {keys : List K}
    {m : HashMap K V} {k : K} :
    (keys.foldl (fun m k => m.insert k (f k)) m).lookup k =
      if k ∈ keys then some (f k) else m.lookup k := by
  induction keys generalizing m with
  | nil => rfl
  | cons k' keys ih =>
      show (keys.foldl (fun m k => m.insert k (f k)) (m.insert k' (f k'))).lookup k = _
      rw [ih, HashMap.lookup_insert]
      by_cases hk : k ∈ keys
      · simp [hk]
      · by_cases heq : k = k' <;> simp [hk, heq]

/-- The block that a rollback writes for a recorded page. -/
def restored (saved : HashMap Nat (List Int8)) (page : Nat) : List Int8 :=
  (saved.lookup page).getD (List.replicate SHADOW_PAGE_SIZE 0)

theorem restored_of_some {saved : HashMap Nat (List Int8)} {page : Nat} {data : List Int8}
    (h : saved.lookup page = some data) : restored saved page = data := by
  rw [restored, h, Option.getD_some]

theorem restored_of_none {saved : HashMap Nat (List Int8)} {page : Nat}
    (h : saved.lookup page = none) :
    restored saved page = List.replicate SHADOW_PAGE_SIZE 0 := by
  rw [restored, h, Option.getD_none]

theorem foldl_rollbackPage {guestBase : Nat} {order : List Nat} {s : AsanGiovese} :
    (order.foldl (rollbackPage guestBase) s).shadow =
      order.foldl (fun mem page => writeBlock mem (shadowAddr guestBase page)
        (restored s.savedShadow page)) s.shadow := by
  induction order generalizing s with
  | nil => rfl
  | cons page order ih =>
      have hsaved : (rollbackPage guestBase s page).savedShadow = s.savedShadow := by
        unfold rollbackPage
        split <;> rfl
      have hshadow : (rollbackPage guestBase s page).shadow =
          writeBlock s.shadow (shadowAddr guestBase page) (restored s.savedShadow page) := by
        unfold rollbackPage
        split
        · next data hdata => rw [restored_of_some hdata, setShadowPage]
        · next hnone => rw [restored_of_none hnone, unpoisonPage]
      simp only [List.foldl_cons, ih, hsaved, hshadow]

theorem rollback_shadow {guestBase : Nat} {order : List Nat} {detectLeaks : Bool}
    {s : AsanGiovese} (hsnap : s.snapshotShadow = true) :
    (s.rollback guestBase order detectLeaks).2.1.shadow =
      order.foldl (fun mem page => writeBlock mem (shadowAddr guestBase page)
        (restored s.savedShadow page)) s.shadow := by
  simp only [rollback, hsnap, if_true, foldl_rollbackPage]

theorem snapshot_spec (guestBase : Nat) {s : AsanGiovese} (hsnap : s.snapshotShadow = true)
    (hsaved : s.savedShadow = ∅) :
    (s.snapshot guestBase).snapshotShadow = true ∧ (s.snapshot guestBase).shadow = s.shadow ∧
      (s.snapshot guestBase).dirtyShadow = s.dirtyShadow ∧
      ∀ page, (s.snapshot guestBase).savedShadow.lookup page =
        if page ∈ s.dirtyShadow then some (s.getShadowPage guestBase page) else none := by
  simp only [snapshot, hsnap, if_true, hsaved, true_and]
  intro page
  rw [lookup_foldl_insert, AList.lookup_empty]
  exact if_congr AList.mem_keys.symm rfl rfl

/-- The address 8 times `i` bytes into a page has the shadow byte `i` after the page's. -/
theorem shadowAddr_add {guestBase page i : Nat} :
    shadowAddr guestBase (page + 8 * i) = shadowAddr guestBase page + i := by
  simp only [shadowAddr, g2h, Nat.shiftRight_eq_div_pow]
  omega

/-- When every block is what `mem` has there, the pages are put back to `mem`. -/
theorem rollback_agrees {guestBase : Nat} {saved : HashMap Nat (List Int8)} {order : List Nat}
    {mem mem' : Nat → Int8} {c : Nat}
    (hblocks : ∀ page ∈ order,
      restored saved page = readBlock mem (shadowAddr guestBase page) SHADOW_PAGE_SIZE)
    (hchanged : mem' c = mem c ∨ ∃ page ∈ order, InCopy guestBase page c) :
    order.foldl (fun mem page => writeBlock mem (shadowAddr guestBase page) (restored saved page))
      mem' c = mem c := by
  apply foldl_writeBlock_of_agree
  · intro page hp i hi hc
    subst hc
    simp [hblocks page hp]
  · intro hnone
    rcases hchanged with heq | ⟨page, hp, hin⟩
    · exact heq
    · refine absurd hin ?_
      simpa [hblocks page hp, InCopy] using hnone page hp

/-- The page that comes last is clear, when it was not saved. -/
theorem rollback_clears (guestBase page i : Nat) {saved : HashMap Nat (List Int8)}
    (order : List Nat) {mem : Nat → Int8} (hpage : saved.lookup page = none)
    (hi : i < SHADOW_PAGE_SIZE) :
    (order ++ [page]).foldl (fun mem page =>
      writeBlock mem (shadowAddr guestBase page) (restored saved page)) mem
      (shadowAddr guestBase page + i) = 0 := by
  rw [List.foldl_append]
  simp only [List.foldl_cons, List.foldl_nil, restored_of_none hpage]
  rw [writeBlock_add (by simpa using hi), List.getElem_replicate]

theorem clear_eq {mem : Nat → Int8} {start n : Nat} (h : ∀ i < n, mem (start + i) = 0) :
    List.replicate n 0 = readBlock mem start n := by
  apply List.ext_getElem
  · simp
  · intro i hi _
    rw [List.length_replicate] at hi
    rw [List.getElem_replicate, getElem_readBlock, h i hi]

end AsanGiovese

end Libaflmm
