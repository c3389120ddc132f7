import Libaflmm.RegexMutator

/-!
# When the strings can be written

A class is written by a draw between the words its ends are encoded into.
That is a character as long as the encodings have at most two bytes, and not
always one otherwise: the word of a longer encoding is beyond all characters.
A range of bytes must not reach the last byte, and a class must not be empty.

`Hir.Sound` asks this of all classes in an expression. It is exactly when no
draws make the walk panic.
-/

namespace Libaflmm

/-! ## Sound expressions -/

def ClassUnicodeRange.Sound (rng : ClassUnicodeRange) : Prop :=
  rng.stop.toNat < 0x800 ∧ charWord rng.start ≤ charWord rng.stop + 1

def ClassBytesRange.Sound (rng : ClassBytesRange) : Prop := rng.stop.toNat + 1 < 256

def Class.Sound : Class → Prop
  | .unicode ranges => ranges ≠ [] ∧ ∀ rng ∈ ranges, rng.Sound
  | .bytes ranges => ranges ≠ [] ∧ ∀ rng ∈ ranges, rng.Sound

namespace Hir

mutual

def Sound : Hir → Prop
  | .empty | .literal _ | .look => True
  | .cls chars => chars.Sound
  | .repetition _ _ sub => sub.Sound
  | .capture sub => sub.Sound
  | .concat hirs => AllSound hirs
  | .alternation hirs => AllSound hirs

def AllSound : List Hir → Prop
  | [] => True
  | hir :: hirs => hir.Sound ∧ AllSound hirs

end

theorem allSound_iff {hirs : List Hir} : AllSound hirs ↔ ∀ hir ∈ hirs, hir.Sound := by
  induction hirs with
  | nil => simp [AllSound]
  | cons hir hirs ih => simp [AllSound, ih]

theorem allWellFormed_iff {hirs : List Hir} :
    AllWellFormed hirs ↔ ∀ hir ∈ hirs, hir.WellFormed := by
  induction hirs with
  | nil => simp [AllWellFormed]
  | cons hir hirs ih => simp [AllWellFormed, ih]

end Hir

/-! ## The words of characters -/

theorem charWord_lt_surrogates {chr : Char} (h : chr.toNat < 0x800) : charWord chr < 0xd800 := by
  have hval : chr.val.toNat < 0x800 := h
  simp only [charWord, String.utf8EncodeChar]
  split_ifs with h1 h2
  · simp [ofLeBytes]
    omega
  · simp [ofLeBytes]
    omega
  · omega
  · omega

theorem charWord_gt_of_long {chr : Char} (h : 0x800 ≤ chr.toNat) : 0x10ffff < charWord chr := by
  have hval : 0x800 ≤ chr.val.toNat := h
  simp only [charWord, String.utf8EncodeChar]
  split_ifs with h1 h2 h3
  · omega
  · omega
  · simp [ofLeBytes]
    omega
  · simp [ofLeBytes]
    omega

theorem charWord_lt (chr : Char) : charWord chr < 2 ^ 32 := by
  simp only [charWord, String.utf8EncodeChar]
  split_ifs <;> simp [ofLeBytes] <;> omega

theorem charFromU32_isSome {c : Nat} (h : c < 0xd800) : ∃ chr, charFromU32 c = some chr := by
  unfold charFromU32
  rw [dif_pos (Or.inl h)]
  exact ⟨_, rfl⟩

theorem charFromU32_eq_none {c : Nat} (h : 0x10ffff < c) : charFromU32 c = none := by
  unfold charFromU32
  rw [dif_neg]
  intro hvalid
  unfold Nat.isValidChar at hvalid
  omega

/-! ## No draws make a sound expression panic -/

section

variable {R : Type} [Rand R] (scr : RegexScript)

theorem RegexScript.getMod_lt {val : Nat} (h : 0 < val) (r : R) : (scr.getMod val r).1 < val := by
  have := scr.getMod_le val r
  omega

theorem RegexScript.getRange_eq {min max : Nat} (h : min ≤ max) (r : R) :
    scr.getRange min max r =
      some ((scr.getMod (max - min) r).1 + min, (scr.getMod (max - min) r).2) :=
  if_pos h

theorem ClassUnicodeRange.Sound.append {rng : ClassUnicodeRange} (h : rng.Sound)
    (res : List UInt8) (r : R) :
    ∃ res', appendUnicodeRange scr res rng r =
      some (res', (scr.getMod (charWord rng.stop + 1 - charWord rng.start) r).2) := by
  obtain ⟨hshort, hle⟩ := h
  have hstart : charWord rng.start < 0xd800 :=
    charWord_lt_surrogates (Nat.lt_of_le_of_lt rng.start_le_stop hshort)
  have hstop := charWord_lt_surrogates hshort
  have hdraw := scr.getMod_le (charWord rng.stop + 1 - charWord rng.start) r
  have hlt : (scr.getMod (charWord rng.stop + 1 - charWord rng.start) r).1 + charWord rng.start <
      0xd800 := by omega
  obtain ⟨chr, hchr⟩ := charFromU32_isSome hlt
  refine ⟨appendChar res chr, ?_⟩
  simp only [appendUnicodeRange, scr.getRange_eq hle, Option.bind_eq_bind, Option.bind_some, hchr]

theorem ClassBytesRange.Sound.append {rng : ClassBytesRange} (h : rng.Sound)
    (res : List UInt8) (r : R) :
    ∃ res', appendByteRange scr res rng r =
      some (res', (scr.getMod (rng.stop.toNat + 1 - rng.start.toNat) r).2) := by
  have hle : rng.start.toNat ≤ rng.stop.toNat + 1 := Nat.le_succ_of_le rng.start_le_stop
  unfold appendByteRange
  rw [if_pos (show rng.stop.toNat + 1 < 256 from h)]
  simp only [scr.getRange_eq hle, Option.bind_eq_bind, Option.bind_some]
  exact ⟨_, rfl⟩

def Class.count : Class → Nat
  | .unicode ranges => ranges.length
  | .bytes ranges => ranges.length

/-- What a class of either kind does: a range is drawn, and then appended from. -/
def appendFrom {α : Type} (append : List UInt8 → α → R → Option (List UInt8 × R))
    (rngs : List α) (res : List UInt8) (r : R) : Option (List UInt8 × R) :=
  rngs[(scr.getMod rngs.length r).1]?.bind fun rng => append res rng (scr.getMod rngs.length r).2

/-- Two draws are made. What the second one is below depends on the range that
the first one chose. -/
theorem exists_appendFrom {α : Type} {append : List UInt8 → α → R → Option (List UInt8 × R)}
    {width : α → Nat} {rngs : List α} (hne : rngs ≠ [])
    (h : ∀ rng ∈ rngs, ∀ res r, ∃ res',
      append res rng r = some (res', (scr.getMod (width rng) r).2)) :
    ∃ width : Nat → Nat, ∀ res (r : R), ∃ res', appendFrom scr append rngs res r = some (res',
      (scr.getMod (width (scr.getMod rngs.length r).1) (scr.getMod rngs.length r).2).2) := by
  refine ⟨fun i => (rngs[i]?).elim 0 width, fun res r => ?_⟩
  have hget := List.getElem?_eq_getElem (scr.getMod_lt (List.length_pos_iff.mpr hne) r)
  simp only [appendFrom, hget, Option.bind_some, Option.elim_some]
  exact h _ (List.getElem_mem _) res _

theorem Class.Sound.append {cls : Class} (h : cls.Sound) :
    ∃ width : Nat → Nat, ∀ res (r : R), ∃ res', appendClass scr res cls r = some (res',
      (scr.getMod (width (scr.getMod cls.count r).1) (scr.getMod cls.count r).2).2) := by
  cases cls with
  | unicode ranges =>
      obtain ⟨hne, hrng⟩ := h
      exact exists_appendFrom scr hne fun rng hmem => (hrng rng hmem).append scr
  | bytes ranges =>
      obtain ⟨hne, hrng⟩ := h
      exact exists_appendFrom scr hne fun rng hmem => (hrng rng hmem).append scr

theorem getRepetitions_isSome {min : UInt32} {max : Option UInt32} (h : ∀ b ∈ max, min ≤ b)
    (r : R) : ∃ num r', getRepetitions scr min max r = some (num, r') := by
  unfold getRepetitions
  split_ifs
  · exact ⟨_, _, rfl⟩
  · exact ⟨_, _, rfl⟩
  · exact ⟨_, _, rfl⟩
  · unfold getRepetitionRange
    cases max with
    | none => exact ⟨_, _, rfl⟩
    | some max =>
        dsimp only
        split
        · exact ⟨_, _, rfl⟩
        · exact ⟨_, _, scr.getRange_eq (h max rfl) r⟩

theorem generateLoop_isSome (stack : List Hir) (res : List UInt8) (r : R)
    (h : ∀ hir ∈ stack, hir.WellFormed ∧ hir.Sound) :
    ∃ out, generateLoop scr stack res r = some out := by
  fun_induction generateLoop scr stack res r with
  | case1 => exact ⟨_, rfl⟩
  | case2 stack res r ih => exact ih (List.forall_mem_cons.mp h).2
  | case3 lit stack res r ih => exact ih (List.forall_mem_cons.mp h).2
  | case4 cls stack res r res' r' happ ih => exact ih (List.forall_mem_cons.mp h).2
  | case5 cls stack res r happ =>
      obtain ⟨width, happend⟩ := Class.Sound.append scr (List.forall_mem_cons.mp h).1.2 (R := R)
      obtain ⟨res', hsome⟩ := happend res r
      rw [happ] at hsome
      cases hsome
  | case6 min max sub stack res r num r' hnum ih =>
      obtain ⟨hrep, hstack⟩ := List.forall_mem_cons.mp h
      refine ih (List.forall_mem_append.mpr ⟨fun hir hmem => ?_, hstack⟩)
      rw [List.eq_of_mem_replicate hmem]
      exact ⟨hrep.1.2, hrep.2⟩
  | case7 min max sub stack res r hnum =>
      obtain ⟨num, r', hsome⟩ := getRepetitions_isSome scr (List.forall_mem_cons.mp h).1.1.1 r
      rw [hnum] at hsome
      cases hsome
  | case8 sub stack res r ih => exact ih (List.forall_mem_cons.mpr (List.forall_mem_cons.mp h))
  | case9 hirs stack res r ih =>
      obtain ⟨⟨hwf, hsound⟩, hstack⟩ := List.forall_mem_cons.mp h
      exact ih (List.forall_mem_append.mpr ⟨fun hir hmem =>
        ⟨Hir.allWellFormed_iff.mp hwf hir hmem, Hir.allSound_iff.mp hsound hir hmem⟩, hstack⟩)
  | case10 hirs stack res r drawn hir hget ih =>
      obtain ⟨⟨hwf, hsound⟩, hstack⟩ := List.forall_mem_cons.mp h
      have hmem := List.mem_of_getElem? hget
      exact ih (List.forall_mem_cons.mpr
        ⟨⟨Hir.allWellFormed_iff.mp hwf.2.2 hir hmem, Hir.allSound_iff.mp hsound hir hmem⟩, hstack⟩)
  | case11 hirs stack res r drawn hget =>
      obtain ⟨⟨⟨hne, -⟩, -⟩, -⟩ := List.forall_mem_cons.mp h
      have hlt := scr.getMod_lt (List.length_pos_iff.mpr hne) r
      exact absurd (List.getElem?_eq_none_iff.mp hget) (Nat.not_le_of_lt hlt)
  | case12 stack res r ih => exact ih (List.forall_mem_cons.mp h).2

end

/-! ## Some draws lead to what is not sound -/

section

variable {scr : RegexScript}

theorem RegexScript.exists_getMod {i val : Nat} (hscr : scr.remaining ≠ 0) (hi : i < val)
    (hval : val < 2 ^ 64) :
    ∃ pre, ∀ s : Stream' UInt64, scr.getMod val (pre ++ₛ s) = (i, s) := by
  obtain ⟨rand, hrand⟩ := Rand.exists_below ⟨val, Nat.zero_lt_of_lt hi⟩ hi (Nat.le_of_lt hval)
  refine ⟨[rand], fun s => ?_⟩
  unfold getMod
  rw [dif_neg (not_or.mpr ⟨hscr, (Nat.zero_lt_of_lt hi).ne'⟩)]
  exact hrand s

theorem RegexScript.exists_getMod_zero (val : Nat) :
    ∃ pre, ∀ s : Stream' UInt64, scr.getMod val (pre ++ₛ s) = (0, s) := by
  by_cases h : scr.remaining = 0 ∨ val = 0
  · exact ⟨[], fun s => dif_pos h⟩
  · refine ⟨[0], fun s => ?_⟩
    unfold getMod
    rw [dif_neg h]
    exact Prod.ext (fastBound_zero val) rfl

theorem exists_getLength (hscr : scr.remaining ≠ 0) :
    ∃ pre, ∀ s : Stream' UInt64, getLength scr (pre ++ₛ s) = (1, s) := by
  obtain ⟨pre, hpre⟩ := scr.exists_getMod_zero 8
  obtain ⟨post, hpost⟩ := RegexScript.exists_getMod hscr (show 1 < 2 by decide) (by decide)
  refine ⟨pre ++ post, fun s => ?_⟩
  unfold getLength
  rw [Stream'.append_append_stream, hpre]
  exact hpost s

theorem exists_getRepetitions {min : UInt32} {max : Option UInt32} (hscr : scr.remaining ≠ 0)
    (h : ∀ b ∈ max, min ≤ b) :
    ∃ num pre, 0 < num ∧
      ∀ s : Stream' UInt64, getRepetitions scr min max (pre ++ₛ s) = some (num, s) := by
  obtain ⟨one, hone⟩ := RegexScript.exists_getMod hscr (show 1 < 2 by decide) (by decide)
  obtain ⟨len, hlen⟩ := exists_getLength hscr
  unfold getRepetitions
  split_ifs with h0 h1 h2
  · exact ⟨1, one, Nat.one_pos, fun s => by rw [hone]⟩
  · exact ⟨1, len, Nat.one_pos, fun s => by rw [hlen]⟩
  · exact ⟨1 + 1, len, Nat.succ_pos _, fun s => by rw [hlen]⟩
  · have hmin : 0 < min.toNat := Nat.pos_of_ne_zero fun hz => h1 (UInt32.toNat_inj.mp hz)
    unfold getRepetitionRange
    cases max with
    | none => exact ⟨1 + min.toNat, len, Nat.add_pos_left Nat.one_pos _, fun s => by rw [hlen]⟩
    | some max =>
        dsimp only
        split
        · exact ⟨min.toNat, [], hmin, fun s => rfl⟩
        · obtain ⟨zero, hzero⟩ := scr.exists_getMod_zero (max.toNat - min.toNat)
          refine ⟨0 + min.toNat, zero, Nat.add_pos_right 0 hmin, fun s => ?_⟩
          have hle : min.toNat ≤ max.toNat := h max rfl
          rw [scr.getRange_eq hle, hzero]

theorem Class.Sound.exists_append {cls : Class} (h : cls.Sound) (scr : RegexScript) :
    ∃ pre, ∀ res (s : Stream' UInt64), ∃ res',
      appendClass scr res cls (pre ++ₛ s) = some (res', s) := by
  obtain ⟨width, happ⟩ := h.append scr (R := Stream' UInt64)
  obtain ⟨pre, hpre⟩ := scr.exists_getMod_zero cls.count
  obtain ⟨post, hpost⟩ := scr.exists_getMod_zero (width 0)
  refine ⟨pre ++ post, fun res s => ?_⟩
  obtain ⟨res', hsome⟩ := happ res (pre ++ post ++ₛ s)
  rw [Stream'.append_append_stream, hpre, hpost] at hsome
  exact ⟨res', by rw [Stream'.append_append_stream]; exact hsome⟩

/-- The draw goes to the last word, which is beyond all characters if it is
that of a long encoding. -/
theorem ClassUnicodeRange.exists_append_eq_none {rng : ClassUnicodeRange}
    (hscr : scr.remaining ≠ 0) (h : ¬rng.Sound) :
    ∃ s : Stream' UInt64, ∀ res, appendUnicodeRange scr res rng s = none := by
  by_cases hle : charWord rng.start ≤ charWord rng.stop + 1
  · have hlong : 0x10ffff < charWord rng.stop :=
      charWord_gt_of_long (Nat.le_of_not_lt fun hshort => h ⟨hshort, hle⟩)
    have hbound := charWord_lt rng.stop
    obtain ⟨i, pre, hpre, hi⟩ : ∃ i pre, (∀ s : Stream' UInt64,
        scr.getMod (charWord rng.stop + 1 - charWord rng.start) (pre ++ₛ s) = (i, s)) ∧
        charWord rng.stop ≤ i + charWord rng.start := by
      rcases Nat.eq_zero_or_pos (charWord rng.stop + 1 - charWord rng.start) with hzero | hpos
      · obtain ⟨pre, hpre⟩ := scr.exists_getMod_zero (charWord rng.stop + 1 - charWord rng.start)
        exact ⟨0, pre, hpre, by omega⟩
      · obtain ⟨pre, hpre⟩ := RegexScript.exists_getMod hscr (Nat.sub_one_lt_of_lt hpos)
          (Nat.lt_of_le_of_lt (Nat.sub_le _ _) (by omega))
        exact ⟨_, pre, hpre, by omega⟩
    refine ⟨pre ++ₛ Stream'.const 0, fun res => ?_⟩
    simp only [appendUnicodeRange, scr.getRange_eq hle, hpre, Option.bind_eq_bind,
      Option.bind_some, charFromU32_eq_none (Nat.lt_of_lt_of_le hlong hi), Option.bind_none]
  · refine ⟨Stream'.const 0, fun res => ?_⟩
    have hrange : scr.getRange (charWord rng.start) (charWord rng.stop + 1)
        (Stream'.const (0 : UInt64)) = none := if_neg hle
    simp only [appendUnicodeRange, hrange, Option.bind_eq_bind, Option.bind_none]

/-- The draw goes to the range that fails. -/
theorem exists_appendFrom_eq_none {α : Type} {rngs : List α}
    {append : List UInt8 → α → Stream' UInt64 → Option (List UInt8 × Stream' UInt64)}
    (hscr : scr.remaining ≠ 0) (hcount : rngs.length < 2 ^ 64)
    (h : rngs ≠ [] → ∃ rng ∈ rngs, ∃ s, ∀ res, append res rng s = none) :
    ∃ s : Stream' UInt64, ∀ res, appendFrom scr append rngs res s = none := by
  by_cases hne : rngs = []
  · subst hne
    exact ⟨Stream'.const 0, fun res => rfl⟩
  · obtain ⟨rng, hmem, s, hs⟩ := h hne
    obtain ⟨i, hi, rfl⟩ := List.getElem_of_mem hmem
    obtain ⟨pre, hpre⟩ := RegexScript.exists_getMod hscr hi hcount
    refine ⟨pre ++ₛ s, fun res => ?_⟩
    rw [appendFrom, hpre, List.getElem?_eq_getElem hi]
    exact hs res

theorem Class.exists_append_eq_none {cls : Class} (hscr : scr.remaining ≠ 0)
    (hcount : cls.count < 2 ^ 64) (h : ¬cls.Sound) :
    ∃ s : Stream' UInt64, ∀ res, appendClass scr res cls s = none := by
  cases cls with
  | unicode ranges =>
      refine exists_appendFrom_eq_none hscr hcount fun hne => ?_
      obtain ⟨rng, hmem, hrng⟩ : ∃ rng ∈ ranges, ¬rng.Sound := by
        by_contra hall
        push Not at hall
        exact h ⟨hne, hall⟩
      exact ⟨rng, hmem, ClassUnicodeRange.exists_append_eq_none hscr hrng⟩
  | bytes ranges =>
      refine exists_appendFrom_eq_none hscr hcount fun hne => ?_
      obtain ⟨rng, hmem, hrng⟩ : ∃ rng ∈ ranges, ¬rng.Sound := by
        by_contra hall
        push Not at hall
        exact h ⟨hne, hall⟩
      exact ⟨rng, hmem, Stream'.const 0, fun res => if_neg hrng⟩

theorem generateLoop_cls {R : Type} [Rand R] {cls : Class} {stack : List Hir}
    {res res' : List UInt8} {r r' : R} (h : appendClass scr res cls r = some (res', r')) :
    generateLoop scr (.cls cls :: stack) res r = generateLoop scr stack res' r' := by
  rw [generateLoop]
  simp only [h]

theorem generateLoop_cls_eq_none {R : Type} [Rand R] {cls : Class} {stack : List Hir}
    {res : List UInt8} {r : R} (h : appendClass scr res cls r = none) :
    generateLoop scr (.cls cls :: stack) res r = none := by
  rw [generateLoop]
  simp only [h]

theorem generateLoop_repetition {R : Type} [Rand R] {min : UInt32} {max : Option UInt32}
    {sub : Hir} {stack : List Hir} {res : List UInt8} {num : Nat} {r r' : R}
    (h : getRepetitions scr min max r = some (num, r')) :
    generateLoop scr (.repetition min max sub :: stack) res r =
      generateLoop scr (List.replicate num sub ++ stack) res r' := by
  rw [generateLoop]
  split
  · next heq =>
      rw [h] at heq
      cases heq
      rfl
  · next heq =>
      rw [h] at heq
      cases heq

theorem generateLoop_alternation {R : Type} [Rand R] {hirs stack : List Hir} {res : List UInt8}
    {i : Nat} {r r' : R} (hi : i < hirs.length) (h : scr.getMod hirs.length r = (i, r')) :
    generateLoop scr (.alternation hirs :: stack) res r =
      generateLoop scr (hirs[i] :: stack) res r' := by
  rw [generateLoop]
  split
  · next heq =>
      rw [h] at heq ⊢
      rw [List.getElem?_eq_getElem hi] at heq
      rw [Option.some.inj heq]
  · next heq =>
      rw [h, List.getElem?_eq_getElem hi] at heq
      cases heq

/-- What is not sound comes to the top of the stack, unless something above it
panics before. The induction is on the weight of the stack. -/
theorem exists_generateLoop_eq_none (hscr : scr.remaining ≠ 0) (stack : List Hir)
    (hwf : ∀ hir ∈ stack, hir.WellFormed) (h : ¬∀ hir ∈ stack, hir.Sound) :
    ∃ s : Stream' UInt64, ∀ res, generateLoop scr stack res s = none := by
  induction hw : Hir.weights stack using Nat.strong_induction_on generalizing stack with
  | _ weight ih =>
  subst hw
  cases stack with
  | nil => exact absurd (List.forall_mem_nil _) h
  | cons top stack =>
      obtain ⟨hwfTop, hwfStack⟩ := List.forall_mem_cons.mp hwf
      have hpos := top.weight_pos
      -- what is left when the top is sound, and is popped
      have hpop : top.Sound → ∃ s : Stream' UInt64, ∀ res, generateLoop scr stack res s = none := by
        intro htop
        refine ih _ ?_ stack hwfStack (fun hall => h (List.forall_mem_cons.mpr ⟨htop, hall⟩)) rfl
        simp only [Hir.weights]
        omega
      cases top with
      | empty =>
          obtain ⟨s, hs⟩ := hpop trivial
          exact ⟨s, fun res => by rw [generateLoop]; exact hs res⟩
      | look =>
          obtain ⟨s, hs⟩ := hpop trivial
          exact ⟨s, fun res => by rw [generateLoop]; exact hs res⟩
      | literal lit =>
          obtain ⟨s, hs⟩ := hpop trivial
          exact ⟨s, fun res => by rw [generateLoop]; exact hs _⟩
      | cls cls =>
          by_cases hsound : cls.Sound
          · obtain ⟨s, hs⟩ := hpop hsound
            obtain ⟨pre, hpre⟩ := hsound.exists_append scr
            refine ⟨pre ++ₛ s, fun res => ?_⟩
            obtain ⟨res', hsome⟩ := hpre res s
            rw [generateLoop_cls hsome]
            exact hs res'
          · have hcount : cls.count < 2 ^ 64 := by
              cases cls <;> exact hwfTop
            obtain ⟨s, hs⟩ := Class.exists_append_eq_none hscr hcount hsound
            exact ⟨s, fun res => generateLoop_cls_eq_none (hs res)⟩
      | repetition min max sub =>
          obtain ⟨num, pre, hnum, hpre⟩ := exists_getRepetitions hscr hwfTop.1
          obtain ⟨s, hs⟩ := ih (Hir.weights (List.replicate num sub ++ stack)) (by
            have := Nat.mul_le_mul_right sub.weight (getRepetitions_le (hpre (Stream'.const 0)))
            simp only [Hir.weights_append, Hir.weights_replicate, Hir.weights, Hir.weight]
            omega) (List.replicate num sub ++ stack)
            (List.forall_mem_append.mpr
              ⟨fun hir hmem => List.eq_of_mem_replicate hmem ▸ hwfTop.2, hwfStack⟩)
            (fun hall => h (List.forall_mem_cons.mpr
              ⟨hall sub (List.mem_append_left _ (List.mem_replicate.mpr ⟨hnum.ne', rfl⟩)),
                fun hir hmem => hall hir (List.mem_append_right _ hmem)⟩)) rfl
          refine ⟨pre ++ₛ s, fun res => ?_⟩
          rw [generateLoop_repetition (hpre s)]
          exact hs res
      | capture sub =>
          obtain ⟨s, hs⟩ := ih (Hir.weights (sub :: stack)) (by
            simp only [Hir.weights, Hir.weight]
            omega) (sub :: stack) (List.forall_mem_cons.mpr ⟨hwfTop, hwfStack⟩)
            (fun hall => h (List.forall_mem_cons.mpr
              ⟨(List.forall_mem_cons.mp hall).1, (List.forall_mem_cons.mp hall).2⟩)) rfl
          exact ⟨s, fun res => by rw [generateLoop]; exact hs res⟩
      | concat hirs =>
          obtain ⟨s, hs⟩ := ih (Hir.weights (hirs ++ stack)) (by
            simp only [Hir.weights_append, Hir.weights, Hir.weight]
            omega) (hirs ++ stack)
            (List.forall_mem_append.mpr ⟨Hir.allWellFormed_iff.mp hwfTop, hwfStack⟩)
            (fun hall => h (List.forall_mem_cons.mpr
              ⟨Hir.allSound_iff.mpr (List.forall_mem_append.mp hall).1,
                (List.forall_mem_append.mp hall).2⟩)) rfl
          exact ⟨s, fun res => by rw [generateLoop]; exact hs res⟩
      | alternation hirs =>
          obtain ⟨hne, hlen, hwfHirs⟩ := hwfTop
          -- the first alternative that is not sound, or any if all are
          obtain ⟨i, hi, hbad⟩ : ∃ i, ∃ hi : i < hirs.length,
              hirs[i].Sound → ∀ hir ∈ hirs, hir.Sound := by
            by_cases hall : ∀ hir ∈ hirs, hir.Sound
            · exact ⟨0, List.length_pos_iff.mpr hne, fun _ => hall⟩
            · push Not at hall
              obtain ⟨hir, hmem, hnot⟩ := hall
              obtain ⟨i, hi, rfl⟩ := List.getElem_of_mem hmem
              exact ⟨i, hi, fun hsound => absurd hsound hnot⟩
          have hmem := List.getElem_mem hi
          obtain ⟨pre, hpre⟩ := RegexScript.exists_getMod hscr hi hlen
          obtain ⟨s, hs⟩ := ih (Hir.weights (hirs[i] :: stack)) (by
            have := Hir.weight_le_of_mem hmem
            simp only [Hir.weights, Hir.weight]
            omega) (hirs[i] :: stack)
            (List.forall_mem_cons.mpr ⟨Hir.allWellFormed_iff.mp hwfHirs _ hmem, hwfStack⟩)
            (fun hall => h (List.forall_mem_cons.mpr
              ⟨Hir.allSound_iff.mpr (hbad (List.forall_mem_cons.mp hall).1),
                (List.forall_mem_cons.mp hall).2⟩)) rfl
          refine ⟨pre ++ₛ s, fun res => ?_⟩
          rw [generateLoop_alternation hi (hpre s)]
          exact hs res

end

/-! ## Exactly the sound expressions can always be written -/

theorem generateRegex_isSome {R : Type} [Rand R] {hir : Hir} (hwf : hir.WellFormed)
    (h : hir.Sound) (r : R) : ∃ out, generateRegex hir r = some out :=
  generateLoop_isSome (RegexScript.new r).1 [hir] [] (RegexScript.new r).2
    (List.forall_mem_singleton.mpr ⟨hwf, h⟩)

theorem exists_generateRegex_eq_none {hir : Hir} (hwf : hir.WellFormed) (h : ¬hir.Sound) :
    ∃ s : Stream' UInt64, generateRegex hir s = none := by
  have hscr : (RegexScript.mk 1).remaining ≠ 0 := Nat.one_ne_zero
  obtain ⟨s, hs⟩ := exists_generateLoop_eq_none hscr [hir]
    (List.forall_mem_singleton.mpr hwf) (fun hall => h (List.forall_mem_singleton.mp hall))
  exact ⟨[0, 1] ++ₛ s, hs []⟩

end Libaflmm
