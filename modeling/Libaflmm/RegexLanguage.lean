import Libaflmm.RegexMutatorSafe
import Mathlib.Computability.Language

/-!
# Strings in the language of a regular expression

An expression stands for a language of byte strings. A walk follows it if
every element of a class that is written is in the class, and every count of a
repetition is between its bounds (`Followed`).

Draws are made between the words of characters, which are in the order of the
characters, and no larger than the word of a character in the class, only as
long as they have one byte. What is drawn for a repetition from zero or one
does not depend on its upper bound, and can be as large as 255.
-/

namespace Libaflmm

/-! ## Languages -/

def Class.language : Class → Language UInt8
  | .unicode ranges => {w | ∃ rng ∈ ranges, ∃ chr, rng.start ≤ chr ∧ chr ≤ rng.stop ∧
      w = String.utf8EncodeChar chr}
  | .bytes ranges => {w | ∃ rng ∈ ranges, ∃ b, rng.start ≤ b ∧ b ≤ rng.stop ∧ w = [b]}

/-- The count is between the bounds of a repetition. -/
def Counts (min : UInt32) (max : Option UInt32) (num : Nat) : Prop :=
  min.toNat ≤ num ∧ ∀ b ∈ max, num ≤ b.toNat

namespace Hir

mutual

/-- Which assertion a `look` is was left out, and so is what it matches. -/
def language : Hir → Language UInt8
  | .empty => 1
  | .literal lit => {lit}
  | .cls chars => chars.language
  | .look => 0
  | .repetition min max sub => {w | ∃ num, Counts min max num ∧ w ∈ sub.language ^ num}
  | .capture sub => sub.language
  | .concat hirs => languageAll hirs
  | .alternation hirs => languageAny hirs

def languageAll : List Hir → Language UInt8
  | [] => 1
  | hir :: hirs => hir.language * languageAll hirs

def languageAny : List Hir → Language UInt8
  | [] => 0
  | hir :: hirs => hir.language + languageAny hirs

end

mutual

def LookFree : Hir → Prop
  | .empty | .literal _ | .cls _ => True
  | .look => False
  | .repetition _ _ sub => sub.LookFree
  | .capture sub => sub.LookFree
  | .concat hirs => AllLookFree hirs
  | .alternation hirs => AllLookFree hirs

def AllLookFree : List Hir → Prop
  | [] => True
  | hir :: hirs => hir.LookFree ∧ AllLookFree hirs

end

end Hir

/-! ## The rounds of the walk -/

structure WalkState (R : Type) where
  stack : List Hir
  res : List UInt8
  rand : R

section

variable {R : Type} [Rand R] (scr : RegexScript)

/-- One round of the loop, when the stack is not empty. -/
def walkStep (c : WalkState R) : Option (WalkState R) :=
  match c.stack with
  | [] => none
  | .empty :: stack => some { c with stack }
  | .literal lit :: stack => some { c with stack, res := appendLit c.res lit }
  | .cls cls :: stack =>
    (appendClass scr c.res cls c.rand).map fun (res, rand) => { stack, res, rand }
  | .repetition min max sub :: stack =>
    (getRepetitions scr min max c.rand).map fun (num, rand) =>
      { c with stack := List.replicate num sub ++ stack, rand }
  | .capture sub :: stack => some { c with stack := sub :: stack }
  | .concat hirs :: stack => some { c with stack := hirs ++ stack }
  | .alternation hirs :: stack =>
    let drawn := scr.getMod hirs.length c.rand
    hirs[drawn.1]?.map fun hir => { c with stack := hir :: stack, rand := drawn.2 }
  | .look :: stack => some { c with stack }

/-- The loop does a round, and then the rest. -/
theorem generateLoop_eq_walkStep {top : Hir} {stack : List Hir} {res : List UInt8} {r : R} :
    generateLoop scr (top :: stack) res r = (walkStep scr ⟨top :: stack, res, r⟩).bind fun c =>
      generateLoop scr c.stack c.res c.rand := by
  cases top with
  | empty => rw [generateLoop, walkStep, Option.bind_some]
  | literal lit => rw [generateLoop, walkStep, Option.bind_some]
  | look => rw [generateLoop, walkStep, Option.bind_some]
  | capture sub => rw [generateLoop, walkStep, Option.bind_some]
  | concat hirs => rw [generateLoop, walkStep, Option.bind_some]
  | cls cls =>
      cases h : appendClass scr res cls r with
      | none => simp only [generateLoop_cls_eq_none h, walkStep, h, Option.map_none,
          Option.bind_none]
      | some drawn => simp only [generateLoop_cls h, walkStep, h, Option.map_some,
          Option.bind_some]
  | repetition min max sub =>
      cases h : getRepetitions scr min max r with
      | none =>
          rw [generateLoop]
          split
          · next heq =>
              rw [h] at heq
              cases heq
          · simp only [walkStep, h, Option.map_none, Option.bind_none]
      | some drawn => simp only [generateLoop_repetition h, walkStep, h, Option.map_some,
          Option.bind_some]
  | alternation hirs =>
      rcases hdraw : scr.getMod hirs.length r with ⟨i, r'⟩
      by_cases hi : i < hirs.length
      · simp only [generateLoop_alternation hi hdraw, walkStep, hdraw, List.getElem?_eq_getElem hi,
          Option.map_some, Option.bind_some]
      · have hnone : hirs[i]? = none := List.getElem?_eq_none (Nat.le_of_not_lt hi)
        rw [generateLoop]
        split
        · next heq =>
            rw [hdraw, hnone] at heq
            cases heq
        · simp only [walkStep, hdraw, hnone, Option.map_none, Option.bind_none]

/-- Every round takes from the weight of the stack. -/
theorem walkStep_weights {c c' : WalkState R} (h : walkStep scr c = some c') :
    Hir.weights c'.stack < Hir.weights c.stack := by
  obtain ⟨stack, res, r⟩ := c
  cases stack with
  | nil => cases h
  | cons top stack =>
      have hpos := top.weight_pos
      cases top with
      | empty =>
          obtain rfl := Option.some.inj h
          simp only [Hir.weights, Hir.weight]
          omega
      | literal lit =>
          obtain rfl := Option.some.inj h
          simp only [Hir.weights, Hir.weight]
          omega
      | look =>
          obtain rfl := Option.some.inj h
          simp only [Hir.weights, Hir.weight]
          omega
      | cls chars =>
          obtain ⟨drawn, -, rfl⟩ := Option.map_eq_some_iff.mp h
          simp only [Hir.weights, Hir.weight]
          omega
      | repetition min max sub =>
          obtain ⟨drawn, hnum, rfl⟩ := Option.map_eq_some_iff.mp h
          have := Nat.mul_le_mul_right sub.weight (getRepetitions_le hnum)
          simp only [Hir.weights_append, Hir.weights_replicate, Hir.weights, Hir.weight]
          omega
      | capture sub =>
          obtain rfl := Option.some.inj h
          simp only [Hir.weights, Hir.weight]
          omega
      | concat hirs =>
          obtain rfl := Option.some.inj h
          simp only [Hir.weights_append, Hir.weights, Hir.weight]
          omega
      | alternation hirs =>
          obtain ⟨hir, hget, rfl⟩ := Option.map_eq_some_iff.mp h
          have := Hir.weight_le_of_mem (List.mem_of_getElem? hget)
          simp only [Hir.weights, Hir.weight]
          omega

/-- The states that the loop comes to. -/
abbrev Walks : WalkState R → WalkState R → Prop :=
  Relation.ReflTransGen fun c c' => walkStep scr c = some c'

/-- What is written for a class is in the class, and what a repetition comes to
is between its bounds. -/
def WalkState.Inside (c : WalkState R) : Prop :=
  match c.stack with
  | .cls cls :: _ => ∃ w r, appendClass scr c.res cls c.rand = some (c.res ++ w, r) ∧
      w ∈ cls.language
  | .repetition min max _ :: _ => ∃ num r, getRepetitions scr min max c.rand = some (num, r) ∧
      Counts min max num
  | _ => True

end

/-- Whatever is drawn, what is generated is a string of the expression, and it
is written as such. -/
def Hir.Followed (hir : Hir) : Prop :=
  ∀ (R : Type) [Rand R] (r : R),
    (∃ out r', generateRegex hir r = some (out, r') ∧ out ∈ hir.language) ∧
    ∀ c, Walks (RegexScript.new r).1 ⟨[hir], [], (RegexScript.new r).2⟩ c →
      c.Inside (RegexScript.new r).1

/-! ## Expressions that are followed -/

def Class.Faithful : Class → Prop
  | .unicode ranges => ranges ≠ [] ∧ ∀ rng ∈ ranges, rng.stop.toNat < 0x80
  | .bytes ranges => ranges ≠ [] ∧ ∀ rng ∈ ranges, rng.stop.toNat < 0xff

/-- A repetition from zero or one has no upper bound that a count can exceed. -/
def Wide (min : UInt32) (max : Option UInt32) : Prop :=
  (min = 0 → ∀ b ∈ max, b = 1 ∨ 255 ≤ b) ∧ (min = 1 → ∀ b ∈ max, 256 ≤ b)

namespace Hir

mutual

def Faithful : Hir → Prop
  | .empty | .literal _ | .look => True
  | .cls chars => chars.Faithful
  | .repetition min max sub => Wide min max ∧ sub.Faithful
  | .capture sub => sub.Faithful
  | .concat hirs => AllFaithful hirs
  | .alternation hirs => AllFaithful hirs

def AllFaithful : List Hir → Prop
  | [] => True
  | hir :: hirs => hir.Faithful ∧ AllFaithful hirs

end

theorem allFaithful_iff {hirs : List Hir} : AllFaithful hirs ↔ ∀ hir ∈ hirs, hir.Faithful := by
  induction hirs with
  | nil => simp [AllFaithful]
  | cons hir hirs ih => simp [AllFaithful, ih]

theorem allLookFree_iff {hirs : List Hir} : AllLookFree hirs ↔ ∀ hir ∈ hirs, hir.LookFree := by
  induction hirs with
  | nil => simp [AllLookFree]
  | cons hir hirs ih => simp [AllLookFree, ih]

theorem languageAll_append (a b : List Hir) :
    languageAll (a ++ b) = languageAll a * languageAll b := by
  induction a with
  | nil => rw [List.nil_append, languageAll, one_mul]
  | cons hir a ih => rw [List.cons_append, languageAll, ih, languageAll, mul_assoc]

theorem languageAll_replicate (num : Nat) (hir : Hir) :
    languageAll (List.replicate num hir) = hir.language ^ num := by
  induction num with
  | zero => rw [List.replicate_zero, languageAll, pow_zero]
  | succ num ih => rw [List.replicate_succ, languageAll, ih, pow_succ']

theorem mem_languageAny {hirs : List Hir} {hir : Hir} {w : List UInt8} (hmem : hir ∈ hirs)
    (hw : w ∈ hir.language) : w ∈ languageAny hirs := by
  induction hirs with
  | nil => simp at hmem
  | cons head hirs ih =>
      rw [languageAny, Language.mem_add]
      rcases List.mem_cons.mp hmem with rfl | hmem
      · exact Or.inl hw
      · exact Or.inr (ih hmem)

end Hir

/-! ## Draws of a faithful expression -/

theorem charWord_ascii {chr : Char} (h : chr.toNat < 0x80) : charWord chr = chr.toNat := by
  have hval : chr.val.toNat < 0x80 := h
  simp only [charWord, String.utf8EncodeChar]
  rw [if_pos (by omega)]
  simp only [ofLeBytes, Nat.mul_zero, Nat.add_zero, UInt8.toNat_ofNat']
  exact Nat.mod_eq_of_lt (Nat.lt_trans hval (by decide))

theorem charFromU32_of_lt {c : Nat} (h : c < 0xd800) :
    ∃ chr, charFromU32 c = some chr ∧ chr.toNat = c := by
  unfold charFromU32
  rw [dif_pos (Or.inl h)]
  exact ⟨_, rfl, rfl⟩

section

variable {R : Type} [Rand R] (scr : RegexScript)

theorem RegexScript.getRange_mem {a b : Nat} (h : a ≤ b) (r : R) :
    ∃ k r', scr.getRange a (b + 1) r = some (k, r') ∧ a ≤ k ∧ k ≤ b := by
  have hlt := scr.getMod_lt (show 0 < b + 1 - a by omega) r
  exact ⟨_, _, scr.getRange_eq (Nat.le_add_right_of_le h) r, by omega, by omega⟩

theorem appendUnicodeRange_ascii {rng : ClassUnicodeRange} (h : rng.stop.toNat < 0x80)
    (res : List UInt8) (r : R) :
    ∃ chr r', appendUnicodeRange scr res rng r = some (res ++ String.utf8EncodeChar chr, r') ∧
      rng.start ≤ chr ∧ chr ≤ rng.stop := by
  have hle : rng.start.toNat ≤ rng.stop.toNat := rng.start_le_stop
  obtain ⟨c, r', hdraw, hstart, hstop⟩ := scr.getRange_mem hle r
  obtain ⟨chr, hchr, rfl⟩ :=
    charFromU32_of_lt (Nat.lt_trans (Nat.lt_of_le_of_lt hstop h) (by decide))
  refine ⟨chr, r', ?_, hstart, hstop⟩
  simp only [appendUnicodeRange, charWord_ascii h, charWord_ascii (Nat.lt_of_le_of_lt hle h),
    hdraw, Option.bind_eq_bind, Option.bind_some, hchr, appendChar]

theorem appendByteRange_mem {rng : ClassBytesRange} (h : rng.stop.toNat < 0xff)
    (res : List UInt8) (r : R) :
    ∃ b r', appendByteRange scr res rng r = some (res ++ [b], r') ∧
      rng.start ≤ b ∧ b ≤ rng.stop := by
  have hle : rng.start.toNat ≤ rng.stop.toNat := rng.start_le_stop
  obtain ⟨c, r', hdraw, hstart, hstop⟩ := scr.getRange_mem hle r
  have hc : (UInt8.ofNat c).toNat = c :=
    UInt8.toNat_ofNat_of_lt' (Nat.lt_of_le_of_lt hstop (Nat.lt_trans h (by decide)))
  refine ⟨UInt8.ofNat c, r', ?_, ?_, ?_⟩
  · simp only [appendByteRange, if_pos (show rng.stop.toNat + 1 < 256 by omega), hdraw,
      Option.bind_eq_bind, Option.bind_some]
  · rw [UInt8.le_iff_toNat_le, hc]
    exact hstart
  · rw [UInt8.le_iff_toNat_le, hc]
    exact hstop

/-- A range is drawn, and what is appended from it is in the class. -/
theorem Class.Faithful.append {cls : Class} (h : cls.Faithful) (res : List UInt8) (r : R) :
    ∃ w r', appendClass scr res cls r = some (res ++ w, r') ∧ w ∈ cls.language := by
  cases cls with
  | unicode ranges =>
      obtain ⟨hne, hranges⟩ := h
      have hlt := scr.getMod_lt (List.length_pos_iff.mpr hne) r
      have hmem := List.getElem_mem hlt
      obtain ⟨chr, r', happend, hstart, hstop⟩ := appendUnicodeRange_ascii scr (hranges _ hmem) res
        (scr.getMod ranges.length r).2
      refine ⟨_, r', ?_, _, hmem, chr, hstart, hstop, rfl⟩
      simp only [appendClass, List.getElem?_eq_getElem hlt, Option.bind_eq_bind, Option.bind_some,
        happend]
  | bytes ranges =>
      obtain ⟨hne, hranges⟩ := h
      have hlt := scr.getMod_lt (List.length_pos_iff.mpr hne) r
      have hmem := List.getElem_mem hlt
      obtain ⟨b, r', happend, hstart, hstop⟩ := appendByteRange_mem scr (hranges _ hmem) res
        (scr.getMod ranges.length r).2
      refine ⟨_, r', ?_, _, hmem, b, hstart, hstop, rfl⟩
      simp only [appendClass, List.getElem?_eq_getElem hlt, Option.bind_eq_bind, Option.bind_some,
        happend]

theorem counts_of_eq_zero {max : Option UInt32} {num : Nat} (h : ∀ b ∈ max, num ≤ b.toNat) :
    Counts 0 max num := ⟨Nat.zero_le num, h⟩

theorem getRepetitions_counts {min : UInt32} {max : Option UInt32} (hle : ∀ b ∈ max, min ≤ b)
    (hwide : Wide min max) (r : R) :
    ∃ num r', getRepetitions scr min max r = some (num, r') ∧ Counts min max num := by
  have hlen := getLength_le scr r
  unfold getRepetitions
  split_ifs with h0 h1 h2
  · obtain ⟨rfl, rfl⟩ := h0
    refine ⟨_, _, rfl, counts_of_eq_zero fun b hb => ?_⟩
    obtain rfl := Option.some.inj hb
    exact scr.getMod_le 2 r
  · subst h1
    refine ⟨_, _, rfl, counts_of_eq_zero fun b hb => ?_⟩
    rcases hwide.1 rfl b hb with rfl | hb'
    · exact absurd ⟨rfl, hb⟩ h0
    · exact hlen.trans hb'
  · subst h2
    refine ⟨_, _, rfl, Nat.le_add_right _ _, fun b hb => ?_⟩
    have hb' : 256 ≤ b.toNat := hwide.2 rfl b hb
    exact (Nat.add_le_add_left hlen 1).trans hb'
  · unfold getRepetitionRange
    cases max with
    | none => exact ⟨_, _, rfl, Nat.le_add_left _ _, fun b hb => absurd hb (by simp)⟩
    | some max =>
        have hmax : min.toNat ≤ max.toNat := hle max rfl
        dsimp only
        split
        · next heq =>
            subst heq
            refine ⟨_, _, rfl, Nat.le_refl _, fun b hb => ?_⟩
            obtain rfl := Option.some.inj hb
            exact Nat.le_refl _
        · refine ⟨_, _, scr.getRange_eq hmax r, Nat.le_add_left _ _, fun b hb => ?_⟩
          obtain rfl := Option.some.inj hb
          have := scr.getMod_le (max.toNat - min.toNat) r
          omega

end

/-! ## Faithful expressions are followed -/

/-- What holds of everything on the stack. -/
structure Hir.Good (hir : Hir) : Prop where
  wellFormed : hir.WellFormed
  lookFree : hir.LookFree
  faithful : hir.Faithful

namespace Hir.Good

theorem sub {min : UInt32} {max : Option UInt32} {sub : Hir}
    (h : (Hir.repetition min max sub).Good) : sub.Good :=
  ⟨h.wellFormed.2, h.lookFree, h.faithful.2⟩

theorem captured {sub : Hir} (h : (Hir.capture sub).Good) : sub.Good :=
  ⟨h.wellFormed, h.lookFree, h.faithful⟩

theorem part {hirs : List Hir} {hir : Hir} (h : (Hir.concat hirs).Good) (hmem : hir ∈ hirs) :
    hir.Good :=
  ⟨allWellFormed_iff.mp h.wellFormed hir hmem, allLookFree_iff.mp h.lookFree hir hmem,
    allFaithful_iff.mp h.faithful hir hmem⟩

theorem alternative {hirs : List Hir} {hir : Hir} (h : (Hir.alternation hirs).Good)
    (hmem : hir ∈ hirs) : hir.Good :=
  ⟨allWellFormed_iff.mp h.wellFormed.2.2 hir hmem, allLookFree_iff.mp h.lookFree hir hmem,
    allFaithful_iff.mp h.faithful hir hmem⟩

end Hir.Good

section

variable {R : Type} [Rand R] (scr : RegexScript)

/-- A round of the walk is inside, goes on to what is good, and writes the part
that is missing to what the rest stands for. -/
theorem walkStep_good {top : Hir} {stack : List Hir} (res : List UInt8) (r : R) (htop : top.Good)
    (hstack : ∀ hir ∈ stack, hir.Good) :
    WalkState.Inside scr ⟨top :: stack, res, r⟩ ∧
      ∃ stack' w r', walkStep scr ⟨top :: stack, res, r⟩ = some ⟨stack', res ++ w, r'⟩ ∧
        (∀ hir ∈ stack', hir.Good) ∧
        ∀ w' ∈ Hir.languageAll stack', w ++ w' ∈ Hir.languageAll (top :: stack) := by
  rw [Hir.languageAll]
  cases top with
  | empty =>
      refine ⟨trivial, stack, [], r, by rw [walkStep, List.append_nil], hstack, fun w' hw' => ?_⟩
      exact Language.append_mem_mul (Language.nil_mem_one) hw'
  | literal lit =>
      refine ⟨trivial, stack, lit, r, rfl, hstack, fun w' hw' => ?_⟩
      exact Language.append_mem_mul (Set.mem_singleton lit) hw'
  | look => exact absurd htop.lookFree id
  | cls cls =>
      obtain ⟨w, r', happend, hw⟩ := Class.Faithful.append scr htop.faithful res r
      refine ⟨⟨w, r', happend, hw⟩, stack, w, r', ?_, hstack, fun w' hw' => ?_⟩
      · simp only [walkStep, happend, Option.map_some]
      · exact Language.append_mem_mul hw hw'
  | repetition min max sub =>
      obtain ⟨num, r', hnum, hcounts⟩ :=
        getRepetitions_counts scr htop.wellFormed.1 htop.faithful.1 r
      refine ⟨⟨num, r', hnum, hcounts⟩, List.replicate num sub ++ stack, [], r', ?_, ?_, ?_⟩
      · simp only [walkStep, hnum, Option.map_some, List.append_nil]
      · refine List.forall_mem_append.mpr ⟨fun hir hmem => ?_, hstack⟩
        rw [List.eq_of_mem_replicate hmem]
        exact htop.sub
      · intro w' hw'
        rw [Hir.languageAll_append, Hir.languageAll_replicate] at hw'
        obtain ⟨a, ha, b, hb, rfl⟩ := Language.mem_mul.mp hw'
        rw [List.nil_append]
        exact Language.append_mem_mul ⟨num, hcounts, ha⟩ hb
  | capture sub =>
      refine ⟨trivial, sub :: stack, [], r, by rw [walkStep, List.append_nil], ?_, ?_⟩
      · exact List.forall_mem_cons.mpr ⟨htop.captured, hstack⟩
      · exact fun w' hw' => hw'
  | concat hirs =>
      refine ⟨trivial, hirs ++ stack, [], r, by rw [walkStep, List.append_nil], ?_, ?_⟩
      · exact List.forall_mem_append.mpr ⟨fun hir => htop.part, hstack⟩
      · intro w' hw'
        rw [Hir.languageAll_append] at hw'
        exact hw'
  | alternation hirs =>
      have hlt := scr.getMod_lt (List.length_pos_iff.mpr htop.wellFormed.1) r
      have hmem := List.getElem_mem hlt
      refine ⟨trivial, _ :: stack, [], (scr.getMod hirs.length r).2, ?_,
        List.forall_mem_cons.mpr ⟨htop.alternative hmem, hstack⟩, ?_⟩
      · simp only [walkStep, List.getElem?_eq_getElem hlt, Option.map_some, List.append_nil]
      · intro w' hw'
        obtain ⟨a, ha, b, hb, rfl⟩ := Language.mem_mul.mp hw'
        rw [List.nil_append]
        exact Language.append_mem_mul (Hir.mem_languageAny hmem ha) hb

/-- A step of the walk keeps the stack good. -/
theorem walks_good {c c' : WalkState R} (hwalk : Walks scr c c')
    (h : ∀ hir ∈ c.stack, hir.Good) : ∀ hir ∈ c'.stack, hir.Good := by
  induction hwalk with
  | refl => exact h
  | @tail c' c'' _ hstep ih =>
      obtain ⟨stack, res, r⟩ := c'
      cases stack with
      | nil => cases hstep
      | cons top stack =>
          obtain ⟨htop, hstack⟩ := List.forall_mem_cons.mp ih
          obtain ⟨-, stack', w, r', hstep', hgood, -⟩ :=
            walkStep_good scr res r htop hstack
          obtain rfl := Option.some.inj (hstep'.symm.trans hstep)
          exact hgood

theorem inside_of_good {c : WalkState R} (h : ∀ hir ∈ c.stack, hir.Good) : c.Inside scr := by
  obtain ⟨stack, res, r⟩ := c
  cases stack with
  | nil => trivial
  | cons top stack =>
      obtain ⟨htop, hstack⟩ := List.forall_mem_cons.mp h
      exact (walkStep_good scr _ _ htop hstack).1

/-- The loop ends with a string of what is on the stack. -/
theorem generateLoop_mem (stack : List Hir) (res : List UInt8) (r : R)
    (h : ∀ hir ∈ stack, hir.Good) :
    ∃ w r', generateLoop scr stack res r = some (res ++ w, r') ∧ w ∈ Hir.languageAll stack := by
  induction hw : Hir.weights stack using Nat.strong_induction_on generalizing stack res r with
  | _ weight ih =>
  subst hw
  cases stack with
  | nil => exact ⟨[], r, by rw [generateLoop, List.append_nil], Language.nil_mem_one⟩
  | cons top stack =>
      obtain ⟨htop, hstack⟩ := List.forall_mem_cons.mp h
      obtain ⟨-, stack', w, r', hstep, hgood, hlanguage⟩ :=
        walkStep_good scr res r htop hstack
      obtain ⟨w', r'', hloop, hw'⟩ :=
        ih _ (walkStep_weights scr hstep) stack' (res ++ w) r' hgood rfl
      refine ⟨w ++ w', r'', ?_, hlanguage w' hw'⟩
      rw [generateLoop_eq_walkStep, hstep, Option.bind_some, hloop, List.append_assoc]

end

end Libaflmm
