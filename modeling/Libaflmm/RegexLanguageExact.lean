import Libaflmm.RegexLanguage

/-!
# Exactly the faithful expressions are followed

A class of characters with more than one byte lets a draw go to a character
with three bytes, and a repetition from zero or one with a small upper bound
lets one go to more repetitions than that. Both come up in some walk, however
deep they are in the expression (`exists_walks_strays`).
-/

namespace Libaflmm

/-! ## Some draws leave an expression that is not faithful -/

/-- From two bytes on the word of a character is beyond all encodings of two bytes. -/
theorem charWord_ge_of_long {chr : Char} (h : 0x80 ≤ chr.toNat) : 0x800 ≤ charWord chr := by
  have hval : 0x80 ≤ chr.val.toNat := h
  simp only [charWord, String.utf8EncodeChar]
  split_ifs with h1 h2 h3
  · omega
  · simp [ofLeBytes]
    omega
  · simp [ofLeBytes]
    omega
  · simp [ofLeBytes]
    omega

theorem length_utf8EncodeChar_of_short {chr : Char} (h : chr.toNat < 0x800) :
    (String.utf8EncodeChar chr).length ≤ 2 := by
  have hval : chr.val.toNat < 0x800 := h
  simp only [String.utf8EncodeChar]
  split_ifs <;> simp <;> omega

theorem length_utf8EncodeChar_of_long {chr : Char} (h : 0x800 ≤ chr.toNat) :
    3 ≤ (String.utf8EncodeChar chr).length := by
  have hval : 0x800 ≤ chr.val.toNat := h
  simp only [String.utf8EncodeChar]
  split_ifs <;> simp <;> omega

/-- What is sound, but does not keep the walk inside. -/
def Hir.Strays : Hir → Prop
  | .cls chars => chars.Sound ∧ chars.count < 2 ^ 64 ∧ ¬chars.Faithful
  | .repetition min max _ => (∀ b ∈ max, min ≤ b) ∧ ¬Wide min max
  | _ => False

section

variable {scr : RegexScript}

/-- What strays comes to the top of the stack. The induction is on the weight
of the stack. -/
theorem exists_walks_strays (hscr : scr.remaining ≠ 0) (stack : List Hir)
    (hwf : ∀ hir ∈ stack, hir.WellFormed) (hsound : ∀ hir ∈ stack, hir.Sound)
    (h : ¬∀ hir ∈ stack, hir.Faithful) :
    ∃ top rest pre, Hir.Strays top ∧ ∀ res (s : Stream' UInt64), ∃ res',
      Walks scr ⟨stack, res, pre ++ₛ s⟩ ⟨top :: rest, res', s⟩ := by
  induction hw : Hir.weights stack using Nat.strong_induction_on generalizing stack with
  | _ weight ih =>
  subst hw
  cases stack with
  | nil => exact absurd (List.forall_mem_nil _) h
  | cons top stack =>
      obtain ⟨hwfTop, hwfStack⟩ := List.forall_mem_cons.mp hwf
      obtain ⟨hsoundTop, hsoundStack⟩ := List.forall_mem_cons.mp hsound
      -- a round that leads to what is not faithful
      have hround : ∀ (stack' : List Hir) (pre : List UInt64),
          (∀ res (s : Stream' UInt64), ∃ res',
            walkStep scr ⟨top :: stack, res, pre ++ₛ s⟩ = some ⟨stack', res', s⟩) →
          (∀ hir ∈ stack', hir.WellFormed) → (∀ hir ∈ stack', hir.Sound) →
          (¬∀ hir ∈ stack', hir.Faithful) →
          ∃ top' rest pre, Hir.Strays top' ∧ ∀ res (s : Stream' UInt64), ∃ res',
            Walks scr ⟨top :: stack, res, pre ++ₛ s⟩ ⟨top' :: rest, res', s⟩ := by
        intro stack' pre hstep hwf' hsound' hbad
        obtain ⟨_, hstep'⟩ := hstep [] (Stream'.const 0)
        obtain ⟨top', rest, pre', hstrays, hwalks⟩ :=
          ih _ (walkStep_weights scr hstep') stack' hwf' hsound' hbad rfl
        refine ⟨top', rest, pre ++ pre', hstrays, fun res s => ?_⟩
        obtain ⟨res', hres'⟩ := hstep res (pre' ++ₛ s)
        obtain ⟨res'', hres''⟩ := hwalks res' s
        rw [Stream'.append_append_stream]
        exact ⟨res'', .head hres' hres''⟩
      have hpop : top.Faithful → ¬∀ hir ∈ stack, hir.Faithful :=
        fun htop hall => h (List.forall_mem_cons.mpr ⟨htop, hall⟩)
      cases top with
      | empty =>
          exact hround stack [] (fun res s => ⟨res, rfl⟩) hwfStack hsoundStack (hpop trivial)
      | look =>
          exact hround stack [] (fun res s => ⟨res, rfl⟩) hwfStack hsoundStack (hpop trivial)
      | literal lit =>
          exact hround stack [] (fun res s => ⟨_, rfl⟩) hwfStack hsoundStack (hpop trivial)
      | cls cls =>
          by_cases hfaithful : cls.Faithful
          · obtain ⟨pre, hpre⟩ := Class.Sound.exists_append hsoundTop scr
            refine hround stack pre (fun res s => ?_) hwfStack hsoundStack (hpop hfaithful)
            obtain ⟨res', hsome⟩ := hpre res s
            exact ⟨res', by simp only [walkStep, hsome, Option.map_some]⟩
          · have hcount : cls.count < 2 ^ 64 := by
              cases cls <;> exact hwfTop
            exact ⟨.cls cls, stack, [], ⟨hsoundTop, hcount, hfaithful⟩, fun res s => ⟨res, .refl⟩⟩
      | repetition min max sub =>
          by_cases hwide : Wide min max
          · obtain ⟨num, pre, hnum, hpre⟩ := exists_getRepetitions hscr hwfTop.1
            refine hround (List.replicate num sub ++ stack) pre (fun res s => ⟨res, ?_⟩)
              (List.forall_mem_append.mpr
                ⟨fun hir hmem => List.eq_of_mem_replicate hmem ▸ hwfTop.2, hwfStack⟩)
              (List.forall_mem_append.mpr
                ⟨fun hir hmem => List.eq_of_mem_replicate hmem ▸ hsoundTop, hsoundStack⟩)
              (fun hall => h (List.forall_mem_cons.mpr ⟨⟨hwide, ?_⟩, ?_⟩))
            · simp only [walkStep, hpre, Option.map_some]
            · exact hall sub (List.mem_append_left _ (List.mem_replicate.mpr ⟨hnum.ne', rfl⟩))
            · exact fun hir hmem => hall hir (List.mem_append_right _ hmem)
          · exact ⟨.repetition min max sub, stack, [], ⟨hwfTop.1, hwide⟩,
              fun res s => ⟨res, .refl⟩⟩
      | capture sub =>
          exact hround (sub :: stack) [] (fun res s => ⟨res, rfl⟩)
            (List.forall_mem_cons.mpr ⟨hwfTop, hwfStack⟩)
            (List.forall_mem_cons.mpr ⟨hsoundTop, hsoundStack⟩)
            (fun hall => h (List.forall_mem_cons.mpr
              ⟨(List.forall_mem_cons.mp hall).1, (List.forall_mem_cons.mp hall).2⟩))
      | concat hirs =>
          refine hround (hirs ++ stack) [] (fun res s => ⟨res, rfl⟩)
            (List.forall_mem_append.mpr ⟨Hir.allWellFormed_iff.mp hwfTop, hwfStack⟩)
            (List.forall_mem_append.mpr ⟨Hir.allSound_iff.mp hsoundTop, hsoundStack⟩)
            (fun hall => h (List.forall_mem_cons.mpr ?_))
          obtain ⟨hhirs, hstack⟩ := List.forall_mem_append.mp hall
          exact ⟨Hir.allFaithful_iff.mpr hhirs, hstack⟩
      | alternation hirs =>
          obtain ⟨hne, hlen, hwfHirs⟩ := hwfTop
          -- the first alternative that is not faithful, or any if all are
          obtain ⟨i, hi, hbad⟩ : ∃ i, ∃ hi : i < hirs.length,
              hirs[i].Faithful → ∀ hir ∈ hirs, hir.Faithful := by
            by_cases hall : ∀ hir ∈ hirs, hir.Faithful
            · exact ⟨0, List.length_pos_iff.mpr hne, fun _ => hall⟩
            · push Not at hall
              obtain ⟨hir, hmem, hnot⟩ := hall
              obtain ⟨i, hi, rfl⟩ := List.getElem_of_mem hmem
              exact ⟨i, hi, fun hfaithful => absurd hfaithful hnot⟩
          have hmem := List.getElem_mem hi
          obtain ⟨pre, hpre⟩ := RegexScript.exists_getMod hscr hi hlen
          refine hround (hirs[i] :: stack) pre (fun res s => ⟨res, ?_⟩)
            (List.forall_mem_cons.mpr ⟨Hir.allWellFormed_iff.mp hwfHirs _ hmem, hwfStack⟩)
            (List.forall_mem_cons.mpr ⟨Hir.allSound_iff.mp hsoundTop _ hmem, hsoundStack⟩)
            (fun hall => h (List.forall_mem_cons.mpr ?_))
          · simp only [walkStep, hpre, List.getElem?_eq_getElem hi, Option.map_some]
          · obtain ⟨htop, hstack⟩ := List.forall_mem_cons.mp hall
            exact ⟨Hir.allFaithful_iff.mpr (hbad htop), hstack⟩

theorem exists_getLength_max (hscr : scr.remaining ≠ 0) :
    ∃ pre, ∀ s : Stream' UInt64, getLength scr (pre ++ₛ s) = (255, s) := by
  obtain ⟨pre, hpre⟩ := RegexScript.exists_getMod hscr (show 7 < 8 by decide) (by decide)
  obtain ⟨post, hpost⟩ := RegexScript.exists_getMod hscr (show 255 < 2 <<< 7 by decide) (by decide)
  refine ⟨pre ++ post, fun s => ?_⟩
  unfold getLength
  rw [Stream'.append_append_stream, hpre]
  exact hpost s

/-- The longest length is drawn, whatever the upper bound is. -/
theorem exists_not_counts {min : UInt32} {max : Option UInt32} (hscr : scr.remaining ≠ 0)
    (h : ¬Wide min max) :
    ∃ num, ¬Counts min max num ∧
      ∃ pre, ∀ s : Stream' UInt64, getRepetitions scr min max (pre ++ₛ s) = some (num, s) := by
  obtain ⟨pre, hpre⟩ := exists_getLength_max hscr
  rw [Wide, not_and_or] at h
  rcases h with h | h
  · push Not at h
    obtain ⟨rfl, b, hb, hone, hlt⟩ := h
    refine ⟨255, fun hcounts => ?_, pre, fun s => ?_⟩
    · exact hlt (UInt32.le_iff_toNat_le.mpr (hcounts.2 b hb))
    · have hmax : ¬(max = some 1) := fun heq => hone (Option.some.inj (hb.symm.trans heq))
      simp only [getRepetitions, hmax, and_false, if_false, if_true, hpre]
  · push Not at h
    obtain ⟨rfl, b, hb, hlt⟩ := h
    refine ⟨1 + 255, fun hcounts => ?_, pre, fun s => ?_⟩
    · exact hlt (UInt32.le_iff_toNat_le.mpr (hcounts.2 b hb))
    · have hzero : ¬((1 : UInt32) = 0) := by decide
      simp only [getRepetitions, hzero, false_and, if_false, if_true, hpre]

/-- The last word of a range is drawn that has characters of two bytes. It is
that of a character of three bytes, and there is none in the class. -/
theorem Class.exists_append_stray {cls : Class} (hscr : scr.remaining ≠ 0) (hsound : cls.Sound)
    (hcount : cls.count < 2 ^ 64) (h : ¬cls.Faithful) :
    ∃ (s s' : Stream' UInt64) (w : List UInt8), w ∉ cls.language ∧
      ∀ res, appendClass scr res cls s = some (res ++ w, s') := by
  cases cls with
  | bytes ranges =>
      refine absurd ⟨hsound.1, fun rng hmem => ?_⟩ h
      exact Nat.lt_of_add_lt_add_right (hsound.2 rng hmem)
  | unicode ranges =>
      obtain ⟨hne, hsound⟩ := hsound
      obtain ⟨rng, hmem, hlong⟩ : ∃ rng ∈ ranges, 0x80 ≤ rng.stop.toNat := by
        by_contra hall
        push Not at hall
        exact h ⟨hne, hall⟩
      obtain ⟨i, hi, rfl⟩ := List.getElem_of_mem hmem
      obtain ⟨hshort, hle⟩ := hsound _ hmem
      have hstart := charWord_lt_surrogates (Nat.lt_of_le_of_lt ranges[i].start_le_stop hshort)
      have hstop := charWord_lt_surrogates hshort
      have hword := charWord_ge_of_long hlong
      obtain ⟨pre, hpre⟩ := RegexScript.exists_getMod hscr hi hcount
      obtain ⟨off, post, hpost, hge, hlt⟩ : ∃ off post, (∀ s : Stream' UInt64, scr.getMod
          (charWord ranges[i].stop + 1 - charWord ranges[i].start) (post ++ₛ s) = (off, s)) ∧
          0x800 ≤ off + charWord ranges[i].start ∧ off + charWord ranges[i].start < 0xd800 := by
        rcases Nat.eq_zero_or_pos (charWord ranges[i].stop + 1 - charWord ranges[i].start) with
          hzero | hpos
        · obtain ⟨post, hpost⟩ :=
            scr.exists_getMod_zero (charWord ranges[i].stop + 1 - charWord ranges[i].start)
          exact ⟨0, post, hpost, by omega, by omega⟩
        · obtain ⟨post, hpost⟩ := RegexScript.exists_getMod hscr (Nat.sub_one_lt_of_lt hpos)
            (by omega)
          exact ⟨_, post, hpost, by omega, by omega⟩
      obtain ⟨chr, hchr, hval⟩ := charFromU32_of_lt hlt
      refine ⟨pre ++ post ++ₛ Stream'.const 0, Stream'.const 0, String.utf8EncodeChar chr, ?_,
        fun res => ?_⟩
      · rintro ⟨rng, hmem', chr', -, hle', hencode⟩
        have hshort' : chr'.toNat < 0x800 := Nat.lt_of_le_of_lt hle' (hsound rng hmem').1
        have hlen := congrArg List.length hencode
        have hlong := length_utf8EncodeChar_of_long (hval.symm ▸ hge)
        have := length_utf8EncodeChar_of_short hshort'
        omega
      · simp only [appendClass, Stream'.append_append_stream, hpre, List.getElem?_eq_getElem hi,
          Option.bind_eq_bind, Option.bind_some, appendUnicodeRange, scr.getRange_eq hle, hpost,
          hchr, appendChar]

end

/-! ## Exactness -/

theorem followed_of_faithful {hir : Hir} (h : hir.Good) : hir.Followed := by
  intro R _ r
  have hstack : ∀ hir' ∈ [hir], hir'.Good := List.forall_mem_singleton.mpr h
  obtain ⟨w, r', hloop, hw⟩ :=
    generateLoop_mem (RegexScript.new r).1 [hir] [] (RegexScript.new r).2 hstack
  rw [Hir.languageAll, Hir.languageAll, mul_one] at hw
  exact ⟨⟨w, r', hloop, hw⟩, fun c hwalk => inside_of_good _ (walks_good _ hwalk hstack)⟩

/-- What strays is outside at some draws. -/
theorem exists_not_inside {scr : RegexScript} {top : Hir} (hscr : scr.remaining ≠ 0)
    (h : top.Strays) (rest : List Hir) :
    ∃ s : Stream' UInt64, ∀ res, ¬WalkState.Inside scr ⟨top :: rest, res, s⟩ := by
  cases top with
  | cls cls =>
      obtain ⟨hsound, hcount, hstray⟩ := h
      obtain ⟨s, s', w, hw, happend⟩ := Class.exists_append_stray hscr hsound hcount hstray
      refine ⟨s, fun res hinside => ?_⟩
      obtain ⟨w', r', happend', hw'⟩ := hinside
      have hres := congrArg Prod.fst (Option.some.inj ((happend res).symm.trans happend'))
      exact hw (List.append_cancel_left hres ▸ hw')
  | repetition min max sub =>
      obtain ⟨num, hnot, pre, hpre⟩ := exists_not_counts hscr h.2
      refine ⟨pre ++ₛ Stream'.const 0, fun res hinside => ?_⟩
      obtain ⟨num', r', hnum', hcounts⟩ := hinside
      have hnum : num = num' := congrArg Prod.fst (Option.some.inj ((hpre _).symm.trans hnum'))
      rw [hnum] at hnot
      exact hnot hcounts
  | _ => exact absurd h id

/-- After these draws the script has something remaining. -/
theorem new_remaining (s : Stream' UInt64) : RegexScript.new ([0, 1] ++ₛ s) = (⟨1⟩, s) := rfl

theorem faithful_of_followed {hir : Hir} (hwf : hir.WellFormed) (h : hir.Followed) :
    hir.Faithful := by
  have hscr : (RegexScript.mk 1).remaining ≠ 0 := Nat.one_ne_zero
  have hsound : hir.Sound := by
    by_contra hunsound
    obtain ⟨s, hnone⟩ := exists_generateRegex_eq_none hwf hunsound
    obtain ⟨⟨out, r', hsome, -⟩, -⟩ := h _ s
    rw [hnone] at hsome
    cases hsome
  by_contra hnot
  obtain ⟨top, rest, pre, hstrays, hwalks⟩ := exists_walks_strays hscr [hir]
    (List.forall_mem_singleton.mpr hwf) (List.forall_mem_singleton.mpr hsound)
    (fun hall => hnot (List.forall_mem_singleton.mp hall))
  obtain ⟨s, hs⟩ := exists_not_inside hscr hstrays rest
  obtain ⟨res, hwalk⟩ := hwalks [] s
  have hinside := (h _ ([0, 1] ++ₛ (pre ++ₛ s))).2
  rw [new_remaining] at hinside
  exact hs res (hinside _ hwalk)

/-- A string of the expression is generated, and written as such, whatever is
drawn, if and only if the expression is faithful. -/
theorem followed_iff {hir : Hir} (hwf : hir.WellFormed) (hlook : hir.LookFree) :
    hir.Followed ↔ hir.Faithful :=
  ⟨faithful_of_followed hwf, fun hfaithful => followed_of_faithful ⟨hwf, hlook, hfaithful⟩⟩

/-- `(?:[a-z]{2,5}|0)*` -/
def Hir.words : Hir :=
  .repetition 0 none (.alternation
    [.repetition 2 (some 5) (.cls (.unicode [⟨'a', 'z', by decide⟩])), .literal [0x30]])

theorem followed_words : Hir.words.Followed := by
  refine (followed_iff ?_ ?_).mpr ?_
  · simp [Hir.words, Hir.WellFormed, Hir.AllWellFormed]
  · simp [Hir.words, Hir.LookFree, Hir.AllLookFree]
  · simp [Hir.words, Hir.Faithful, Hir.AllFaithful, Class.Faithful, Wide]

/-- `[à-ö]` -/
def Hir.accents : Hir := .cls (.unicode [⟨'à', 'ö', by decide⟩])

/-- The first word is drawn, and taken for a character of three bytes. -/
theorem generateRegex_accents :
    ∃ s, generateRegex Hir.accents (Stream'.const (0 : UInt64)) = some ([0xea, 0x83, 0x83], s) := by
  have happend : appendClass ⟨0⟩ [] (.unicode [⟨'à', 'ö', by decide⟩])
      (Stream'.const (0 : UInt64)) = some ([0xea, 0x83, 0x83], Stream'.const 0) := rfl
  refine ⟨Stream'.const 0, ?_⟩
  rw [generateRegex, show RegexScript.new (Stream'.const (0 : UInt64)) = (⟨0⟩, Stream'.const 0)
    from rfl]
  exact (generateLoop_cls happend).trans (by rw [generateLoop])

theorem not_followed_accents : ¬Hir.accents.Followed := by
  intro h
  obtain ⟨⟨out, s', hout, hmem⟩, -⟩ := h (Stream' UInt64) (Stream'.const 0)
  obtain ⟨s, hgenerated⟩ := generateRegex_accents
  have heq : [0xea, 0x83, 0x83] = out :=
    congrArg Prod.fst (Option.some.inj (hgenerated.symm.trans hout))
  obtain ⟨rng, hrng, chr, -, hle, hencode⟩ := hmem
  have hshort : chr.toNat < 0x800 := by
    rw [List.mem_singleton.mp hrng] at hle
    exact Nat.lt_of_le_of_lt hle (by decide)
  have hlen := length_utf8EncodeChar_of_short hshort
  rw [← hencode, ← heq] at hlen
  exact absurd hlen (by decide)

end Libaflmm
