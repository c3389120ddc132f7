import Libaflmm.Collects
import Libaflmm.TextFields
import Mathlib.Algebra.Order.Ring.Nat
import Mathlib.Data.List.Range

/-!
# Lists of cores on the command line

A list names cores, one by one or as a range: `1,2-4,6`. What has more than two
parts between its dashes is passed over, a range that goes down has no cores,
and a number may have a sign. So a list is refused when one of its numbers is
not read, and only then.
-/

namespace Libaflmm

open Text

abbrev CoreId := Nat

inductive Cores where
  | pin (ids : List CoreId)
  | unpin (n : { n : Nat // 0 < n })
  | none
deriving DecidableEq

/-- `parse::<usize>` on a machine with 64 bits. -/
def parseUsize : Text → Option Nat := parseNat 10 (2 ^ 64)

/-- The range from `a` up to and with `b`. -/
def rangeInclusive (a b : Nat) : List Nat := List.range' a (b + 1 - a)

namespace Cores

def pinned (ids : List CoreId) : Cores := if ids = [] then .none else .pin ids

def all (getCoreIds : Option (List CoreId)) : Option Cores :=
  getCoreIds.map fun ids => pinned (List.range ids.length)

def parseItem (csv : Text) : Option (List CoreId) :=
  match csv.splitOn '-' with
  | [n] => (parseUsize n).map fun n => [n]
  | [a, b] =>
    match parseUsize a, parseUsize b with
    | some a, some b => some (rangeInclusive a b)
    | _, _ => Option.none
  | _ => some []

def parseItems : List Text → Option (List CoreId) := collectAll parseItem

/-- What is not read is an error. -/
def fromCmdline (getCoreIds : Option (List CoreId)) (args : Text) : Option Cores :=
  if args = "all".toList then all getCoreIds
  else if args = "none".toList then some .none
  else (parseItems (args.splitOn ',')).map pinned

end Cores

/-! ## The grammar -/

def decimalValue (n : Nat) (digits : Text) : Nat :=
  digits.foldl (fun n c => n * 10 + (c.toNat - 48)) n

/-- A decimal number that a `usize` holds. -/
def IsDecimal (digits : Text) (n : Nat) : Prop :=
  digits ≠ [] ∧ (∀ c ∈ digits, c.isDigit = true) ∧ decimalValue 0 digits = n ∧ n < 2 ^ 64

inductive IsCoreItem : Text → List CoreId → Prop
  | core {t : Text} {n : Nat} : IsDecimal t n → IsCoreItem t [n]
  | range {t u : Text} {a b : Nat} : IsDecimal t a → IsDecimal u b → a ≤ b →
      IsCoreItem (t ++ '-' :: u) (rangeInclusive a b)

inductive IsCoreList : Text → List CoreId → Prop
  | one {t : Text} {ids : List CoreId} : IsCoreItem t ids → IsCoreList t ids
  | more {t u : Text} {ids more : List CoreId} : IsCoreItem t ids → IsCoreList u more →
      IsCoreList (t ++ ',' :: u) (ids ++ more)

/-! ## Numbers -/

theorem decimalValue_eq {digits : Text} (h : ∀ c ∈ digits, c.isDigit = true) (n : Nat) :
    decimalValue n digits = digitsValue 10 n digits := by
  induction digits generalizing n with
  | nil => rfl
  | cons c digits ih =>
      rw [List.forall_mem_cons] at h
      rw [decimalValue, digitsValue, List.foldl_cons, List.foldl_cons, toDigit_of_isDigit h.1]
      exact ih h.2 _

theorem parseDigits_eq_some {bound k n : Nat} {digits : Text} (hk : k < bound) :
    parseDigits 10 bound k digits = some n ↔
      (∀ c ∈ digits, c.isDigit = true) ∧ decimalValue k digits = n ∧ n < bound := by
  rw [parseDigits_eq_some_iff (by omega) hk]
  simp only [isSome_toDigit]
  exact and_congr_right fun h => by rw [decimalValue_eq h]

theorem isDecimal_iff {t : Text} {n : Nat} (hne : t ≠ []) :
    IsDecimal t n ↔ parseDigits 10 (2 ^ 64) 0 t = some n := by
  rw [parseDigits_eq_some (by omega), IsDecimal, and_iff_right hne]

theorem IsDecimal.head_ne {t : Text} {n : Nat} (h : IsDecimal t n) : t.head? ≠ some '+' := by
  intro hhead
  cases t with
  | nil => cases hhead
  | cons c t =>
      cases hhead
      exact absurd (h.2.1 '+' List.mem_cons_self) (by decide)

/-- What is read as a number is a decimal number, with a sign or without. -/
theorem parseUsize_eq_some {t : Text} {n : Nat} :
    parseUsize t = some n ↔ IsDecimal t n ∨ ∃ u, t = '+' :: u ∧ IsDecimal u n := by
  unfold parseUsize
  fun_cases parseNat 10 (2 ^ 64) t with
  | case1 =>
      constructor
      · exact nofun
      · rintro (⟨hne, -⟩ | ⟨u, hu, -⟩)
        · exact absurd rfl hne
        · cases hu
  | case2 =>
      constructor
      · exact nofun
      · rintro (h | ⟨u, hu, hne, -⟩)
        · exact absurd rfl h.head_ne
        · cases hu
          exact absurd rfl hne
  | case3 u hu =>
      rw [← isDecimal_iff fun hnil => hu (by rw [hnil])]
      constructor
      · exact fun h => .inr ⟨u, rfl, h⟩
      · rintro (h | ⟨v, hv, h⟩)
        · exact absurd rfl h.head_ne
        · cases hv
          exact h
  | case4 t hnil hplus hsign =>
      rw [← isDecimal_iff hnil]
      constructor
      · exact .inl
      · rintro (h | ⟨v, hv, -⟩)
        · exact h
        · exact absurd hv (hsign v)

theorem parseUsize_of_isDecimal {t : Text} {n : Nat} (h : IsDecimal t n) :
    parseUsize t = some n := parseUsize_eq_some.mpr (.inl h)

theorem isDecimal_of_parseUsize {t : Text} {n : Nat} (h : parseUsize t = some n)
    (hsign : t.head? ≠ some '+') : IsDecimal t n := by
  rcases parseUsize_eq_some.mp h with hdec | ⟨u, rfl, -⟩
  · exact hdec
  · exact absurd rfl hsign

theorem IsDecimal.not_mem {t : Text} {n : Nat} (h : IsDecimal t n) {c : Char}
    (hc : c.isDigit = false) : c ∉ t := by
  intro hmem
  rw [h.2.1 c hmem] at hc
  cases hc

/-! ## Items -/

namespace Cores

/-- Parts between dashes that are read as numbers, where they are looked at. -/
def Reads (csv : Text) : Prop :=
  (csv.splitOn '-').length ≤ 2 → ∀ part ∈ csv.splitOn '-', parseUsize part ≠ Option.none

/-- Two parts at most, no sign, and a range that does not go down. -/
structure Plain (csv : Text) : Prop where
  parts : (csv.splitOn '-').length ≤ 2
  noSign : ∀ part ∈ csv.splitOn '-', part.head? ≠ some '+'
  upwards : ∀ a b m n, csv.splitOn '-' = [a, b] → parseUsize a = some m → parseUsize b = some n →
    m ≤ n

theorem splitOn_of_isDecimal {t : Text} {n : Nat} (h : IsDecimal t n) : t.splitOn '-' = [t] :=
  List.splitOn_eq_singleton (h.not_mem rfl)

theorem splitOn_of_isDecimal_range {t u : Text} {a b : Nat} (ht : IsDecimal t a)
    (hu : IsDecimal u b) : (t ++ '-' :: u).splitOn '-' = [t, u] := by
  rw [List.splitOn_append_cons_self_of_not_mem (ht.not_mem rfl), splitOn_of_isDecimal hu]

theorem plain_of_isCoreItem {csv : Text} {ids : List CoreId} (h : IsCoreItem csv ids) :
    Plain csv ∧ parseItem csv = some ids := by
  cases h with
  | @core _ n hn =>
      have hsplit := splitOn_of_isDecimal hn
      refine ⟨⟨by simp [hsplit], ?_, ?_⟩, ?_⟩
      · rw [hsplit]
        rintro part hpart
        rw [List.mem_singleton.mp hpart]
        exact hn.head_ne
      · rw [hsplit]
        rintro a b m n ⟨⟩
      · simp only [parseItem, hsplit, parseUsize_of_isDecimal hn, Option.map_some]
  | @range t u a b ht hu hle =>
      have hsplit := splitOn_of_isDecimal_range ht hu
      refine ⟨⟨by simp [hsplit], ?_, ?_⟩, ?_⟩
      · rw [hsplit]
        intro part hpart
        rcases List.mem_pair.mp hpart with rfl | rfl
        · exact ht.head_ne
        · exact hu.head_ne
      · rw [hsplit]
        rintro _ _ m n ⟨⟩ hm hn
        rw [parseUsize_of_isDecimal ht] at hm
        rw [parseUsize_of_isDecimal hu] at hn
        cases hm
        cases hn
        exact hle
      · simp only [parseItem, hsplit, parseUsize_of_isDecimal ht, parseUsize_of_isDecimal hu]

theorem isCoreItem_of_plain {csv : Text} {ids : List CoreId} (hplain : Plain csv)
    (h : parseItem csv = some ids) : IsCoreItem csv ids := by
  have hjoin : ['-'].intercalate (csv.splitOn '-') = csv := List.intercalate_splitOn '-'
  have hsign := hplain.noSign
  unfold parseItem at h
  split at h
  · next n hsplit =>
      rw [hsplit] at hjoin hsign
      obtain ⟨k, hk, rfl⟩ := Option.map_eq_some_iff.mp h
      have hcsv : n = csv := by simpa using hjoin
      rw [← hcsv]
      exact .core (isDecimal_of_parseUsize hk (hsign n List.mem_cons_self))
  · next a b hsplit =>
      rw [hsplit] at hjoin hsign
      split at h
      · next m n hm hn =>
          cases h
          have hcsv : a ++ '-' :: b = csv := by simpa using hjoin
          rw [← hcsv]
          exact .range (isDecimal_of_parseUsize hm (hsign a (by simp)))
            (isDecimal_of_parseUsize hn (hsign b (by simp))) (hplain.upwards a b m n hsplit hm hn)
      · cases h
  · next hone htwo =>
      -- There is a part, and there are not three.
      have hle := hplain.parts
      cases hsplit : csv.splitOn '-' with
      | nil => exact absurd hsplit (List.splitOn_ne_nil '-' csv)
      | cons a parts =>
          cases parts with
          | nil => exact absurd hsplit (hone a)
          | cons b parts =>
              cases parts with
              | nil => exact absurd hsplit (htwo a b)
              | cons c parts =>
                  rw [hsplit] at hle
                  simp at hle

theorem parseItem_eq_none {csv : Text} : parseItem csv = Option.none ↔ ¬ Reads csv := by
  unfold parseItem Reads
  split
  · next n hsplit => simp [hsplit]
  · next a b hsplit =>
      rw [hsplit]
      cases ha : parseUsize a <;> cases hb : parseUsize b <;> simp [ha, hb]
  · next hone htwo =>
      constructor
      · exact nofun
      · intro h
        refine absurd (fun hle part hpart => ?_) h
        cases hsplit : csv.splitOn '-' with
        | nil => exact absurd hsplit (List.splitOn_ne_nil '-' csv)
        | cons a parts =>
            cases parts with
            | nil => exact absurd hsplit (hone a)
            | cons b parts =>
                cases parts with
                | nil => exact absurd hsplit (htwo a b)
                | cons c parts =>
                    rw [hsplit] at hle
                    simp at hle

/-! ## Lists -/

theorem parseItems_eq_none {csvs : List Text} :
    parseItems csvs = Option.none ↔ ∃ csv ∈ csvs, ¬ Reads csv := by
  simp only [parseItems, collectAll_eq_none, parseItem_eq_none]

/-- The texts are the items of a list of the grammar. -/
inductive AreItems : List Text → List CoreId → Prop
  | nil : AreItems [] []
  | cons {csv : Text} {csvs : List Text} {ids more : List CoreId} : IsCoreItem csv ids →
      AreItems csvs more → AreItems (csv :: csvs) (ids ++ more)

theorem AreItems.parseItems {csvs : List Text} {ids : List CoreId} (h : AreItems csvs ids) :
    parseItems csvs = some ids ∧ ∀ csv ∈ csvs, Plain csv := by
  induction h with
  | nil => exact ⟨rfl, nofun⟩
  | cons hitem _ ih =>
      obtain ⟨hplain, hparse⟩ := plain_of_isCoreItem hitem
      have hrest := ih.1
      unfold Cores.parseItems at hrest ⊢
      refine ⟨by simp only [collectAll, hparse, hrest], fun csv hcsv => ?_⟩
      rcases List.mem_cons.mp hcsv with rfl | hcsv
      · exact hplain
      · exact ih.2 csv hcsv

theorem areItems_of_plain {csvs : List Text} {ids : List CoreId}
    (hplain : ∀ csv ∈ csvs, Plain csv) (h : parseItems csvs = some ids) : AreItems csvs ids := by
  induction csvs generalizing ids with
  | nil =>
      cases h
      exact .nil
  | cons csv csvs ih =>
      rw [List.forall_mem_cons] at hplain
      obtain ⟨ids, more, hids, hmore, rfl⟩ := exists_of_collectAll_cons h
      exact .cons (isCoreItem_of_plain hplain.1 hids) (ih hplain.2 hmore)

theorem comma_not_mem {csv : Text} {ids : List CoreId} (h : IsCoreItem csv ids) : ',' ∉ csv := by
  cases h with
  | core hn => exact hn.not_mem rfl
  | range ht hu hle =>
      intro hmem
      rcases List.mem_append.mp hmem with hmem | hmem
      · exact ht.not_mem rfl hmem
      · rcases List.mem_cons.mp hmem with heq | hmem
        · cases heq
        · exact hu.not_mem rfl hmem

/-- A list of the grammar is one whose pieces are its items. -/
theorem isCoreList_iff {args : Text} {ids : List CoreId} :
    IsCoreList args ids ↔ AreItems (args.splitOn ',') ids := by
  constructor
  · intro h
    induction h with
    | @one t ids hitem =>
        rw [List.splitOn_eq_singleton (comma_not_mem hitem), ← List.append_nil ids]
        exact .cons hitem .nil
    | more hitem _ ih =>
        rw [List.splitOn_append_cons_self_of_not_mem (comma_not_mem hitem)]
        exact .cons hitem ih
  · intro h
    have hjoin : ∀ csvs ids, AreItems csvs ids → csvs ≠ [] →
        IsCoreList ([','].intercalate csvs) ids := by
      intro csvs ids h hne
      induction h with
      | nil => exact absurd rfl hne
      | @cons csv csvs ids more hitem hrest ih =>
          cases hrest with
          | nil => simpa using IsCoreList.one hitem
          | @cons csv' csvs' _ _ hitem' hrest' =>
              have hmore := ih (List.cons_ne_nil csv' csvs')
              rw [List.intercalate_cons_cons]
              simpa using IsCoreList.more hitem hmore
    have hlist := hjoin _ ids h (List.splitOn_ne_nil ',' args)
    rwa [List.intercalate_splitOn] at hlist

theorem IsCoreItem.ne_nil {csv : Text} {ids : List CoreId} (h : IsCoreItem csv ids) :
    ids ≠ [] := by
  cases h with
  | core hn => exact List.cons_ne_nil _ _
  | @range _ _ a b ht hu hle =>
      have hlen : (rangeInclusive a b).length = b + 1 - a := List.length_range'
      intro hnil
      rw [hnil, List.length_nil] at hlen
      omega

theorem pinned_of_isCoreList {args : Text} {ids : List CoreId} (h : IsCoreList args ids) :
    pinned ids = .pin ids := by
  refine if_neg ?_
  cases h with
  | one hitem => exact IsCoreItem.ne_nil hitem
  | more hitem hrest => exact List.append_ne_nil_of_left_ne_nil (IsCoreItem.ne_nil hitem) _

/-- The cores are those of the grammar, and there are some for no other text. -/
def ReadsExactly (getCoreIds : Option (List CoreId)) (args : Text) : Prop :=
  ∀ cores, fromCmdline getCoreIds args = some cores ↔ ∃ ids, IsCoreList args ids ∧ cores = .pin ids

theorem fromCmdline_of_isCoreList {getCoreIds : Option (List CoreId)} {args : Text}
    {ids : List CoreId} (hall : args ≠ "all".toList) (hnone : args ≠ "none".toList)
    (h : IsCoreList args ids) : fromCmdline getCoreIds args = some (.pin ids) := by
  rw [fromCmdline, if_neg hall, if_neg hnone, (isCoreList_iff.mp h).parseItems.1, Option.map_some,
    pinned_of_isCoreList h]

/-- A list is read exactly unless all of it that is looked at is read, and it
has an item with too many parts, a sign, or a range that goes down. -/
theorem readsExactly_iff (getCoreIds : Option (List CoreId)) {args : Text}
    (hall : args ≠ "all".toList) (hnone : args ≠ "none".toList) :
    ReadsExactly getCoreIds args ↔
      ((∀ csv ∈ args.splitOn ',', Reads csv) → ∀ csv ∈ args.splitOn ',', Plain csv) := by
  have hitems : fromCmdline getCoreIds args = (parseItems (args.splitOn ',')).map pinned := by
    rw [fromCmdline, if_neg hall, if_neg hnone]
  constructor
  · intro hexact hreads
    cases hparse : parseItems (args.splitOn ',') with
    | none =>
        obtain ⟨csv, hcsv, hnot⟩ := parseItems_eq_none.mp hparse
        exact absurd (hreads csv hcsv) hnot
    | some ids =>
        rw [hparse] at hitems
        obtain ⟨ids', hlist, -⟩ := (hexact (pinned ids)).mp hitems
        exact (isCoreList_iff.mp hlist).parseItems.2
  · intro hplain cores
    constructor
    · intro h
      rw [hitems] at h
      obtain ⟨ids, hparse, rfl⟩ := Option.map_eq_some_iff.mp h
      have hreads : ∀ csv ∈ args.splitOn ',', Reads csv := by
        intro csv hcsv
        by_contra hnot
        rw [parseItems_eq_none.mpr ⟨csv, hcsv, hnot⟩] at hparse
        cases hparse
      have hlist := isCoreList_iff.mpr (areItems_of_plain (hplain hreads) hparse)
      exact ⟨ids, hlist, pinned_of_isCoreList hlist⟩
    · rintro ⟨ids, hlist, rfl⟩
      exact fromCmdline_of_isCoreList hall hnone hlist

/-- Single cores and ranges. -/
theorem readsExactly_listed :
    ReadsExactly Option.none "1,2-4,6".toList ↔
      ((∀ csv ∈ "1,2-4,6".toList.splitOn ',', Reads csv) →
        ∀ csv ∈ "1,2-4,6".toList.splitOn ',', Plain csv) :=
  readsExactly_iff Option.none (by decide) (by decide)

/-- The three numbers are passed over, and one core is left. -/
theorem not_readsExactly_dashes : ¬ ReadsExactly Option.none "0,1-2-3".toList := by
  intro h
  have hread : fromCmdline Option.none "0,1-2-3".toList = some (.pin [0]) := by decide +kernel
  obtain ⟨ids, hlist, -⟩ := (h (.pin [0])).mp hread
  have hplain := (isCoreList_iff.mp hlist).parseItems.2 "1-2-3".toList (by decide +kernel)
  exact absurd hplain.parts (by decide +kernel)

end Cores

end Libaflmm
