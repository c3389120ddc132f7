import Libaflmm.Collects
import Libaflmm.HashTables
import Libaflmm.TextFields
import Mathlib.Data.List.Infix

/-!
# Detection of injections

A library has functions with a parameter that is checked when they are called:
its argument must contain none of the match strings of the library, up to the
case of letters. Of the match strings only those are searched for that have at
most as many bytes as the library has match strings, and to search for the empty
one panics.
-/

namespace Libaflmm

open Text

structure FunctionDescription where
  param : UInt8

structure InjectionDefinition where
  tokens : List Text
  matchValues : List Text
  functions : HashMap Text FunctionDescription

structure Match where
  bytesLower : List UInt8
  originalValue : Text

structure Matches where
  id : Nat
  libName : Text
  list : List Match

structure InjectionModule where
  tokens : List Text
  definitions : HashMap Text InjectionDefinition
  matchesList : List Matches

/-- A call of what is at the address checks the parameter for the matches. -/
structure InjectionHook where
  addr : Nat
  id : Nat
  param : UInt8

inductive CallCheck where
  | passed
  | found (originalValue libName : Text)
  | panicked

def asciiLower (b : UInt8) : UInt8 := if 65 ≤ b ∧ b ≤ 90 then b + 32 else b

/-- The windows of a length, which is not zero. -/
def windows (n : Nat) (bytes : List UInt8) : List (List UInt8) :=
  (List.range (bytes.length + 1 - n)).map fun i => (bytes.drop i).take n

/-- No result is a panic. -/
def findSubsequence (haystack needle : List UInt8) : Option (Option Nat) :=
  if needle.length = 0 then none
  else some ((windows needle.length haystack).findIdx? fun window => window = needle)

/-- `CStr::from_ptr`, where no result is a read behind readable memory. -/
def cStr : List UInt8 → Option (List UInt8)
  | [] => none
  | b :: bytes => if b = 0 then some [] else (cStr bytes).map (b :: ·)

namespace InjectionModule

def matchOf (matchStr : Text) : Match :=
  { originalValue := matchStr, bytesLower := (encode matchStr).map asciiLower }

def matchesOf (definitions : List (Σ _ : Text, InjectionDefinition)) : List Matches :=
  definitions.mapIdx fun id entry =>
    { libName := entry.1, id := id, list := entry.2.matchValues.map matchOf }

def new (definitions : HashMap Text InjectionDefinition) : InjectionModule :=
  { tokens := definitions.entries.flatMap fun entry => entry.2.tokens
    definitions := definitions
    matchesList := matchesOf definitions.entries }

/-- The addresses of a function: the name is one in hexadecimal, or it is looked
up in what is mapped. -/
def hookAddrs (findFunction : Text → List Nat) (name : Text) : Option (List Nat) :=
  match name with
  | '0' :: x :: digits =>
    if x = 'x' ∨ x = 'X' then (parseNat 16 (2 ^ 64) digits).map fun pc => [pc]
    else some (findFunction name)
  | _ => some (findFunction name)

def functionHooks (findFunction : Text → List Nat) (id : Nat)
    (function : Σ _ : Text, FunctionDescription) : Option (List InjectionHook) :=
  (hookAddrs findFunction function.1).map fun addrs => addrs.map (⟨·, id, function.2.param⟩)

/-- The hooks for the functions of one library. -/
def libraryHooks (findFunction : Text → List Nat) (m : InjectionModule) (list : Matches) :
    Option (List InjectionHook) :=
  match m.definitions.lookup list.libName with
  | some definition => collectAll (functionHooks findFunction list.id) definition.functions.entries
  | none => none

def firstExec (findFunction : Text → List Nat) (m : InjectionModule) :
    Option (List InjectionHook) := collectAll (libraryHooks findFunction m) m.matchesList

def checkMatches (libName : Text) (count : Nat) (query : List UInt8) : List Match → CallCheck
  | [] => .passed
  | value :: list =>
    if value.bytesLower.length > count then checkMatches libName count query list
    else match findSubsequence query value.bytesLower with
      | none => .panicked
      | some (some _) => .found value.originalValue libName
      | some none => checkMatches libName count query list

/-- `arguments` are those of the call, as far as they can be read, and `memory`
is what can be read from an address on. -/
def onCallCheck (m : InjectionModule) (arguments : UInt8 → Option Nat)
    (memory : Nat → List UInt8) (id : Nat) (parameter : UInt8) : CallCheck :=
  let reg := (arguments parameter).getD 0
  match m.matchesList[id]? with
  | none => .panicked
  | some list =>
    if reg = 0 then .passed
    else match cStr (memory reg) with
      | none => .panicked
      | some bytes =>
        checkMatches list.libName list.list.length (bytes.map asciiLower) list.list

/-! ## The search -/

theorem findSubsequence_eq_none {haystack needle : List UInt8} :
    findSubsequence haystack needle = none ↔ needle = [] := by
  unfold findSubsequence
  split
  · next h => simp [List.length_eq_zero_iff.mp h]
  · next h => simpa using h

theorem exists_findSubsequence {haystack needle : List UInt8} (hne : needle ≠ []) :
    (∃ i, findSubsequence haystack needle = some (some i)) ↔ needle <:+: haystack := by
  rw [findSubsequence, if_neg fun h => hne (List.length_eq_zero_iff.mp h)]
  constructor
  · rintro ⟨i, hi⟩
    obtain ⟨hlt, heq, -⟩ := List.findIdx?_eq_some_iff_getElem.mp (Option.some.inj hi)
    have hwindow : (haystack.drop i).take needle.length = needle := by simpa [windows] using heq
    rw [← hwindow]
    exact (List.take_prefix _ _).isInfix.trans (List.drop_suffix i haystack).isInfix
  · rintro ⟨before, after, rfl⟩
    have hmem : needle ∈ windows needle.length (before ++ needle ++ after) := by
      refine List.mem_map.mpr ⟨before.length, List.mem_range.mpr ?_, by simp⟩
      simp only [List.length_append]
      omega
    have hsome : ((windows needle.length (before ++ needle ++ after)).findIdx? fun window =>
        decide (window = needle)).isSome = true := by
      rw [List.findIdx?_isSome]
      exact List.any_eq_true.mpr ⟨needle, hmem, decide_eq_true rfl⟩
    obtain ⟨i, hi⟩ := Option.isSome_iff_exists.mp hsome
    exact ⟨i, congrArg some hi⟩

/-- The first of the values that are searched for and found. -/
def firstFound (count : Nat) (query : List UInt8) (list : List Match) : Option Match :=
  list.find? fun value => decide (value.bytesLower.length ≤ count ∧ value.bytesLower <:+: query)

theorem checkMatches_eq (libName : Text) (count : Nat) (query : List UInt8) (list : List Match) :
    checkMatches libName count query list =
      match firstFound count query list with
      | none => .passed
      | some value =>
        if value.bytesLower = [] then .panicked else .found value.originalValue libName := by
  induction list with
  | nil => rfl
  | cons value list ih =>
      rw [checkMatches, firstFound, List.find?_cons, ← firstFound]
      by_cases hlen : value.bytesLower.length ≤ count
      · rw [if_neg (Nat.not_lt.mpr hlen)]
        by_cases hempty : value.bytesLower = []
        · have hinfix : value.bytesLower <:+: query := hempty ▸ List.nil_infix
          rw [findSubsequence_eq_none.mpr hempty, decide_eq_true ⟨hlen, hinfix⟩]
          exact (if_pos hempty).symm
        · by_cases hinfix : value.bytesLower <:+: query
          · obtain ⟨i, hi⟩ := (exists_findSubsequence hempty).mpr hinfix
            rw [hi, decide_eq_true ⟨hlen, hinfix⟩]
            exact (if_neg hempty).symm
          · have hsearch : findSubsequence query value.bytesLower = some none := by
              cases hsearch : findSubsequence query value.bytesLower with
              | none => exact absurd (findSubsequence_eq_none.mp hsearch) hempty
              | some result =>
                  cases result with
                  | none => rfl
                  | some i => exact absurd ((exists_findSubsequence hempty).mp ⟨i, hsearch⟩) hinfix
            rw [hsearch, decide_eq_false fun h => hinfix h.2]
            exact ih
      · rw [if_pos (Nat.lt_of_not_le hlen), decide_eq_false fun h => hlen h.1]
        exact ih

/-! ## The hooks -/

theorem getElem?_matchesList {definitions : HashMap Text InjectionDefinition} {list : Matches}
    (h : list ∈ (new definitions).matchesList) :
    (new definitions).matchesList[list.id]? = some list := by
  obtain ⟨i, hi, rfl⟩ := List.mem_mapIdx.mp h
  simp [new, matchesOf, hi]

theorem list_of_mem_matchesList {definitions : HashMap Text InjectionDefinition} {list : Matches}
    {definition : InjectionDefinition} (h : list ∈ (new definitions).matchesList)
    (hdef : definitions.lookup list.libName = some definition) :
    list.list = definition.matchValues.map matchOf := by
  obtain ⟨i, hi, rfl⟩ := List.mem_mapIdx.mp h
  have hentry : definitions.lookup definitions.entries[i].1 = some definitions.entries[i].2 :=
    AList.mem_lookup_iff.mpr (List.getElem_mem hi)
  cases Option.some.inj (hdef.symm.trans hentry)
  rfl

theorem id_of_mem_libraryHooks {findFunction : Text → List Nat} {m : InjectionModule}
    {list : Matches} {hooks : List InjectionHook}
    (h : libraryHooks findFunction m list = some hooks) : ∀ hook ∈ hooks, hook.id = list.id := by
  intro hook hhook
  unfold libraryHooks at h
  split at h
  · obtain ⟨function, -, own, hown, hmem⟩ := (mem_collectAll h).mp hhook
    obtain ⟨addrs, -, rfl⟩ := Option.map_eq_some_iff.mp hown
    obtain ⟨addr, -, rfl⟩ := List.mem_map.mp hmem
    rfl
  · cases h

/-! ## The check -/

/-- The argument has the value, up to the case of letters. -/
def Occurs (value : Text) (bytes : List UInt8) : Prop :=
  (encode value).map asciiLower <:+: bytes.map asciiLower

instance (value : Text) (bytes : List UInt8) : Decidable (Occurs value bytes) :=
  inferInstanceAs (Decidable (_ <:+: _))

/-- A value is found if and only if there is one, and nothing else fails. -/
def Detects (definition : InjectionDefinition) (bytes : List UInt8) (outcome : CallCheck) : Prop :=
  ((∃ value libName, outcome = .found value libName) ↔
    ∃ value ∈ definition.matchValues, Occurs value bytes) ∧ outcome ≠ .panicked

/-- The first of the values that have at most as many bytes as there are values,
and that the argument has. -/
def firstSearched (definition : InjectionDefinition) (bytes : List UInt8) : Option Text :=
  definition.matchValues.find? fun value =>
    decide ((encode value).length ≤ definition.matchValues.length ∧ Occurs value bytes)

theorem encode_eq_nil {text : Text} : encode text = [] ↔ text = [] := by
  cases text with
  | nil => simp [encode]
  | cons c text =>
      have hne : String.utf8EncodeChar c ≠ [] := by
        intro h
        have hpos := c.utf8Size_pos
        rw [← String.length_utf8EncodeChar, h] at hpos
        exact absurd hpos (Nat.lt_irrefl 0)
      simp [encode, hne]

theorem onCallCheck_of_hook {definitions : HashMap Text InjectionDefinition}
    {findFunction : Text → List Nat} {list : Matches} {definition : InjectionDefinition}
    {hooks : List InjectionHook} {hook : InjectionHook} {arguments : UInt8 → Option Nat}
    {memory : Nat → List UInt8} {reg : Nat} {bytes : List UInt8}
    (hlist : list ∈ (new definitions).matchesList)
    (hdef : definitions.lookup list.libName = some definition)
    (hhooks : libraryHooks findFunction (new definitions) list = some hooks) (hhook : hook ∈ hooks)
    (hreg : arguments hook.param = some reg) (hne : reg ≠ 0)
    (hbytes : cStr (memory reg) = some bytes) :
    onCallCheck (new definitions) arguments memory hook.id hook.param =
      match firstSearched definition bytes with
      | none => .passed
      | some value => if value = [] then .panicked else .found value list.libName := by
  have hsearch : firstFound definition.matchValues.length (bytes.map asciiLower)
      (definition.matchValues.map matchOf) = (firstSearched definition bytes).map matchOf := by
    rw [firstFound, List.find?_map, firstSearched]
    simp only [Function.comp_def, matchOf, List.length_map, Occurs]
    rfl
  rw [onCallCheck, id_of_mem_libraryHooks hhooks hook hhook, getElem?_matchesList hlist]
  simp only [hreg, Option.getD_some, if_neg hne, hbytes]
  rw [checkMatches_eq, list_of_mem_matchesList hlist hdef, List.length_map, hsearch]
  cases firstSearched definition bytes with
  | none => rfl
  | some value =>
      have hempty : (matchOf value).bytesLower = [] ↔ value = [] := by
        rw [matchOf, List.map_eq_nil_iff, encode_eq_nil]
      simp only [Option.map_some, hempty]
      rfl

/-- The check does what it is for unless the argument has one of the values, and
none of those that are searched for or first the empty one. -/
theorem detects_iff {definitions : HashMap Text InjectionDefinition}
    {findFunction : Text → List Nat} {list : Matches} {definition : InjectionDefinition}
    {hooks : List InjectionHook} {hook : InjectionHook} {arguments : UInt8 → Option Nat}
    {memory : Nat → List UInt8} {reg : Nat} {bytes : List UInt8}
    (hlist : list ∈ (new definitions).matchesList)
    (hdef : definitions.lookup list.libName = some definition)
    (hhooks : libraryHooks findFunction (new definitions) list = some hooks) (hhook : hook ∈ hooks)
    (hreg : arguments hook.param = some reg) (hne : reg ≠ 0)
    (hbytes : cStr (memory reg) = some bytes) :
    Detects definition bytes (onCallCheck (new definitions) arguments memory hook.id hook.param) ↔
      ((∃ value ∈ definition.matchValues, Occurs value bytes) →
        ∃ value, firstSearched definition bytes = some value ∧ value ≠ []) := by
  rw [onCallCheck_of_hook hlist hdef hhooks hhook hreg hne hbytes, Detects]
  cases hfirst : firstSearched definition bytes with
  | none => simp
  | some value =>
      have hoccurs : ∃ value ∈ definition.matchValues, Occurs value bytes := by
        unfold firstSearched at hfirst
        have hprop := List.find?_some hfirst
        exact ⟨value, List.mem_of_find?_eq_some hfirst, (of_decide_eq_true hprop).2⟩
      by_cases hempty : value = []
      · simp [hempty, hoccurs]
      · simp [hempty, hoccurs]

/-- A library with one function, at the address 64. -/
def sqlite (values : List Text) : InjectionDefinition :=
  { tokens := [], matchValues := values
    functions := AList.singleton "0x40".toList { param := 1 } }

def sqliteModule (values : List Text) : InjectionModule :=
  new (AList.singleton "sqlite".toList (sqlite values))

/-- A call with the argument `Ab` at the address 16. -/
def sqliteCheck (values : List Text) : CallCheck :=
  onCallCheck (sqliteModule values) (fun _ => some 16) (fun _ => [65, 98, 0]) 0 1

/-- Two match strings of two bytes, of which the argument has the second. -/
theorem detects_sqlite :
    Detects (sqlite ["xy".toList, "aB".toList]) [65, 98] (sqliteCheck ["xy".toList, "aB".toList]) ↔
      ((∃ value ∈ ["xy".toList, "aB".toList], Occurs value [65, 98]) →
        ∃ value, firstSearched (sqlite ["xy".toList, "aB".toList]) [65, 98] = some value ∧
          value ≠ []) := by
  have hhooks : libraryHooks (fun _ => []) (sqliteModule ["xy".toList, "aB".toList])
      ⟨0, "sqlite".toList, ["xy".toList, "aB".toList].map matchOf⟩ = some [⟨64, 0, 1⟩] := rfl
  have hhook : (⟨64, 0, 1⟩ : InjectionHook) ∈ [(⟨64, 0, 1⟩ : InjectionHook)] := List.mem_cons_self
  exact detects_iff List.mem_cons_self rfl hhooks hhook rfl (Nat.succ_ne_zero 15) rfl

/-- The only match string has two bytes, and so it is not searched for. -/
theorem not_detects_sqlite :
    ¬ Detects (sqlite ["ab".toList]) [65, 98] (sqliteCheck ["ab".toList]) := by
  intro h
  obtain ⟨value, libName, hfound⟩ := h.1.mpr ⟨"ab".toList, List.mem_cons_self, by decide⟩
  have hpassed : sqliteCheck ["ab".toList] = .passed := rfl
  rw [hpassed] at hfound
  cases hfound

end InjectionModule

end Libaflmm
