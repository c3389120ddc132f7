import Libaflmm.FileReads
import Libaflmm.LossyText
import Mathlib.Data.List.Induction

/-!
# The environment

`Env::initialize` reads strings `NAME=VALUE`, each with a terminator, through a
buffer that has space for one of them. What the buffer has of the next string
is kept for the next read. An empty string ends the environment, as the end of
the file does.
-/

namespace Libaflmm

open LossyText

/-- The variables, of which the last value counts. -/
structure Env where
  envs : List Char → Option (List Char)

inductive EnvError (ε : Type)
  | failedToCreateReader (e : ε)
  | failedToRead (e : ε)
  | split (pair : List Char)
  | stringFragment (fragment : List Char)

namespace Env

def bufferSize : Nat := 131072

def empty : Env := ⟨fun _ => none⟩

def insert (env : Env) (key value : List Char) : Env :=
  ⟨fun k => if k = key then some value else env.envs k⟩

def get (env : Env) (name : List Char) : Option (List Char) := env.envs name

variable {ε : Type}

/-- How the loop over the buffer ends. -/
inductive Scanned (ε : Type)
  | returned (r : Except (EnvError ε) Env)
  | pending (env : Env) (text : List UInt8)

/-- The loop over the buffer; `text` is what there is of the string since its
start. -/
def scan (env : Env) (text : List UInt8) : List UInt8 → Scanned ε
  | [] => .pending env text
  | c :: bytes =>
    if c = 0 then
      if text = [] then .returned (.ok env)
      else match splitOnce '=' (fromUtf8Lossy text) with
        | none => .returned (.error (.split (fromUtf8Lossy text)))
        | some (key, value) => scan (env.insert key value) [] bytes
    else scan env (text ++ [c]) bytes

/-- The loop over the reads; `skipped` is at the front of the buffer. -/
def readAll : Nat → Env → List UInt8 → FileReader ε → Option (Except (EnvError ε) Env)
  | 0, _, _, _ => none
  | fuel + 1, env, skipped, reader =>
    match reader.read (bufferSize - skipped.length) with
    | (.error e, _) => some (.error (.failedToRead e))
    | (.ok bytes, reader') =>
      match scan env [] (skipped ++ bytes) with
      | .returned r => some r
      | .pending env' text =>
        if skipped ++ bytes = [] then
          if text = [] then some (.ok env')
          else some (.error (.stringFragment (fromUtf8Lossy text)))
        else readAll fuel env' text reader'

/-- `Env::initialize` -/
def initializeEnv (fuel : Nat) (new : Except ε (FileReader ε)) :
    Option (Except (EnvError ε) Env) :=
  match new with
  | .error e => some (.error (.failedToCreateReader e))
  | .ok reader => readAll fuel empty [] reader

/-- With enough fuel the environment is this. -/
def Returns (reader : FileReader ε) (r : Except (EnvError ε) Env) : Prop :=
  ∃ enough, ∀ fuel, enough ≤ fuel → initializeEnv fuel (.ok reader) = some r

/-! ## The strings -/

/-- A string with the name, an equals sign and the value, which the buffer has space for. -/
structure Variable where
  name : List UInt8
  value : List UInt8
  name_ne : ∀ c ∈ name, c ≠ 0 ∧ c ≠ 61
  value_ne : 0 ∉ value
  fits : (name ++ 61 :: value).length < bufferSize

namespace Variable

def text (v : Variable) : List UInt8 := v.name ++ 61 :: v.value

def addTo (v : Variable) (env : Env) : Env :=
  env.insert (fromUtf8Lossy v.name) (fromUtf8Lossy v.value)

end Variable

/-- What may be behind the variables: nothing, the empty string, or a string
that is no variable. -/
inductive Ending
  | eof
  | null (bytes : List UInt8)
  | noValue (text : List UInt8) (ne_nil : text ≠ []) (ne : ∀ c ∈ text, c ≠ 0 ∧ c ≠ 61)
    (fits : text.length < bufferSize) (bytes : List UInt8)

namespace Ending

def bytes : Ending → List UInt8
  | eof => []
  | null bytes => 0 :: bytes
  | noValue text _ _ _ bytes => text ++ 0 :: bytes

def result (env : Env) : Ending → Except (EnvError ε) Env
  | eof => .ok env
  | null _ => .ok env
  | noValue text .. => .error (.split (fromUtf8Lossy text))

end Ending

/-- The file with the variables. -/
def fileOf (vars : List Variable) (e : Ending) : List UInt8 :=
  vars.flatMap (fun v => v.text ++ [0]) ++ e.bytes

/-- The variables with their last values. -/
def ofVariables (vars : List Variable) : Env :=
  ⟨fun key => (vars.reverse.find? fun v => fromUtf8Lossy v.name = key).map fun v =>
    fromUtf8Lossy v.value⟩

/-! ## What the loops do -/

section

variable {env : Env}

theorem scan_append (env : Env) (text a b : List UInt8) :
    (scan env text (a ++ b) : Scanned ε) =
      match (scan env text a : Scanned ε) with
      | .returned r => .returned r
      | .pending env' text' => scan env' text' b := by
  induction a generalizing env text with
  | nil => rfl
  | cons c a ih =>
      rw [List.cons_append, scan, scan]
      split
      · split
        · rfl
        · cases splitOnce '=' (fromUtf8Lossy text) with
          | none => rfl
          | some pair => exact ih _ _
      · exact ih env (text ++ [c])

theorem scan_of_not_mem {s : List UInt8} (h : 0 ∉ s) (text bytes : List UInt8) :
    (scan env text (s ++ bytes) : Scanned ε) = scan env (text ++ s) bytes := by
  induction s generalizing text with
  | nil => rw [List.append_nil, List.nil_append]
  | cons c s ih =>
      rw [List.cons_append, scan, if_neg fun hc : c = 0 => h (hc ▸ List.mem_cons_self),
        ih fun hmem => h (List.mem_cons_of_mem c hmem), List.append_assoc, List.singleton_append]

/-- What is kept has no terminator. -/
theorem not_mem_of_scan {text bytes text' : List UInt8} {env' : Env} (h : 0 ∉ text)
    (hscan : (scan env text bytes : Scanned ε) = .pending env' text') : 0 ∉ text' := by
  induction bytes generalizing env text with
  | nil =>
      cases hscan
      exact h
  | cons c bytes ih =>
      rw [scan] at hscan
      split at hscan
      · split at hscan
        · cases hscan
        · cases hpair : splitOnce '=' (fromUtf8Lossy text) with
          | none =>
              rw [hpair] at hscan
              cases hscan
          | some pair =>
              rw [hpair] at hscan
              exact ih List.not_mem_nil hscan
      · next hc =>
          refine ih ?_ hscan
          rw [List.mem_append, List.mem_singleton]
          exact not_or.mpr ⟨h, Ne.symm hc⟩

theorem zero_not_mem_text (v : Variable) : 0 ∉ v.text := by
  rw [Variable.text, List.mem_append, List.mem_cons]
  refine not_or.mpr ⟨fun hmem => (v.name_ne 0 hmem).1 rfl, not_or.mpr ⟨by decide, v.value_ne⟩⟩

theorem scan_variable (v : Variable) (bytes : List UInt8) :
    (scan env [] (v.text ++ 0 :: bytes) : Scanned ε) = scan (v.addTo env) [] bytes := by
  have hsplit : splitOnce '=' (fromUtf8Lossy v.text) =
      some (fromUtf8Lossy v.name, fromUtf8Lossy v.value) :=
    splitOnce_fromUtf8Lossy (c := 61) (by decide) (by decide)
      (fun hmem => (v.name_ne 61 hmem).2 rfl) v.value
  rw [scan_of_not_mem (zero_not_mem_text v), List.nil_append, scan, if_pos rfl,
    if_neg (by simp [Variable.text]), hsplit]
  rfl

theorem scan_noValue {text : List UInt8} (ne_nil : text ≠ []) (ne : ∀ c ∈ text, c ≠ 0 ∧ c ≠ 61)
    (bytes : List UInt8) :
    (scan env [] (text ++ 0 :: bytes) : Scanned ε) =
      .returned (.error (.split (fromUtf8Lossy text))) := by
  have hsplit : splitOnce '=' (fromUtf8Lossy text) = none :=
    splitOnce_of_not_mem (not_mem_fromUtf8Lossy (c := 61) (by decide) (by decide)
      fun hmem => (ne 61 hmem).2 rfl)
  rw [scan_of_not_mem fun hmem => (ne 0 hmem).1 rfl, List.nil_append, scan, if_pos rfl,
    if_neg ne_nil, hsplit]

/-! ## How the file is split -/

theorem scan_of_pending {text : List UInt8} (h : 0 ∉ text) :
    (scan env [] text : Scanned ε) = .pending env text := by
  have hscan : (scan env [] (text ++ []) : Scanned ε) = _ := scan_of_not_mem h [] []
  rwa [List.append_nil] at hscan

theorem scan_ending (e : Ending) {a b : List UInt8} (h : e.bytes = a ++ b) :
    (scan env [] a : Scanned ε) = .returned (e.result env) ∨
      (scan env [] a : Scanned ε) = .pending env a := by
  cases e with
  | eof =>
      obtain ⟨rfl, rfl⟩ := List.append_eq_nil_iff.mp h.symm
      exact .inr rfl
  | null bytes =>
      rcases split_at_byte (s := []) h with ⟨a', rfl, -⟩ | ⟨c, hs, -⟩
      · exact .inl rfl
      · obtain ⟨rfl, -⟩ := List.append_eq_nil_iff.mp hs.symm
        exact .inr rfl
  | noValue text ne_nil ne fits bytes =>
      rcases split_at_byte h with ⟨a', rfl, -⟩ | ⟨c, rfl, -⟩
      · exact .inl (scan_noValue ne_nil ne a')
      · exact .inr (scan_of_pending fun hmem => (ne 0 (List.mem_append_left c hmem)).1 rfl)

theorem fileOf_cons (v : Variable) (vars : List Variable) (e : Ending) :
    fileOf (v :: vars) e = v.text ++ 0 :: fileOf vars e := by
  simp [fileOf]

/-- **A part of the file** makes the loop return what the whole of it does, or
leaves the rest of the file to be read. -/
theorem scan_fileOf {vars : List Variable} {e : Ending} {a b : List UInt8}
    (h : fileOf vars e = a ++ b) :
    (scan env [] a : Scanned ε) = .returned (e.result (vars.foldl (fun env v => v.addTo env) env)) ∨
      ∃ done left text, vars = done ++ left ∧ fileOf left e = text ++ b ∧
        (scan env [] a : Scanned ε) =
          .pending (done.foldl (fun env v => v.addTo env) env) text := by
  induction vars generalizing env a with
  | nil =>
      rcases scan_ending e h with hscan | hscan
      · exact .inl hscan
      · exact .inr ⟨[], [], a, rfl, h, hscan⟩
  | cons v vars ih =>
      rw [fileOf_cons] at h
      rcases split_at_byte h with ⟨a', rfl, hrest⟩ | ⟨c, htext, -⟩
      · rw [scan_variable]
        rcases ih hrest with hscan | ⟨done, left, text, rfl, hleft, hscan⟩
        · exact .inl hscan
        · exact .inr ⟨v :: done, left, text, rfl, hleft, hscan⟩
      · refine .inr ⟨[], v :: vars, a, rfl, (fileOf_cons v vars e).trans h, scan_of_pending ?_⟩
        intro hmem
        refine zero_not_mem_text v ?_
        rw [htext]
        exact List.mem_append_left c hmem

theorem length_le_of_append {s bytes a b : List UInt8} (h : s ++ 0 :: bytes = a ++ b)
    (ha : 0 ∉ a) : a.length ≤ s.length := by
  rcases split_at_byte h with ⟨a', rfl, -⟩ | ⟨c, rfl, -⟩
  · exact absurd (List.mem_append_right s List.mem_cons_self) ha
  · rw [List.length_append]
    exact Nat.le_add_right _ _

/-- There is space in the buffer behind a part of a string. -/
theorem length_lt_of_fileOf {vars : List Variable} {e : Ending} {text rest : List UInt8}
    (h : fileOf vars e = text ++ rest) (htext : 0 ∉ text) (hrest : rest ≠ []) :
    text.length < bufferSize := by
  cases vars with
  | cons v vars =>
      rw [fileOf_cons] at h
      exact Nat.lt_of_le_of_lt (length_le_of_append h htext) v.fits
  | nil =>
      cases e with
      | eof => exact absurd (List.append_eq_nil_iff.mp h.symm).2 hrest
      | null bytes =>
          have hle : text.length ≤ ([] : List UInt8).length := length_le_of_append h htext
          exact Nat.lt_of_le_of_lt hle (by decide)
      | noValue s ne_nil ne fits bytes =>
          exact Nat.lt_of_le_of_lt (length_le_of_append h htext) fits

/-- All of a file without a terminator was read. -/
theorem eq_nil_of_fileOf {vars : List Variable} {e : Ending} {text : List UInt8}
    (h : fileOf vars e = text) (htext : 0 ∉ text) : vars = [] ∧ e = .eof ∧ text = [] := by
  subst h
  cases vars with
  | cons v vars =>
      rw [fileOf_cons] at htext
      exact absurd (List.mem_append_right _ List.mem_cons_self) htext
  | nil =>
      cases e with
      | eof => exact ⟨rfl, rfl, rfl⟩
      | null bytes => exact absurd List.mem_cons_self htext
      | noValue s ne_nil ne fits bytes =>
          exact absurd (List.mem_append_right _ List.mem_cons_self) htext

/-- **The loop over the reads**, for every way the file is read. -/
theorem readAll_fileOf {vars : List Variable} {e : Ending} {skipped : List UInt8}
    {reader : FileReader ε} (hreader : reader.Succeeds) (hskipped : 0 ∉ skipped)
    (h : fileOf vars e = skipped ++ reader.rest) :
    ∃ enough, ∀ fuel, enough ≤ fuel → readAll fuel env skipped reader =
      some (e.result (vars.foldl (fun env v => v.addTo env) env)) := by
  induction hlen : reader.rest.length using Nat.strongRecOn
    generalizing vars env skipped reader with
  | ind n ih =>
      obtain ⟨chunk, reader', hread, hrest, -, hnil, hreader'⟩ :=
        FileReader.read_of_succeeds hreader (bufferSize - skipped.length)
      by_cases hend : reader.rest = []
      · rw [hend, List.append_nil] at h
        obtain ⟨rfl, rfl, rfl⟩ := eq_nil_of_fileOf h hskipped
        obtain rfl := hnil.mpr (.inl hend)
        refine ⟨1, fun fuel hfuel => ?_⟩
        obtain ⟨fuel, rfl⟩ := Nat.exists_eq_add_of_le' hfuel
        rw [readAll, hread]
        rfl
      · have hspace := length_lt_of_fileOf h hskipped hend
        have hchunk : chunk ≠ [] := fun heq => (hnil.mp heq).elim hend (by omega)
        have hdata : skipped ++ chunk ≠ [] := fun heq => hchunk (List.append_eq_nil_iff.mp heq).2
        rw [hrest, ← List.append_assoc] at h
        have hsplit : (scan env [] (skipped ++ chunk) : Scanned ε) = _ ∨ _ := scan_fileOf h
        rcases hsplit with hscan | ⟨done, left, text, rfl, hleft, hscan⟩
        · refine ⟨1, fun fuel hfuel => ?_⟩
          obtain ⟨fuel, rfl⟩ := Nat.exists_eq_add_of_le' hfuel
          rw [readAll, hread]
          simp only [hscan]
        · have hlt : reader'.rest.length < n := by
            rw [← hlen, hrest, List.length_append]
            have hpos := List.length_pos_iff.mpr hchunk
            omega
          obtain ⟨enough, hall⟩ := ih _ hlt hreader'
            (not_mem_of_scan List.not_mem_nil hscan) hleft rfl
          refine ⟨enough + 1, fun fuel hfuel => ?_⟩
          obtain ⟨fuel, rfl⟩ := Nat.exists_eq_add_of_le' (Nat.le_trans (Nat.le_add_left 1 _) hfuel)
          rw [readAll, hread]
          simp only [hscan, if_neg hdata]
          rw [hall fuel (by omega), List.foldl_append]

theorem foldl_addTo (vars : List Variable) :
    vars.foldl (fun env v => v.addTo env) empty = ofVariables vars := by
  induction vars using List.reverseRecOn with
  | nil => rfl
  | append_singleton vars v ih =>
      rw [List.foldl_append, ih]
      simp only [List.foldl_cons, List.foldl_nil, Variable.addTo, insert, ofVariables,
        List.reverse_append, List.reverse_cons, List.reverse_nil, List.nil_append,
        List.singleton_append, List.find?_cons]
      congr 1
      funext key
      by_cases hkey : key = fromUtf8Lossy v.name
      · simp [hkey]
      · simp [hkey, Ne.symm hkey]

/-- What is kept and has no terminator is looked through for ever, when the file
has ended or the buffer is full. -/
theorem readAll_eq_none {text : List UInt8} {reader : FileReader ε} (hreader : reader.Succeeds)
    (ne_nil : text ≠ []) (htext : 0 ∉ text) (hfull : reader.rest = [] ∨ bufferSize ≤ text.length)
    (fuel : Nat) : readAll fuel env text reader = none := by
  induction fuel generalizing reader with
  | zero => rfl
  | succ fuel ih =>
      obtain ⟨chunk, reader', hread, hrest, -, hnil, hreader'⟩ :=
        FileReader.read_of_succeeds hreader (bufferSize - text.length)
      obtain rfl := hnil.mpr (hfull.imp_right Nat.sub_eq_zero_of_le)
      rw [List.nil_append] at hrest
      have hpending : (scan env [] text : Scanned ε) = .pending env text := scan_of_pending htext
      rw [readAll, hread]
      simp only [List.append_nil, hpending, if_neg ne_nil]
      exact ih hreader' (hrest ▸ hfull)

/-- **The environment is read exactly**, however the file is read. -/
theorem initializeEnv_returns (vars : List Variable) (e : Ending) (sizes : Nat → Nat) :
    Returns (FileReader.ofSizes (fileOf vars e) sizes : FileReader ε)
      (e.result (ofVariables vars)) := by
  rw [← foldl_addTo]
  exact readAll_fileOf (FileReader.succeeds_ofSizes _ _) List.not_mem_nil rfl

/-- The empty string is no variable, but it is no error. -/
theorem not_error_of_empty_string :
    ¬ ∀ (strings : List (List UInt8)) (sizes : Nat → Nat),
      (∀ s ∈ strings, 0 ∉ s) → (∃ s ∈ strings, 61 ∉ s) →
      ∃ e, Returns (FileReader.ofSizes (strings.flatMap (· ++ [0])) sizes : FileReader Empty)
        (.error e) := by
  intro h
  obtain ⟨e, enough, hall⟩ := h [[]] (fun _ => 0) (by simp) ⟨[], by simp, List.not_mem_nil⟩
  have hok : initializeEnv (enough + 1) (.ok (FileReader.ofSizes [0] fun _ => 0)) =
      some (.ok empty : Except (EnvError Empty) Env) := rfl
  have herror := hok.symm.trans (hall (enough + 1) (Nat.le_succ enough))
  cases herror

end

end Env

end Libaflmm
