import Libaflmm.RedqueenEvents

/-!
# The results of redqueen

After an execution the observer reads the file that QEMU wrote, and adds the
values of its lines to the metadata. Nothing takes the values of earlier
executions out of it.
-/

namespace Libaflmm

open Text

namespace Redqueen

/-- A carriage return in front of a newline belongs to it. -/
def stripReturn (line : Text) : Text := if line.getLast? = some '\r' then line.dropLast else line

/-- `str::lines` -/
def lines (data : Text) : List Text :=
  let pieces := data.splitOn '\n'
  pieces.dropLast.map stripReturn ++ pieces.getLast?.toList.filter (!·.isEmpty)

def parseRedqueenData (digits : DecimalDigits) (data : Text) : List RedqueenEvent :=
  (lines data).filterMap fun line => (RedqueenEvent.new digits line).toOption

structure NyxCmpObserver where
  name : Text
  path : Text
  addMeta : Bool

structure NyxCmpState where
  cmplogEnabled : UInt8
  list : List CmpValues

variable {E : Type}

namespace NyxCmpObserver

def preExec (s : NyxCmpState) : NyxCmpState := { s with cmplogEnabled := 1 }

/-- `readToString` is what the files have then. -/
def postExec (digits : DecimalDigits) (self : NyxCmpObserver)
    (readToString : Text → Except E Text) (s : NyxCmpState) : Except E Unit × NyxCmpState :=
  let s := { s with cmplogEnabled := 0 }
  if self.addMeta then
    match readToString self.path with
    | .ok data =>
      let rqData := parseRedqueenData digits data
      (.ok (), { s with list := s.list ++ rqData.filterMap fun event => event.tryInto.toOption })
    | .error e => (.error e, s)
  else (.ok (), s)

/-- The state after some executions, of which each leaves its files. -/
def executions (digits : DecimalDigits) (self : NyxCmpObserver)
    (files : List (Text → Except E Text)) : NyxCmpState :=
  files.foldl (fun s readToString => (self.postExec digits readToString (preExec s)).2) ⟨0, []⟩

end NyxCmpObserver

/-! ## What should be read -/

/-- A comparison, with operands of its width. -/
structure CmpEvent where
  addr : Nat
  width : Width
  lhs : Nat
  rhs : Nat
  imm : Bool
  addr_lt : addr < 2 ^ 64
  lhs_lt : lhs < 2 ^ width.bits
  rhs_lt : rhs < 2 ^ width.bits

def CmpEvent.value (e : CmpEvent) : CmpValues := e.width.value e.lhs e.rhs e.imm

def asciiDigits : DecimalDigits where
  isDecimal := Char.isDigit
  ascii _ h := h
  notBlank c h := by
    have hrange : 48 ≤ c.toNat ∧ c.toNat ≤ 57 := by
      simpa [Char.isDigit, UInt32.le_iff_toNat_le] using h
    simp only [isWhitespace, Bool.or_eq_false_iff, Bool.and_eq_false_iff, decide_eq_false_iff_not]
    omega
  notSign := rfl

/-- The fields are those of the event, each operand with all digits of its width,
and there is nothing else in the line. -/
structure PrintsAs (e : CmpEvent) (f : Fields) (flag line : Text) : Prop where
  formed : f.Formed asciiDigits
  bpType : f.bpType = "CMP".toList
  addr : digitsValue 16 0 f.addr = e.addr
  size : digitsValue 10 0 f.size = e.width.bits
  lhs_length : f.lhs.length = e.width.digits
  lhs : digitsValue 16 0 f.lhs = e.lhs
  rhs_length : f.rhs.length = e.width.digits
  rhs : digitsValue 16 0 f.rhs = e.rhs
  flagged : if e.imm then ∃ c, isWhitespace c = true ∧ flag = c :: "IMM".toList else flag = []
  line : line = f.text ++ flag

def Prints (e : CmpEvent) (line : Text) : Prop := ∃ f flag, PrintsAs e f flag line

/-- The values of the events among the lines. -/
inductive Reads : List Text → List CmpValues → Prop
  | nil : Reads [] []
  | event {line : Text} {lines : List Text} {vs : List CmpValues} {e : CmpEvent} : Prints e line →
      Reads lines vs → Reads (line :: lines) (e.value :: vs)
  | other {line : Text} {lines : List Text} {vs : List CmpValues} : (∀ e, ¬ Prints e line) →
      Reads lines vs → Reads (line :: lines) vs

/-- The metadata is what should be read after every execution whose file is read. -/
def ReadsResults (digits : DecimalDigits) (self : NyxCmpObserver)
    (files : List (Text → Except E Text)) : Prop :=
  ∀ pre readToString data, pre ++ [readToString] <+: files → readToString self.path = .ok data →
    Reads (lines data) (self.executions digits (pre ++ [readToString])).list

/-- A line that prints no event and has a value. -/
def Strays (digits : DecimalDigits) (line : Text) : Prop :=
  (∃ v, Yields digits line v) ∧ ∀ e, ¬ Prints e line

def HasEvents (data : Text) : Prop := ∃ line ∈ lines data, ∃ e, Prints e line

/-- No line strays, and no file is read after one with events. -/
def ReadsOnce (digits : DecimalDigits) (self : NyxCmpObserver)
    (files : List (Text → Except E Text)) : Prop :=
  if self.addMeta then
    (∀ f ∈ files, ∀ data, f self.path = .ok data → ∀ line ∈ lines data, ¬ Strays digits line) ∧
      files.Pairwise fun f f' => ∀ data, f self.path = .ok data → HasEvents data →
        ∀ data', f' self.path ≠ .ok data'
  else ∀ f ∈ files, ∀ data, f self.path = .ok data → ¬ HasEvents data

/-! ## Lines -/

variable {digits : DecimalDigits}

theorem formed_of_ascii {f : Fields} (h : f.Formed asciiDigits) : f.Formed digits :=
  { h with size := ⟨h.size.1, fun c hc => digits.ascii c (h.size.2 c hc)⟩ }

theorem takes_of_length {w : Width} {text : Text} (h : text.length = w.digits) : w.Takes text := by
  cases w with
  | w8 =>
      rw [Width.Takes, h]
      rfl
  | w16 | w32 | w64 => exact h

/-- A printed event is found at the front of its line. -/
theorem yields_of_prints {e : CmpEvent} {line : Text} (h : Prints e line) :
    Yields digits line e.value := by
  obtain ⟨f, flag, h⟩ := h
  have hflag : EndsOperand flag ∧ isFlagged flag = e.imm := by
    have hflagged := h.flagged
    split at hflagged
    · next himm =>
        obtain ⟨c, hc, rfl⟩ := hflagged
        refine ⟨?_, hc.trans himm.symm⟩
        intro d hd
        cases hd
        exact not_isHex_of_isWhitespace hc
    · next himm =>
        subst hflagged
        exact ⟨nofun, (Bool.eq_false_iff.mpr himm).symm⟩
  refine ⟨f, flag, e.width, ⟨formed_of_ascii h.formed, hflag.1, [], h.line, ?_⟩, h.bpType, ?_,
    h.formed.size.2, h.size, takes_of_length h.lhs_length, takes_of_length h.rhs_length, ?_⟩
  · exact fun pre₁ pre₂ heq hne => absurd (List.append_eq_nil_iff.mp heq.symm).2 hne
  · exact h.addr ▸ e.addr_lt
  · rw [List.take_of_length_le (Nat.le_of_eq h.lhs_length),
      List.take_of_length_le (Nat.le_of_eq h.rhs_length), h.lhs, h.rhs, hflag.2]
    rfl

theorem lineValue_of_prints {e : CmpEvent} {line : Text} (h : Prints e line) :
    lineValue digits line = some e.value := lineValue_eq_some.mpr (yields_of_prints h)

theorem lineValue_eq_none {line : Text} (hstray : ¬ Strays digits line)
    (hprints : ∀ e, ¬ Prints e line) : lineValue digits line = none := by
  cases hvalue : lineValue digits line with
  | none => rfl
  | some v => exact absurd ⟨⟨v, lineValue_eq_some.mp hvalue⟩, hprints⟩ hstray

theorem Reads.length_le {ls : List Text} {vs : List CmpValues} (h : Reads ls vs) :
    vs.length ≤ (ls.filterMap (lineValue digits)).length := by
  induction h with
  | nil => exact Nat.le_refl 0
  | event hprints _ ih =>
      rw [List.filterMap_cons_some (lineValue_of_prints hprints), List.length_cons,
        List.length_cons]
      exact Nat.succ_le_succ ih
  | @other line ls vs _ _ ih =>
      rw [List.filterMap_cons]
      split
      · exact ih
      · rw [List.length_cons]
        omega

theorem Reads.not_strays {ls : List Text} {vs : List CmpValues} (h : Reads ls vs)
    (hlen : (ls.filterMap (lineValue digits)).length ≤ vs.length) :
    ∀ line ∈ ls, ¬ Strays digits line := by
  induction h with
  | nil => exact nofun
  | event hprints _ ih =>
      rw [List.filterMap_cons_some (lineValue_of_prints hprints), List.length_cons,
        List.length_cons] at hlen
      exact List.forall_mem_cons.mpr
        ⟨fun hstray => hstray.2 _ hprints, ih (Nat.le_of_succ_le_succ hlen)⟩
  | @other line ls vs _ hreads ih =>
      rw [List.filterMap_cons] at hlen
      cases hvalue : lineValue digits line with
      | none =>
          rw [hvalue] at hlen
          refine List.forall_mem_cons.mpr ⟨?_, ih hlen⟩
          rintro ⟨⟨v, hv⟩, -⟩
          rw [lineValue_eq_some.mpr hv] at hvalue
          cases hvalue
      | some v =>
          rw [hvalue, List.length_cons] at hlen
          have hle : vs.length ≤ (ls.filterMap (lineValue digits)).length := hreads.length_le
          omega

theorem reads_of_not_strays {ls : List Text} (h : ∀ line ∈ ls, ¬ Strays digits line) :
    Reads ls (ls.filterMap (lineValue digits)) := by
  induction ls with
  | nil => exact .nil
  | cons line ls ih =>
      rw [List.forall_mem_cons] at h
      by_cases hprints : ∃ e, Prints e line
      · obtain ⟨e, he⟩ := hprints
        rw [List.filterMap_cons_some (lineValue_of_prints he)]
        exact .event he (ih h.2)
      · rw [not_exists] at hprints
        rw [List.filterMap_cons_none (lineValue_eq_none h.1 hprints)]
        exact .other hprints (ih h.2)

/-- What was there before is not among the values of the lines. -/
theorem reads_append_iff {before : List CmpValues} {ls : List Text} :
    Reads ls (before ++ ls.filterMap (lineValue digits)) ↔
      before = [] ∧ ∀ line ∈ ls, ¬ Strays digits line := by
  constructor
  · intro h
    have hle : (before ++ ls.filterMap (lineValue digits)).length ≤
        (ls.filterMap (lineValue digits)).length := h.length_le
    rw [List.length_append] at hle
    have hnil : before = [] := List.eq_nil_of_length_eq_zero (by omega)
    subst hnil
    exact ⟨rfl, h.not_strays (Nat.le_refl _)⟩
  · rintro ⟨rfl, h⟩
    exact reads_of_not_strays h

/-! ## Executions -/

theorem values_parseRedqueenData (data : Text) :
    (parseRedqueenData digits data).filterMap (fun event => event.tryInto.toOption) =
      (lines data).filterMap (lineValue digits) :=
  List.filterMap_filterMap

variable {self : NyxCmpObserver} {files : List (Text → Except E Text)}

theorem executions_concat (readToString : Text → Except E Text) :
    (self.executions digits (files ++ [readToString])).list =
      (self.executions digits files).list ++
        if self.addMeta then
          (readToString self.path).toOption.elim [] fun data =>
            (lines data).filterMap (lineValue digits)
        else [] := by
  rw [NyxCmpObserver.executions, List.foldl_concat, ← NyxCmpObserver.executions,
    NyxCmpObserver.postExec]
  cases self.addMeta with
  | false => simp [NyxCmpObserver.preExec]
  | true =>
      cases readToString self.path with
      | error e => simp [NyxCmpObserver.preExec, Except.toOption]
      | ok data => exact congrArg (_ ++ ·) (values_parseRedqueenData data)

/-- One more execution, whose file is read into what is there already. -/
theorem readsResults_concat {readToString : Text → Except E Text} :
    ReadsResults digits self (files ++ [readToString]) ↔ ReadsResults digits self files ∧
      ∀ data, readToString self.path = .ok data →
        Reads (lines data) (self.executions digits (files ++ [readToString])).list := by
  constructor
  · exact fun h => ⟨fun pre f data hp => h pre f data (hp.trans (List.prefix_append _ _)),
      fun data => h files readToString data (List.prefix_refl _)⟩
  · rintro ⟨hpre, hlast⟩ pre f data hp hdata
    rcases List.prefix_concat_iff.mp hp with heq | hp
    · obtain ⟨rfl, hf⟩ := List.append_inj' heq rfl
      obtain rfl : f = readToString := by simpa using hf
      exact hlast data hdata
    · exact hpre pre f data hp hdata

theorem values_eq_nil_iff {data : Text} (h : ∀ line ∈ lines data, ¬ Strays digits line) :
    (lines data).filterMap (lineValue digits) = [] ↔ ¬ HasEvents data := by
  rw [List.filterMap_eq_nil_iff]
  constructor
  · rintro hnone ⟨line, hline, e, he⟩
    have hvalue := hnone line hline
    rw [lineValue_of_prints he] at hvalue
    cases hvalue
  · exact fun hnone line hline => lineValue_eq_none (h line hline) fun e he =>
      hnone ⟨line, hline, e, he⟩

/-- Nothing is left in the metadata if nothing with events was read. -/
theorem list_executions_eq_nil_iff (hmeta : self.addMeta = true)
    (h : ∀ f ∈ files, ∀ data, f self.path = .ok data → ∀ line ∈ lines data, ¬ Strays digits line) :
    (self.executions digits files).list = [] ↔
      ∀ f ∈ files, ∀ data, f self.path = .ok data → ¬ HasEvents data := by
  induction files using List.reverseRecOn with
  | nil => exact iff_of_true rfl nofun
  | append_singleton files f ih =>
      rw [List.forall_mem_append] at h
      rw [executions_concat, if_pos hmeta, List.append_eq_nil_iff, ih h.1, List.forall_mem_append,
        List.forall_mem_singleton]
      refine and_congr_right fun _ => ?_
      cases hdata : f self.path with
      | error e => exact iff_of_true rfl nofun
      | ok data =>
          have hlines := List.forall_mem_singleton.mp h.2 data hdata
          refine (values_eq_nil_iff hlines).trans ⟨fun hnot data' heq => ?_, fun h => h data rfl⟩
          cases heq
          exact hnot

theorem list_executions_of_not_addMeta (hmeta : self.addMeta = false) :
    (self.executions digits files).list = [] := by
  induction files using List.reverseRecOn with
  | nil => rfl
  | append_singleton files f ih =>
      rw [executions_concat, ih, hmeta]
      rfl

theorem reads_nil_iff {data : Text} : Reads (lines data) [] ↔ ¬ HasEvents data := by
  unfold HasEvents
  generalize lines data = ls
  constructor
  · rintro h ⟨line, hline, e, he⟩
    generalize hvs : ([] : List CmpValues) = vs at h
    induction h with
    | nil => cases hline
    | event => cases hvs
    | other hother _ ih =>
        rcases List.mem_cons.mp hline with rfl | hline
        · exact hother e he
        · exact ih hline hvs
  · intro h
    induction ls with
    | nil => exact .nil
    | cons line ls ih =>
        refine .other (fun e he => h ⟨line, List.mem_cons_self, e, he⟩) (ih ?_)
        rintro ⟨line', hline', he⟩
        exact h ⟨line', List.mem_cons_of_mem line hline', he⟩

theorem readsOnce_concat (hmeta : self.addMeta = true) {f : Text → Except E Text} :
    ReadsOnce digits self (files ++ [f]) ↔ ReadsOnce digits self files ∧
      ∀ data, f self.path = .ok data →
        (∀ f' ∈ files, ∀ data', f' self.path = .ok data' → ¬ HasEvents data') ∧
          ∀ line ∈ lines data, ¬ Strays digits line := by
  simp only [ReadsOnce, if_pos hmeta, List.forall_mem_append, List.forall_mem_singleton,
    List.pairwise_append]
  constructor
  · rintro ⟨⟨hlines, hlast⟩, hpairs, -, hafter⟩
    refine ⟨⟨hlines, hpairs⟩, fun data hdata => ⟨?_, hlast data hdata⟩⟩
    exact fun f' hf' data' hdata' hevents => hafter f' hf' data' hdata' hevents data hdata
  · rintro ⟨⟨hlines, hpairs⟩, hlast⟩
    refine ⟨⟨hlines, fun data hdata => (hlast data hdata).2⟩, hpairs,
      List.pairwise_singleton _ _, ?_⟩
    intro f' hf' data' hdata' hevents data hdata
    exact (hlast data hdata).1 f' hf' data' hdata' hevents

/-- **What redqueen wrote is read** after every execution if and only if no line
strays and no file is read after one with events; without metadata to add, if
and only if there are no events. -/
theorem readsResults_iff (digits : DecimalDigits) (self : NyxCmpObserver)
    (files : List (Text → Except E Text)) :
    ReadsResults digits self files ↔ ReadsOnce digits self files := by
  cases hmeta : self.addMeta with
  | true =>
      induction files using List.reverseRecOn with
      | nil =>
          refine iff_of_true (fun pre f data hp => ?_) ?_
          · exact absurd (List.prefix_nil.mp hp) (by simp)
          · rw [ReadsOnce, if_pos hmeta]
            exact ⟨nofun, .nil⟩
      | append_singleton files f ih =>
          rw [readsResults_concat, readsOnce_concat hmeta, ih]
          refine and_congr_right fun honce => forall₂_congr fun data hdata => ?_
          rw [ReadsOnce, if_pos hmeta] at honce
          rw [executions_concat, if_pos hmeta, hdata, ← list_executions_eq_nil_iff hmeta honce.1]
          exact reads_append_iff
  | false =>
      have honce : ReadsOnce digits self files ↔
          ∀ f ∈ files, ∀ data, f self.path = .ok data → ¬ HasEvents data := by
        rw [ReadsOnce, hmeta]
        rfl
      rw [honce]
      clear honce
      induction files using List.reverseRecOn with
      | nil =>
          refine iff_of_true (fun pre f data hp => ?_) nofun
          exact absurd (List.prefix_nil.mp hp) (by simp)
      | append_singleton files f ih =>
          rw [List.forall_mem_append, List.forall_mem_singleton, readsResults_concat,
            list_executions_of_not_addMeta hmeta]
          exact and_congr ih (forall₂_congr fun data _ => reads_nil_iff)

/-! ## An event that stays -/

theorem prints_cmp8 : Prints ⟨0x1000, .w8, 1, 2, false, by decide, by decide, by decide⟩
    "1000 CMP 8 01-02".toList := by
  refine ⟨⟨"1000".toList, " ".toList, "CMP".toList, " ".toList, "8".toList, " ".toList,
    "01".toList, "02".toList⟩, [], ?_, rfl, rfl, rfl, rfl, rfl, rfl, rfl, rfl, rfl⟩
  refine ⟨?_, ?_, .inl rfl, ?_, ?_, ?_, ?_, ?_⟩ <;> exact run_of_all (List.cons_ne_nil _ _) rfl

/-- The second execution has no event, and the one of the first is still there. -/
theorem not_readsResults_twice :
    ¬ ReadsResults asciiDigits ⟨"nyx".toList, "results".toList, true⟩
      [fun _ => .ok "1000 CMP 8 01-02".toList, fun _ => (.ok [] : Except Unit Text)] := by
  intro h
  have hreads := h [_] _ [] (List.prefix_refl _) rfl
  rw [executions_concat] at hreads
  have hvalues : Reads (lines []) (_ ++ (lines []).filterMap (lineValue asciiDigits)) := hreads
  obtain ⟨hfirst, -⟩ := reads_append_iff.mp hvalues
  rw [← List.nil_append [_], executions_concat] at hfirst
  have hline := (List.append_eq_nil_iff.mp hfirst).2
  have hvalue := List.filterMap_eq_nil_iff.mp hline "1000 CMP 8 01-02".toList (by decide)
  rw [lineValue_of_prints prints_cmp8] at hvalue
  cases hvalue

end Redqueen

end Libaflmm
