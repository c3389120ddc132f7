import Libaflmm.DrCov

/-!
# The lines of DrCov files

Every line but those of the modules is read as it was written. Of the path of a
module what is read is the part before a newline, and of this the part before
the separator of the fields, without the blanks and the quotes around it: the
whole path, when it has none of them.
-/

namespace Libaflmm

namespace DrCov

open Text

/-! ## Entries -/

theorem ofBytes_toBytes (e : DrCovBasicBlockEntry) (rest : List UInt8) :
    ofBytes ((toBytes e ++ rest).take 8) = e := by
  have h4 := length_leBytes 4 e.start.toNat
  have h2 := length_leBytes 2 e.size.toNat
  have h2' := length_leBytes 2 e.modId.toNat
  have hlen : (toBytes e).length = 8 := by
    rw [toBytes, List.length_append, List.length_append, h4, h2, h2']
  have htake : (toBytes e ++ rest).take 8 = toBytes e := by
    rw [List.take_append_of_le_length (by omega), List.take_of_length_le (by omega)]
  have hstart : (toBytes e).take 4 = leBytes 4 e.start.toNat := by
    rw [toBytes, List.append_assoc, List.take_left' h4]
  have hdrop4 : (toBytes e).drop 4 = leBytes 2 e.size.toNat ++ leBytes 2 e.modId.toNat := by
    rw [toBytes, List.append_assoc, List.drop_left' h4]
  have hdrop6 : (toBytes e).drop 6 = leBytes 2 e.modId.toNat := by
    rw [toBytes, List.drop_left' (by rw [List.length_append, h4, h2])]
  rw [htake, ofBytes, hstart, hdrop4, hdrop6, List.take_left' h2,
    List.take_of_length_le (Nat.le_of_eq h2'), ofLeBytes_leBytes (UInt32.toNat_lt _),
    ofLeBytes_leBytes (UInt16.toNat_lt _), ofLeBytes_leBytes (UInt16.toNat_lt _),
    UInt32.ofNat_toNat, UInt16.ofNat_toNat, UInt16.ofNat_toNat]

theorem length_toBytes (e : DrCovBasicBlockEntry) : (toBytes e).length = 8 := by
  rw [toBytes, List.length_append, List.length_append, length_leBytes, length_leBytes,
    length_leBytes]

theorem run_readEntries (es : List DrCovBasicBlockEntry) :
    (readEntries es.length).run (es.flatMap toBytes) = some (.ok es, []) := by
  induction es with
  | nil => rfl
  | cons e es ih =>
      have hexact : (readExact 8).run (toBytes e ++ es.flatMap toBytes) =
          some (.ok ((toBytes e ++ es.flatMap toBytes).take 8), es.flatMap toBytes) := by
        have hlen := length_toBytes e
        rw [readExact, Call.run_ofFn, if_pos (by rw [List.length_append]; omega),
          List.drop_left' hlen]
      rw [List.flatMap_cons, List.length_cons, readEntries, Call.run_bind_of_ok hexact,
        Call.run_bind_of_ok ih, ofBytes_toBytes]
      rfl

/-! ## Lines -/

theorem run_readLine {line : Text} (h : '\n' ∉ line) (rest : List UInt8) :
    readLine.run (encode (line ++ ['\n']) ++ rest) = some (.ok (line ++ ['\n']), rest) := by
  rw [readLine, Call.run_ofFn, splitLine_encode h]
  dsimp only
  rw [decode_encode]

theorem newline_not_mem_of_isPlain {text : Text} (h : ∀ c ∈ text, IsPlain c) : '\n' ∉ text :=
  fun hmem => (h _ hmem).2.2.1 rfl

theorem blank_not_mem_of_isPlain {text : Text} (h : ∀ c ∈ text, IsPlain c) : ' ' ∉ text :=
  fun hmem => absurd (h _ hmem).2.2.2 (by decide)

theorem trim_line {text : Text} (h : ∀ c ∈ text, IsPlain c) : trim (text ++ ['\n']) = text := by
  rw [trim_append_whitespace (by decide), trim_of_forall fun c hc => (h c hc).2.2.2]

theorem moduleCount_line {n : Nat} (hn : n < 2 ^ 64) :
    moduleCount (moduleTable ++ dec n ++ ['\n']) = .ok n := by
  have hinfix : ¬ moduleTable <:+: dec n ++ ['\n'] := by
    intro hinfix
    have hblank : ' ' ∈ dec n ++ ['\n'] := hinfix.subset (by decide)
    rcases List.mem_append.mp hblank with hmem | hmem
    · exact blank_not_mem_of_isPlain isPlain_dec hmem
    · exact absurd (List.mem_singleton.mp hmem) (by decide)
  have hsplit : split moduleTable (moduleTable ++ dec n ++ ['\n']) = [[], dec n ++ ['\n']] := by
    have happend := split_behind (c := 'M') List.not_mem_nil moduleTable.tail (dec n ++ ['\n'])
    rw [List.append_assoc]
    exact happend.trans (congrArg _ (split_eq_self hinfix))
  rw [moduleCount, hsplit]
  simp only [List.getElem?_cons_succ, List.getElem?_cons_zero, trim_line isPlain_dec,
    parseNat_dec hn]

theorem split_blanks {a b c d : Text} (ha : ' ' ∉ a) (hb : ' ' ∉ b) (hc : ' ' ∉ c)
    (hd : ' ' ∉ d) :
    split [' '] (a ++ ([' '] ++ (b ++ ([' '] ++ (c ++ ([' '] ++ d)))))) = [a, b, c, d] := by
  have hlast : ¬ [' '] <:+: d := fun hpiece => hd (hpiece.subset List.mem_cons_self)
  rw [split_behind ha, split_behind hb, split_behind hc, split_eq_self hlast]

theorem bbCount_line {n : Nat} (hn : n < 2 ^ 64) :
    bbCount (bbTable ++ (dec n ++ " bbs".toList) ++ ['\n']) = .ok n := by
  have hline : bbTable ++ (dec n ++ " bbs".toList) ++ ['\n'] = "BB".toList ++ ([' '] ++
      ("Table:".toList ++ ([' '] ++ (dec n ++ ([' '] ++ "bbs\n".toList))))) := by
    rw [List.append_assoc, List.append_assoc]
    rfl
  rw [bbCount, hline, split_blanks (by decide) (by decide) (blank_not_mem_of_isPlain isPlain_dec)
    (by decide)]
  simp only [List.getElem?_cons_succ, List.getElem?_cons_zero, parseNat_dec hn]

theorem run_require {condition : Bool} (h : condition = true) (e : DrCovError)
    (s : List UInt8) : (require condition e).run s = some (.ok (), s) := by
  rw [require, if_pos h]
  rfl

theorem linesOf_cons_append (line : Text) (lines : List Text) (rest : List UInt8) :
    linesOf (line :: lines) ++ rest = encode (line ++ ['\n']) ++ (linesOf lines ++ rest) :=
  List.append_assoc _ _ _

/-- The lines before those of the modules. -/
theorem run_readModuleTable {n : Nat} (hn : n < 2 ^ 64) (rest : List UInt8) :
    readModuleTable.run (linesOf [drcovVersion, drcovFlavor ++ " libafl".toList,
      moduleTable ++ dec n, columns] ++ rest) = some (.ok n, rest) := by
  have hcount : '\n' ∉ moduleTable ++ dec n := by
    rw [List.mem_append]
    exact not_or.mpr ⟨by decide, newline_not_mem_of_isPlain isPlain_dec⟩
  have hflavor : (skipFlavor (drcovFlavor ++ " libafl".toList ++ ['\n'])).run
      (encode (moduleTable ++ dec n ++ ['\n']) ++ (encode (columns ++ ['\n']) ++ rest)) =
        some (.ok (moduleTable ++ dec n ++ ['\n']), encode (columns ++ ['\n']) ++ rest) := by
    rw [skipFlavor, if_pos (by decide)]
    exact run_readLine hcount _
  have hmodules : (Call.ofResult (moduleCount (moduleTable ++ dec n ++ ['\n'])) :
      FileCall Nat).run (encode (columns ++ ['\n']) ++ rest) =
        some (.ok n, encode (columns ++ ['\n']) ++ rest) := by
    rw [moduleCount_line hn]
    rfl
  have hnil : linesOf [] ++ rest = rest := rfl
  rw [linesOf_cons_append, linesOf_cons_append, linesOf_cons_append, linesOf_cons_append, hnil]
  rw [readModuleTable, Call.run_bind_of_ok (run_readLine (by decide) _),
    Call.run_bind_of_ok (run_require (by decide) _ _),
    Call.run_bind_of_ok (run_readLine (by decide) _), Call.run_bind_of_ok hflavor,
    Call.run_bind_of_ok hmodules, Call.run_bind_of_ok (run_readLine (by decide) _),
    Call.run_bind_of_ok (run_require (by decide) _ _)]
  rfl

/-- The lines behind those of the modules. -/
theorem run_readBasicBlocks {es : List DrCovBasicBlockEntry} (hn : es.length < 2 ^ 64) :
    readBasicBlocks.run (linesOf [bbTable ++ (dec es.length ++ " bbs".toList)] ++
      es.flatMap toBytes) = some (.ok es, []) := by
  have hline : '\n' ∉ bbTable ++ (dec es.length ++ " bbs".toList) := by
    rw [List.mem_append, List.mem_append]
    exact not_or.mpr ⟨by decide, not_or.mpr ⟨newline_not_mem_of_isPlain isPlain_dec, by decide⟩⟩
  have hprefix : bbTable.isPrefixOf (bbTable ++ (dec es.length ++ " bbs".toList) ++ ['\n']) =
      true := by
    rw [List.isPrefixOf_iff_prefix, List.append_assoc]
    exact List.prefix_append _ _
  have hcount : (Call.ofResult (bbCount (bbTable ++ (dec es.length ++ " bbs".toList) ++ ['\n'])) :
      FileCall Nat).run (es.flatMap toBytes) = some (.ok es.length, es.flatMap toBytes) := by
    rw [bbCount_line hn]
    rfl
  rw [readBasicBlocks, linesOf_cons_append, Call.run_bind_of_ok (run_readLine hline _),
    Call.run_bind_of_ok (run_require hprefix _ _)]
  exact (Call.run_bind_of_ok hcount).trans (run_readEntries es)

/-! ## The lines of the modules -/

/-- The fields of a module before the path. -/
def fieldsOf (r : ModuleRange) : List Text :=
  [decPadded 3 r.id.toNat, "0x".toList ++ hex r.start, "0x".toList ++ hex r.stop,
    "0x".toList ++ hex 0, "0x".toList ++ hex 0, "0x".toList ++ hex 0]

def entryOf (r : ModuleRange) (path : Text) : DrCovModuleEntry :=
  ⟨r.id, r.start, r.stop, 0, 0, 0, path⟩

/-- The line of a module up to the path. -/
def beforePath (r : ModuleRange) : Text := (fieldsOf r).flatMap fun field => field ++ ", ".toList

theorem toModuleLine_entryOf (r : ModuleRange) (path : Text) :
    toModuleLine (entryOf r path) = beforePath r ++ path := by
  simp [toModuleLine, entryOf, beforePath, fieldsOf]

theorem isPlain_of_mem_fieldsOf {r : ModuleRange} {field : Text} (h : field ∈ fieldsOf r) :
    ∀ c ∈ field, IsPlain c := by
  have hzero : IsPlain '0' := by
    unfold IsPlain
    decide
  have hx : IsPlain 'x' := by
    unfold IsPlain
    decide
  have hprefix : ∀ c ∈ "0x".toList, IsPlain c :=
    List.forall_mem_cons.mpr ⟨hzero, List.forall_mem_singleton.mpr hx⟩
  have hhex : ∀ n, ∀ c ∈ "0x".toList ++ hex n, IsPlain c := by
    intro n c hc
    rcases List.mem_append.mp hc with hc | hc
    · exact hprefix c hc
    · exact isPlain_hex c hc
  simp only [fieldsOf, List.mem_cons, List.not_mem_nil, or_false] at h
  rcases h with rfl | rfl | rfl | rfl | rfl | rfl
  · exact isPlain_decPadded
  · exact hhex _
  · exact hhex _
  · exact hhex _
  · exact hhex _
  · exact hhex _

theorem newline_not_mem_beforePath (r : ModuleRange) : '\n' ∉ beforePath r := by
  rw [beforePath, List.mem_flatMap]
  rintro ⟨field, hfield, hmem⟩
  rcases List.mem_append.mp hmem with hmem | hmem
  · exact newline_not_mem_of_isPlain (isPlain_of_mem_fieldsOf hfield) hmem
  · exact absurd hmem (by decide)

/-- Fields without a comma are the first pieces of the line. -/
theorem split_fields {fields : List Text} (h : ∀ field ∈ fields, ',' ∉ field) (text : Text) :
    split ", ".toList ((fields.flatMap fun field => field ++ ", ".toList) ++ text) =
      fields ++ split ", ".toList text := by
  induction fields with
  | nil => rfl
  | cons field fields ih =>
      rw [List.forall_mem_cons] at h
      rw [List.flatMap_cons, List.append_assoc, List.append_assoc, List.cons_append, ← ih h.2]
      exact split_behind h.1 [' '] _

theorem parseHex_hex {n : Nat} (h : n < 2 ^ 64) :
    parseHex ("0x".toList ++ hex n) = some (some n) := by
  have hcut : cutPrefix ("0x".toList ++ hex n) = some (hex n) := rfl
  rw [parseHex, hcut, Option.map_some, parseNat_hex h]

theorem run_nextField {α : Type} {header : Text} {x : String} {parse : Text → Option (Option α)}
    {field : Text} {a : α} (h : parse field = some (some a)) (fields : List Text) :
    (nextField header x parse).run (field :: fields) = some (.ok a, fields) := by
  simp [nextField, h]

/-- A module without its path is read as it was written. -/
theorem run_parseModule {r : ModuleRange} (hstart : r.start < 2 ^ 64) (hstop : r.stop < 2 ^ 64)
    (header piece : Text) (pieces : List Text) :
    (parseModule header).run (fieldsOf r ++ piece :: pieces) =
      (parsePath piece).map fun path => (.ok (entryOf r path), pieces) := by
  have hid : some (parseNat 10 (2 ^ 16) (decPadded 3 r.id.toNat)) = some (some r.id.toNat) := by
    rw [parseNat_decPadded (UInt16.toNat_lt _)]
  have hzero : parseHex ("0x".toList ++ hex 0) = some (some 0) := parseHex_hex (Nat.two_pow_pos 64)
  rw [fieldsOf, parseModule]
  simp only [List.cons_append, List.nil_append]
  rw [Call.run_bind_of_ok (run_nextField hid _),
    Call.run_bind_of_ok (run_nextField (parseHex_hex hstart) _),
    Call.run_bind_of_ok (run_nextField (parseHex_hex hstop) _),
    Call.run_bind_of_ok (run_nextField hzero _), Call.run_bind_of_ok (run_nextField hzero _),
    Call.run_bind_of_ok (run_nextField hzero _), Call.run_bind]
  cases hpath : parsePath piece with
  | none => simp [nextField, hpath]
  | some path => simp [nextField, hpath, entryOf]

/-- The first field of the text. -/
def firstPiece (text : Text) : Text := (split ", ".toList text).headD []

theorem split_ne_nil (separator text : Text) : split separator text ≠ [] := by
  suffices hskip : ∀ skip, splitSkip separator skip text ≠ [] from hskip 0
  induction text with
  | nil =>
      intro skip
      cases skip with
      | zero => exact List.cons_ne_nil _ _
      | succ skip => exact List.cons_ne_nil _ _
  | cons c text ih =>
      intro skip
      cases skip with
      | succ skip => exact ih skip
      | zero =>
          rw [splitSkip]
          split
          · exact List.cons_ne_nil _ _
          · obtain ⟨piece, pieces, hpieces⟩ := List.exists_cons_of_ne_nil (ih 0)
            rw [hpieces]
            exact List.cons_ne_nil _ _

/-- **A module**, of whose path only the part before a newline is read. -/
theorem run_readModule {r : ModuleRange} (hstart : r.start < 2 ^ 64) (hstop : r.stop < 2 ^ 64)
    {path : Text} (hpath : '\n' ∉ path) (rest : List UInt8) :
    readModule.run (encode (beforePath r ++ path ++ ['\n']) ++ rest) =
      (parsePath (firstPiece (path ++ ['\n']))).map fun path' =>
        (.ok (entryOf r path'), rest) := by
  have hline : '\n' ∉ beforePath r ++ path := by
    rw [List.mem_append]
    exact not_or.mpr ⟨newline_not_mem_beforePath r, hpath⟩
  have hcomma : ∀ field ∈ fieldsOf r, ',' ∉ field :=
    fun field hfield hmem => (isPlain_of_mem_fieldsOf hfield _ hmem).2.1 rfl
  have hsplit : split ", ".toList (beforePath r ++ path ++ ['\n']) =
      fieldsOf r ++ split ", ".toList (path ++ ['\n']) := by
    rw [List.append_assoc]
    exact split_fields hcomma _
  obtain ⟨piece, pieces, hpieces⟩ :=
    List.exists_cons_of_ne_nil (split_ne_nil ", ".toList (path ++ ['\n']))
  rw [readModule, Call.run_bind_of_ok (run_readLine hline rest), Call.run_on, hsplit, firstPiece,
    hpieces, run_parseModule hstart hstop, Option.map_map]
  rfl

end DrCov

end Libaflmm
