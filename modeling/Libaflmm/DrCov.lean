import Libaflmm.Calls
import Libaflmm.MutationsSafe
import Libaflmm.TextFields

/-!
# DrCov files

A file has lines of text with the modules, and then packed entries for the
basic blocks, which name their module by its id and have an offset in it. What
panics is `none`: an address outside of all modules, a difference or a sum that
overflows, and a slice of text that is too short.

The map of the modules is one of disjoint ranges, of which two that touch have
different values. Files can be written, and memory suffices.
-/

namespace Libaflmm

structure DrCovBasicBlock where
  start : Nat
  stop : Nat
deriving DecidableEq

structure DrCovBasicBlockEntry where
  start : UInt32
  size : UInt16
  modId : UInt16
deriving DecidableEq

structure DrCovModuleEntry where
  id : UInt16
  base : Nat
  stop : Nat
  entry : Nat
  checksum : Nat
  timestamp : Nat
  path : Text
deriving DecidableEq

/-- A range of addresses, and the id and the path it is mapped to. -/
structure ModuleRange where
  start : Nat
  stop : Nat
  id : UInt16
  path : Text
deriving DecidableEq

def ModuleRange.contains (r : ModuleRange) (addr : Nat) : Bool :=
  decide (r.start ≤ addr ∧ addr < r.stop)

/-- `RangeMap<u64, (u16, String)>`; to insert an empty range panics. -/
class RangeMap (M : Type) where
  new : M
  insert : M → ModuleRange → Option M
  iter : M → List ModuleRange
  getKeyValue : M → Nat → Option ModuleRange
  iter_new : iter new = []
  start_lt : ∀ m, ∀ r ∈ iter m, r.start < r.stop
  stop_lt : ∀ m, ∀ r ∈ iter m, r.stop < 2 ^ 64
  sorted : ∀ m, (iter m).Pairwise fun r r' => r.stop ≤ r'.start
  coalesced : ∀ m, (iter m).Pairwise fun r r' =>
    r.stop = r'.start → ¬ (r.id = r'.id ∧ r.path = r'.path)
  getKeyValue_eq : ∀ m addr, getKeyValue m addr = (iter m).find? fun r => r.contains addr
  /-- A range behind all others, which does not touch one with its value. -/
  iter_insert : ∀ m r, r.start < r.stop → r.stop < 2 ^ 64 →
    (∀ r' ∈ iter m, r'.stop ≤ r.start ∧
      (r'.stop = r.start → ¬ (r'.id = r.id ∧ r'.path = r.path))) →
    ∃ m', insert m r = some m' ∧ iter m' = iter m ++ [r]

inductive IoErrorKind
  | invalidData
  | unexpectedEof
deriving DecidableEq

inductive DrCovError
  | os (kind : IoErrorKind)
  | illegalState (msg : Text)
  | illegalArgument (msg : Text)
deriving DecidableEq

structure DrCovReader where
  moduleEntries : List DrCovModuleEntry
  basicBlockEntries : List DrCovBasicBlockEntry
deriving DecidableEq

namespace DrCov

open Text

def checkedSub (a b : Nat) : Option Nat := if b ≤ a then some (a - b) else none

def checkedAdd (a b : Nat) : Option Nat := if a + b < 2 ^ 64 then some (a + b) else none

/-- The entry as it is in memory, on a little endian machine. -/
def toBytes (e : DrCovBasicBlockEntry) : List UInt8 :=
  leBytes 4 e.start.toNat ++ leBytes 2 e.size.toNat ++ leBytes 2 e.modId.toNat

def ofBytes (bytes : List UInt8) : DrCovBasicBlockEntry :=
  ⟨.ofNat (ofLeBytes (bytes.take 4)), .ofNat (ofLeBytes ((bytes.drop 4).take 2)),
    .ofNat (ofLeBytes ((bytes.drop 6).take 2))⟩

/-! ## The writer -/

section

variable {M : Type} [RangeMap M]

def moduleEntries (m : M) : List DrCovModuleEntry :=
  (RangeMap.iter m).map fun r => ⟨r.id, r.start, r.stop, 0, 0, 0, r.path⟩

/-- The differences are cut to the width of the fields. -/
def basicBlockEntry (m : M) (block : DrCovBasicBlock) : Option DrCovBasicBlockEntry := do
  let range ← RangeMap.getKeyValue m block.start
  let start ← checkedSub block.start range.start
  let size ← checkedSub block.stop block.start
  return ⟨.ofNat start, .ofNat size, range.id⟩

def basicBlockEntries (m : M) (blocks : List DrCovBasicBlock) :
    Option (List DrCovBasicBlockEntry) := blocks.mapM (basicBlockEntry m)

def toModuleLine (e : DrCovModuleEntry) : Text :=
  decPadded 3 e.id.toNat ++ (", 0x".toList ++ (hex e.base ++ (", 0x".toList ++ (hex e.stop ++
    (", 0x".toList ++ (hex e.entry ++ (", 0x".toList ++ (hex e.checksum ++ (", 0x".toList ++
      (hex e.timestamp ++ (", ".toList ++ e.path)))))))))))

def drcovVersion : Text := "DRCOV VERSION: 2".toList

def drcovFlavor : Text := "DRCOV FLAVOR:".toList

def moduleTable : Text := "Module Table: version 2, count ".toList

def columns : Text := "Columns: id, base, end, entry, checksum, timestamp, path".toList

def bbTable : Text := "BB Table: ".toList

/-- The lines of the file, without their ends. -/
def headerLines (modules : List DrCovModuleEntry) (blocks : Nat) : List Text :=
  drcovVersion :: (drcovFlavor ++ " libafl".toList) :: (moduleTable ++ dec modules.length) ::
    columns :: (modules.map toModuleLine ++ [bbTable ++ (dec blocks ++ " bbs".toList)])

/-- The bytes of lines. -/
def linesOf (lines : List Text) : List UInt8 := lines.flatMap fun line => encode (line ++ ['\n'])

/-- The file. -/
def write (m : M) (blocks : List DrCovBasicBlock) : Option (List UInt8) := do
  let entries ← basicBlockEntries m blocks
  return linesOf (headerLines (moduleEntries m) blocks.length) ++ entries.flatMap toBytes

end

/-! ## The reader -/

/-- `str::to_uppercase`. Of the characters that are not ASCII only these become
ASCII ones, which alone can be in what the result is compared with; the others
are left as they are. -/
def toUppercaseChar (c : Char) : Text :=
  if c.toNat < 128 then [c.toUpper]
  else match c.toNat with
    | 0xDF => "SS".toList
    | 0x131 => "I".toList
    | 0x17F => "S".toList
    | 0xFB00 => "FF".toList
    | 0xFB01 => "FI".toList
    | 0xFB02 => "FL".toList
    | 0xFB03 => "FFI".toList
    | 0xFB04 => "FFL".toList
    | 0xFB05 => "ST".toList
    | 0xFB06 => "ST".toList
    | _ => [c]

def toUppercase (text : Text) : Text := text.flatMap toUppercaseChar

/-- `&str[2..]`, of bytes. -/
def cutPrefix : Text → Option Text
  | c :: text =>
    if c.utf8Size = 2 then some text
    else match text with
      | d :: text' => if c.utf8Size = 1 ∧ d.utf8Size = 1 then some text' else none
      | [] => none
  | [] => none

/-- `parse_hex_to_u64`, and `parse_hex_to_usize` on a machine with 64 bits. -/
def parseHex (text : Text) : Option (Option Nat) := (cutPrefix text).map (parseNat 16 (2 ^ 64))

def parsePath (text : Text) : Option Text :=
  let s := trim text
  if s.head? = some '"' ∧ s.getLast? = some '"' then
    if 2 ≤ s.length then some s.tail.dropLast else none
  else some s

/-- The next field of a line. -/
def nextField {α : Type} (header : Text) (x : String) (parse : Text → Option (Option α)) :
    Call DrCovError (List Text) α :=
  let err := DrCovError.illegalArgument ("Unexpected module entry while parsing ".toList ++
    (x.toList ++ (" in header: ".toList ++ header)))
  .ofFn fun
    | [] => some (.error err, [])
    | field :: fields => (parse field).map fun
      | some a => (.ok a, fields)
      | none => (.error err, fields)

def parseModule (header : Text) : Call DrCovError (List Text) DrCovModuleEntry := do
  let id ← nextField header "id" fun field => some (parseNat 10 (2 ^ 16) field)
  let base ← nextField header "base" parseHex
  let stop ← nextField header "end" parseHex
  let entry ← nextField header "entry" parseHex
  let checksum ← nextField header "checksum" parseHex
  let timestamp ← nextField header "timestamp" parseHex
  let path ← nextField header "path" fun field => (parsePath field).map some
  return ⟨.ofNat id, base, stop, entry, checksum, timestamp, path⟩

abbrev FileCall (α : Type) := Call DrCovError (List UInt8) α

def readLine : FileCall Text := .ofFn fun bytes =>
  match decode (splitLine bytes).1 with
  | some line => some (.ok line, (splitLine bytes).2)
  | none => some (.error (.os .invalidData), (splitLine bytes).2)

def readExact (n : Nat) : FileCall (List UInt8) := .ofFn fun bytes =>
  if n ≤ bytes.length then some (.ok (bytes.take n), bytes.drop n)
  else some (.error (.os .unexpectedEof), [])

def require (condition : Bool) (e : DrCovError) : FileCall Unit :=
  .ofResult (if condition then .ok () else .error e)

/-- The line after the one with the flavor, which need not be there. -/
def skipFlavor (header : Text) : FileCall Text :=
  if drcovFlavor.isPrefixOf (toUppercase header) then readLine else pure header

def moduleCount (header : Text) : Except DrCovError Nat :=
  let err := DrCovError.illegalState ("Expected module table but got: ".toList ++ header)
  match (split moduleTable header)[1]? with
  | none => .error err
  | some field =>
    match parseNat 10 (2 ^ 64) (trim field) with
    | none => .error err
    | some n => .ok n

def bbCount (header : Text) : Except DrCovError Nat :=
  let err := DrCovError.illegalState
    ("Error parsing BB Table header count. Got: ".toList ++ header)
  match (split [' '] header)[2]? with
  | none => .error err
  | some field =>
    match parseNat 10 (2 ^ 64) field with
    | none => .error err
    | some n => .ok n

def readModule : FileCall DrCovModuleEntry := do
  let header ← readLine
  Call.on (fun _ => split ", ".toList header) (fun _ bytes => bytes) (parseModule header).run

def readModules : Nat → FileCall (List DrCovModuleEntry)
  | 0 => pure []
  | n + 1 => do
    let e ← readModule
    let es ← readModules n
    return e :: es

def readEntries : Nat → FileCall (List DrCovBasicBlockEntry)
  | 0 => pure []
  | n + 1 => do
    let bytes ← readExact 8
    let es ← readEntries n
    return ofBytes bytes :: es

/-- The first part of `read`, up to the columns. -/
def readModuleTable : FileCall Nat := do
  let header ← readLine
  require (trim (toUppercase header) = drcovVersion) (.illegalState
    ("No valid header. Expected ".toList ++ (drcovVersion ++ (" but got ".toList ++ header))))
  let header ← readLine
  let header ← skipFlavor header
  let count ← Call.ofResult (moduleCount header)
  let header ← readLine
  require (columns.isPrefixOf header) (.illegalState
    ("Module table has unknown or illegal columns: ".toList ++ header))
  return count

/-- The last part of `read`, behind the modules. -/
def readBasicBlocks : FileCall (List DrCovBasicBlockEntry) := do
  let header ← readLine
  require (bbTable.isPrefixOf header) (.illegalState
    ("Error reading BB Table header. Got: ".toList ++ header))
  let count ← Call.ofResult (bbCount header)
  readEntries count

def readFile : FileCall DrCovReader := do
  let count ← readModuleTable
  let modules ← readModules count
  let entries ← readBasicBlocks
  return ⟨modules, entries⟩

/-- `DrCovReader::read` -/
def read (file : List UInt8) : Option (Except DrCovError DrCovReader) :=
  (readFile.run file).map Prod.fst

/-! ## What was read -/

def moduleById (modules : List DrCovModuleEntry) (id : UInt16) : Option DrCovModuleEntry :=
  modules.find? fun e => e.id = id

/-- An entry without a module is skipped. -/
def basicBlock (modules : List DrCovModuleEntry) (e : DrCovBasicBlockEntry) :
    Option (Option DrCovBasicBlock) :=
  match moduleById modules e.modId with
  | none => some none
  | some e' => do
    let start ← checkedAdd e'.base e.start.toNat
    let stop ← checkedAdd start e.size.toNat
    return some ⟨start, stop⟩

def basicBlocks (r : DrCovReader) : Option (List DrCovBasicBlock) :=
  (r.basicBlockEntries.mapM (basicBlock r.moduleEntries)).map (List.filterMap id)

section

variable (M : Type) [RangeMap M]

def moduleMap (r : DrCovReader) : Option M :=
  r.moduleEntries.foldlM (fun m e => RangeMap.insert m ⟨e.base, e.stop, e.id, e.path⟩) RangeMap.new

/-- `DrCovReader::write` -/
def rewrite (r : DrCovReader) : Option (List UInt8) := do
  let ranges ← moduleMap M r
  let blocks ← basicBlocks r
  write ranges blocks

end

end DrCov

end Libaflmm
