import Libaflmm.CorpusMap
import Mathlib.Data.Nat.Digits.Defs

/-!
# Testcases and stores

`Testcase`, the trait `Store` and its two implementations. A store keeps two
maps of the trait `InMemoryCorpusMap`, for enabled and for disabled entries:
`InMemoryStore` holds the testcases in them, `OnDiskStore` only their ids,
and one file a testcase under its root directory.

An operation returns `none` when it panics, otherwise its `Result` and the
store it leaves, which an error may well have changed. What the environment
decides while a testcase is added (how far a file write gets) is an argument
of the operation.
-/

namespace Libaflmm

/-! ## Errors -/

inductive IoError where
  | notFound
  | alreadyExists
  | other
deriving DecidableEq, Repr

inductive Error where
  | serialize (message : String)
  | keyNotFound (message : String)
  | illegalState (message : String)
  | osError (err : IoError) (message : String)
  | illegalArgument (message : String)
  | internalBug (message : String)
  | runtime (message : String)
deriving DecidableEq, Repr

abbrev Result (α : Type) := Except Error α

/-- `From<io::Error>`. -/
def Error.ofIo (err : IoError) : Error := .osError err "io::Error ocurred"

instance : ToString TestcaseId where
  toString id := toString id.val.toNat

/-! ## Testcases -/

/-- The trait `Input`. The hash fed by an input and the serialised form are
code outside the repository; `fromBytes` reads back what `toAllocvec` wrote. -/
class Input (I : Type) where
  hash : I → UInt64
  toAllocvec : I → Except String (List UInt8)
  fromBytes : List UInt8 → Except String I
  fromBytes_toAllocvec : ∀ input bytes, toAllocvec input = .ok bytes → fromBytes bytes = .ok input

def computeId {I : Type} [Input I] (input : I) : TestcaseId := ⟨Input.hash input⟩

/-- An input with the id computed from it. -/
structure Testcase (I : Type) [Input I] where
  input : I
  id : TestcaseId
  id_eq : id = computeId input

def Testcase.new {I : Type} [Input I] (input : I) : Testcase I := ⟨input, computeId input, rfl⟩

theorem Testcase.ext_input {I : Type} [Input I] : ∀ {t t' : Testcase I}, t.input = t'.input → t = t'
  | ⟨_, _, rfl⟩, ⟨_, _, rfl⟩, rfl => rfl

instance {I : Type} [Input I] [DecidableEq I] : DecidableEq (Testcase I) := fun t t' =>
  decidable_of_iff (t.input = t'.input) ⟨Testcase.ext_input, congrArg _⟩

/-- `ValueInput<u8>`, serialised as the byte itself. -/
structure ValueInput where
  value : UInt8
deriving DecidableEq, Repr

instance : Input ValueInput where
  hash input := input.value.toUInt64
  toAllocvec input := .ok [input.value]
  fromBytes
    | [] => .error "DeserializeUnexpectedEnd"
    | value :: _ => .ok ⟨value⟩
  fromBytes_toAllocvec _ _ h := by
    obtain rfl := Except.ok.inj h
    rfl

/-- The stand-in hash tells all bytes apart. -/
theorem Testcase.ext_id : ∀ {t t' : Testcase ValueInput}, t.id = t'.id → t = t'
  | ⟨⟨v⟩, _, rfl⟩, ⟨⟨v'⟩, _, rfl⟩, h => by
      have hval : v.toUInt64 = v'.toUInt64 := congrArg TestcaseId.val h
      have hnat := congrArg UInt64.toNat hval
      rw [UInt8.toNat_toUInt64, UInt8.toNat_toUInt64] at hnat
      exact Testcase.ext_input (congrArg ValueInput.mk (UInt8.toNat_inj.mp hnat))

/-! ## The trait -/

inductive StorageResult where
  | stored (id : TestcaseId)
  | duplicate (id : TestcaseId)
deriving DecidableEq, Repr

def StorageResult.intoTestcaseId : StorageResult → TestcaseId
  | .stored id | .duplicate id => id

/-- The trait `Store`; `Env` is what the environment decides in one add. -/
class Store (S : Type) (I Env : outParam Type) [Input I] where
  count : S → Nat
  countDisabled : S → Nat
  addShared (enabled : Bool) (testcase : Testcase I) (env : Env) :
    S → Option (Result StorageResult × S)
  getFrom (enabled : Bool) (id : TestcaseId) : S → Result (Testcase I)
  disable (id : TestcaseId) : S → Option (Result Unit × S)

class RemovableStore (S : Type) (I Env : outParam Type) [Input I] extends Store S I Env where
  remove (id : TestcaseId) : S → Option (Result (Testcase I) × S)

section

variable {S I Env : Type} [Input I] [Store S I Env]

/-- A `saturating_add` that no two maps in memory saturate. -/
def Store.countAll (s : S) : Nat := count s + countDisabled s

def Store.isEmpty (s : S) : Bool := count s == 0

def Store.get (id : TestcaseId) (s : S) : Result (Testcase I) := getFrom true id s

end

/-! ## The two maps of a store -/

/-- The enabled and the disabled map. -/
structure Partitions (M : Type → Type) (V : Type) where
  enabledMap : M V
  disabledMap : M V

namespace Partitions

variable {M : Type → Type} [InMemoryCorpusMap M] {V : Type}

def empty : Partitions M V := ⟨InMemoryCorpusMap.empty, InMemoryCorpusMap.empty⟩

def map (p : Partitions M V) (enabled : Bool) : M V :=
  if enabled then p.enabledMap else p.disabledMap

/-- Whether the id was in that map already, which now holds `value`. -/
def add (enabled : Bool) (id : TestcaseId) (value : V) (p : Partitions M V) :
    Option (Bool × Partitions M V) :=
  if enabled then
    (InMemoryCorpusMap.add id value p.enabledMap).map fun (present, enabledMap) =>
      (present, { p with enabledMap })
  else
    (InMemoryCorpusMap.add id value p.disabledMap).map fun (present, disabledMap) =>
      (present, { p with disabledMap })

/-- With `ENABLED` unset both maps are looked at, the enabled one first. -/
def getFrom (enabled : Bool) (id : TestcaseId) (p : Partitions M V) : Option V :=
  if enabled then
    InMemoryCorpusMap.get p.enabledMap id
  else
    match InMemoryCorpusMap.get p.enabledMap id with
    | some value => some value
    | none => InMemoryCorpusMap.get p.disabledMap id

/-- Moves the enabled entry; whether there was one. -/
def disable (id : TestcaseId) (p : Partitions M V) : Option (Bool × Partitions M V) :=
  (InMemoryCorpusMap.remove id p.enabledMap).bind fun
    | (some value, enabledMap) =>
      (InMemoryCorpusMap.add id value p.disabledMap).map fun (_, disabledMap) =>
        (true, { enabledMap, disabledMap })
    | (none, enabledMap) => some (false, { p with enabledMap })

/-- Removes the enabled entry, or else the disabled one. -/
def remove (id : TestcaseId) (p : Partitions M V) : Option (Option V × Partitions M V) :=
  (InMemoryCorpusMap.remove id p.enabledMap).bind fun
    | (some value, enabledMap) => some (some value, { p with enabledMap })
    | (none, enabledMap) =>
      (InMemoryCorpusMap.remove id p.disabledMap).map fun (value, disabledMap) =>
        (value, { enabledMap, disabledMap })

end Partitions

/-- `key_not_found!("Index {id} not found")`. -/
def Error.indexNotFound (id : TestcaseId) : Error := .keyNotFound s!"Index {id} not found"

/-! ## The in-memory store -/

structure InMemoryStore (I : Type) [Input I] (M : Type → Type) where
  maps : Partitions M (Testcase I)

namespace InMemoryStore

variable {I : Type} [Input I] {M : Type → Type} [InMemoryCorpusMap M]

def new : InMemoryStore I M := ⟨.empty⟩

def addShared (enabled : Bool) (testcase : Testcase I) (s : InMemoryStore I M) :
    Option (Result StorageResult × InMemoryStore I M) :=
  (s.maps.add enabled testcase.id testcase).map fun (alreadyStored, maps) =>
    (.ok (if alreadyStored then .duplicate testcase.id else .stored testcase.id), { maps })

def getFrom (enabled : Bool) (id : TestcaseId) (s : InMemoryStore I M) : Result (Testcase I) :=
  match s.maps.getFrom enabled id with
  | some testcase => .ok testcase
  | none => .error (.indexNotFound id)

def disable (id : TestcaseId) (s : InMemoryStore I M) : Option (Result Unit × InMemoryStore I M) :=
  (s.maps.disable id).map fun (found, maps) =>
    (if found then .ok () else .error (.indexNotFound id), { maps })

def remove (id : TestcaseId) (s : InMemoryStore I M) :
    Option (Result (Testcase I) × InMemoryStore I M) :=
  (s.maps.remove id).map fun
    | (some testcase, maps) => (.ok testcase, { maps })
    | (none, maps) => (.error (.keyNotFound s!"Index {id} not found for remove"), { maps })

instance : RemovableStore (InMemoryStore I M) I Unit where
  count s := InMemoryCorpusMap.count s.maps.enabledMap
  countDisabled s := InMemoryCorpusMap.count s.maps.disabledMap
  addShared enabled testcase _ := addShared enabled testcase
  getFrom := getFrom
  disable := disable
  remove := remove

end InMemoryStore

/-! ## File names -/

inductive TestcaseFilenameFormat where
  | id
  | withPrefix (name : String)
deriving DecidableEq, Repr

/-- `{:0wx}` of a number of at most `w` hexadecimal digits. -/
def hexPadded : Nat → Nat → List Char
  | 0, _ => []
  | w + 1, n => hexPadded w (n / 16) ++ [Nat.digitChar (n % 16)]

def TestcaseId.defaultFilename (id : TestcaseId) : String := .ofList (hexPadded 16 id.val.toNat)

def TestcaseFilenameFormat.toFilename (fmt : TestcaseFilenameFormat) (id : TestcaseId) : String :=
  match fmt with
  | .id => id.defaultFilename
  | .withPrefix name => name ++ "-" ++ toString id

/-- The file `write_file_atomic` writes first: a dot and `.tmp` are put
around the last component of the path. -/
def tmpfileName (path : String) : String :=
  let fileName := (path.toList.reverse.takeWhile (· ≠ '/')).reverse
  let dir := path.toList.take (path.toList.length - fileName.length)
  .ofList (dir ++ '.' :: fileName ++ ['.', 't', 'm', 'p'])

theorem digitChar_injOn {m n : Nat} (hm : m < 16) (hn : n < 16)
    (h : Nat.digitChar m = Nat.digitChar n) : m = n := by
  have hall : ∀ m : Fin 16, ∀ n : Fin 16,
      Nat.digitChar m = Nat.digitChar n → m = n := by decide
  simpa using hall ⟨m, hm⟩ ⟨n, hn⟩ h

theorem hexPadded_injOn {w m n : Nat} (hm : m < 16 ^ w) (hn : n < 16 ^ w)
    (h : hexPadded w m = hexPadded w n) : m = n := by
  induction w generalizing m n with
  | zero => omega
  | succ w ih =>
      obtain ⟨hhi, hlo⟩ := List.append_inj' h rfl
      have hdiv : m / 16 = n / 16 := ih (by omega) (by omega) hhi
      have hmod : m % 16 = n % 16 :=
        digitChar_injOn (Nat.mod_lt _ (by omega)) (Nat.mod_lt _ (by omega))
          (List.singleton_inj.mp hlo)
      omega

theorem getLast?_hexPadded_ne (w n : Nat) : (hexPadded w n).getLast? ≠ some 'p' := by
  cases w with
  | zero => simp [hexPadded]
  | succ w =>
      have hall : ∀ d : Fin 16, Nat.digitChar d ≠ 'p' := by decide
      rw [hexPadded, List.getLast?_concat]
      exact fun h => hall ⟨n % 16, Nat.mod_lt _ (by omega)⟩ (Option.some.inj h)

theorem TestcaseId.toList_toString (id : TestcaseId) :
    (toString id).toList = Nat.toDigits 10 id.val.toNat := by
  show (toString id.val.toNat).toList = _
  rw [Nat.toString_eq_ofList_toDigits, String.toList_ofList]

namespace TestcaseFilenameFormat

variable {fmt : TestcaseFilenameFormat} {id id' : TestcaseId}

theorem toList_toFilename (fmt : TestcaseFilenameFormat) (id : TestcaseId) :
    (fmt.toFilename id).toList = match fmt with
      | .id => hexPadded 16 id.val.toNat
      | .withPrefix name => name.toList ++ '-' :: Nat.toDigits 10 id.val.toNat := by
  cases fmt with
  | id => exact String.toList_ofList
  | withPrefix name =>
      simp [toFilename, String.toList_append, TestcaseId.toList_toString]

/-- No two testcases share a file. -/
theorem toFilename_injective (fmt : TestcaseFilenameFormat) :
    Function.Injective fmt.toFilename := by
  intro id id' h
  have hlist := congrArg String.toList h
  rw [toList_toFilename, toList_toFilename] at hlist
  apply TestcaseId.toNat_injective
  cases fmt with
  | id => exact hexPadded_injOn id.val.toNat_lt id'.val.toNat_lt hlist
  | withPrefix name =>
      have hdigits := (List.cons.inj (List.append_cancel_left hlist)).2
      calc id.val.toNat
          = Nat.ofDigitChars 10 (Nat.toDigits 10 id.val.toNat) 0 :=
            Nat.ofDigitChars_ten_toDigits.symm
        _ = Nat.ofDigitChars 10 (Nat.toDigits 10 id'.val.toNat) 0 := by rw [hdigits]
        _ = id'.val.toNat := Nat.ofDigitChars_ten_toDigits

/-- The file written first is not the file of a testcase. -/
theorem tmpfileName_ne (path : String) : tmpfileName path ≠ fmt.toFilename id := by
  intro h
  have hlast : (fmt.toFilename id).toList.getLast? = some 'p' := by
    rw [← h, tmpfileName, String.toList_ofList, List.getLast?_append_of_ne_nil _ (by simp)]
    rfl
  rw [toList_toFilename] at hlast
  cases fmt with
  | id => exact getLast?_hexPadded_ne _ _ hlast
  | withPrefix name =>
      have hne : Nat.toDigits 10 id.val.toNat ≠ [] := Nat.toDigits_ne_nil
      simp only [List.getLast?_append_of_ne_nil _ (List.cons_ne_nil _ _),
        List.getLast?_cons_of_ne_nil hne] at hlast
      have hdigit := Nat.isDigit_of_mem_toDigits (by decide) (by decide)
        (List.mem_of_getLast? hlast)
      exact absurd hdigit (by decide)

end TestcaseFilenameFormat

/-! ## File writes -/

/-- The files under the root directory, by their path relative to it. -/
abbrev Dir := String → Option (List UInt8)

/-- How far the environment lets one file write get. -/
inductive WriteOutcome where
  | completes
  | openFails (err : IoError)
  | writeFails (err : IoError) (written : Nat)
  | renameFails (err : IoError)
deriving DecidableEq, Repr

/-- The bytes go to a new file, which is then renamed to `path`. A write that
fails leaves the new file behind. -/
def writeFileAtomic (path : String) (bytes : List UInt8) (outcome : WriteOutcome) (dir : Dir) :
    Result Unit × Dir :=
  let tmpfile := tmpfileName path
  if (dir tmpfile).isSome then
    (.error (.ofIo .alreadyExists), dir)
  else
    match outcome with
    | .openFails err => (.error (.ofIo err), dir)
    | .writeFails err written =>
      (.error (.ofIo err), Function.update dir tmpfile (some (bytes.take written)))
    | .renameFails err => (.error (.ofIo err), Function.update dir tmpfile (some bytes))
    | .completes => (.ok (), Function.update dir path (some bytes))

/-- The root directory is the one `Dir` describes. -/
structure DiskMgr where
  fileFmt : TestcaseFilenameFormat
deriving DecidableEq, Repr

namespace DiskMgr

variable {I : Type} [Input I]

def testcasePath (mgr : DiskMgr) (id : TestcaseId) : String := mgr.fileFmt.toFilename id

def saveTestcase (mgr : DiskMgr) (testcase : Testcase I) (outcome : WriteOutcome) (dir : Dir) :
    Result TestcaseId × Dir :=
  match Input.toAllocvec testcase.input with
  | .error message => (.error (.serialize message), dir)
  | .ok bytes =>
    match writeFileAtomic (mgr.testcasePath testcase.id) bytes outcome dir with
    | (.error err, dir) => (.error err, dir)
    | (.ok (), dir) => (.ok testcase.id, dir)

def loadTestcase (mgr : DiskMgr) (id : TestcaseId) (dir : Dir) : Result (Testcase I) :=
  match dir (mgr.testcasePath id) with
  | none => .error (.ofIo .notFound)
  | some bytes =>
    match Input.fromBytes (I := I) bytes with
    | .error message => .error (.serialize message)
    | .ok input => .ok (.new input)

/-- The conditions under which a save goes through. -/
def Saves (mgr : DiskMgr) (testcase : Testcase I) (outcome : WriteOutcome) (dir : Dir) : Prop :=
  (Input.toAllocvec testcase.input).isOk ∧
    dir (tmpfileName (mgr.testcasePath testcase.id)) = none ∧ outcome = .completes

/-- The file of `testcase` holds all of it. -/
def OnDisk (mgr : DiskMgr) (testcase : Testcase I) (dir : Dir) : Prop :=
  ∃ bytes, Input.toAllocvec testcase.input = .ok bytes ∧
    dir (mgr.testcasePath testcase.id) = some bytes

variable {mgr : DiskMgr} {testcase : Testcase I} {outcome : WriteOutcome} {dir : Dir}

instance : Decidable (mgr.Saves testcase outcome dir) :=
  inferInstanceAs (Decidable (_ ∧ _ ∧ _))

theorem testcasePath_injective : Function.Injective mgr.testcasePath :=
  mgr.fileFmt.toFilename_injective

/-- A save that goes through writes the file of the testcase and no other. -/
theorem saveTestcase_of_saves (h : mgr.Saves testcase outcome dir) :
    ∃ dir', mgr.saveTestcase testcase outcome dir = (.ok testcase.id, dir') ∧
      mgr.OnDisk testcase dir' ∧
      ∀ id, id ≠ testcase.id → dir' (mgr.testcasePath id) = dir (mgr.testcasePath id) := by
  obtain ⟨hok, htmp, rfl⟩ := h
  obtain ⟨bytes, hbytes⟩ : ∃ bytes, Input.toAllocvec testcase.input = .ok bytes := by
    cases hser : Input.toAllocvec testcase.input with
    | error message => simp [hser, Except.isOk, Except.toBool] at hok
    | ok bytes => exact ⟨bytes, rfl⟩
  refine ⟨Function.update dir (mgr.testcasePath testcase.id) (some bytes), ?_,
    ⟨bytes, hbytes, Function.update_self ..⟩, fun id hid => ?_⟩
  · simp [saveTestcase, hbytes, writeFileAtomic, htmp]
  · exact Function.update_of_ne (fun h => hid (testcasePath_injective h)) _ _

/-- A save that does not go through reports an error and leaves the file of
every testcase as it was. -/
theorem saveTestcase_of_not_saves (h : ¬ mgr.Saves testcase outcome dir) :
    ∃ err dir', mgr.saveTestcase testcase outcome dir = (.error err, dir') ∧
      ∀ id, dir' (mgr.testcasePath id) = dir (mgr.testcasePath id) := by
  have hupdate : ∀ (file : Option (List UInt8)) (id : TestcaseId),
      Function.update dir (tmpfileName (mgr.testcasePath testcase.id)) file
        (mgr.testcasePath id) = dir (mgr.testcasePath id) := fun file id =>
    Function.update_of_ne (TestcaseFilenameFormat.tmpfileName_ne _).symm _ _
  unfold saveTestcase
  cases hbytes : Input.toAllocvec testcase.input with
  | error message => exact ⟨_, dir, rfl, fun _ => rfl⟩
  | ok bytes =>
      unfold writeFileAtomic
      by_cases htmp : (dir (tmpfileName (mgr.testcasePath testcase.id))).isSome = true
      · simp only [if_pos htmp]
        exact ⟨_, dir, rfl, fun _ => rfl⟩
      · simp only [if_neg htmp]
        cases outcome with
        | completes =>
            have hok : (Input.toAllocvec testcase.input).isOk := by
              simp [hbytes, Except.isOk, Except.toBool]
            exact (h ⟨hok, by simpa using htmp, rfl⟩).elim
        | openFails err => exact ⟨_, dir, rfl, fun _ => rfl⟩
        | writeFails err written => exact ⟨_, _, rfl, hupdate _⟩
        | renameFails err => exact ⟨_, _, rfl, hupdate _⟩

theorem loadTestcase_congr {dir' : Dir} {id : TestcaseId}
    (h : dir' (mgr.testcasePath id) = dir (mgr.testcasePath id)) :
    mgr.loadTestcase (I := I) id dir' = mgr.loadTestcase id dir := by
  simp only [loadTestcase, h]

theorem loadTestcase_of_onDisk (h : mgr.OnDisk testcase dir) :
    mgr.loadTestcase testcase.id dir = .ok testcase := by
  obtain ⟨bytes, hbytes, hfile⟩ := h
  simp only [loadTestcase, hfile, Input.fromBytes_toAllocvec _ _ hbytes]
  exact congrArg _ (Testcase.ext_input rfl)

end DiskMgr

/-! ## The on-disk store -/

structure OnDiskStore (I : Type) [Input I] (M : Type → Type) where
  diskMgr : DiskMgr
  maps : Partitions M TestcaseId
  dir : Dir

namespace OnDiskStore

variable {I : Type} [Input I] {M : Type → Type} [InMemoryCorpusMap M]

/-- A new store over a directory that may hold files already. -/
def new (fileFmt : TestcaseFilenameFormat) (dir : Dir) : OnDiskStore I M := ⟨⟨fileFmt⟩, .empty, dir⟩

/-- The id is in the map before the testcase is saved. -/
def addShared (enabled : Bool) (testcase : Testcase I) (outcome : WriteOutcome)
    (s : OnDiskStore I M) : Option (Result StorageResult × OnDiskStore I M) :=
  (s.maps.add enabled testcase.id testcase.id).map fun (isPresent, maps) =>
    if isPresent then
      (.ok (.duplicate testcase.id), { s with maps })
    else
      match s.diskMgr.saveTestcase testcase outcome s.dir with
      | (.error err, dir) => (.error err, { s with maps, dir })
      | (.ok _, dir) => (.ok (.stored testcase.id), { s with maps, dir })

def getFrom (enabled : Bool) (id : TestcaseId) (s : OnDiskStore I M) : Result (Testcase I) :=
  match s.maps.getFrom enabled id with
  | some id => s.diskMgr.loadTestcase id s.dir
  | none => .error (if enabled then .keyNotFound s!"Index not found: {id}" else .indexNotFound id)

def disable (id : TestcaseId) (s : OnDiskStore I M) : Option (Result Unit × OnDiskStore I M) :=
  (s.maps.disable id).map fun (found, maps) =>
    (if found then .ok () else .error (.indexNotFound id), { s with maps })

instance : Store (OnDiskStore I M) I WriteOutcome where
  count s := InMemoryCorpusMap.count s.maps.enabledMap
  countDisabled s := InMemoryCorpusMap.count s.maps.disabledMap
  addShared := addShared
  getFrom := getFrom
  disable := disable

end OnDiskStore

end Libaflmm
