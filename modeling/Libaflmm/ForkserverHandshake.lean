import Libaflmm.Autodict
import Libaflmm.Forkserver

/-!
# The handshake with a forkserver

The forkserver says hello with the version it speaks, and is answered with the
same word inverted. It then sends its options, the size of its map and a
dictionary if the options say so, and hello once more. A read that comes short
is an error.

What panics is `none`: the version of a word that is less than the words for
versions, a size of the map so large that it cannot be rounded up, and a
dictionary that ends within a token. A size that is negative is taken for one
near `2 ^ 64`.

The program is there, its pipes take what is written, and the memory for the
input can be made.
-/

namespace Libaflmm

open Call

inductive HandshakeError where
  | mapSizeUnknown
  | failedToStart
  | target (status : Word)
  | versionNotAssigned
  | versionNotSupported
  | readFailed
  | mapSizeUnread
  | mapTooLarge (actualMapSize : Int) (maxSize : Nat)
  | noMap (actualMapSize : Int)
  | shmemNotPrepared
  | autotokensSizeUnread
  | autotokensSizeIncorrect (autotokensSize : Int)
  | autotokensUnread
  | communication (aflx initialStatus : Word)
  | mapNotSet

/-- Shared memory is used for the input only if it was prepared. -/
structure ForkserverExecutorBuilder where
  usesShmemTestcase : Bool
  autotokens : Option Tokens
  tryUseInputShmem : Bool
  mapSize : Option Nat
  prepared : usesShmemTestcase = true → tryUseInputShmem = true

/-- `st` is what the target sends until it ends, and `ctl` what it is sent. -/
structure HandshakeState where
  builder : ForkserverExecutorBuilder
  st : List UInt8
  ctl : List Word

abbrev HandshakeCall (α : Type) := Call HandshakeError HandshakeState α

namespace Handshake

def fsNewError : Word := 0xeffe0000

def fsNewVersionMagicBase : Nat := 0x41464c00

def fsNewVersionMin : Nat := 1

def fsNewVersionMax : Nat := 1

def fsNewOptMapsize : Word := 1

def fsNewOptShdmemFuzz : Word := 2

def fsNewOptAutodtct : Word := 0x800

def takeWord : List UInt8 → Option (Word × List UInt8)
  | a :: b :: c :: d :: st => some (d.toBitVec ++ c.toBitVec ++ b.toBitVec ++ a.toBitVec, st)
  | _ => none

def fail {α : Type} (e : HandshakeError) : HandshakeCall α := ofResult (.error e)

def readSt (e : HandshakeError) : HandshakeCall Word := ofFn fun s =>
  match takeWord s.st with
  | some (val, st) => some (.ok val, { s with st })
  | none => some (.error e, { s with st := [] })

def readStOfLen (e : HandshakeError) (size : Nat) : HandshakeCall (List UInt8) := ofFn fun s =>
  if size ≤ s.st.length then some (.ok (s.st.take size), { s with st := s.st.drop size })
  else some (.error e, { s with st := [] })

def writeCtl (val : Word) : HandshakeCall Unit := update fun s => { s with ctl := s.ctl ++ [val] }

def checkVersion (status : Word) : HandshakeCall Unit := ofFn fun s =>
  if status.toNat < fsNewVersionMagicBase then none
  else
    let version := status.toNat - fsNewVersionMagicBase
    if version = 0 then some (.error .versionNotAssigned, s)
    else if fsNewVersionMin ≤ version ∧ version ≤ fsNewVersionMax then some (.ok (), s)
    else some (.error .versionNotSupported, s)

/-- Up to a multiple of 64, in 32 bits. -/
def roundMapSize (fsrvMapSize : Int) : Option Int :=
  if fsrvMapSize.tmod 64 ≠ 0 then
    if fsrvMapSize + 63 < 2 ^ 31 then
      some (((fsrvMapSize + 63) >>> (6 : Nat)) <<< (6 : Nat))
    else none
  else some fsrvMapSize

/-- `as usize`, with 64 bits. -/
def asUsize (n : Int) : Nat := (n % 2 ^ 64).toNat

def setMapSize (fsrvMapSize : Int) : HandshakeCall Nat := ofFn fun s =>
  match roundMapSize fsrvMapSize with
  | none => none
  | some actualMapSize =>
    match s.builder.mapSize with
    | some maxSize =>
      if asUsize actualMapSize > maxSize then
        some (.error (.mapTooLarge actualMapSize maxSize), s)
      else some (.ok (asUsize actualMapSize),
        { s with builder := { s.builder with mapSize := some (asUsize actualMapSize) } })
    | none => some (.error (.noMap actualMapSize), s)

def readMapSize (options : Word) : HandshakeCall Unit :=
  if options &&& fsNewOptMapsize = fsNewOptMapsize then do
    let fsrvMapSize ← readSt .mapSizeUnread
    let _ ← setMapSize fsrvMapSize.toInt
    pure ()
  else pure ()

/-- There is a map for the input if it was to be tried. -/
def checkShmem (options : Word) : HandshakeCall Unit := ofFn fun s =>
  if options &&& fsNewOptShdmemFuzz ≠ 0 then
    if h : s.builder.tryUseInputShmem = true then
      some (.ok (), { s with builder :=
        { s.builder with usesShmemTestcase := true, prepared := fun _ => h } })
    else some (.error .shmemNotPrepared, s)
  else some (.ok (), s)

/-- The dictionary is parsed if somebody wants the tokens. -/
def addAutotokens (buf : List UInt8) : HandshakeCall Unit := ofFn fun s =>
  match s.builder.autotokens with
  | some t => (t.parseAutodict buf).map fun t =>
      (.ok (), { s with builder := { s.builder with autotokens := some t } })
  | none => some (.ok (), s)

def readAutodict (options : Word) : HandshakeCall Unit :=
  if options &&& fsNewOptAutodtct ≠ 0 then do
    let autotokensSize ← readSt .autotokensSizeUnread
    if 2 ≤ autotokensSize.toInt ∧ autotokensSize.toInt ≤ 0xffffff then do
      let buf ← readStOfLen .autotokensUnread autotokensSize.toNat
      addAutotokens buf
    else fail (.autotokensSizeIncorrect autotokensSize.toInt)
  else pure ()

def readAflx (initialStatus : Word) : HandshakeCall Unit := do
  let aflx ← readSt .readFailed
  if aflx ≠ initialStatus then fail (.communication aflx initialStatus) else pure ()

def initializeForkserver (status : Word) : HandshakeCall Unit := do
  checkVersion status
  writeCtl (status ^^^ 0xffffffff)
  let options ← readSt .readFailed
  readMapSize options
  checkShmem options
  readAutodict options
  readAflx status

/-- What `build` does once the target was started. -/
def handshake : HandshakeCall Unit := do
  let versionStatus ← readSt .failedToStart
  if versionStatus &&& fsNewError = fsNewError then fail (.target (versionStatus &&& 0xffff))
  else do
    initializeForkserver versionStatus
    let builder ← read HandshakeState.builder
    if builder.usesShmemTestcase && !builder.tryUseInputShmem then fail .mapNotSet else pure ()

/-- The target is started with the size of the map. -/
def build : HandshakeCall Unit := do
  let builder ← read HandshakeState.builder
  if builder.mapSize = none then fail .mapSizeUnknown else handshake

/-! ## What a handshake should be -/

/-- The least multiple of 64 that is not less. -/
def roundedUp (n : Int) : Int := (n + 63) / 64 * 64

def Supported (hello : Word) : Prop := hello.toNat = 0x41464c01

/-- The rounded size is one of 32 bits, and at most the configured one. -/
def Fits (mapSize : Option Nat) (n : Int) : Prop :=
  0 ≤ roundedUp n ∧ roundedUp n < 2 ^ 31 ∧ ∃ maxSize, mapSize = some maxSize ∧ roundedUp n ≤ maxSize

/-- Hello comes once more. -/
def AcceptsAflx (hello : Word) (st : List UInt8) : Prop := ∃ rest, takeWord st = some (hello, rest)

/-- A dictionary has two bytes to `0xffffff`, all of which come. -/
def SendsAutodict (st : List UInt8) (buf rest : List UInt8) : Prop :=
  ∃ size st', takeWord st = some (size, st') ∧ 2 ≤ size.toInt ∧ size.toInt ≤ 0xffffff ∧
    size.toNat ≤ st'.length ∧ buf = st'.take size.toNat ∧ rest = st'.drop size.toNat

/-- The tokens are those of the dictionary, behind those from before, and a
dictionary is there if the options say so. -/
def AcceptsAutodict (tokens : Option Tokens) (options hello : Word) (st : List UInt8)
    (tokens' : Option Tokens) : Prop :=
  if options &&& fsNewOptAutodtct ≠ 0 then
    ∃ buf rest, SendsAutodict st buf rest ∧ AcceptsAflx hello rest ∧
      match tokens with
      | some t => ∃ dict, Tokens.IsAutodict buf dict ∧ tokens' = some (t.addTokens dict)
      | none => tokens' = none
  else AcceptsAflx hello st ∧ tokens' = tokens

/-- Memory for the input is asked for only if it was prepared. -/
def AsksForPrepared (builder : ForkserverExecutorBuilder) (options : Word) : Prop :=
  options &&& fsNewOptShdmemFuzz ≠ 0 → builder.tryUseInputShmem = true

/-- The handshake in `st` is as it should be, and has these tokens. -/
def Accepts (builder : ForkserverExecutorBuilder) (st : List UInt8) (tokens' : Option Tokens) :
    Prop :=
  ∃ hello st₁ options st₂, takeWord st = some (hello, st₁) ∧ Supported hello ∧
    takeWord st₁ = some (options, st₂) ∧ AsksForPrepared builder options ∧
    if options &&& fsNewOptMapsize = fsNewOptMapsize then
      ∃ size st₃, takeWord st₂ = some (size, st₃) ∧ Fits builder.mapSize size.toInt ∧
        AcceptsAutodict builder.autotokens options hello st₃ tokens'
    else AcceptsAutodict builder.autotokens options hello st₂ tokens'

/-! ## What goes wrong -/

/-- Somebody wants the tokens of a dictionary that has none. -/
def BreaksAutodict (tokens : Option Tokens) (options : Word) (st : List UInt8) : Prop :=
  options &&& fsNewOptAutodtct ≠ 0 ∧ tokens ≠ none ∧
    ∃ buf rest, SendsAutodict st buf rest ∧ ¬ ∃ dict, Tokens.IsAutodict buf dict

/-- A rounded size that is negative passes for one that is not too large. -/
def PassesNegative (mapSize : Option Nat) (n : Int) : Prop :=
  roundedUp n < 0 ∧ ∃ maxSize, mapSize = some maxSize ∧ 2 ^ 64 + roundedUp n ≤ maxSize

def SlipsInOptions (builder : ForkserverExecutorBuilder) (options hello : Word) (st : List UInt8) :
    Prop :=
  if options &&& fsNewOptMapsize = fsNewOptMapsize then
    ∃ size st', takeWord st = some (size, st') ∧
      (2 ^ 31 - 64 < size.toInt ∨
        (AsksForPrepared builder options ∧
          (Fits builder.mapSize size.toInt ∨ PassesNegative builder.mapSize size.toInt) ∧
          BreaksAutodict builder.autotokens options st') ∨
        (AsksForPrepared builder options ∧ PassesNegative builder.mapSize size.toInt ∧
          ∃ tokens, AcceptsAutodict builder.autotokens options hello st' tokens))
  else AsksForPrepared builder options ∧ BreaksAutodict builder.autotokens options st

/-- A word for no version, a size of the map that is too large to be rounded, a
dictionary that is none, or a negative size in a handshake that is fine but for
this. -/
def Slips (builder : ForkserverExecutorBuilder) (st : List UInt8) : Prop :=
  ∃ hello st₁, takeWord st = some (hello, st₁) ∧
    (hello.toNat < fsNewVersionMagicBase ∨
      (Supported hello ∧ ∃ options st₂, takeWord st₁ = some (options, st₂) ∧
        SlipsInOptions builder options hello st₂))

/-! ## Sizes of the map -/

theorem roundMapSize_eq {n : Int} (hlt : n < 2 ^ 31) :
    roundMapSize n = if 2 ^ 31 - 64 < n then none else some (roundedUp n) := by
  have hdvd : n.tmod 64 = 0 ↔ n % 64 = 0 := by
    rw [← Int.dvd_iff_tmod_eq_zero, Int.dvd_iff_emod_eq_zero]
  unfold roundMapSize roundedUp
  rw [Int.shiftRight_eq_div_pow, Int.shiftLeft_eq]
  by_cases hmod : n.tmod 64 = 0
  · have hzero := hdvd.mp hmod
    rw [if_neg (not_not.mpr hmod), if_neg (by omega)]
    congr 1
    omega
  · rw [if_pos hmod]
    by_cases hround : n + 63 < 2 ^ 31
    · rw [if_pos hround, if_neg (by omega)]
      norm_num
    · rw [if_neg hround, if_pos (by omega)]

theorem asUsize_le_iff {n : Int} {maxSize : Nat} (hle : -2 ^ 31 ≤ n) (hlt : n ≤ 2 ^ 31 - 64) :
    asUsize (roundedUp n) ≤ maxSize ↔ Fits (some maxSize) n ∨ PassesNegative (some maxSize) n := by
  simp only [asUsize, Fits, PassesNegative, roundedUp, Option.some.injEq, exists_eq_left']
  omega

theorem fits_of_some {mapSize : Option Nat} {n : Int}
    (h : Fits mapSize n ∨ PassesNegative mapSize n) : ∃ maxSize, mapSize = some maxSize := by
  rcases h with ⟨-, -, maxSize, h, -⟩ | ⟨-, maxSize, h, -⟩
  · exact ⟨maxSize, h⟩
  · exact ⟨maxSize, h⟩

theorem toInt_bounds (w : Word) : -2 ^ 31 ≤ w.toInt ∧ w.toInt < 2 ^ 31 :=
  ⟨BitVec.le_toInt w, BitVec.toInt_lt⟩

theorem run_setMapSize_of_large {n : Int} (hlt : n < 2 ^ 31) (h : 2 ^ 31 - 64 < n)
    (s : HandshakeState) : (setMapSize n).run s = none := by
  rw [setMapSize, run_ofFn, roundMapSize_eq hlt, if_pos h]

theorem run_setMapSize_of_passes {n : Int} (hle : -2 ^ 31 ≤ n) (hlt : n ≤ 2 ^ 31 - 64)
    {s : HandshakeState} (h : Fits s.builder.mapSize n ∨ PassesNegative s.builder.mapSize n) :
    (setMapSize n).run s = some (.ok (asUsize (roundedUp n)),
      { s with builder := { s.builder with mapSize := some (asUsize (roundedUp n)) } }) := by
  obtain ⟨maxSize, hmax⟩ := fits_of_some h
  rw [hmax] at h
  rw [setMapSize, run_ofFn, roundMapSize_eq (by omega), if_neg (by omega)]
  simp only [hmax, if_neg (Nat.not_lt.mpr ((asUsize_le_iff hle hlt).mpr h))]

theorem run_setMapSize_of_not_passes {n : Int} (hle : -2 ^ 31 ≤ n) (hlt : n ≤ 2 ^ 31 - 64)
    {s : HandshakeState}
    (h : ¬ (Fits s.builder.mapSize n ∨ PassesNegative s.builder.mapSize n)) :
    ∃ e, (setMapSize n).run s = some (.error e, s) := by
  rw [setMapSize, run_ofFn, roundMapSize_eq (by omega), if_neg (by omega)]
  cases hmax : s.builder.mapSize with
  | none => exact ⟨_, rfl⟩
  | some maxSize =>
      rw [hmax] at h
      simp only [if_pos (Nat.lt_of_not_le (mt (asUsize_le_iff hle hlt).mp h))]
      exact ⟨_, rfl⟩

/-! ## One message after the other -/

/-- What is accepted is what `A` says, with its tokens. -/
def Answers (A : Option Tokens → Prop) (r : Except HandshakeError Unit) (s : HandshakeState) :
    Prop :=
  match r with
  | .ok _ => A s.builder.autotokens
  | .error _ => ∀ tokens, ¬ A tokens

/-- Panics on a slip, and answers otherwise. -/
structure Settles (x : HandshakeCall Unit) (s : HandshakeState) (slip : Prop)
    (A : Option Tokens → Prop) : Prop where
  panics : slip → x.run s = none
  answers : ¬ slip → x.Yields s (Answers A)

variable {α : Type} {x : HandshakeCall α} {f : α → HandshakeCall Unit} {s t : HandshakeState}
  {slip : Prop} {A : Option Tokens → Prop}

theorem settles_of_ok {a : α} (h : x.run s = some (.ok a, t)) (hf : Settles (f a) t slip A) :
    Settles (x >>= f) s slip A where
  panics hslip := by rw [run_bind_of_ok h, hf.panics hslip]
  answers hslip := (yields_bind_of_ok h).mpr (hf.answers hslip)

theorem settles_of_error {e : HandshakeError} (h : x.run s = some (.error e, t)) (hslip : ¬ slip)
    (hA : ∀ tokens, ¬ A tokens) : Settles (x >>= f) s slip A where
  panics h' := absurd h' hslip
  answers _ := (yields_bind_of_error h).mpr hA

theorem settles_of_none (h : x.run s = none) (hslip : slip) : Settles (x >>= f) s slip A where
  panics _ := by
    rw [run_bind, h]
    rfl
  answers h' := absurd hslip h'

theorem settles_fail (e : HandshakeError) (hslip : ¬ slip) (hA : ∀ tokens, ¬ A tokens) :
    Settles (fail e) s slip A where
  panics h' := absurd h' hslip
  answers _ := ⟨_, _, rfl, hA⟩

theorem run_readSt_of_some {e : HandshakeError} {val : Word} {st : List UInt8}
    (h : takeWord s.st = some (val, st)) : (readSt e).run s = some (.ok val, { s with st }) := by
  rw [readSt, run_ofFn]
  simp only [h]

theorem run_readSt_of_none {e : HandshakeError} (h : takeWord s.st = none) :
    (readSt e).run s = some (.error e, { s with st := [] }) := by
  rw [readSt, run_ofFn]
  simp only [h]

theorem not_takeWord_of_none {st : List UInt8} (h : takeWord st = none) {val : Word}
    {st' : List UInt8} : takeWord st ≠ some (val, st') := by
  rw [h]
  exact nofun

theorem settles_readAflx (hello : Word) (s : HandshakeState) :
    Settles (readAflx hello) s False fun tokens =>
      AcceptsAflx hello s.st ∧ tokens = s.builder.autotokens := by
  unfold readAflx
  cases hread : takeWord s.st with
  | none =>
      refine settles_of_error (run_readSt_of_none hread) not_false ?_
      rintro tokens ⟨⟨rest, hrest⟩, -⟩
      exact not_takeWord_of_none hread hrest
  | some read =>
      obtain ⟨aflx, rest⟩ := read
      refine settles_of_ok (run_readSt_of_some hread) ?_
      split
      · next hne =>
          refine settles_fail _ not_false ?_
          rintro tokens ⟨⟨rest', hrest⟩, -⟩
          rw [hread] at hrest
          cases hrest
          exact hne rfl
      · next heq =>
          rw [not_not.mp heq] at hread
          exact ⟨False.elim, fun _ => ⟨_, _, rfl, ⟨rest, hread⟩, rfl⟩⟩

theorem sendsAutodict_iff {st st' buf rest : List UInt8} {size : Word}
    (hread : takeWord st = some (size, st')) :
    SendsAutodict st buf rest ↔ (2 ≤ size.toInt ∧ size.toInt ≤ 0xffffff) ∧
      size.toNat ≤ st'.length ∧ buf = st'.take size.toNat ∧ rest = st'.drop size.toNat := by
  constructor
  · rintro ⟨size', st'', h, hle, hmax, hrest⟩
    rw [hread] at h
    cases h
    exact ⟨⟨hle, hmax⟩, hrest⟩
  · rintro ⟨⟨hle, hmax⟩, hrest⟩
    exact ⟨size, st', hread, hle, hmax, hrest⟩

/-- Behind a dictionary that came. -/
theorem settles_addAutotokens (hello : Word) (buf : List UInt8) (s : HandshakeState) :
    Settles (addAutotokens buf >>= fun _ => readAflx hello) s
      (s.builder.autotokens ≠ none ∧ ¬ ∃ dict, Tokens.IsAutodict buf dict)
      (fun tokens' => AcceptsAflx hello s.st ∧
        match s.builder.autotokens with
        | some t => ∃ dict, Tokens.IsAutodict buf dict ∧ tokens' = some (t.addTokens dict)
        | none => tokens' = none) := by
  cases htokens : s.builder.autotokens with
  | none =>
      have hrun : (addAutotokens buf).run s = some (.ok (), s) := by
        rw [addAutotokens, run_ofFn]
        simp only [htokens]
      have haflx := settles_readAflx hello s
      rw [htokens] at haflx
      refine settles_of_ok hrun ⟨fun h => absurd rfl h.1, fun _ => haflx.answers not_false⟩
  | some t =>
      by_cases hdict : ∃ dict, Tokens.IsAutodict buf dict
      · obtain ⟨dict, hdict⟩ := hdict
        have hparse := Tokens.parseAutodict_of_isAutodict hdict t
        have hrun : (addAutotokens buf).run s = some (.ok (), { s with builder :=
            { s.builder with autotokens := some (t.addTokens dict) } }) := by
          rw [addAutotokens, run_ofFn]
          simp only [htokens, hparse, Option.map_some]
        refine settles_of_ok hrun ⟨fun h => absurd ⟨dict, hdict⟩ h.2, fun _ => ?_⟩
        refine ((settles_readAflx hello _).answers not_false).mono fun r s' h => ?_
        cases r with
        | ok _ => exact ⟨h.1, dict, hdict, h.2⟩
        | error e =>
            rintro tokens ⟨haflx, -⟩
            exact h _ ⟨haflx, rfl⟩
      · have hrun : (addAutotokens buf).run s = none := by
          rw [addAutotokens, run_ofFn]
          simp only [htokens, Tokens.parseAutodict_eq_none.mpr hdict, Option.map_none]
        exact settles_of_none hrun ⟨nofun, hdict⟩

theorem settles_iff {slip' : Prop} {A' : Option Tokens → Prop} {y : HandshakeCall Unit}
    (h : Settles y s slip A) (hslip : slip' ↔ slip) (hA : ∀ tokens, A' tokens ↔ A tokens) :
    Settles y s slip' A' := by
  obtain rfl : A' = A := funext fun tokens => propext (hA tokens)
  obtain rfl : slip' = slip := propext hslip
  exact h

/-- The target does not send the dictionary that its options announce. -/
theorem settles_of_unsent {e : HandshakeError} {tokens : Option Tokens} {options hello : Word}
    {st : List UInt8} (h : x.run s = some (.error e, t))
    (hbit : options &&& fsNewOptAutodtct ≠ 0) (hunsent : ∀ buf rest, ¬ SendsAutodict st buf rest) :
    Settles (x >>= f) s (BreaksAutodict tokens options st)
      (AcceptsAutodict tokens options hello st) := by
  refine settles_of_error h ?_ ?_
  · rintro ⟨-, -, buf, rest, hsends, -⟩
    exact hunsent buf rest hsends
  · intro tokens' haccepts
    rw [AcceptsAutodict, if_pos hbit] at haccepts
    obtain ⟨buf, rest, hsends, -⟩ := haccepts
    exact hunsent buf rest hsends

theorem settles_readAutodict (options hello : Word) (s : HandshakeState) :
    Settles (readAutodict options >>= fun _ => readAflx hello) s
      (BreaksAutodict s.builder.autotokens options s.st)
      (AcceptsAutodict s.builder.autotokens options hello s.st) := by
  unfold readAutodict
  by_cases hbit : options &&& fsNewOptAutodtct ≠ 0
  · rw [if_pos hbit, bind_assoc]
    cases hread : takeWord s.st with
    | none =>
        refine settles_of_unsent (run_readSt_of_none hread) hbit ?_
        rintro buf rest ⟨size, st', h, -⟩
        exact not_takeWord_of_none hread h
    | some read =>
        obtain ⟨size, st'⟩ := read
        refine settles_of_ok (run_readSt_of_some hread) ?_
        have hsends : ∀ buf rest, SendsAutodict s.st buf rest ↔ _ :=
          fun buf rest => sendsAutodict_iff hread
        by_cases hsize : 2 ≤ size.toInt ∧ size.toInt ≤ 0xffffff
        · rw [if_pos hsize, bind_assoc]
          by_cases hlen : size.toNat ≤ st'.length
          · have hrun : (readStOfLen .autotokensUnread size.toNat).run { s with st := st' } =
                some (.ok (st'.take size.toNat), { s with st := st'.drop size.toNat }) := by
              rw [readStOfLen, run_ofFn]
              exact if_pos hlen
            refine settles_of_ok hrun (settles_iff (settles_addAutotokens hello _ _) ?_ ?_)
            · constructor
              · rintro ⟨-, htokens, buf, rest, hsent, hdict⟩
                obtain ⟨-, -, rfl, rfl⟩ := (hsends buf rest).mp hsent
                exact ⟨htokens, hdict⟩
              · rintro ⟨htokens, hdict⟩
                have hsent := (hsends _ _).mpr ⟨hsize, hlen, rfl, rfl⟩
                exact ⟨hbit, htokens, _, _, hsent, hdict⟩
            · simp only [AcceptsAutodict, if_pos hbit, hsends, hsize, hlen]
              simp
          · have hrun : (readStOfLen .autotokensUnread size.toNat).run { s with st := st' } =
                some (.error .autotokensUnread, { s with st := [] }) := by
              rw [readStOfLen, run_ofFn]
              exact if_neg hlen
            exact settles_of_unsent hrun hbit fun buf rest h => hlen ((hsends buf rest).mp h).2.1
        · rw [if_neg hsize]
          exact settles_of_unsent rfl hbit fun buf rest h => hsize ((hsends buf rest).mp h).1
  · rw [if_neg hbit]
    refine settles_of_ok (run_pure () s) (settles_iff (settles_readAflx hello s) ?_ ?_)
    · exact iff_false_intro fun h => hbit h.1
    · intro tokens
      rw [AcceptsAutodict, if_neg hbit]

theorem settles_checkShmem (options hello : Word) (s : HandshakeState) :
    Settles (checkShmem options >>= fun _ => readAutodict options >>= fun _ => readAflx hello) s
      (AsksForPrepared s.builder options ∧ BreaksAutodict s.builder.autotokens options s.st)
      (fun tokens => AsksForPrepared s.builder options ∧
        AcceptsAutodict s.builder.autotokens options hello s.st tokens) := by
  by_cases hasks : AsksForPrepared s.builder options
  · have hrun : ∃ t, (checkShmem options).run s = some (.ok (), t) ∧
        t.builder.autotokens = s.builder.autotokens ∧ t.st = s.st := by
      rw [checkShmem, run_ofFn]
      by_cases hbit : options &&& fsNewOptShdmemFuzz ≠ 0
      · rw [if_pos hbit, dif_pos (hasks hbit)]
        exact ⟨_, rfl, rfl, rfl⟩
      · rw [if_neg hbit]
        exact ⟨_, rfl, rfl, rfl⟩
    obtain ⟨t, hrun, htokens, hst⟩ := hrun
    have hrest := settles_readAutodict options hello t
    rw [htokens, hst] at hrest
    exact settles_of_ok hrun
      (settles_iff hrest (and_iff_right hasks) fun tokens => and_iff_right hasks)
  · have hrun : (checkShmem options).run s = some (.error .shmemNotPrepared, s) := by
      obtain ⟨hbit, hprepared⟩ := Classical.not_imp.mp hasks
      rw [checkShmem, run_ofFn, if_pos hbit, dif_neg hprepared]
    exact settles_of_error hrun (fun h => hasks h.1) fun tokens h => hasks h.1

/-- Where nothing is to be accepted, what would be accepted is a slip too. -/
theorem settles_refuse {y : HandshakeCall Unit} (h : Settles y s slip A) :
    y.Yields s (Answers fun _ => False) ↔ ¬ slip ∧ ∀ tokens, ¬ A tokens := by
  by_cases hslip : slip
  · refine iff_of_false ?_ fun hboth => hboth.1 hslip
    intro hyields
    exact hyields.ne_none (h.panics hslip)
  · obtain ⟨r, t, hrun, hanswer⟩ := h.answers hslip
    rw [yields_of_run hrun, and_iff_right hslip]
    cases r with
    | ok _ => exact iff_of_false id fun hnone => hnone _ hanswer
    | error e => exact iff_of_true (fun _ => id) hanswer

theorem Settles.yields_iff {y : HandshakeCall Unit} (h : Settles y s slip A) :
    y.Yields s (Answers A) ↔ ¬ slip :=
  ⟨fun hyields hslip => hyields.ne_none (h.panics hslip), h.answers⟩

theorem not_passesNegative_of_fits {mapSize : Option Nat} {n : Int} (h : Fits mapSize n) :
    ¬ PassesNegative mapSize n := fun hneg => not_lt.mpr h.1 hneg.1

/-- The options, from the size of the map on. -/
theorem yields_readMapSize (options hello : Word) (s : HandshakeState) :
    (readMapSize options >>= fun _ => checkShmem options >>= fun _ =>
        readAutodict options >>= fun _ => readAflx hello).Yields s
      (Answers fun tokens => AsksForPrepared s.builder options ∧
        if options &&& fsNewOptMapsize = fsNewOptMapsize then
          ∃ size st, takeWord s.st = some (size, st) ∧ Fits s.builder.mapSize size.toInt ∧
            AcceptsAutodict s.builder.autotokens options hello st tokens
        else AcceptsAutodict s.builder.autotokens options hello s.st tokens) ↔
      ¬ SlipsInOptions s.builder options hello s.st := by
  unfold readMapSize SlipsInOptions
  by_cases hbit : options &&& fsNewOptMapsize = fsNewOptMapsize
  · simp only [if_pos hbit, bind_assoc]
    cases hread : takeWord s.st with
    | none =>
        rw [yields_bind_of_error (run_readSt_of_none hread)]
        refine iff_of_true ?_ ?_
        · rintro tokens ⟨-, size, st, ⟨⟩, -⟩
        · rintro ⟨size, st, ⟨⟩, -⟩
    | some read =>
        obtain ⟨size, st⟩ := read
        rw [yields_bind_of_ok (run_readSt_of_some hread)]
        simp only [Option.some.injEq, Prod.mk.injEq, ↓existsAndEq, true_and, pure_bind]
        obtain ⟨hle, hlt⟩ := toInt_bounds size
        by_cases hlarge : 2 ^ 31 - 64 < size.toInt
        · refine iff_of_false (fun hyields => hyields.ne_none ?_) (not_not.mpr (.inl hlarge))
          rw [run_bind, run_setMapSize_of_large hlt hlarge]
          rfl
        have hrest := settles_checkShmem options hello { s with st, builder :=
          { s.builder with mapSize := some (asUsize (roundedUp size.toInt)) } }
        by_cases hfits : Fits s.builder.mapSize size.toInt
        · have hneg := not_passesNegative_of_fits hfits
          rw [yields_bind_of_ok (run_setMapSize_of_passes (s := { s with st }) hle
            (not_lt.mp hlarge) (.inl hfits))]
          simp only [hlarge, hfits, hneg, true_and, false_and, and_false, or_false, false_or]
          exact hrest.yields_iff
        · by_cases hneg : PassesNegative s.builder.mapSize size.toInt
          · rw [yields_bind_of_ok (run_setMapSize_of_passes (s := { s with st }) hle
              (not_lt.mp hlarge) (.inr hneg))]
            simp only [hlarge, hfits, hneg, or_true, true_and, false_and, and_false, false_or,
              not_or, ← exists_and_left, not_exists]
            exact settles_refuse hrest
          · obtain ⟨e, hset⟩ := run_setMapSize_of_not_passes hle (not_lt.mp hlarge)
              (s := { s with st }) (not_or.mpr ⟨hfits, hneg⟩)
            rw [yields_bind_of_error hset]
            simp only [hlarge, hfits, hneg, false_and, and_false, or_false, not_false_eq_true,
              iff_true]
            exact fun tokens => id
  · simp only [if_neg hbit]
    rw [yields_bind_of_ok (run_pure () s)]
    exact (settles_checkShmem options hello s).yields_iff

theorem run_checkVersion_of_supported {hello : Word} (h : Supported hello) (s : HandshakeState) :
    (checkVersion hello).run s = some (.ok (), s) := by
  have hbase : ¬ hello.toNat < fsNewVersionMagicBase := by
    rw [h]
    exact Nat.not_lt.mpr (Nat.le_succ fsNewVersionMagicBase)
  have hversion : hello.toNat - fsNewVersionMagicBase = 1 := by
    rw [h]
    rfl
  rw [checkVersion, run_ofFn, if_neg hbase]
  simp only [hversion, one_ne_zero, if_false]
  rfl

theorem run_checkVersion_of_not_supported {hello : Word} (h : ¬ Supported hello)
    (hbase : ¬ hello.toNat < fsNewVersionMagicBase) (s : HandshakeState) :
    ∃ e, (checkVersion hello).run s = some (.error e, s) := by
  have hversion : ¬ (fsNewVersionMin ≤ hello.toNat - fsNewVersionMagicBase ∧
      hello.toNat - fsNewVersionMagicBase ≤ fsNewVersionMax) := by
    unfold Supported at h
    unfold fsNewVersionMin fsNewVersionMax fsNewVersionMagicBase
    unfold fsNewVersionMagicBase at hbase
    omega
  rw [checkVersion, run_ofFn, if_neg hbase]
  by_cases hzero : hello.toNat - fsNewVersionMagicBase = 0
  · exact ⟨_, if_pos hzero⟩
  · exact ⟨_, (if_neg hzero).trans (if_neg hversion)⟩

theorem yields_initializeForkserver (hello : Word) (s : HandshakeState) :
    (initializeForkserver hello).Yields s (Answers fun tokens => Supported hello ∧
        ∃ options st, takeWord s.st = some (options, st) ∧ AsksForPrepared s.builder options ∧
          if options &&& fsNewOptMapsize = fsNewOptMapsize then
            ∃ size st', takeWord st = some (size, st') ∧ Fits s.builder.mapSize size.toInt ∧
              AcceptsAutodict s.builder.autotokens options hello st' tokens
          else AcceptsAutodict s.builder.autotokens options hello st tokens) ↔
      ¬ (hello.toNat < fsNewVersionMagicBase ∨
        (Supported hello ∧ ∃ options st, takeWord s.st = some (options, st) ∧
          SlipsInOptions s.builder options hello st)) := by
  unfold initializeForkserver
  by_cases hbase : hello.toNat < fsNewVersionMagicBase
  · refine iff_of_false (fun hyields => hyields.ne_none ?_) (not_not.mpr (.inl hbase))
    rw [run_bind, checkVersion, run_ofFn, if_pos hbase]
    rfl
  by_cases hsupported : Supported hello
  · have hcheck := run_checkVersion_of_supported hsupported s
    have hwrite : (writeCtl (hello ^^^ 0xffffffff)).run s =
        some (.ok (), { s with ctl := s.ctl ++ [hello ^^^ 0xffffffff] }) := rfl
    rw [yields_bind_of_ok hcheck, yields_bind_of_ok hwrite]
    simp only [hbase, hsupported, true_and, false_or]
    cases hread : takeWord s.st with
    | none =>
        rw [yields_bind_of_error
          (run_readSt_of_none (s := { s with ctl := s.ctl ++ [hello ^^^ 0xffffffff] }) hread)]
        refine iff_of_true ?_ ?_
        · rintro tokens ⟨options, st, ⟨⟩, -⟩
        · rintro ⟨options, st, ⟨⟩, -⟩
    | some read =>
        obtain ⟨options, st⟩ := read
        rw [yields_bind_of_ok
          (run_readSt_of_some (s := { s with ctl := s.ctl ++ [hello ^^^ 0xffffffff] }) hread)]
        simp only [Option.some.injEq, Prod.mk.injEq, ↓existsAndEq, true_and]
        exact yields_readMapSize options hello _
  · obtain ⟨e, hcheck⟩ := run_checkVersion_of_not_supported hsupported hbase s
    rw [yields_bind_of_error hcheck]
    refine iff_of_true (fun tokens h => hsupported h.1) ?_
    rintro (h | h)
    · exact hbase h
    · exact hsupported h.1

theorem accepts_iff {builder : ForkserverExecutorBuilder} {st st₁ : List UInt8} {hello : Word}
    (hread : takeWord st = some (hello, st₁)) (tokens : Option Tokens) :
    Accepts builder st tokens ↔ Supported hello ∧
      ∃ options st₂, takeWord st₁ = some (options, st₂) ∧ AsksForPrepared builder options ∧
        if options &&& fsNewOptMapsize = fsNewOptMapsize then
          ∃ size st₃, takeWord st₂ = some (size, st₃) ∧ Fits builder.mapSize size.toInt ∧
            AcceptsAutodict builder.autotokens options hello st₃ tokens
        else AcceptsAutodict builder.autotokens options hello st₂ tokens := by
  constructor
  · rintro ⟨hello', st₁', options, st₂, h, hsupported, hrest⟩
    rw [hread] at h
    cases h
    exact ⟨hsupported, options, st₂, hrest⟩
  · rintro ⟨hsupported, options, st₂, hrest⟩
    exact ⟨hello, st₁, options, st₂, hread, hsupported, hrest⟩

/-- An error word is for no version. -/
theorem le_of_fsNewError {hello : Word} (h : hello &&& fsNewError = fsNewError) :
    0xeffe0000 ≤ hello.toNat := by
  have hand := congrArg BitVec.toNat h
  rw [BitVec.toNat_and] at hand
  have hle := Nat.and_le_left (n := hello.toNat) (m := fsNewError.toNat)
  rw [hand] at hle
  exact hle

/-- Memory that is used was prepared, so the last check never fails. -/
theorem yields_checkMap {Q : Except HandshakeError Unit → HandshakeState → Prop} :
    (read HandshakeState.builder >>= fun builder =>
      if builder.usesShmemTestcase && !builder.tryUseInputShmem then fail .mapNotSet
      else pure ()).Yields t Q ↔ Q (.ok ()) t := by
  have hprepared : ¬ (t.builder.usesShmemTestcase && !t.builder.tryUseInputShmem) = true := by
    intro h
    rw [Bool.and_eq_true, Bool.not_eq_true'] at h
    rw [t.builder.prepared h.1] at h
    exact absurd h.2 (by simp)
  rw [yields_bind_of_ok (run_read _ t), if_neg hprepared]
  exact yields_pure

/-- The handshake neither panics nor overflows: it is accepted, with its tokens,
if it is as it should be, and is an error otherwise. -/
def Total (s : HandshakeState) : Prop :=
  handshake.Yields s (Answers (Accepts s.builder s.st))

theorem total_iff (s : HandshakeState) : Total s ↔ ¬ Slips s.builder s.st := by
  unfold Total handshake Slips
  cases hread : takeWord s.st with
  | none =>
      rw [yields_bind_of_error (run_readSt_of_none hread)]
      refine iff_of_true ?_ ?_
      · rintro tokens ⟨hello, st₁, options, st₂, h, -⟩
        exact not_takeWord_of_none hread h
      · rintro ⟨hello, st₁, ⟨⟩, -⟩
  | some read =>
      obtain ⟨hello, st₁⟩ := read
      rw [yields_bind_of_ok (run_readSt_of_some hread)]
      have haccepts := funext fun tokens => propext (@accepts_iff s.builder _ _ _ hread tokens)
      simp only [haccepts, Option.some.injEq, Prod.mk.injEq, ↓existsAndEq, true_and]
      by_cases herror : hello &&& fsNewError = fsNewError
      · have hle := le_of_fsNewError herror
        have hnot : ¬ Supported hello := by
          rw [Supported]
          omega
        rw [if_pos herror]
        refine iff_of_true ⟨_, _, rfl, fun tokens h => hnot h.1⟩ ?_
        rintro (h | h)
        · rw [fsNewVersionMagicBase] at h
          omega
        · exact hnot h.1
      · rw [if_neg herror, ← yields_initializeForkserver hello { s with st := st₁ }, yields_bind]
        refine yields_congr fun r t => ?_
        cases r with
        | ok _ => exact yields_checkMap
        | error e => exact Iff.rfl

/-- A target that says hello with zeros. -/
theorem not_total_zeros :
    ¬ Total ⟨⟨false, none, false, some 64, (absurd · Bool.false_ne_true)⟩, [0, 0, 0, 0], []⟩ :=
  fun h => h.ne_none rfl

end Handshake

end Libaflmm
