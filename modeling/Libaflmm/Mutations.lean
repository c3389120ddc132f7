import Libaflmm.Calls
import Libaflmm.Hitcounts
import Libaflmm.Rand
import Libaflmm.Slices
import Libaflmm.Store

/-!
# Mutations

The mutators of the havoc, crossover and token lists, over an input of
resizable bytes. Most move bytes about with helpers that check their bounds
in debug builds only. A release build that leaves the bounds has undefined
behaviour; as a panic of a debug build it is `none`.
-/

namespace Libaflmm

/-! ## Buffers -/

section

variable {α : Type} (debug : Bool)

def bufferSelfCopy (data : List α) (start dest len : Nat) : Option (List α) :=
  if debug ∧ ¬(data ≠ [] ∧ start + len ≤ data.length ∧ dest + len ≤ data.length) then none
  else if len ≠ 0 ∧ start ≠ dest then
    if start + len ≤ data.length ∧ dest + len ≤ data.length then
      some (Slice.writeAt data dest (Slice.sub data start len))
    else none
  else some data

def bufferCopy (dst src : List α) (start dest len : Nat) : Option (List α) :=
  if debug ∧ ¬(dst ≠ [] ∧ src ≠ [] ∧ start + len ≤ src.length ∧ dest + len ≤ dst.length) then none
  else if len ≠ 0 then
    if start + len ≤ src.length ∧ dest + len ≤ dst.length then
      some (Slice.writeAt dst dest (Slice.sub src start len))
    else none
  else some dst

/-- The slice is checked in every build. -/
def bufferSet (data : List α) (start len : Nat) (val : α) : Option (List α) :=
  if start + len ≤ data.length then some (Slice.writeAt data start (List.replicate len val))
  else none

end

/-- A window of up to `maxLen` elements, which may lie half outside of the
`upper` ones there are, and is cut off then. -/
def randRange {R : Type} [Rand R] (upper : Nat) (maxLen : NonZeroUsize) (r : R) : Range × R :=
  let (len, r) := Rand.below maxLen r
  let len := 1 + len
  let (offset2, r) := Rand.belowOrZero (upper + len - 1) r
  let offset2 := 1 + offset2
  let offset1 := offset2 - len
  (⟨offset1, if offset2 > upper then upper else offset2⟩, r)

/-! ## Words -/

/-- The bytes of a number, the least significant one first. -/
def leBytes : Nat → Nat → List UInt8
  | 0, _ => []
  | size + 1, n => UInt8.ofNat n :: leBytes size (n / 256)

def ofLeBytes : List UInt8 → Nat
  | [] => 0
  | byte :: bytes => byte.toNat + 256 * ofLeBytes bytes

namespace Endian

def toBytes (e : Endian) (size n : Nat) : List UInt8 :=
  match e with
  | little => leBytes size n
  | big => (leBytes size n).reverse

def ofBytes (e : Endian) (bytes : List UInt8) : Nat :=
  match e with
  | little => ofLeBytes bytes
  | big => ofLeBytes bytes.reverse

end Endian

def swapBytes (size n : Nat) : Nat := ofLeBytes (leBytes size n).reverse

def wrappingAdd (size a b : Nat) : Nat := (a + b) % 256 ^ size

def wrappingSub (size a b : Nat) : Nat := (a + 256 ^ size - b) % 256 ^ size

/-! ## Mutators -/

inductive MutationResult where
  | mutated
  | skipped
deriving DecidableEq

class HasMutatorBytes (I : Type) where
  mutatorBytes : I → List UInt8

instance : HasMutatorBytes (List UInt8) := ⟨id⟩

/-- What the mutators read of the state: the corpus is of inputs `I`, and
looks the same testcase up under an id, whichever way it is asked. -/
structure MutatorState (I : Type) where
  maxSize : Nat
  ids : List TestcaseId
  current : Option TestcaseId
  get : TestcaseId → Result I
  getFromAll : TestcaseId → Result I
  tokens : Option (List (List UInt8))
  getFromAll_of_get : ∀ id input, get id = .ok input → getFromAll id = .ok input

/-- What the mutators write: the input, their own buffer and the generator. -/
structure Mutation (R : Type) where
  input : List UInt8
  tmpBuf : List UInt8
  rand : R
deriving DecidableEq

abbrev Mutate (R α : Type) := Call Error (Mutation R) α

namespace Mutate

variable {R : Type}

def bytes : Mutate R (List UInt8) := .read Mutation.input

def unwrap {α : Type} (o : Option α) : Mutate R α :=
  .ofFn fun s => o.map fun a => (.ok a, s)

def edit (f : List UInt8 → Option (List UInt8)) : Mutate R Unit :=
  .ofFn fun s => (f s.input).map fun input => (.ok (), { s with input })

def draw {α : Type} (f : R → α × R) : Mutate R α :=
  .ofFn fun s => some (.ok (f s.rand).1, { s with rand := (f s.rand).2 })

/-- In a release build a zero is undefined behaviour. -/
def newUnchecked (n : Nat) : Mutate R NonZeroUsize :=
  unwrap (if h : 0 < n then some ⟨n, h⟩ else none)

def resize (newLen : Nat) : Mutate R Unit := edit fun input => some (Vec.resize input newLen 0)

def resizeTmp (newLen : Nat) : Mutate R Unit :=
  .update fun s => { s with tmpBuf := Vec.resize s.tmpBuf newLen 0 }

def selfCopy (debug : Bool) (start dest len : Nat) : Mutate R Unit :=
  edit (bufferSelfCopy debug · start dest len)

def copyFrom (debug : Bool) (src : List UInt8) (start dest len : Nat) : Mutate R Unit :=
  edit (bufferCopy debug · src start dest len)

def copyToTmp (debug : Bool) (start dest len : Nat) : Mutate R Unit :=
  .ofFn fun s => (bufferCopy debug s.tmpBuf s.input start dest len).map fun tmpBuf =>
    (.ok (), { s with tmpBuf })

def copyFromTmp (debug : Bool) (start dest len : Nat) : Mutate R Unit := do
  copyFrom debug (← .read Mutation.tmpBuf) start dest len

def set (start len : Nat) (val : UInt8) : Mutate R Unit := edit (bufferSet · start len val)

end Mutate

open Mutate

section

variable {R : Type} [Rand R]

/-- `choose` among the bytes of the input, as their index. -/
def chooseByte : Mutate R Nat := do
  let index ← draw (Rand.choose (List.range (← bytes).length))
  unwrap index

/-! ### Bits and bytes -/

/-- The mutators that change one byte. -/
def mutateByte (change : Mutate R (UInt8 → UInt8)) : Mutate R MutationResult := do
  if (← bytes).isEmpty then return .skipped
  else
    let f ← change
    let index ← chooseByte
    edit fun input => some (input.modify index f)
    return .mutated

def BitFlipMutator.mutate : Mutate R MutationResult := do
  mutateByte do
    let bit ← unwrap (← draw (Rand.choose (List.range 8)))
    return (· ^^^ (1 <<< UInt8.ofNat bit))

def ByteFlipMutator.mutate : Mutate R MutationResult := mutateByte (return (· ^^^ 0xff))

def ByteIncMutator.mutate : Mutate R MutationResult := mutateByte (return (· + 1))

def ByteDecMutator.mutate : Mutate R MutationResult := mutateByte (return (· - 1))

def ByteNegMutator.mutate : Mutate R MutationResult := mutateByte (return (-·))

/-- The value is drawn after the byte is chosen. -/
def ByteRandMutator.mutate : Mutate R MutationResult := do
  if (← bytes).isEmpty then return .skipped
  else
    let index ← chooseByte
    let val ← draw (Rand.below ⟨254, by decide⟩)
    edit fun input => some (input.modify index (· ^^^ (1 + UInt8.ofNat val)))
    return .mutated

/-! ### Words -/

def arithMax : NonZeroUsize := ⟨35, by decide⟩

/-- Adds or subtracts a small value to the word of `size` bytes at a random
place, in a random byte order. -/
def addMutator (endian : Endian) (size : Nat) : Mutate R MutationResult := do
  let bytes ← bytes
  if bytes.length < size then return .skipped
  else
    let index ← unwrap (← draw (Rand.choose (List.range (bytes.length - size + 1))))
    let val := endian.ofBytes (Slice.sub bytes index size)
    let num := 1 + (← draw (Rand.below arithMax))
    let newVal := match ← draw (Rand.below ⟨4, by decide⟩) with
      | 0 => wrappingAdd size val num
      | 1 => wrappingSub size val num
      | 2 => swapBytes size (wrappingAdd size (swapBytes size val) num)
      | _ => swapBytes size (wrappingSub size (swapBytes size val) num)
    edit fun input => some (Slice.writeAt input index (endian.toBytes size newVal))
    return .mutated

def ByteAddMutator.mutate (endian : Endian) : Mutate R MutationResult := addMutator endian 1

def WordAddMutator.mutate (endian : Endian) : Mutate R MutationResult := addMutator endian 2

def DwordAddMutator.mutate (endian : Endian) : Mutate R MutationResult := addMutator endian 4

def QwordAddMutator.mutate (endian : Endian) : Mutate R MutationResult := addMutator endian 8

def interesting8 : List Int := [-128, -1, 0, 1, 16, 32, 64, 100, 127]

def interesting16 : List Int :=
  [-128, -1, 0, 1, 16, 32, 64, 100, 127, -32768, -129, 128, 255, 256, 512, 1000, 1024, 4096,
    32767]

def interesting32 : List Int :=
  [-128, -1, 0, 1, 16, 32, 64, 100, 127, -32768, -129, 128, 255, 256, 512, 1000, 1024, 4096,
    32767, -2147483648, -100663046, -32769, 32768, 65535, 65536, 100663045, 2147483647]

/-- Writes an interesting value over a random place. -/
def interestingMutator (size : Nat) (interesting : List Int) : Mutate R MutationResult := do
  let bytes ← bytes
  if bytes.length < size then return .skipped
  else
    let upperBound := bytes.length + 1 - size
    let idx ← draw (Rand.below (← newUnchecked upperBound))
    let val ← unwrap (← draw (Rand.choose interesting))
    let val := (val % 256 ^ size).toNat
    let newBytes := match ← unwrap (← draw (Rand.choose [0, 1])) with
      | 0 => Endian.big.toBytes size val
      | _ => Endian.little.toBytes size val
    edit fun input => some (Slice.writeAt input idx newBytes)
    return .mutated

def ByteInterestingMutator.mutate : Mutate R MutationResult := interestingMutator 1 interesting8

def WordInterestingMutator.mutate : Mutate R MutationResult := interestingMutator 2 interesting16

def DwordInterestingMutator.mutate : Mutate R MutationResult := interestingMutator 4 interesting32

/-! ### Ranges of bytes -/

def BytesDeleteMutator.mutate : Mutate R MutationResult := do
  let size := (← bytes).length
  if size ≤ 2 then return .skipped
  else
    let range ← draw (randRange size (← newUnchecked (size - 1)))
    edit fun input =>
      (Vec.drain input ⟨.included range.start, .excluded range.stop⟩).map Prod.fst
    return .mutated

def BytesSetMutator.mutate : Mutate R MutationResult := do
  let size := (← bytes).length
  if size = 0 then return .skipped
  else
    let range ← draw (randRange size (← newUnchecked (min size 16)))
    let val ← unwrap (← draw (Rand.choose (← bytes)))
    set range.start range.len val
    return .mutated

def BytesRandSetMutator.mutate : Mutate R MutationResult := do
  let size := (← bytes).length
  if size = 0 then return .skipped
  else
    let range ← draw (randRange size (← newUnchecked (min size 16)))
    let val ← draw Rand.next
    set range.start range.len val.toUInt8
    return .mutated

variable (debug : Bool)

def BytesExpandMutator.mutate (maxSize : Nat) : Mutate R MutationResult := do
  let size := (← bytes).length
  if size = 0 ∨ size ≥ maxSize then return .skipped
  else
    let range ← draw (randRange size (← newUnchecked (min 16 (maxSize - size))))
    resize (size + range.len)
    selfCopy debug range.start (range.start + range.len) (size - range.start)
    return .mutated

/-- The bytes to insert, no more than the input may grow by. -/
def capAmount (size amount maxSize : Nat) : Option Nat :=
  if size + amount > maxSize then
    if maxSize > size then some (maxSize - size) else none
  else some amount

def BytesInsertMutator.mutate (maxSize : Nat) : Mutate R MutationResult := do
  let size := (← bytes).length
  if size = 0 ∨ size ≥ maxSize then return .skipped
  else
    let amount := 1 + (← draw (Rand.below ⟨16, by decide⟩))
    let offset ← draw (Rand.below (← newUnchecked (size + 1)))
    match capAmount size amount maxSize with
    | none => return .skipped
    | some amount =>
      let index ← draw (Rand.below (← newUnchecked size))
      let val ← unwrap (← bytes)[index]?
      resize (size + amount)
      selfCopy debug offset (offset + amount) (size - offset)
      set offset amount val
      return .mutated

def BytesRandInsertMutator.mutate (maxSize : Nat) : Mutate R MutationResult := do
  let size := (← bytes).length
  if size ≥ maxSize then return .skipped
  else
    let amount := 1 + (← draw (Rand.below ⟨16, by decide⟩))
    let offset ← draw (Rand.below (← newUnchecked (size + 1)))
    match capAmount size amount maxSize with
    | none => return .skipped
    | some amount =>
      let val ← draw Rand.next
      resize (size + amount)
      selfCopy debug offset (offset + amount) (size - offset)
      set offset amount val.toUInt8
      return .mutated

def BytesCopyMutator.mutate : Mutate R MutationResult := do
  let size := (← bytes).length
  if size ≤ 1 then return .skipped
  else
    let target ← draw (Rand.below (← newUnchecked size))
    let range ← draw (randRange size (← newUnchecked (size - target)))
    selfCopy debug range.start target range.len
    return .mutated

def BytesInsertCopyMutator.mutate (maxSize : Nat) : Mutate R MutationResult := do
  let size := (← bytes).length
  if size ≤ 1 ∨ size ≥ maxSize then return .skipped
  else
    let target ← draw (Rand.below (← newUnchecked size))
    let maxInsertLen := min 16 (min (size - target) (maxSize - size))
    let range ← draw (randRange size (← newUnchecked maxInsertLen))
    resize (size + range.len)
    resizeTmp range.len
    copyToTmp debug range.start 0 range.len
    selfCopy debug target (target + range.len) (size - target)
    copyFromTmp debug 0 target range.len
    return .mutated

/-- Swaps two ranges, of which `low` comes first: what is between them moves
by the difference of their lengths. -/
def swapRanges (low high : Range) : Mutate R Unit := do
  resizeTmp high.len
  if high.len ≥ low.len then
    let diffInSize := high.len - low.len
    copyToTmp debug high.start 0 high.len
    selfCopy debug low.stop (low.stop + diffInSize) (high.start - low.stop)
    selfCopy debug low.start (high.start + diffInSize) low.len
    copyFromTmp debug 0 low.start high.len
  else
    let diffInSize := low.len - high.len
    copyToTmp debug high.start 0 high.len
    selfCopy debug low.stop (low.stop - diffInSize) (high.start - low.stop)
    selfCopy debug low.start (high.start - diffInSize) low.len
    copyFromTmp debug 0 low.start high.len

def BytesSwapMutator.mutate : Mutate R MutationResult := do
  let size := (← bytes).length
  if size ≤ 1 then return .skipped
  else
    let first ← draw (randRange size (← newUnchecked size))
    if (← draw Rand.next) &&& 1 = 0 ∧ first.start ≠ 0 then
      -- The second range comes before the first one.
      let second ← draw (randRange first.start (← newUnchecked first.start))
      swapRanges debug second first
      return .mutated
    else if first.stop ≠ size then
      let second ← draw (randRange (size - first.stop) (← newUnchecked (size - first.stop)))
      swapRanges debug first ⟨second.start + first.stop, second.stop + first.stop⟩
      return .mutated
    else return .skipped

/-! ### Crossover -/

def crossoverInsert (size target : Nat) (range : Range) (other : List UInt8) :
    Mutate R MutationResult := do
  resize (size + range.len)
  selfCopy debug target (target + range.len) (size - target)
  copyFrom debug other range.start target range.len
  return .mutated

def crossoverReplace (target : Nat) (range : Range) (other : List UInt8) :
    Mutate R MutationResult := do
  copyFrom debug other range.start target range.len
  return .mutated

section

variable {I : Type} (state : MutatorState I)

/-- A testcase of the corpus other than the current one, if one is drawn. -/
def chooseOther : Mutate R (Option TestcaseId) := do
  match ← draw (Rand.choose state.ids) with
  | none => return none
  | some id => return if state.current = some id then none else some id

def CrossoverInsertMutator.mutate [HasMutatorBytes I] : Mutate R MutationResult := do
  let size := (← bytes).length
  if hsize : 0 < size then
    if size ≥ state.maxSize then return .skipped
    else
      match ← chooseOther state with
      | none => return .skipped
      | some id =>
        let otherSize := (HasMutatorBytes.mutatorBytes (← .ofResult (state.get id))).length
        if otherSize < 2 then return .skipped
        else
          let maxLen ← newUnchecked (min otherSize (state.maxSize - size))
          let range ← draw (randRange otherSize maxLen)
          let target ← draw (Rand.below ⟨size, hsize⟩)
          let other ← .ofResult (state.getFromAll id)
          crossoverInsert debug size target range (HasMutatorBytes.mutatorBytes other)
  else return .skipped

def CrossoverReplaceMutator.mutate [HasMutatorBytes I] : Mutate R MutationResult := do
  let size := (← bytes).length
  if size = 0 then return .skipped
  else
    match ← chooseOther state with
    | none => return .skipped
    | some id =>
      let otherSize := (HasMutatorBytes.mutatorBytes (← .ofResult (state.getFromAll id))).length
      if otherSize < 2 then return .skipped
      else
        let target ← draw (Rand.below (← newUnchecked size))
        let maxLen ← newUnchecked (min otherSize (size - target))
        let range ← draw (randRange otherSize maxLen)
        let other ← .ofResult (state.getFromAll id)
        crossoverReplace debug target range (HasMutatorBytes.mutatorBytes other)

variable (inputMapper : I → Option (List UInt8))

def MappedCrossoverInsertMutator.mutate : Mutate R MutationResult := do
  let size := (← bytes).length
  if size ≥ state.maxSize ∨ size = 0 then return .skipped
  else
    match ← chooseOther state with
    | none => return .skipped
    | some id =>
      let otherInput ← .ofResult (state.getFromAll id)
      let otherSize := ((inputMapper otherInput).map List.length).getD 0
      if otherSize < 2 then return .skipped
      else
        let maxLen ← newUnchecked (min otherSize (state.maxSize - size))
        let range ← draw (randRange otherSize maxLen)
        let target ← draw (Rand.below (← newUnchecked size))
        match inputMapper (← .ofResult (state.getFromAll id)) with
        | none => return .skipped
        | some other => crossoverInsert debug size target range other

def MappedCrossoverReplaceMutator.mutate : Mutate R MutationResult := do
  let size := (← bytes).length
  if size = 0 then return .skipped
  else
    match ← chooseOther state with
    | none => return .skipped
    | some id =>
      let otherInput ← .ofResult (state.getFromAll id)
      let otherSize := ((inputMapper otherInput).map List.length).getD 0
      if otherSize < 2 then return .skipped
      else
        let target ← draw (Rand.below (← newUnchecked size))
        let maxLen ← newUnchecked (min otherSize (size - target))
        let range ← draw (randRange otherSize maxLen)
        match inputMapper (← .ofResult (state.getFromAll id)) with
        | none => return .skipped
        | some other => crossoverReplace debug target range other

/-! ### Tokens -/

def TokenInsert.mutate : Mutate R MutationResult := do
  match state.tokens with
  | none => return .skipped
  | some tokens =>
    if htokens : 0 < tokens.length then
      let tokenIdx ← draw (Rand.below ⟨tokens.length, htokens⟩)
      let size := (← bytes).length
      let off ← draw (Rand.below (← newUnchecked (size + 1)))
      let token ← unwrap tokens[tokenIdx]?
      match capAmount size token.length state.maxSize with
      | none => return .skipped
      | some len =>
        resize (size + len)
        selfCopy debug off (off + len) (size - off)
        copyFrom debug token 0 off len
        return .mutated
    else return .skipped

def TokenReplace.mutate : Mutate R MutationResult := do
  let size := (← bytes).length
  if hsize : 0 < size then
    let off ← draw (Rand.below ⟨size, hsize⟩)
    match state.tokens with
    | none => return .skipped
    | some tokens =>
      if htokens : 0 < tokens.length then
        let tokenIdx ← draw (Rand.below ⟨tokens.length, htokens⟩)
        let token ← unwrap tokens[tokenIdx]?
        let len := if off + token.length > size then size - off else token.length
        copyFrom debug token 0 off len
        return .mutated
      else return .skipped
  else return .skipped

end

end

/-! ## The lists -/

/-- A mutator of the lists, over a corpus of inputs `I`. -/
inductive Mutator (I : Type) where
  | bitFlip | byteFlip | byteInc | byteDec | byteNeg | byteRand
  | byteAdd | wordAdd | dwordAdd | qwordAdd
  | byteInteresting | wordInteresting | dwordInteresting
  | bytesDelete | bytesExpand | bytesInsert | bytesRandInsert | bytesSet | bytesRandSet
  | bytesCopy | bytesInsertCopy | bytesSwap
  | crossoverInsert | crossoverReplace
  | mappedCrossoverInsert (inputMapper : I → Option (List UInt8))
  | mappedCrossoverReplace (inputMapper : I → Option (List UInt8))
  | tokenInsert | tokenReplace

namespace Mutator

variable {I : Type}

def mutate {R : Type} [Rand R] [HasMutatorBytes I] (debug : Bool) (endian : Endian)
    (state : MutatorState I) : Mutator I → Mutate R MutationResult
  | bitFlip => BitFlipMutator.mutate
  | byteFlip => ByteFlipMutator.mutate
  | byteInc => ByteIncMutator.mutate
  | byteDec => ByteDecMutator.mutate
  | byteNeg => ByteNegMutator.mutate
  | byteRand => ByteRandMutator.mutate
  | byteAdd => ByteAddMutator.mutate endian
  | wordAdd => WordAddMutator.mutate endian
  | dwordAdd => DwordAddMutator.mutate endian
  | qwordAdd => QwordAddMutator.mutate endian
  | byteInteresting => ByteInterestingMutator.mutate
  | wordInteresting => WordInterestingMutator.mutate
  | dwordInteresting => DwordInterestingMutator.mutate
  | bytesDelete => BytesDeleteMutator.mutate
  | bytesExpand => BytesExpandMutator.mutate debug state.maxSize
  | bytesInsert => BytesInsertMutator.mutate debug state.maxSize
  | bytesRandInsert => BytesRandInsertMutator.mutate debug state.maxSize
  | bytesSet => BytesSetMutator.mutate
  | bytesRandSet => BytesRandSetMutator.mutate
  | bytesCopy => BytesCopyMutator.mutate debug
  | bytesInsertCopy => BytesInsertCopyMutator.mutate debug state.maxSize
  | bytesSwap => BytesSwapMutator.mutate debug
  | crossoverInsert => CrossoverInsertMutator.mutate debug state
  | crossoverReplace => CrossoverReplaceMutator.mutate debug state
  | mappedCrossoverInsert inputMapper =>
    MappedCrossoverInsertMutator.mutate debug state inputMapper
  | mappedCrossoverReplace inputMapper =>
    MappedCrossoverReplaceMutator.mutate debug state inputMapper
  | tokenInsert => TokenInsert.mutate debug state
  | tokenReplace => TokenReplace.mutate debug state

def havocMutationsNoCrossover : List (Mutator I) :=
  [bitFlip, byteFlip, byteInc, byteDec, byteNeg, byteRand, byteAdd, wordAdd, dwordAdd, qwordAdd,
    byteInteresting, wordInteresting, dwordInteresting, bytesDelete, bytesDelete, bytesDelete,
    bytesDelete, bytesExpand, bytesInsert, bytesRandInsert, bytesSet, bytesRandSet, bytesCopy,
    bytesInsertCopy, bytesSwap]

def havocCrossover : List (Mutator I) := [crossoverInsert, crossoverReplace]

def havocCrossoverWithCorpusMapper (inputMapper : I → Option (List UInt8)) : List (Mutator I) :=
  [mappedCrossoverInsert inputMapper, mappedCrossoverReplace inputMapper]

def havocMutations : List (Mutator I) := havocMutationsNoCrossover ++ havocCrossover

def tokensMutations : List (Mutator I) := [tokenInsert, tokenReplace]

end Mutator

end Libaflmm
