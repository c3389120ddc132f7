import Libaflmm.FileReads
import Libaflmm.LossyText
import Mathlib.Algebra.Group.Nat.Defs

/-!
# The reader of the process maps

`MapIterator` decodes one line of the maps at a time, byte by byte, with a state
that says which field the byte is of. The fields are local to a call of `next`;
the state, and the bytes behind the line, are kept between the calls.
-/

namespace Libaflmm

structure MapEntry where
  base : Nat
  limit : Nat
  read : Bool
  write : Bool
  exec : Bool
  isPrivate : Bool
  offset : Nat
  major : Nat
  minor : Nat
  inode : Nat
  path : List Char
deriving DecidableEq

/-- The fields before the first byte of a line. -/
def MapEntry.blank : MapEntry := ⟨0, 0, false, false, false, false, 0, 0, 0, 0, []⟩

inductive MapState
  | base | limit | properties | offset | major | minor | inode | path
deriving DecidableEq

/-- How a call of `next` ends at a byte; an overflow panics. -/
inductive MapStop
  | panic
  | none
  | entry (e : MapEntry)
deriving DecidableEq

namespace Maps

/-- For a letter above `F` the subtraction of `a` overflows. -/
def fromHex (c : UInt8) : Except MapStop Nat :=
  if 48 ≤ c ∧ c ≤ 57 then .ok (c.toNat - 48)
  else if 97 ≤ c ∧ c ≤ 102 then .ok (c.toNat - 97 + 10)
  else if 65 ≤ c ∧ c ≤ 70 then .error .panic
  else .error .none

def fromDec (c : UInt8) : Except MapStop Nat :=
  if 48 ≤ c ∧ c ≤ 57 then .ok (c.toNat - 48) else .error .none

/-- `n *= radix; n += digit?` -/
def accumulate (bound radix n : Nat) (digit : Except MapStop Nat) : Except MapStop Nat :=
  if n * radix < bound then do
    let d ← digit
    if n * radix + d < bound then return n * radix + d else .error .panic
  else .error .panic

/-- A byte of a number, which ends with a separator. -/
def feedNumber (separator : UInt8) (here next : MapState) (e : MapEntry)
    (set : Nat → MapEntry) (n : Except MapStop Nat) (c : UInt8) :
    Except MapStop (MapState × MapEntry) :=
  if c = separator then .ok (next, e) else return (here, set (← n))

def feedProperty (e : MapEntry) (c : UInt8) : Except MapStop (MapState × MapEntry) :=
  if c = 32 then .ok (.offset, e)
  else if c = 45 then .ok (.properties, e)
  else if c = 114 then .ok (.properties, { e with read := true })
  else if c = 119 then .ok (.properties, { e with write := true })
  else if c = 120 then .ok (.properties, { e with exec := true })
  else if c = 112 then .ok (.properties, { e with isPrivate := true })
  else if c = 115 then .ok (.properties, { e with isPrivate := false })
  else .error .none

def feedPath (e : MapEntry) (c : UInt8) : Except MapStop (MapState × MapEntry) :=
  if c = 32 then
    .ok (.path, if e.path ≠ [] then { e with path := e.path ++ [' '] } else e)
  else if c = 10 then .error (.entry e)
  else .ok (.path, { e with path := e.path ++ [Char.ofNat c.toNat] })

/-- One byte, on a machine with addresses of 64 bits. -/
def feed (s : MapState) (e : MapEntry) (c : UInt8) : Except MapStop (MapState × MapEntry) :=
  match s with
  | .base => feedNumber 45 .base .limit e (fun n => { e with base := n })
      (accumulate (2 ^ 64) 16 e.base (fromHex c)) c
  | .limit => feedNumber 32 .limit .properties e (fun n => { e with limit := n })
      (accumulate (2 ^ 64) 16 e.limit (fromHex c)) c
  | .properties => feedProperty e c
  | .offset => feedNumber 32 .offset .major e (fun n => { e with offset := n })
      (accumulate (2 ^ 64) 16 e.offset (fromHex c)) c
  | .major => feedNumber 58 .major .minor e (fun n => { e with major := n })
      (accumulate (2 ^ 32) 16 e.major (fromHex c)) c
  | .minor => feedNumber 32 .minor .inode e (fun n => { e with minor := n })
      (accumulate (2 ^ 32) 16 e.minor (fromHex c)) c
  | .inode => feedNumber 32 .inode .path e (fun n => { e with inode := n })
      (accumulate (2 ^ 64) 10 e.inode (fromDec c)) c
  | .path => feedPath e c

/-- How the loop over the buffer ends; the bytes behind an entry are kept. -/
inductive Scanned
  | panic
  | none (s : MapState)
  | entry (e : MapEntry) (rest : List UInt8)
  | more (s : MapState) (e : MapEntry)
deriving DecidableEq

/-- The loop over the buffer. -/
def scan (s : MapState) (e : MapEntry) : List UInt8 → Scanned
  | [] => .more s e
  | c :: bytes =>
    match feed s e c with
    | .ok (s', e') => scan s' e' bytes
    | .error .panic => .panic
    | .error .none => .none s
    | .error (.entry e') => .entry e' bytes

end Maps

structure MapIterator (ε : Type) where
  source : FileReader ε
  /-- the first `buff_len` bytes -/
  buffer : List UInt8
  state : MapState

namespace MapIterator

open Maps

variable {ε : Type}

def bufferSize : Nat := 4096

def new (source : FileReader ε) : MapIterator ε := ⟨source, [], .base⟩

inductive Next (ε : Type)
  | panic
  | returned (entry : Option MapEntry) (it : MapIterator ε)

/-- The loop over the reads: after each of them the buffer is looked through
from its start, with the state and the fields as they are. -/
def nextLoop : Nat → MapIterator ε → MapEntry → Option (Next ε)
  | 0, _, _ => none
  | fuel + 1, it, e =>
    match it.source.read (bufferSize - it.buffer.length) with
    | (.error _, source) => some (.returned none { it with source := source })
    | (.ok bytes, source) =>
      if it.buffer ++ bytes = [] then some (.returned none { it with source := source })
      else match scan it.state e (it.buffer ++ bytes) with
        | .panic => some .panic
        | .none s => some (.returned none ⟨source, it.buffer ++ bytes, s⟩)
        | .entry e' rest => some (.returned (some e') ⟨source, rest, .base⟩)
        | .more s e' => nextLoop fuel ⟨source, it.buffer ++ bytes, s⟩ e'

def next (fuel : Nat) (it : MapIterator ε) : Option (Next ε) := nextLoop fuel it .blank

/-- The entries up to the first `None`, when there is no panic. -/
def collect : Nat → MapIterator ε → Option (List MapEntry)
  | 0, _ => none
  | fuel + 1, it =>
    match it.next (fuel + 1) with
    | some (.returned (some e) it') => (collect fuel it').map (e :: ·)
    | some (.returned none _) => some []
    | _ => none

end MapIterator

end Libaflmm
