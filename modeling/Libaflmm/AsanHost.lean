import Libaflmm.HashTables
import Libaflmm.Strides

/-!
# The shadow of the host-side address sanitizer

`AsanGiovese` marks guest memory in a shadow of one byte for 8 bytes of host
memory. With `snapshot_shadow`, the pages that `poison` touches are recorded;
`snapshot` keeps a copy of the shadow of those pages, and `rollback` puts the
copies back and clears the shadow of the other recorded pages.

The shadow of the process is part of the state. It is taken to be mapped for
every address, and sums of addresses do not overflow.
-/

namespace Libaflmm

def SHADOW_PAGE_SIZE : Nat := 4096

structure AllocTreeItem where
  backtrace : List Nat
  freeBacktrace : List Nat
  allocated : Bool

namespace AllocTreeItem

def alloc (backtrace : List Nat) : AllocTreeItem where
  backtrace
  freeBacktrace := []
  allocated := true

def free (backtrace : List Nat) (self : AllocTreeItem) : AllocTreeItem :=
  { self with freeBacktrace := backtrace, allocated := false }

end AllocTreeItem

inductive AsanError
  | badFree (addr : Nat) (chunk : Option (Nat × Nat))
  | memLeak (start stop : Nat)

inductive AsanRollback
  | ok
  | hasLeaks

structure AsanGiovese where
  /-- the chunks, in the order in which the interval tree is queried -/
  allocTree : List ((Nat × Nat) × AllocTreeItem)
  savedTree : List ((Nat × Nat) × AllocTreeItem)
  dirtyShadow : HashSet Nat
  savedShadow : HashMap Nat (List Int8)
  snapshotShadow : Bool
  /-- the shadow memory, from `SHADOW_OFFSET` on -/
  shadow : Nat → Int8

namespace AsanGiovese

def new : AsanGiovese where
  allocTree := []
  savedTree := []
  dirtyShadow := ∅
  savedShadow := ∅
  snapshotShadow := true
  shadow := fun _ => 0

section

variable (guestBase : Nat)

/-- `guestBase` is the host address of guest address 0. -/
def g2h (addr : Nat) : Nat := addr + guestBase

/-- The shadow byte of a guest address. -/
def shadowAddr (addr : Nat) : Nat := g2h guestBase addr >>> 3

/-- Whether an access of `size` bytes that starts in a marked granule leaves its valid
part. -/
def invalidPart (addr size : Nat) (self : AsanGiovese) : Bool :=
  let k := self.shadow (shadowAddr guestBase addr)
  decide (k ≠ 0 ∧ k.toInt < (g2h guestBase addr % 8 + size : Nat))

/-- `size` is 1, 2, 4 or 8. -/
def isInvalidAccess (size addr : Nat) (self : AsanGiovese) : Bool :=
  if size < 8 then self.invalidPart guestBase addr size
  else decide (self.shadow (shadowAddr guestBase addr) ≠ 0)

/-- What `is_invalid_access_n` does from a granule on. -/
def invalidFrom (start stop : Nat) (self : AsanGiovese) : Bool :=
  let last8 := stop - stop % 8
  if (strided 8 start last8).any fun g => self.shadow (shadowAddr guestBase g) ≠ 0 then true
  -- here `start` is `last_8`
  else if last8 ≠ stop then self.invalidPart guestBase last8 (stop - last8)
  else false

def isInvalidAccessN (addr n : Nat) (self : AsanGiovese) : Bool :=
  if n = 0 then false
  else if addr % 8 ≠ 0 then
    let next8 := addr - addr % 8 + 8
    let firstSize := next8 - addr
    if n ≤ firstSize then self.invalidPart guestBase addr n
    else if self.invalidPart guestBase addr firstSize then true
    else self.invalidFrom guestBase next8 (addr + n)
  else self.invalidFrom guestBase addr (addr + n)

/-- The guest pages a range touches. -/
def touched (addr n : Nat) : List Nat :=
  -- `addr & SHADOW_PAGE_MASK`
  strided SHADOW_PAGE_SIZE (addr - addr % SHADOW_PAGE_SIZE) (addr + n)

def poison (addr n : Nat) (poisonByte : Int8) (self : AsanGiovese) : Bool × AsanGiovese :=
  if n = 0 then (false, self)
  else
    let record (self : AsanGiovese) (page : Nat) : AsanGiovese :=
      { self with dirtyShadow := self.dirtyShadow.insert page () }
    let self := if self.snapshotShadow then (touched addr n).foldl record self else self
    let last8 := (addr + n) - (addr + n) % 8
    if addr % 8 ≠ 0 then
      let next8 := addr - addr % 8 + 8
      let firstSize := next8 - addr
      if n < firstSize then (false, self)
      else
        let shadow := Function.update self.shadow (shadowAddr guestBase addr)
          (Int8.ofNat (8 - firstSize))
        let cells := (strided 8 next8 last8).map (shadowAddr guestBase)
        (true, { self with shadow := fill cells poisonByte shadow })
    else
      let cells := (strided 8 addr last8).map (shadowAddr guestBase)
      (true, { self with shadow := fill cells poisonByte self.shadow })

def unpoison (addr n : Nat) (self : AsanGiovese) : Bool × AsanGiovese :=
  let cells := (strided 8 addr (addr + n)).map (shadowAddr guestBase)
  (true, { self with shadow := fill cells 0 self.shadow })

def unpoisonPage (page : Nat) (self : AsanGiovese) : AsanGiovese :=
  let zeros := List.replicate SHADOW_PAGE_SIZE 0
  { self with shadow := writeBlock self.shadow (shadowAddr guestBase page) zeros }

def getShadowPage (page : Nat) (self : AsanGiovese) : List Int8 :=
  readBlock self.shadow (shadowAddr guestBase page) SHADOW_PAGE_SIZE

/-- `copy_from_slice` into the shadow page. -/
def setShadowPage (page : Nat) (data : List Int8) (self : AsanGiovese) : AsanGiovese :=
  { self with shadow := writeBlock self.shadow (shadowAddr guestBase page) data }

def snapshot (self : AsanGiovese) : AsanGiovese :=
  if self.snapshotShadow then
    let save (saved : HashMap Nat (List Int8)) (page : Nat) : HashMap Nat (List Int8) :=
      saved.insert page (self.getShadowPage guestBase page)
    { self with
      savedShadow := self.dirtyShadow.keys.foldl save self.savedShadow
      savedTree := self.allocTree }
  else self

def rollbackPage (self : AsanGiovese) (page : Nat) : AsanGiovese :=
  match self.savedShadow.lookup page with
  | some data => self.setShadowPage guestBase page data
  | none => self.unpoisonPage guestBase page

/-- `order` is the order in which `dirty_shadow` is iterated; the last value
lists the errors reported to the callback. -/
def rollback (order : List Nat) (detectLeaks : Bool) (self : AsanGiovese) :
    AsanRollback × AsanGiovese × List AsanError :=
  let leaks := if detectLeaks then self.allocTree.map Prod.fst else []
  let self :=
    if self.snapshotShadow then
      let self := { self with allocTree := self.savedTree }
      let self := order.foldl (rollbackPage guestBase) self
      { self with dirtyShadow := ∅ }
    else self
  let ret := if leaks.isEmpty then AsanRollback.ok else AsanRollback.hasLeaks
  (ret, self, leaks.map fun interval => .memLeak interval.1 interval.2)

end

end AsanGiovese

end Libaflmm
