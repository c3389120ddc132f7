import Libaflmm.Runs

/-!
# The anonymous shared memory channel

A sender and a receiver share a piece of memory: a header that holds the size
of the message, or its greatest value if there is none, and the data. Sending
writes the data first and the size when all of it is written, and receiving
marks the memory as invalid.

A send that fails has written a part of its value. If there is a message that
has not been received, its size is still there, and the receiver takes what the
failed send has left for the message. A message as long as the greatest value
of the header is taken for none, and a longer one makes the sender panic.
-/

namespace Libaflmm

/-- What the channel needs of `postcard`: the bytes of a value, how many of
them are written to a buffer of some length before it fails, if it does, and
the value that bytes are read as. -/
structure Postcard (T : Type) where
  bytes : T → List UInt8
  failsAfter : T → Nat → Option Nat
  fromBytes : List UInt8 → Option T

structure Postcard.Lawful {T : Type} (p : Postcard T) : Prop where
  fits : ∀ v n, p.failsAfter v n = none → (p.bytes v).length ≤ n
  within : ∀ v n k, p.failsAfter v n = some k → k ≤ n
  roundTrip : ∀ v, p.fromBytes (p.bytes v) = some v

inductive ShmError where
  | serialize
  | invalid
  | deserialize
deriving DecidableEq

structure SharedMemory where
  size : Nat
  data : List UInt8
deriving DecidableEq

def overwrite (bytes data : List UInt8) : List UInt8 := bytes ++ data.drop bytes.length

namespace SharedMemory

/-- The memory of a header that goes up to `szMax`. -/
def new (szMax : Nat) (data : List UInt8) : SharedMemory := ⟨szMax, data⟩

variable (szMax : Nat) (shm : SharedMemory)

def getSize : Option Nat := if shm.size = szMax then none else some shm.size

/-- The size has to fit into the header. -/
def setSize (size : Nat) : Option SharedMemory :=
  if size ≤ szMax then some { shm with size } else none

def markInvalid : SharedMemory := { shm with size := szMax }

end SharedMemory

section

variable {T : Type} (p : Postcard T) (szMax : Nat)

/-- `AnonShmSender::send` -/
def shmSend (data : T) (shm : SharedMemory) : Option (Except ShmError Unit × SharedMemory) :=
  match p.failsAfter data shm.data.length with
  | some written =>
    some (.error .serialize,
      { shm with data := overwrite ((p.bytes data).take written) shm.data })
  | none =>
    let shm := { shm with data := overwrite (p.bytes data) shm.data }
    (shm.setSize szMax (p.bytes data).length).map fun shm => (.ok (), shm)

/-- `AnonShmReceiver::receive` -/
def shmReceive (shm : SharedMemory) : Except ShmError T × SharedMemory :=
  match shm.getSize szMax with
  | none => (.error .invalid, shm)
  | some size =>
    match p.fromBytes (shm.data.take size) with
    | none => (.error .deserialize, shm)
    | some value => (.ok value, shm.markInvalid szMax)

/-! ## Runs of a channel -/

inductive ShmCall (T : Type) where
  | send (data : T)
  | receive

/-- The memory, and the value of the last send that was successful if there has
been no receive since. -/
structure ShmChannel (T : Type) where
  shm : SharedMemory
  unread : Option T
deriving DecidableEq

namespace ShmChannel

def new (data : List UInt8) : ShmChannel T := ⟨.new szMax data, none⟩

def step (c : ShmChannel T) : ShmCall T → Option (ShmChannel T)
  | .send data => (shmSend p szMax data c.shm).map fun
    | (.ok _, shm) => ⟨shm, some data⟩
    | (.error _, shm) => ⟨shm, c.unread⟩
  | .receive => some ⟨(shmReceive p szMax c.shm).2, none⟩

/-- A receive returns the value that is unread, and an error if there is none. -/
def Delivers (c : ShmChannel T) : Prop :=
  match c.unread with
  | some data => (shmReceive p szMax c.shm).1 = .ok data
  | none => ∃ e, (shmReceive p szMax c.shm).1 = .error e

/-- A value that fits has a size below the greatest one, and one that does not
leaves a message, if there is one, to be read as before. -/
def Harmless (c : ShmChannel T) : ShmCall T → Prop
  | .receive => True
  | .send data =>
    match p.failsAfter data c.shm.data.length with
    | none => (p.bytes data).length < szMax
    | some written => c.shm.size = szMax ∨
        p.fromBytes ((overwrite ((p.bytes data).take written) c.shm.data).take c.shm.size) =
          p.fromBytes (c.shm.data.take c.shm.size)

end ShmChannel

end

section

variable {T : Type} {p : Postcard T} {szMax : Nat}

theorem shmReceive_invalid {shm : SharedMemory} (h : shm.size = szMax) :
    shmReceive p szMax shm = (.error .invalid, shm) := by
  rw [shmReceive, SharedMemory.getSize, if_pos h]

theorem shmReceive_valid {shm : SharedMemory} (h : shm.size ≠ szMax) :
    shmReceive p szMax shm = match p.fromBytes (shm.data.take shm.size) with
      | none => (.error .deserialize, shm)
      | some value => (.ok value, shm.markInvalid szMax) := by
  rw [shmReceive, SharedMemory.getSize, if_neg h]

theorem overwrite_take (bytes data : List UInt8) :
    (overwrite bytes data).take bytes.length = bytes := List.take_left

namespace ShmChannel

theorem delivers_valid {shm : SharedMemory} {unread : Option T} (h : shm.size ≠ szMax) :
    Delivers p szMax ⟨shm, unread⟩ ↔ p.fromBytes (shm.data.take shm.size) = unread := by
  rw [Delivers, shmReceive_valid h]
  cases p.fromBytes (shm.data.take shm.size) <;> cases unread <;> simp

theorem delivers_invalid {shm : SharedMemory} {unread : Option T} (h : shm.size = szMax) :
    Delivers p szMax ⟨shm, unread⟩ ↔ unread = none := by
  rw [Delivers, shmReceive_invalid h]
  cases unread <;> simp

/-- After a receive there is nothing to receive. -/
theorem delivers_receive (shm : SharedMemory) :
    Delivers p szMax ⟨(shmReceive p szMax shm).2, none⟩ := by
  by_cases hsize : shm.size = szMax
  · rw [shmReceive_invalid hsize]
    exact (delivers_invalid hsize).mpr rfl
  · rw [shmReceive_valid hsize]
    cases hread : p.fromBytes (shm.data.take shm.size) with
    | none => exact (delivers_valid hsize).mpr hread
    | some value => exact (delivers_invalid rfl).mpr rfl

theorem delivers_send {c : ShmChannel T} {data : T} (hp : p.Lawful)
    (hfits : p.failsAfter data c.shm.data.length = none) :
    (∃ c', step p szMax c (.send data) = some c' ∧ c'.Delivers p szMax) ↔
      (p.bytes data).length < szMax := by
  simp only [step, shmSend, hfits, SharedMemory.setSize]
  split
  · next hle =>
      simp only [Option.map_some, Option.some.injEq, exists_eq_left']
      by_cases hsize : (p.bytes data).length = szMax
      · rw [delivers_invalid hsize]
        exact ⟨fun h => absurd h (by simp), fun h => absurd hsize (Nat.ne_of_lt h)⟩
      · rw [delivers_valid hsize]
        refine ⟨fun _ => Nat.lt_of_le_of_ne hle hsize, fun _ => ?_⟩
        show p.fromBytes (List.take _ (overwrite _ _)) = _
        rw [overwrite_take, hp.roundTrip]
  · next hle =>
      simp only [Option.map_none]
      exact ⟨fun ⟨_, h, _⟩ => absurd h (by simp), fun h => absurd (Nat.le_of_lt h) hle⟩

theorem delivers_failed_send {c : ShmChannel T} {data : T} {written : Nat}
    (h : c.Delivers p szMax) (hfails : p.failsAfter data c.shm.data.length = some written) :
    (∃ c', step p szMax c (.send data) = some c' ∧ c'.Delivers p szMax) ↔
      c.shm.size = szMax ∨
        p.fromBytes ((overwrite ((p.bytes data).take written) c.shm.data).take c.shm.size) =
          p.fromBytes (c.shm.data.take c.shm.size) := by
  simp only [step, shmSend, hfails, Option.map_some, Option.some.injEq, exists_eq_left']
  obtain ⟨⟨size, buf⟩, unread⟩ := c
  by_cases hsize : size = szMax
  · have hnone := (delivers_invalid hsize).mp h
    exact iff_of_true ((delivers_invalid hsize).mpr hnone) (Or.inl hsize)
  · have hread := (delivers_valid hsize).mp h
    dsimp only at hread ⊢
    rw [delivers_valid hsize, hread]
    exact ⟨Or.inr, fun hor => hor.resolve_left hsize⟩

/-- Whatever is sent and received, and whether it fits or not, every receive
returns the value of the last successful send, or an error if there is none
since the last receive, if and only if every send is harmless. -/
theorem delivers_iff (hp : p.Lawful) (data : List UInt8) (calls : List (ShmCall T)) :
    Survives (step p szMax) (new szMax data) calls (fun _ c => c.Delivers p szMax) ↔
      StepsMeet (step p szMax) (new szMax data) calls (Harmless p szMax) := by
  refine survives_iff_stepsMeet ((delivers_invalid rfl).mpr rfl) fun _ c call _ hc => ?_
  cases call with
  | receive =>
      simp only [step, Option.some.injEq, exists_eq_left', Harmless, iff_true]
      exact delivers_receive c.shm
  | send data =>
      cases hfails : p.failsAfter data c.shm.data.length with
      | none =>
          rw [delivers_send hp hfails]
          simp only [Harmless, hfails]
      | some written =>
          rw [delivers_failed_send hc hfails]
          simp only [Harmless, hfails]

end ShmChannel

end

/-! ## A pair of numbers -/

/-- Seven bits a byte, the lowest first. -/
def varint (n : UInt16) : List UInt8 :=
  if n.toNat < 0x80 then [.ofNat n.toNat]
  else if n.toNat < 0x4000 then [.ofNat (n.toNat % 0x80 + 0x80), .ofNat (n.toNat / 0x80)]
  else [.ofNat (n.toNat % 0x80 + 0x80), .ofNat (n.toNat / 0x80 % 0x80 + 0x80),
    .ofNat (n.toNat / 0x4000)]

def readVarint : List UInt8 → Option UInt16
  | [] => none
  | a :: rest =>
    if a.toNat < 0x80 then some (.ofNat a.toNat)
    else match rest with
      | [] => none
      | b :: rest =>
        if b.toNat < 0x80 then some (.ofNat (a.toNat % 0x80 + 0x80 * b.toNat))
        else match rest with
          | [] => none
          | c :: _ =>
            if c.toNat ≤ 3 then
              some (.ofNat (a.toNat % 0x80 + 0x80 * (b.toNat % 0x80) + 0x4000 * c.toNat))
            else none

theorem toNat_ofNat_byte {k : Nat} (h : k < 0x100) : (UInt8.ofNat k).toNat = k :=
  UInt8.toNat_ofNat_of_lt' h

theorem readVarint_varint (n : UInt16) : readVarint (varint n) = some n := by
  have hn := n.toNat_lt
  unfold varint
  split_ifs with h1 h2
  · have ha := toNat_ofNat_byte (show n.toNat < 0x100 by omega)
    rw [readVarint, ha, if_pos h1, UInt16.ofNat_toNat]
  · have ha := toNat_ofNat_byte (show n.toNat % 0x80 + 0x80 < 0x100 by omega)
    have hb := toNat_ofNat_byte (show n.toNat / 0x80 < 0x100 by omega)
    rw [readVarint, ha, if_neg (by omega), hb, if_pos (by omega),
      show (n.toNat % 0x80 + 0x80) % 0x80 + 0x80 * (n.toNat / 0x80) = n.toNat by omega,
      UInt16.ofNat_toNat]
  · have ha := toNat_ofNat_byte (show n.toNat % 0x80 + 0x80 < 0x100 by omega)
    have hb := toNat_ofNat_byte (show n.toNat / 0x80 % 0x80 + 0x80 < 0x100 by omega)
    have hc := toNat_ofNat_byte (show n.toNat / 0x4000 < 0x100 by omega)
    rw [readVarint, ha, if_neg (by omega), hb, if_neg (by omega), hc, if_pos (by omega),
      show (n.toNat % 0x80 + 0x80) % 0x80 + 0x80 * ((n.toNat / 0x80 % 0x80 + 0x80) % 0x80) +
        0x4000 * (n.toNat / 0x4000) = n.toNat by omega, UInt16.ofNat_toNat]

/-- A pair of a byte and a number: the byte is written, and then the number if
all of it fits. -/
def pairs : Postcard (UInt8 × UInt16) where
  bytes v := v.1 :: varint v.2
  failsAfter v n :=
    if n = 0 then some 0 else if n < (varint v.2).length + 1 then some 1 else none
  fromBytes
    | [] => none
    | a :: rest => (readVarint rest).map (a, ·)

theorem pairs_lawful : pairs.Lawful where
  fits v n h := by
    simp only [pairs] at h ⊢
    split_ifs at h
    rw [List.length_cons]
    omega
  within v n k h := by
    simp only [pairs] at h
    split_ifs at h <;> cases h <;> omega
  roundTrip v := by
    simp only [pairs, readVarint_varint, Option.map_some]

/-- A send that fails when there is nothing to be received, and one that does not. -/
theorem delivers_after_failed_send :
    Survives (ShmChannel.step pairs 255) (.new 255 [0, 0]) [.send (9, 300), .send (1, 5), .receive]
      (fun _ c => c.Delivers pairs 255) := by
  refine (ShmChannel.delivers_iff pairs_lawful _ _).mpr ?_
  rw [stepsMeet_cons]
  refine ⟨Or.inl rfl, fun t ht => ?_⟩
  obtain rfl := Option.some.inj ht
  rw [stepsMeet_cons]
  refine ⟨(by decide : (pairs.bytes (1, 5)).length < 255), fun t ht => ?_⟩
  obtain rfl := Option.some.inj ht
  rw [stepsMeet_cons]
  exact ⟨trivial, fun _ _ => stepsMeet_nil⟩

/-- What is received is the byte of the one value and the number of the other,
a pair that has not been sent. -/
theorem not_delivers_failed_send :
    ¬Survives (ShmChannel.step pairs 255) (.new 255 [0, 0]) [.send (1, 5), .send (9, 300)]
      (fun _ c => c.Delivers pairs 255) := by
  intro h
  obtain ⟨c, hc, hdelivers⟩ := h _ (List.prefix_refl _)
  have hrun : run (ShmChannel.step pairs 255) (.new 255 [0, 0]) [.send (1, 5), .send (9, 300)] =
      some ⟨⟨2, [9, 5]⟩, some (1, 5)⟩ := rfl
  obtain rfl := Option.some.inj (hrun.symm.trans hc)
  have hread : pairs.fromBytes [9, 5] = some (9, 5) := rfl
  have hdelivered := (ShmChannel.delivers_valid (by decide)).mp hdelivers
  exact absurd (hread.symm.trans hdelivered) (by decide)

end Libaflmm
