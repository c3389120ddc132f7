import Libaflmm.Calls
import Libaflmm.GraphRouter

/-!
# Sockets between the controller and its workers

A connection is one end of a socket pair. What the kernel holds of it is
what will be received next (`rx`) and what was sent and not yet taken by the
other end (`tx`); what a system call answers is a parameter.

The controller keeps one connection per worker. A worker leaves that table
when it exits, or when a send finds its end closed.
-/

namespace Libaflmm

/-! ## Connections -/

/-- What the next `recv` answers. An `error` is one of `recv` itself, or of
a packet that does not decode. -/
inductive Recv (In : Type) where
  | packet (msg : In)
  | error (err : Error)
  | eof
deriving DecidableEq

inductive SendResult where
  | sent
  | full
  | closed
deriving DecidableEq, Repr

structure Connection (In Out : Type) where
  inMsgs : List In
  rx : List (Recv In)
  tx : List Out
deriving DecidableEq

namespace Connection

variable {In Out : Type}

/-- `from_fd`, for an end of a new pair. -/
def fromFd : Connection In Out := ⟨[], [], []⟩

/-- The loop of `poll`. An end of file stays to be read. -/
def receive : List (Recv In) → List In → Result Unit × List In × List (Recv In)
  | [], inMsgs => (.ok (), inMsgs, [])
  | .eof :: rx, inMsgs => (.ok (), inMsgs, .eof :: rx)
  | .error err :: rx, inMsgs => (.error err, inMsgs, rx)
  | .packet msg :: rx, inMsgs => receive rx (inMsgs ++ [msg])

def poll (conn : Connection In Out) : Option (Result (List In) × Connection In Out) :=
  if conn.inMsgs.isEmpty then
    match receive conn.rx conn.inMsgs with
    | (.ok (), inMsgs, rx) => some (.ok inMsgs, { conn with inMsgs := [], rx })
    | (.error err, inMsgs, rx) => some (.error err, { conn with inMsgs, rx })
  else none

/-- `send_serialized`, when the kernel answers `answer`. -/
def sendSerialized (msg : Out) (answer : Result SendResult) (conn : Connection In Out) :
    Result SendResult × Connection In Out :=
  match answer with
  | .ok .sent => (.ok .sent, { conn with tx := conn.tx ++ [msg] })
  | _ => (answer, conn)

/-- The kernel makes one more thing to be received; an end of file is the last. -/
def arrive (item : Recv In) (conn : Connection In Out) : Connection In Out :=
  match conn.rx.getLast? with
  | some .eof => conn
  | _ => { conn with rx := conn.rx ++ [item] }

/-- The messages that can be received, up to an end of file or an error. -/
def readable : List (Recv In) → List In
  | .packet msg :: rx => msg :: readable rx
  | _ => []

/-- Nothing but messages can be received. -/
def Readable : List (Recv In) → Prop
  | [] | .eof :: _ => True
  | .error _ :: _ => False
  | .packet _ :: rx => Readable rx

instance decidableReadable : (rx : List (Recv In)) → Decidable (Readable rx)
  | [] | .eof :: _ => inferInstanceAs (Decidable True)
  | .error _ :: _ => inferInstanceAs (Decidable False)
  | .packet _ :: rx => decidableReadable rx

theorem receive_eq (rx : List (Recv In)) (inMsgs : List In) :
    (receive rx inMsgs).2.1 = inMsgs ++ readable rx ∧
      ((receive rx inMsgs).1 = .ok () ↔ Readable rx) := by
  fun_induction receive rx inMsgs with
  | case1 => simp [readable, Readable]
  | case2 => simp [readable, Readable]
  | case3 => simp [readable, Readable]
  | case4 inMsgs msg rx ih => simp [readable, Readable, ih]

/-- A poll of an end that holds only messages returns all of them. -/
theorem poll_of_readable {conn : Connection In Out} (hin : conn.inMsgs = [])
    (h : Readable conn.rx) :
    ∃ rx, conn.poll = some (.ok (readable conn.rx), { conn with inMsgs := [], rx }) := by
  obtain ⟨hmsgs, hok⟩ := receive_eq conn.rx []
  refine ⟨(receive conn.rx []).2.2, ?_⟩
  rcases hres : receive conn.rx [] with ⟨r, inMsgs, rx⟩
  rw [hres] at hmsgs hok
  obtain rfl : r = .ok () := hok.mpr h
  simp_all [poll]

/-- A poll leaves what was sent as it is. -/
theorem poll_tx {conn conn' : Connection In Out} {r : Result (List In)}
    (h : conn.poll = some (r, conn')) : conn'.tx = conn.tx := by
  unfold poll at h
  split at h
  · split at h <;> obtain ⟨-, rfl⟩ := Prod.mk.inj (Option.some.inj h) <;> rfl
  · cases h

theorem poll_ok_iff {conn : Connection In Out} :
    (∃ msgs conn', conn.poll = some (.ok msgs, conn')) ↔
      conn.inMsgs = [] ∧ Readable conn.rx := by
  constructor
  · rintro ⟨msgs, conn', h⟩
    unfold poll at h
    split at h
    · next hin =>
      have hin' : conn.inMsgs = [] := by simpa using hin
      refine ⟨hin', ((receive_eq conn.rx conn.inMsgs).2).mp ?_⟩
      split at h
      · next hres => rw [hres]
      · cases h
    · cases h
  · rintro ⟨hin, h⟩
    obtain ⟨rx, hpoll⟩ := poll_of_readable hin h
    exact ⟨_, _, hpoll⟩

end Connection

end Libaflmm
