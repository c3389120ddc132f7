import Libaflmm.MutationsSafe
import Libaflmm.Rings
import Libaflmm.Runs
import Mathlib.Logic.Function.Basic

/-!
# The CmpLog map

The instrumented target logs the operands of its comparisons, and the buffers
that are given to its routines, by a key. A key has a header and a row of bytes,
which is read as instructions or as routines by the kind of the last log. The
number of hits of the header is masked to give the slot of the row.

The height of a row of routines is not a power of two, so that the mask leaves
out slots which are read afterwards. A routine has all bytes of its slot read,
however many have been logged. An instruction of size 0 leaves the logging
disabled, and one of more than 8 bytes makes every entry of its key unreadable.
-/

namespace Libaflmm

def cmplogMapH : Nat := 32

def cmplogRtnLen : Nat := 32

/-- The size of an instruction in memory is 24, and that of a routine 64. -/
def cmplogMapRtnH : Nat := cmplogMapH * 24 / 64

def cmplogKindIns : UInt8 := 0

def cmplogKindRtn : UInt8 := 1

structure CmpLogHeader where
  hits : UInt16
  shape : UInt8
  kind : UInt8

/-- The header after one more log, and the number of the log. A log of another
kind is the first one. -/
def CmpLogHeader.hit (header : CmpLogHeader) (kind shape : UInt8) (greater : Bool) :
    CmpLogHeader × UInt16 :=
  if header.kind ≠ kind then (⟨1, shape, kind⟩, 0)
  else (⟨header.hits + 1, if greater then shape else header.shape, kind⟩, header.hits)

structure CmpLogInstruction where
  v0 : UInt64
  v1 : UInt64
  v0IsConst : UInt8
deriving DecidableEq

structure CmpLogRoutine where
  v0 : List UInt8
  v1 : List UInt8
deriving DecidableEq

/-! ## Rows -/

/-- The bytes of a row, which are shared by its instructions and its routines. -/
def CmpLogRow : Type := Nat → UInt8

namespace CmpLogRow

def load (row : CmpLogRow) (pos len : Nat) : List UInt8 :=
  (List.range len).map fun i => row (pos + i)

def store (row : CmpLogRow) (pos : Nat) (bytes : List UInt8) : CmpLogRow :=
  fun i => if pos ≤ i then bytes.getD (i - pos) (row i) else row i

def operand (row : CmpLogRow) (i : Nat) : CmpLogInstruction where
  v0 := .ofNat (ofLeBytes (row.load (24 * i) 8))
  v1 := .ofNat (ofLeBytes (row.load (24 * i + 8) 8))
  v0IsConst := row (24 * i + 16)

def setOperand (row : CmpLogRow) (i : Nat) (op : CmpLogInstruction) : CmpLogRow :=
  ((row.store (24 * i) (leBytes 8 op.v0.toNat)).store (24 * i + 8) (leBytes 8 op.v1.toNat)).store
    (24 * i + 16) [op.v0IsConst]

def routine (row : CmpLogRow) (i : Nat) : CmpLogRoutine where
  v0 := row.load (64 * i) cmplogRtnLen
  v1 := row.load (64 * i + cmplogRtnLen) cmplogRtnLen

/-- No more is copied than has been given. -/
def copyRoutine (row : CmpLogRow) (i : Nat) (v0 v1 : List UInt8) : CmpLogRow :=
  (row.store (64 * i) v0).store (64 * i + cmplogRtnLen) v1

variable {row : CmpLogRow} {pos len : Nat} {bytes : List UInt8}

theorem length_load (row : CmpLogRow) (pos len : Nat) : (row.load pos len).length = len := by
  rw [load, List.length_map, List.length_range]

theorem take_load_store (h : bytes.length ≤ len) :
    ((row.store pos bytes).load pos len).take bytes.length = bytes := by
  refine List.ext_getElem (by simp [length_load, h]) fun i hi hi' => ?_
  simp [load, store, hi']

theorem load_store_self (h : bytes.length = len) : (row.store pos bytes).load pos len = bytes := by
  have htake : ((row.store pos bytes).load pos len).take bytes.length = bytes :=
    take_load_store h.le
  rwa [List.take_of_length_le (by rw [length_load, h])] at htake

theorem store_of_outside {i : Nat} (h : i < pos ∨ pos + bytes.length ≤ i) :
    row.store pos bytes i = row i := by
  unfold store
  split
  · next hle =>
      rw [List.getD_eq_getElem?_getD, List.getElem?_eq_none (by omega), Option.getD_none]
  · rfl

theorem load_store_disjoint {at' : Nat} (h : at' + len ≤ pos ∨ pos + bytes.length ≤ at') :
    (row.store pos bytes).load at' len = row.load at' len := by
  refine List.map_congr_left fun i hi => store_of_outside ?_
  rw [List.mem_range] at hi
  omega

theorem operand_setOperand_self (row : CmpLogRow) (i : Nat) (op : CmpLogInstruction) :
    (row.setOperand i op).operand i = op := by
  have h0 : ((row.setOperand i op).load (24 * i) 8) = leBytes 8 op.v0.toNat := by
    unfold setOperand
    rw [load_store_disjoint (by simp), load_store_disjoint (by simp),
      load_store_self (length_leBytes ..)]
  have h1 : ((row.setOperand i op).load (24 * i + 8) 8) = leBytes 8 op.v1.toNat := by
    unfold setOperand
    rw [load_store_disjoint (by simp), load_store_self (length_leBytes ..)]
  have hconst : row.setOperand i op (24 * i + 16) = op.v0IsConst := by
    simp [setOperand, store]
  rw [operand, h0, h1, hconst, ofLeBytes_leBytes op.v0.toNat_lt, ofLeBytes_leBytes op.v1.toNat_lt,
    UInt64.ofNat_toNat, UInt64.ofNat_toNat]

theorem operand_setOperand_ne {i j : Nat} (h : j ≠ i) (op : CmpLogInstruction) :
    (row.setOperand i op).operand j = row.operand j := by
  have hlen (n : Nat) : (leBytes 8 n).length = 8 := length_leBytes 8 n
  have hload (k : Nat) (hk : k = 24 * j ∨ k = 24 * j + 8) :
      (row.setOperand i op).load k 8 = row.load k 8 := by
    unfold setOperand
    rw [load_store_disjoint (by simp; omega), load_store_disjoint (by rw [hlen]; omega),
      load_store_disjoint (by rw [hlen]; omega)]
  have hconst : row.setOperand i op (24 * j + 16) = row (24 * j + 16) := by
    unfold setOperand
    rw [store_of_outside (by simp; omega), store_of_outside (by rw [hlen]; omega),
      store_of_outside (by rw [hlen]; omega)]
  rw [operand, operand, hload _ (Or.inl rfl), hload _ (Or.inr rfl), hconst]

theorem routine_copyRoutine_self (row : CmpLogRow) (i : Nat) {v0 v1 : List UInt8}
    (h0 : v0.length = cmplogRtnLen) (h1 : v1.length = cmplogRtnLen) :
    (row.copyRoutine i v0 v1).routine i = ⟨v0, v1⟩ := by
  unfold copyRoutine routine
  rw [load_store_disjoint (Or.inl (Nat.le_refl _)), load_store_self h0, load_store_self h1]

/-- Of a shorter copy, the other bytes of the slot are kept. -/
theorem take_routine_copyRoutine (row : CmpLogRow) (i : Nat) {v0 v1 : List UInt8}
    (h0 : v0.length ≤ cmplogRtnLen) (h1 : v1.length ≤ cmplogRtnLen) :
    ((row.copyRoutine i v0 v1).routine i).v0.take v0.length = v0 ∧
      ((row.copyRoutine i v0 v1).routine i).v1.take v1.length = v1 := by
  unfold copyRoutine routine
  refine ⟨?_, take_load_store h1⟩
  dsimp only
  rw [load_store_disjoint (Or.inl (Nat.le_refl _)), take_load_store h0]

theorem routine_copyRoutine_ne {i j : Nat} (h : j ≠ i) {v0 v1 : List UInt8}
    (h0 : v0.length ≤ cmplogRtnLen) (h1 : v1.length ≤ cmplogRtnLen) :
    (row.copyRoutine i v0 v1).routine j = row.routine j := by
  unfold copyRoutine routine
  unfold cmplogRtnLen at *
  rw [load_store_disjoint (by omega), load_store_disjoint (by omega),
    load_store_disjoint (by omega), load_store_disjoint (by omega)]

end CmpLogRow

/-! ## The map -/

structure CmpLogMap (w : Nat) where
  headers : Fin w → CmpLogHeader
  vals : Fin w → CmpLogRow

namespace CmpLogMap

variable {w : Nat} (map : CmpLogMap w) (k : Fin w)

def setHeader (header : CmpLogHeader) : CmpLogMap w :=
  { map with headers := Function.update map.headers k header }

def setRow (row : CmpLogRow) : CmpLogMap w :=
  { map with vals := Function.update map.vals k row }

def executionsFor (idx : Fin w) : Nat := (map.headers idx).hits.toNat

def usableExecutionsFor (idx : Fin w) : Nat :=
  if (map.headers idx).kind = cmplogKindIns then
    if map.executionsFor idx < cmplogMapH then map.executionsFor idx else cmplogMapH
  else if map.executionsFor idx < cmplogMapRtnH then map.executionsFor idx else cmplogMapRtnH

/-- Just the headers. -/
def reset : CmpLogMap w := { map with headers := fun _ => ⟨0, 0, 0⟩ }

end CmpLogMap

/-- The enabled flag, and the map. -/
structure CmpLog (w : Nat) where
  enabled : Bool
  map : CmpLogMap w

section

variable {w : Nat}

def cmplogInstructionsChecked (k : Fin w) (size : UInt8) (arg1 arg2 : UInt64)
    (arg1IsConst : UInt8) (log : CmpLog w) : CmpLog w :=
  if !log.enabled then log
  else if size = 0 then { log with enabled := false }
  else
    let shape := size - 1
    let header := log.map.headers k
    let (header, hits) := header.hit cmplogKindIns shape (header.shape < shape)
    let slot := hits.toNat &&& (cmplogMapH - 1)
    ⟨true, (log.map.setHeader k header).setRow k
      ((log.map.vals k).setOperand slot ⟨arg1, arg2, arg1IsConst⟩)⟩

/-- The buffers of a routine of which `len` bytes are accessible. -/
structure RoutineArgs where
  v0 : List UInt8
  v1 : List UInt8
  sameLength : v1.length = v0.length
  pos : 0 < v0.length
  le : v0.length ≤ cmplogRtnLen

def cmplogRoutinesChecked (k : Fin w) (args : RoutineArgs) (log : CmpLog w) : CmpLog w :=
  let len := args.v0.length
  let header := log.map.headers k
  let (header, hits) := header.hit cmplogKindRtn (.ofNat (len - 1)) (header.shape.toNat < len)
  let slot := hits.toNat &&& (cmplogMapRtnH - 1)
  ⟨true, (log.map.setHeader k header).setRow k
    ((log.map.vals k).copyRoutine slot args.v0 args.v1)⟩

/-- The hooks look at the flag. -/
def cmplogRoutines (k : Fin w) (args : RoutineArgs) (log : CmpLog w) : CmpLog w :=
  if !log.enabled then log else cmplogRoutinesChecked k args log

end

/-! ## Reading the map -/

structure CmplogBytes where
  buf : List UInt8
  len : UInt8

def CmplogBytes.asSlice (bytes : CmplogBytes) : List UInt8 := bytes.buf.take bytes.len.toNat

inductive CmpValues where
  | u8 (v0 v1 : UInt8) (v0IsConst : Bool)
  | u16 (v0 v1 : UInt16) (v0IsConst : Bool)
  | u32 (v0 v1 : UInt32) (v0IsConst : Bool)
  | u64 (v0 v1 : UInt64) (v0IsConst : Bool)
  | bytes (v0 v1 : CmplogBytes)

/-- A shape that is none of a comparison is a panic, and so is an execution that
is not in the row. -/
def parseCmplogMap {w : Nat} (map : CmpLogMap w) (idx : Fin w) (execution : Nat) :
    Option (Option CmpValues) :=
  if (map.headers idx).kind = cmplogKindIns then
    let op := if execution < cmplogMapH then some ((map.vals idx).operand execution) else none
    match (map.headers idx).shape.toNat with
    | 0 => op.map fun op => some (.u8 op.v0.toUInt8 op.v1.toUInt8 (op.v0IsConst = 1))
    | 1 => op.map fun op => some (.u16 op.v0.toUInt16 op.v1.toUInt16 (op.v0IsConst = 1))
    | 3 => op.map fun op => some (.u32 op.v0.toUInt32 op.v1.toUInt32 (op.v0IsConst = 1))
    | 7 => op.map fun op => some (.u64 op.v0 op.v1 (op.v0IsConst = 1))
    | 15 | 31 | 63 => some none
    | _ => none
  else if execution < cmplogMapRtnH then
    let args := (map.vals idx).routine execution
    some (some (.bytes ⟨args.v0, .ofNat cmplogRtnLen⟩ ⟨args.v1, .ofNat cmplogRtnLen⟩))
  else none

/-! ## What has been logged -/

inductive CmpLogCall where
  | instructions (size : UInt8) (arg1 arg2 : UInt64) (arg1IsConst : UInt8)
  | routines (args : RoutineArgs)

/-- The operands of a comparison, as numbers, or as bytes. -/
inductive CmpOperands where
  | numbers (v0 v1 : Nat) (v0IsConst : Bool)
  | bytes (v0 v1 : List UInt8)
deriving DecidableEq

def CmpValues.operands : CmpValues → CmpOperands
  | .u8 v0 v1 c => .numbers v0.toNat v1.toNat c
  | .u16 v0 v1 c => .numbers v0.toNat v1.toNat c
  | .u32 v0 v1 c => .numbers v0.toNat v1.toNat c
  | .u64 v0 v1 c => .numbers v0.toNat v1.toNat c
  | .bytes v0 v1 => .bytes v0.asSlice v1.asSlice

namespace CmpLogCall

def kind : CmpLogCall → UInt8
  | instructions _ _ _ _ => cmplogKindIns
  | routines _ => cmplogKindRtn

def height : CmpLogCall → Nat
  | instructions _ _ _ _ => cmplogMapH
  | routines _ => cmplogMapRtnH

/-- The size of the operands of an instruction. -/
def size : CmpLogCall → Nat
  | instructions size _ _ _ => size.toNat
  | routines _ => 0

/-- The operands, if they have `size` bytes. -/
def operandsOfSize (size : Nat) : CmpLogCall → CmpOperands
  | instructions _ arg1 arg2 c =>
    .numbers (arg1.toNat % 256 ^ size) (arg2.toNat % 256 ^ size) (c = 1)
  | routines args => .bytes args.v0 args.v1

def operands (call : CmpLogCall) : CmpOperands := call.operandsOfSize call.size

end CmpLogCall

/-- The greatest size that has been logged. -/
def maxSize (calls : List CmpLogCall) : Nat := calls.foldl (fun size call => max size call.size) 0

/-- A log, and the logs of each key since its kind last became the one it has. -/
structure CmpLogHistory (w : Nat) where
  log : CmpLog w
  logs : Fin w → List CmpLogCall

namespace CmpLogHistory

variable {w : Nat}

/-- After a reset, with logging enabled. -/
def new (map : CmpLogMap w) : CmpLogHistory w := ⟨⟨true, map.reset⟩, fun _ => []⟩

def since (calls : List CmpLogCall) (call : CmpLogCall) : List CmpLogCall :=
  if calls.all fun call' => call'.kind = call.kind then calls ++ [call] else [call]

def log1 (k : Fin w) (log : CmpLog w) : CmpLogCall → CmpLog w
  | .instructions size arg1 arg2 c => cmplogInstructionsChecked k size arg1 arg2 c log
  | .routines args => cmplogRoutines k args log

def step (s : CmpLogHistory w) (a : Fin w × CmpLogCall) : Option (CmpLogHistory w) :=
  some ⟨log1 a.1 s.log a.2, Function.update s.logs a.1 (since (s.logs a.1) a.2)⟩

/-- What is read of a key is what has been logged last. -/
def KeyReturns (s : CmpLogHistory w) (k : Fin w) : Prop :=
  ∀ call, (s.logs k).getLast? = some call →
    s.log.map.usableExecutionsFor k = min (s.logs k).length call.height ∧
    ∃ entries : Nat → Option CmpValues,
      (∀ i < s.log.map.usableExecutionsFor k,
        parseCmplogMap s.log.map k i = some (entries i)) ∧
      ((List.range (s.log.map.usableExecutionsFor k)).map fun i =>
          (entries i).map CmpValues.operands).IsRotated
        (((s.logs k).drop ((s.logs k).length - call.height)).map fun call => some call.operands)

def Returns (s : CmpLogHistory w) : Prop := s.log.enabled = true ∧ ∀ k, s.KeyReturns k

/-- The greatest size is one of a number of up to 64 bits, the last operands
are the same numbers in that size, and the counter has not just been wrapped. -/
def InstructionsReadable (calls : List CmpLogCall) : Prop :=
  maxSize calls ∈ [1, 2, 4, 8] ∧
  (∀ call ∈ calls.drop (calls.length - cmplogMapH),
    call.operandsOfSize (maxSize calls) = call.operands) ∧
  (calls.length < 2 ^ 16 ∨ cmplogMapH ≤ calls.length % 2 ^ 16)

instance (calls : List CmpLogCall) : Decidable (InstructionsReadable calls) :=
  inferInstanceAs (Decidable (_ ∧ _ ∧ _))

/-- The slot after the fourth one is left out by the mask, and all bytes of a
slot are read. -/
def RoutinesReadable (calls : List CmpLogCall) : Prop :=
  calls.length ≤ 4 ∧ ∀ args, .routines args ∈ calls → args.v0.length = cmplogRtnLen

def Readable (s : CmpLogHistory w) (a : Fin w × CmpLogCall) : Prop :=
  match a.2 with
  | .instructions size _ _ _ => size ≠ 0 ∧ InstructionsReadable (since (s.logs a.1) a.2)
  | .routines _ => RoutinesReadable (since (s.logs a.1) a.2)

/-! ## What the map keeps -/

/-- The slot holds the arguments of the log. -/
def Has (row : CmpLogRow) (slot : Nat) : CmpLogCall → Prop
  | .instructions _ arg1 arg2 c => row.operand slot = ⟨arg1, arg2, c⟩
  | .routines args => row.routine slot = ⟨args.v0, args.v1⟩

structure KeepsInstructions (header : CmpLogHeader) (row : CmpLogRow)
    (calls : List CmpLogCall) : Prop where
  kind : header.kind = cmplogKindIns
  ofKind : ∀ call ∈ calls, call.kind = cmplogKindIns
  hits : header.hits.toNat = calls.length % 2 ^ 16
  shape : header.shape.toNat = maxSize calls - 1
  slots : Ring.Holds cmplogMapH (Has row) calls
  readable : calls ≠ [] → InstructionsReadable calls

structure KeepsRoutines (header : CmpLogHeader) (row : CmpLogRow)
    (calls : List CmpLogCall) : Prop where
  kind : header.kind = cmplogKindRtn
  ofKind : ∀ call ∈ calls, call.kind = cmplogKindRtn
  nonempty : calls ≠ []
  hits : header.hits.toNat = calls.length
  slots : Ring.Holds 4 (Has row) calls
  readable : RoutinesReadable calls

def Keeps (header : CmpLogHeader) (row : CmpLogRow) (calls : List CmpLogCall) : Prop :=
  KeepsInstructions header row calls ∨ KeepsRoutines header row calls

theorem keeps_new (row : CmpLogRow) : Keeps ⟨0, 0, 0⟩ row [] :=
  Or.inl ⟨rfl, by simp, rfl, rfl, Ring.holds_nil, fun h => absurd rfl h⟩

theorem kindIns_ne_kindRtn : cmplogKindIns ≠ cmplogKindRtn := by decide

theorem since_of_kind {calls : List CmpLogCall} (call : CmpLogCall)
    (h : ∀ call' ∈ calls, call'.kind = call.kind) : since calls call = calls ++ [call] := by
  rw [since, if_pos]
  simpa using h

theorem since_of_ne {calls : List CmpLogCall} (call : CmpLogCall) (hne : calls ≠ [])
    (h : ∀ call' ∈ calls, call'.kind ≠ call.kind) : since calls call = [call] := by
  rw [since, if_neg]
  obtain ⟨call', hcall'⟩ := List.exists_mem_of_ne_nil calls hne
  simp only [List.all_eq_true, decide_eq_true_eq]
  exact fun hall => h call' hcall' (hall call' hcall')

theorem maxSize_concat {calls : List CmpLogCall} {call : CmpLogCall} :
    maxSize (calls ++ [call]) = max (maxSize calls) call.size := by
  simp [maxSize]

/-- The slots are used in turn, however often the counter has been wrapped. -/
theorem instructions_slot {hits : UInt16} {n : Nat} (h : hits.toNat = n % 2 ^ 16) :
    hits.toNat &&& (cmplogMapH - 1) = n % cmplogMapH := by
  rw [h, show cmplogMapH - 1 = 2 ^ 5 - 1 from rfl, Nat.and_two_pow_sub_one_eq_mod,
    show cmplogMapH = 2 ^ 5 from rfl]
  exact Nat.mod_mod_of_dvd n (Nat.pow_dvd_pow 2 (by decide))

/-- The first four slots of routines are used in turn. -/
theorem routines_slot {n : Nat} (h : n < 4) : n &&& (cmplogMapRtnH - 1) = n % 4 := by
  revert n
  decide

theorem has_setOperand {row : CmpLogRow} {slot j : Nat} {op : CmpLogInstruction}
    {call : CmpLogCall} (hkind : call.kind = cmplogKindIns) (hj : j ≠ slot)
    (h : Has row j call) : Has (row.setOperand slot op) j call := by
  rcases call with ⟨size, arg1, arg2, c⟩ | args
  · unfold Has
    rw [CmpLogRow.operand_setOperand_ne hj]
    exact h
  · cases hkind

theorem has_copyRoutine {row : CmpLogRow} {slot j : Nat} {args : RoutineArgs}
    {call : CmpLogCall} (hkind : call.kind = cmplogKindRtn) (hj : j ≠ slot)
    (h : Has row j call) : Has (row.copyRoutine slot args.v0 args.v1) j call := by
  rcases call with ⟨size, arg1, arg2, c⟩ | args'
  · cases hkind
  · unfold Has
    rw [CmpLogRow.routine_copyRoutine_ne hj args.le (args.sameLength.le.trans args.le)]
    exact h

theorem keeps_instructions {header : CmpLogHeader} {row : CmpLogRow} {calls : List CmpLogCall}
    {size : UInt8} {arg1 arg2 : UInt64} {c : UInt8} (h : Keeps header row calls)
    (hsize : size ≠ 0)
    (hread : InstructionsReadable (since calls (.instructions size arg1 arg2 c))) :
    let (header', hits) := header.hit cmplogKindIns (size - 1) (header.shape < size - 1)
    Keeps header' (row.setOperand (hits.toNat &&& (cmplogMapH - 1)) ⟨arg1, arg2, c⟩)
      (since calls (.instructions size arg1 arg2 c)) := by
  have hslot (row : CmpLogRow) (slot : Nat) :
      Has (row.setOperand slot ⟨arg1, arg2, c⟩) slot (.instructions size arg1 arg2 c) :=
    CmpLogRow.operand_setOperand_self ..
  have hshape : (size - 1).toNat = size.toNat - 1 := by
    have hpos : size.toNat ≠ 0 := fun h0 => hsize (UInt8.toNat_inj.mp h0)
    rw [UInt8.toNat_sub_of_le]
    · rfl
    · rw [UInt8.le_iff_toNat_le]
      exact Nat.one_le_iff_ne_zero.mpr hpos
  rcases h with h | h
  · have hsince := since_of_kind (.instructions size arg1 arg2 c) h.ofKind
    rw [hsince] at hread ⊢
    rw [CmpLogHeader.hit, if_neg (not_not.mpr h.kind)]
    refine Or.inl ⟨rfl, ?_, ?_, ?_, ?_, fun _ => hread⟩
    · exact List.forall_mem_append.mpr ⟨h.ofKind, List.forall_mem_singleton.mpr rfl⟩
    · rw [List.length_append, UInt16.toNat_add, h.hits]
      exact Nat.mod_add_mod ..
    · rw [maxSize_concat]
      simp only [decide_eq_true_eq, UInt8.lt_iff_toNat_lt, hshape, CmpLogCall.size]
      have := h.shape
      split_ifs <;> omega
    · rw [instructions_slot h.hits]
      exact h.slots.concat (hslot ..) fun j call hcall hj =>
        has_setOperand (h.ofKind call hcall) hj
  · have hsince := since_of_ne (.instructions size arg1 arg2 c) h.nonempty
      fun call hcall => by rw [h.ofKind call hcall]; exact kindIns_ne_kindRtn.symm
    rw [hsince] at hread ⊢
    rw [CmpLogHeader.hit, if_pos (by rw [h.kind]; exact kindIns_ne_kindRtn.symm)]
    refine Or.inl ⟨rfl, List.forall_mem_singleton.mpr rfl, rfl, ?_, ?_, fun _ => hread⟩
    · rw [hshape]
      exact congrArg (· - 1) (Nat.zero_max size.toNat).symm
    · exact Ring.holds_singleton (hslot ..)

theorem keeps_routines {header : CmpLogHeader} {row : CmpLogRow} {calls : List CmpLogCall}
    {args : RoutineArgs} {shape : UInt8} {greater : Bool} (h : Keeps header row calls)
    (hread : RoutinesReadable (since calls (.routines args))) :
    let (header', hits) := header.hit cmplogKindRtn shape greater
    Keeps header' (row.copyRoutine (hits.toNat &&& (cmplogMapRtnH - 1)) args.v0 args.v1)
      (since calls (.routines args)) := by
  have hslot (row : CmpLogRow) (slot : Nat) (hlen : args.v0.length = cmplogRtnLen) :
      Has (row.copyRoutine slot args.v0 args.v1) slot (.routines args) :=
    CmpLogRow.routine_copyRoutine_self _ _ hlen (args.sameLength.trans hlen)
  rcases h with h | h
  · have hsince : since calls (.routines args) = [.routines args] := by
      rcases List.eq_nil_or_concat calls with rfl | ⟨pre, last, rfl⟩
      · rfl
      · exact since_of_ne _ (by simp) fun call hcall => by
          rw [h.ofKind call hcall]; exact kindIns_ne_kindRtn
    rw [hsince] at hread ⊢
    rw [CmpLogHeader.hit, if_pos (by rw [h.kind]; exact kindIns_ne_kindRtn)]
    exact Or.inr ⟨rfl, List.forall_mem_singleton.mpr rfl, by simp, rfl,
      Ring.holds_singleton (hslot _ _ (hread.2 args (by simp))), hread⟩
  · have hsince := since_of_kind (.routines args) h.ofKind
    rw [hsince] at hread ⊢
    rw [CmpLogHeader.hit, if_neg (not_not.mpr h.kind)]
    have hlen : calls.length < 4 := by
      have := hread.1
      rwa [List.length_append] at this
    refine Or.inr ⟨rfl, ?_, by simp, ?_, ?_, hread⟩
    · exact List.forall_mem_append.mpr ⟨h.ofKind, List.forall_mem_singleton.mpr rfl⟩
    · rw [List.length_append, UInt16.toNat_add, h.hits]
      exact Nat.mod_eq_of_lt (by simp; omega)
    · rw [h.hits, routines_slot hlen]
      exact h.slots.concat (hslot _ _ (hread.2 args (by simp))) fun j call hcall hj =>
        has_copyRoutine (h.ofKind call hcall) hj

/-! ## What is read -/

theorem parse_instructions {map : CmpLogMap w} {k : Fin w} {i size : Nat}
    (hkind : (map.headers k).kind = cmplogKindIns)
    (hshape : (map.headers k).shape.toNat = size - 1) (hsize : size ∈ [1, 2, 4, 8])
    (hi : i < cmplogMapH) :
    ∃ val, parseCmplogMap map k i = some (some val) ∧
      val.operands = .numbers (((map.vals k).operand i).v0.toNat % 256 ^ size)
        (((map.vals k).operand i).v1.toNat % 256 ^ size)
        (((map.vals k).operand i).v0IsConst = 1) := by
  unfold parseCmplogMap
  rw [if_pos hkind, hshape, if_pos hi]
  simp only [List.mem_cons, List.not_mem_nil, or_false] at hsize
  rcases hsize with rfl | rfl | rfl | rfl
  · exact ⟨_, rfl, by simp [CmpValues.operands]⟩
  · exact ⟨_, rfl, by simp [CmpValues.operands]⟩
  · exact ⟨_, rfl, by simp [CmpValues.operands]⟩
  · refine ⟨_, rfl, ?_⟩
    have h0 : _ < 256 ^ 8 := ((map.vals k).operand i).v0.toNat_lt
    have h1 : _ < 256 ^ 8 := ((map.vals k).operand i).v1.toNat_lt
    rw [Nat.mod_eq_of_lt h0, Nat.mod_eq_of_lt h1]
    rfl

theorem parse_routines {map : CmpLogMap w} {k : Fin w} {i : Nat}
    (hkind : (map.headers k).kind ≠ cmplogKindIns) (hi : i < cmplogMapRtnH) :
    parseCmplogMap map k i = some (some (.bytes
      ⟨((map.vals k).routine i).v0, .ofNat cmplogRtnLen⟩
      ⟨((map.vals k).routine i).v1, .ofNat cmplogRtnLen⟩)) := by
  unfold parseCmplogMap
  rw [if_neg hkind, if_pos hi]

theorem keyReturns_of_instructions {s : CmpLogHistory w} {k : Fin w}
    (h : KeepsInstructions (s.log.map.headers k) (s.log.map.vals k) (s.logs k)) :
    s.KeyReturns k := by
  intro call hlast
  have hmem := List.mem_of_getLast? hlast
  have hne := List.ne_nil_of_mem hmem
  obtain ⟨hsize, hsame, hcount⟩ := h.readable hne
  have hheight : call.height = cmplogMapH := by
    rcases call with ⟨size, arg1, arg2, c⟩ | args
    · rfl
    · exact absurd (h.ofKind _ hmem) kindIns_ne_kindRtn.symm
  have husable : s.log.map.usableExecutionsFor k = min (s.logs k).length cmplogMapH := by
    unfold CmpLogMap.usableExecutionsFor CmpLogMap.executionsFor
    rw [if_pos h.kind, h.hits]
    unfold cmplogMapH at *
    split <;> omega
  rw [husable, hheight]
  have hparse (i : Nat) (hi : i < cmplogMapH) := parse_instructions h.kind h.shape hsize hi
  refine ⟨rfl, fun i => (parseCmplogMap s.log.map k i).getD none, ?_, ?_⟩
  · intro i hi
    obtain ⟨val, hval, -⟩ := hparse i (by omega)
    simp only [hval, Option.getD_some]
  · refine h.slots.isRotated (by decide) fun j hj call hcall hhas => ?_
    obtain ⟨val, hval, hoperands⟩ := hparse j hj
    have hsame := hsame call hcall
    have hins := h.ofKind call (List.mem_of_mem_drop hcall)
    rcases call with ⟨size, arg1, arg2, c⟩ | args
    · rw [← hsame]
      simp only [hval, Option.getD_some, Option.map_some, hoperands]
      rw [show (s.log.map.vals k).operand j = _ from hhas]
      rfl
    · cases hins

theorem keyReturns_of_routines {s : CmpLogHistory w} {k : Fin w}
    (h : KeepsRoutines (s.log.map.headers k) (s.log.map.vals k) (s.logs k)) :
    s.KeyReturns k := by
  intro call hlast
  have hmem := List.mem_of_getLast? hlast
  obtain ⟨hcount, hlen⟩ := h.readable
  have hkind : (s.log.map.headers k).kind ≠ cmplogKindIns := by
    rw [h.kind]
    exact kindIns_ne_kindRtn.symm
  have hheight : call.height = cmplogMapRtnH := by
    rcases call with ⟨size, arg1, arg2, c⟩ | args
    · exact absurd (h.ofKind _ hmem) kindIns_ne_kindRtn
    · rfl
  have hlt : (s.logs k).length < cmplogMapRtnH := Nat.lt_of_le_of_lt hcount (by decide)
  have husable : s.log.map.usableExecutionsFor k = min (s.logs k).length 4 := by
    unfold CmpLogMap.usableExecutionsFor CmpLogMap.executionsFor
    rw [if_neg hkind, h.hits, if_pos hlt, Nat.min_eq_left hcount]
  rw [husable, hheight, Nat.sub_eq_zero_of_le hlt.le, Nat.min_eq_left hcount,
    Nat.min_eq_left hlt.le]
  refine ⟨rfl, fun i => (parseCmplogMap s.log.map k i).getD none, ?_, ?_⟩
  · intro i hi
    simp only [parse_routines hkind (hi.trans hlt), Option.getD_some]
  · have hrotated := h.slots.isRotated (by decide)
      (f := fun i => ((parseCmplogMap s.log.map k i).getD none).map CmpValues.operands)
      (g := fun call => some call.operands) fun j hj call hcall hhas => ?_
    · rwa [Nat.min_eq_left hcount, Nat.sub_eq_zero_of_le hcount] at hrotated
    · have hmem := List.mem_of_mem_drop hcall
      have hrtn := h.ofKind call hmem
      rcases call with ⟨size, arg1, arg2, c⟩ | args
      · cases hrtn
      · have hargs := hlen args hmem
        rw [parse_routines hkind (hj.trans (by decide)),
          show (s.log.map.vals k).routine j = _ from hhas]
        simp only [Option.getD_some, Option.map_some, CmpValues.operands, CmplogBytes.asSlice,
          CmpLogCall.operands, CmpLogCall.operandsOfSize]
        rw [List.take_of_length_le, List.take_of_length_le]
        · exact (args.sameLength.trans hargs).le
        · exact hargs.le

/-! ## Runs -/

/-- What is kept of every key. -/
def Inv (s : CmpLogHistory w) : Prop :=
  s.log.enabled = true ∧ ∀ k, Keeps (s.log.map.headers k) (s.log.map.vals k) (s.logs k)

theorem inv_update {map : CmpLogMap w} {logs : Fin w → List CmpLogCall} {k : Fin w}
    {header : CmpLogHeader} {row : CmpLogRow} {calls : List CmpLogCall}
    (h : ∀ k, Keeps (map.headers k) (map.vals k) (logs k)) (hk : Keeps header row calls) :
    Inv ⟨⟨true, (map.setHeader k header).setRow k row⟩, Function.update logs k calls⟩ := by
  refine ⟨rfl, fun k' => ?_⟩
  unfold CmpLogMap.setRow CmpLogMap.setHeader
  by_cases hkk : k' = k
  · subst hkk
    simpa only [Function.update_self] using hk
  · simpa only [Function.update_of_ne hkk] using h k'

theorem inv_step {s : CmpLogHistory w} {a : Fin w × CmpLogCall} (h : Inv s)
    (ha : Readable s a) : ∃ s', step s a = some s' ∧ Inv s' := by
  refine ⟨_, rfl, ?_⟩
  obtain ⟨⟨enabled, map⟩, logs⟩ := s
  obtain ⟨henabled, hkeeps⟩ := h
  obtain rfl : enabled = true := henabled
  rcases a with ⟨k, ⟨size, arg1, arg2, c⟩ | args⟩
  · obtain ⟨hsize, hread⟩ := ha
    simp only [log1, cmplogInstructionsChecked, Bool.not_true, Bool.false_eq_true, if_false,
      if_neg hsize]
    exact inv_update hkeeps (keeps_instructions (hkeeps k) hsize hread)
  · exact inv_update hkeeps (keeps_routines (hkeeps k) ha)

/-- Whatever has been in the map before the reset, and in whichever order the keys
are logged: if every log leaves its key readable, what is read of a key is always
what has been logged of it last. -/
theorem returns_of_readable {map : CmpLogMap w} {calls : List (Fin w × CmpLogCall)}
    (h : StepsMeet step (new map) calls Readable) :
    Survives step (new map) calls (fun _ s => s.Returns) := by
  refine h.survives Inv ⟨rfl, fun k => keeps_new _⟩ (fun _ _ => inv_step) ?_
  rintro s ⟨henabled, hkeeps⟩
  refine ⟨henabled, fun k => ?_⟩
  rcases hkeeps k with hk | hk
  · exact keyReturns_of_instructions hk
  · exact keyReturns_of_routines hk

/-- A comparison in two sizes, a routine of full length, and then an instruction
at the key of the routine. -/
theorem returns_two_kinds :
    Survives step (new (w := 2) ⟨fun _ => ⟨7, 3, 1⟩, fun _ _ => 0xff⟩)
      [(0, .instructions 1 0x61 0x62 1), (0, .instructions 4 0x61626364 0x65 0),
        (1, .routines ⟨List.replicate 32 1, List.replicate 32 2, rfl, by decide, by decide⟩),
        (1, .instructions 2 5 6 0)]
      (fun _ s => s.Returns) := by
  refine returns_of_readable ?_
  rw [stepsMeet_cons]
  refine ⟨⟨by decide, by decide⟩, fun t ht => ?_⟩
  obtain rfl := Option.some.inj ht
  rw [stepsMeet_cons]
  refine ⟨⟨by decide, by decide⟩, fun t ht => ?_⟩
  obtain rfl := Option.some.inj ht
  rw [stepsMeet_cons]
  refine ⟨⟨by decide, fun args hargs => ?_⟩, fun t ht => ?_⟩
  · obtain rfl := CmpLogCall.routines.inj (List.mem_singleton.mp hargs)
    rfl
  obtain rfl := Option.some.inj ht
  rw [stepsMeet_cons]
  exact ⟨⟨by decide, by decide⟩, fun _ _ => stepsMeet_nil⟩

/-- Of a routine of one byte, all the bytes that have been in the slot are read. -/
theorem not_returns_short_routine :
    ¬Survives step (new (w := 1) ⟨fun _ => ⟨0, 0, 0⟩, fun _ _ => 0⟩)
      [(0, .routines ⟨[0x61], [0x62], rfl, by decide, by decide⟩)] (fun _ s => s.Returns) := by
  intro h
  obtain ⟨s, hs, hreturns⟩ := h _ (List.prefix_refl _)
  obtain rfl := Option.some.inj hs
  obtain ⟨husable, entries, hparse, hrotated⟩ := hreturns.2 0 _ rfl
  have hentry : some (.bytes ⟨0x61 :: List.replicate 31 0, 32⟩ ⟨0x62 :: List.replicate 31 0, 32⟩) =
      entries 0 := Option.some.inj (hparse 0 (by decide))
  have hread : [(entries 0).map CmpValues.operands].IsRotated [some (.bytes [0x61] [0x62])] :=
    hrotated
  rw [List.isRotated_singleton_iff, ← hentry] at hread
  exact absurd hread (by decide)

end CmpLogHistory

end Libaflmm
