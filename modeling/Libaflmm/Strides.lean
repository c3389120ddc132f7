import Mathlib.Algebra.Order.Group.Nat
import Mathlib.Data.List.Range
import Mathlib.Logic.Function.Basic

/-!
# Loops with a stride, and memory filled by them

`strided step start stop` lists the addresses visited by
`while start < stop { ..; start += step }`. A memory is a function from
addresses; `fill` stores one value at each address of a list, `writeBlock`
stores a list of values from an address on.
-/

namespace Libaflmm

variable {V : Type}

def strided (step start stop : Nat) : List Nat :=
  List.range' start ((stop - start + (step - 1)) / step) step

theorem mem_strided {step start stop a : Nat} (hstep : 0 < step) :
    a ∈ strided step start stop ↔ ∃ i, a = start + step * i ∧ a < stop := by
  simp only [strided, List.mem_range']
  constructor
  · rintro ⟨i, hi, rfl⟩
    refine ⟨i, rfl, ?_⟩
    have := (Nat.lt_div_iff_mul_lt hstep).mp hi
    rw [Nat.mul_comm] at this
    omega
  · rintro ⟨i, rfl, hlt⟩
    refine ⟨i, (Nat.lt_div_iff_mul_lt hstep).mpr ?_, rfl⟩
    rw [Nat.mul_comm]
    omega

/-! ## Filling memory -/

def fill (cells : List Nat) (v : V) (mem : Nat → V) : Nat → V :=
  cells.foldl (fun mem c => Function.update mem c v) mem

theorem fill_apply {cells : List Nat} {v : V} {mem : Nat → V} {c : Nat} :
    fill cells v mem c = if c ∈ cells then v else mem c := by
  induction cells generalizing mem with
  | nil => rfl
  | cons d cells ih =>
      show fill cells v (Function.update mem d v) c = _
      rw [ih]
      by_cases hc : c ∈ cells
      · simp [hc]
      · by_cases hd : c = d <;> simp [hc, hd]

/-! ## Blocks -/

def readBlock (mem : Nat → V) (start n : Nat) : List V :=
  (List.range n).map fun i => mem (start + i)

def writeBlock (mem : Nat → V) (start : Nat) (data : List V) : Nat → V :=
  fun c => if start ≤ c then data[c - start]?.getD (mem c) else mem c

theorem writeBlock_apply_of_notMem {mem : Nat → V} {start : Nat} {data : List V} {c : Nat}
    (h : ¬(start ≤ c ∧ c < start + data.length)) : writeBlock mem start data c = mem c := by
  unfold writeBlock
  split
  · next hle =>
      rw [List.getElem?_eq_none (by omega)]
      rfl
  · rfl

theorem writeBlock_add {mem : Nat → V} {start i : Nat} {data : List V} (h : i < data.length) :
    writeBlock mem start data (start + i) = data[i] := by
  simp [writeBlock, h]

/-- Blocks written one after the other: where they agree on `v`, and memory does
where there is none, the result is `v`. -/
theorem foldl_writeBlock_of_agree {α : Type} {start : α → Nat} {data : α → List V} {l : List α}
    {mem : Nat → V} {c : Nat} {v : V}
    (hblocks : ∀ a ∈ l, ∀ i, (h : i < (data a).length) → start a + i = c → (data a)[i] = v)
    (hmem : (∀ a ∈ l, ¬(start a ≤ c ∧ c < start a + (data a).length)) → mem c = v) :
    l.foldl (fun mem a => writeBlock mem (start a) (data a)) mem c = v := by
  induction l generalizing mem with
  | nil => exact hmem (by simp)
  | cons a l ih =>
      refine ih (fun b hb => hblocks b (List.mem_cons_of_mem a hb)) ?_
      intro hnone
      by_cases ha : start a ≤ c ∧ c < start a + (data a).length
      · obtain ⟨i, rfl⟩ := Nat.exists_eq_add_of_le ha.1
        have hi : i < (data a).length := by omega
        show writeBlock mem (start a) (data a) (start a + i) = v
        rw [writeBlock_add hi]
        exact hblocks a (by simp) i hi rfl
      · show writeBlock mem (start a) (data a) c = v
        rw [writeBlock_apply_of_notMem ha]
        refine hmem fun b hb => ?_
        rcases List.mem_cons.mp hb with rfl | hb
        · exact ha
        · exact hnone b hb

@[simp] theorem length_readBlock (mem : Nat → V) (start n : Nat) :
    (readBlock mem start n).length = n := by
  simp [readBlock]

@[simp] theorem getElem_readBlock (mem : Nat → V) (start n i : Nat)
    (h : i < (readBlock mem start n).length) : (readBlock mem start n)[i] = mem (start + i) := by
  simp [readBlock]

end Libaflmm
