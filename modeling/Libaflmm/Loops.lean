import Mathlib.Logic.Basic

/-!
# Loops that go on until they are done

One turn of a loop goes on with a new state, is done with a result, or panics.
The loop is given the number of turns it may take. `Reaches turn s t` says that
the loop comes from `s` to `t`, whatever it does from there on, and `Ends turn
s res` that from `s` it is done with the result `res`, or panics where `res` is
`none`.
-/

namespace Libaflmm

variable {σ β : Type}

inductive Turn (σ β : Type) where
  | next (s : σ)
  | done (b : β)
  | panic

namespace Turn

/-- No result is a panic, or too few turns. -/
def loop (turn : σ → Turn σ β) : Nat → σ → Option β
  | 0, _ => none
  | fuel + 1, s =>
    match turn s with
    | .next s => loop turn fuel s
    | .done b => some b
    | .panic => none

/-- A panic is the end of the loop as well. -/
def ofOption : Option σ → Turn σ β
  | some s => .next s
  | none => .panic

variable {turn : σ → Turn σ β} {s t u : σ} {res : Option β}

def Reaches (turn : σ → Turn σ β) (s t : σ) : Prop :=
  ∃ k, ∀ fuel, loop turn (fuel + k) s = loop turn fuel t

def Ends (turn : σ → Turn σ β) (s : σ) : Option β → Prop
  | some b => ∃ fuel, loop turn fuel s = some b
  | none => ∀ fuel, loop turn fuel s = none

theorem Reaches.refl (s : σ) : Reaches turn s s := ⟨0, fun _ => rfl⟩

theorem Reaches.trans (h : Reaches turn s t) (h' : Reaches turn t u) : Reaches turn s u := by
  obtain ⟨k, hk⟩ := h
  obtain ⟨k', hk'⟩ := h'
  refine ⟨k' + k, fun fuel => ?_⟩
  rw [← Nat.add_assoc, hk, hk']

theorem Reaches.of_next (h : turn s = .next t) : Reaches turn s t := by
  refine ⟨1, fun fuel => ?_⟩
  rw [loop, h]

theorem loop_mono {fuel : Nat} {b : β} (h : loop turn fuel s = some b) (k : Nat) :
    loop turn (fuel + k) s = some b := by
  induction fuel generalizing s with
  | zero => cases h
  | succ fuel ih =>
      rw [Nat.add_right_comm, loop]
      rw [loop] at h
      cases hturn : turn s with
      | next t =>
          rw [hturn] at h
          exact ih h
      | done b' =>
          rw [hturn] at h
          exact h
      | panic =>
          rw [hturn] at h
          cases h

theorem Reaches.ends (h : Reaches turn s t) (ht : Ends turn t res) : Ends turn s res := by
  obtain ⟨k, hk⟩ := h
  cases res with
  | some b =>
      obtain ⟨fuel, hfuel⟩ := ht
      exact ⟨fuel + k, (hk fuel).trans hfuel⟩
  | none =>
      intro fuel
      -- what is done with less fuel would be done with more
      cases hb : loop turn fuel s with
      | none => rfl
      | some b =>
          have hmore := loop_mono hb k
          rw [hk, ht fuel] at hmore
          cases hmore

theorem Ends.eq_none (h : Ends turn s none) (fuel : Nat) : loop turn fuel s = none := h fuel

theorem Ends.enough {b : β} (h : Ends turn s (some b)) :
    ∃ enough, ∀ fuel, enough ≤ fuel → loop turn fuel s = some b := by
  obtain ⟨enough, hdone⟩ := h
  refine ⟨enough, fun fuel hfuel => ?_⟩
  rw [← Nat.add_sub_cancel' hfuel]
  exact loop_mono hdone _

/-- What comes to hold with enough turns for each of finitely many, does so for all of them. -/
theorem exists_enough {P : Nat → Nat → Prop} {k : Nat}
    (h : ∀ n < k, ∃ enough, ∀ fuel, enough ≤ fuel → P n fuel) :
    ∃ enough, ∀ fuel, enough ≤ fuel → ∀ n < k, P n fuel := by
  induction k with
  | zero => exact ⟨0, fun fuel _ n hn => absurd hn (Nat.not_lt_zero n)⟩
  | succ k ih =>
      obtain ⟨enough, hbelow⟩ := ih fun n hn => h n (Nat.lt_succ_of_lt hn)
      obtain ⟨enough', hlast⟩ := h k (Nat.lt_succ_self k)
      refine ⟨max enough enough', fun fuel hfuel n hn => ?_⟩
      obtain ⟨hle, hle'⟩ := Nat.max_le.mp hfuel
      rcases Nat.lt_succ_iff_lt_or_eq.mp hn with hlt | rfl
      · exact hbelow fuel hle n hlt
      · exact hlast fuel hle'

theorem Ends.of_panic (h : turn s = .panic) : Ends turn s none := by
  intro fuel
  cases fuel with
  | zero => rfl
  | succ fuel => rw [loop, h]

theorem Ends.of_done {b : β} (h : turn s = .done b) : Ends turn s (some b) := by
  refine ⟨1, ?_⟩
  rw [loop, h]

/-- The loop comes to the state that is given, or panics on its way where none is. -/
def Leads (turn : σ → Turn σ β) (s : σ) : Option σ → Prop
  | some t => Reaches turn s t
  | none => Ends turn s none

theorem Leads.of_reaches {last : Option σ} (h : Reaches turn s t) (h' : Leads turn t last) :
    Leads turn s last := by
  cases last with
  | none =>
      have ht : Ends turn t none := h'
      exact h.ends ht
  | some u => exact h.trans h'

theorem Leads.bind {first : Option σ} {next : σ → Option σ} (h : Leads turn s first)
    (h' : ∀ t, first = some t → Leads turn t (next t)) : Leads turn s (first.bind next) := by
  cases first with
  | none => exact h
  | some t =>
      rw [Option.bind_some]
      exact .of_reaches h (h' t rfl)

theorem Leads.of_turn {last : Option σ} (h : turn s = ofOption last) : Leads turn s last := by
  cases last with
  | none => exact .of_panic h
  | some t => exact .of_next h

end Turn

end Libaflmm
