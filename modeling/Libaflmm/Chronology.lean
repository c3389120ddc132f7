import Mathlib.Data.List.Nodup

/-!
# Chronological order and threaded lists

What a collection that remembers the order of insertion is for, over any
type of keys. The order is a list without duplicates: a new key goes to the
end, a key already there keeps its place, a removed key leaves.

A *threading* stores the list as two partial functions, the neighbours of
each key. `Threads next prev l` says that they are those of `l`, one
equation per way of splitting `l` at a key; `Walk next start l` is the
observation a caller makes, following `next` until it ends.
-/

namespace Libaflmm

variable {α : Type*}

namespace Chronology

/-! ## The order and its two operations -/

def insert [DecidableEq α] (l : List α) (a : α) : List α :=
  if a ∈ l then l else l ++ [a]

variable [DecidableEq α] {l x y : List α} {a b : α}

theorem insert_of_mem (h : a ∈ l) : insert l a = l := if_pos h

theorem insert_of_not_mem (h : a ∉ l) : insert l a = l ++ [a] := if_neg h

theorem erase_split (h : a ∉ x) : (x ++ a :: y).erase a = x ++ y := by
  rw [List.erase_append_right _ h, List.erase_cons_head]

end Chronology

/-! ## Splits of a list -/

/-- A key of `x ++ y` splits `x` or splits `y`. -/
theorem split_append {x y x' y' : List α} {b : α} (h : x' ++ b :: y' = x ++ y) :
    (∃ z, x = x' ++ b :: z ∧ y' = z ++ y) ∨ (∃ z, y = z ++ b :: y' ∧ x' = x ++ z) := by
  rcases List.append_eq_append_iff.mp h with ⟨z, hx, hz⟩ | ⟨z, hx, hz⟩
  · cases z with
    | nil => exact Or.inr ⟨[], by simpa using hz.symm, by simpa using hx.symm⟩
    | cons c z =>
        obtain ⟨rfl, rfl⟩ := List.cons.inj hz
        exact Or.inl ⟨z, hx, rfl⟩
  · exact Or.inr ⟨z, hz, hx⟩

theorem not_mem_split {x y : List α} {a : α} (hn : (x ++ a :: y).Nodup) : a ∉ x ∧ a ∉ y := by
  rw [List.nodup_append] at hn
  exact ⟨fun hx => hn.2.2 a hx a (by simp) rfl, (List.nodup_cons.mp hn.2.1).1⟩

/-- In a list without duplicates a key splits it in one way only. -/
theorem split_unique {x y x' y' : List α} {a : α} (hn : (x ++ a :: y).Nodup)
    (h : x' ++ a :: y' = x ++ a :: y) : x' = x ∧ y' = y := by
  obtain ⟨hx, hy⟩ := not_mem_split hn
  rcases split_append h with ⟨z, rfl, -⟩ | ⟨z, hz, hx'⟩
  · simp at hx
  · cases z with
    | nil => exact ⟨by simpa using hx', (List.cons.inj hz).2.symm⟩
    | cons c z =>
        obtain ⟨rfl, rfl⟩ := List.cons.inj hz
        simp at hy

/-! ## Taking a key out -/

section

variable [DecidableEq α] {u v x y z : List α} {a b : α}

/-- The key after `b`, when `a` leaves somewhere behind it. -/
theorem head?_unlinked (hn : ((u ++ b :: z) ++ a :: y).Nodup) :
    y.head? ≠ some b ∧ (if (u ++ b :: z).getLast? = some b then y.head?
      else (z ++ a :: y).head?) = (z ++ y).head? := by
  rw [List.append_assoc, List.cons_append] at hn
  have hb := (not_mem_split hn).2
  constructor
  · intro heq
    have hmem : b ∈ y := List.mem_of_mem_head? heq
    exact hb (by simp [hmem])
  · by_cases hz : z = []
    · simp [hz]
    · have hlast : (u ++ b :: z).getLast? ≠ some b := by
        intro heq
        rw [List.getLast?_append_of_ne_nil _ (by simp), List.getLast?_cons_of_ne_nil hz] at heq
        exact hb (List.mem_append_left _ (List.mem_of_getLast? heq))
      rw [if_neg hlast, List.head?_append_of_ne_nil _ hz, List.head?_append_of_ne_nil _ hz]

/-- The key before `b`, when `a` leaves somewhere before it. -/
theorem getLast?_unlinked (hn : (x ++ a :: (z ++ b :: v)).Nodup) :
    x.getLast? ≠ some b ∧ (if (z ++ b :: v).head? = some b then x.getLast?
      else (x ++ a :: z).getLast?) = (x ++ z).getLast? := by
  rw [← List.cons_append, ← List.append_assoc] at hn
  have hb := (not_mem_split hn).1
  constructor
  · intro heq
    exact hb (List.mem_append_left _ (List.mem_of_getLast? heq))
  · by_cases hz : z = []
    · simp [hz]
    · have hhead : (z ++ b :: v).head? ≠ some b := by
        intro heq
        rw [List.head?_append_of_ne_nil _ hz] at heq
        have hmem : b ∈ z := List.mem_of_mem_head? heq
        exact hb (by simp [hmem])
      rw [if_neg hhead, List.getLast?_append_of_ne_nil _ (by simp),
        List.getLast?_cons_of_ne_nil hz, List.getLast?_append_of_ne_nil _ hz]

end

/-! ## Threads and walks -/

/-- `next` and `prev` give the neighbours each key has in `l`. -/
structure Threads (next prev : α → Option α) (l : List α) : Prop where
  next_at : ∀ x a y, l = x ++ a :: y → next a = y.head?
  prev_at : ∀ x a y, l = x ++ a :: y → prev a = x.getLast?

/-- Following `next` from `start` meets the keys of the list, then ends. -/
inductive Walk (next : α → Option α) : Option α → List α → Prop
  | done : Walk next none []
  | step {a : α} {l : List α} : Walk next (next a) l → Walk next (some a) (a :: l)

section

variable {next prev : α → Option α} {l : List α} {start : Option α}

theorem Walk.head (h : Walk next start l) : start = l.head? := by
  cases h <;> rfl

theorem Walk.unique {l' : List α} (h : Walk next start l) (h' : Walk next start l') : l = l' := by
  induction h generalizing l' with
  | done =>
      cases h'
      rfl
  | step _ ih =>
      cases h' with
      | step h' => rw [ih h']

/-- A walk meets after each of its keys the one `next` gives. -/
theorem Walk.next_at {x y : List α} {a : α} (h : Walk next start (x ++ a :: y)) :
    next a = y.head? := by
  induction x generalizing start with
  | nil =>
      cases h with
      | step h => exact h.head
  | cons b x ih =>
      cases h with
      | step h => exact ih h

theorem walk_of_next_at (h : ∀ x a y, l = x ++ a :: y → next a = y.head?) :
    Walk next l.head? l := by
  induction l with
  | nil => exact .done
  | cons a l ih =>
      refine .step ?_
      rw [h [] a l rfl]
      exact ih fun x b y hl => h (a :: x) b y (by rw [hl, List.cons_append])

/-- Threading a list without duplicates makes `prev` the inverse of `next`,
provided neither gives a neighbour to a key outside the list. -/
theorem Threads.inverse (ht : Threads next prev l) (hn : l.Nodup)
    (hnext : ∀ a, a ∉ l → next a = none) (hprev : ∀ a, a ∉ l → prev a = none) (a b : α) :
    next a = some b ↔ prev b = some a := by
  constructor
  · intro h
    by_cases ha : a ∈ l
    · obtain ⟨x, y, rfl⟩ := List.append_of_mem ha
      rw [ht.next_at x a y rfl] at h
      obtain ⟨z, rfl⟩ := List.head?_eq_some_iff.mp h
      simpa using ht.prev_at (x ++ [a]) b z (by simp)
    · rw [hnext a ha] at h
      cases h
  · intro h
    by_cases hb : b ∈ l
    · obtain ⟨x, y, rfl⟩ := List.append_of_mem hb
      rw [ht.prev_at x b y rfl] at h
      obtain ⟨z, rfl⟩ := List.getLast?_eq_some_iff.mp h
      simpa using ht.next_at z a (b :: y) (by simp)
    · rw [hprev b hb] at h
      cases h

/-- Conversely, a walk whose steps `prev` inverts threads the list it meets. -/
theorem threads_of_walk (hw : Walk next start l) (hn : l.Nodup)
    (hnext : ∀ a, a ∉ l → next a = none)
    (hinv : ∀ a b, next a = some b ↔ prev b = some a) : Threads next prev l where
  next_at := by
    rintro x a y rfl
    exact hw.next_at
  prev_at := by
    rintro x a y rfl
    cases hx : x.getLast? with
    | some p =>
        obtain ⟨z, rfl⟩ := List.getLast?_eq_some_iff.mp hx
        have hw' : Walk next start (z ++ p :: a :: y) := by simpa using hw
        exact (hinv p a).mp hw'.next_at
    | none =>
        obtain rfl := List.getLast?_eq_none_iff.mp hx
        cases hp : prev a with
        | none => rfl
        | some p =>
            have hpa := (hinv p a).mpr hp
            have hpl : p ∈ a :: y := by
              by_contra hmem
              rw [hnext p hmem] at hpa
              cases hpa
            obtain ⟨u, v, huv⟩ := List.append_of_mem hpl
            rw [List.nil_append, huv] at hw
            rw [hw.next_at] at hpa
            obtain ⟨w, rfl⟩ := List.head?_eq_some_iff.mp hpa
            have hsplit : (u ++ [p]) ++ a :: w = [] ++ a :: y := by simpa using huv.symm
            exact absurd (split_unique hn hsplit).1 (by simp)

end

end Libaflmm
