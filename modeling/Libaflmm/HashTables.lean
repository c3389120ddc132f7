import Mathlib.Algebra.GroupWithZero.Nat
import Mathlib.Algebra.Order.BigOperators.Group.List
import Mathlib.Algebra.Order.Group.Nat
import Mathlib.Data.List.AList
import Mathlib.Data.List.Induction

/-!
# Hash tables

A hash table is an association list without duplicate keys, read in the
order in which the table is iterated. That order is otherwise left open: a
statement about every table is about every iteration order.

`total f` adds up `f` over the values of a table. It is how counts of what
is stored in several places are kept along a run.
-/

namespace Libaflmm

abbrev HashMap (K V : Type) := AList fun _ : K => V

abbrev HashSet (K : Type) := HashMap K Unit

section

variable {K V : Type} [DecidableEq K]

namespace HashSet

/-- `insert`, and whether the value was not in the set before. -/
def insertNew (k : K) (s : HashSet K) : Bool × HashSet K := (decide (k ∉ s), AList.insert k () s)

end HashSet

namespace HashMap

theorem kreplace_cons {k k' : K} {v v' : V} {l : List (Σ _ : K, V)} :
    List.kreplace k v (⟨k', v'⟩ :: l) =
      if k = k' then ⟨k, v⟩ :: l else ⟨k', v'⟩ :: List.kreplace k v l := by
  unfold List.kreplace
  split
  · next h => exact List.lookmap_cons_some _ _ (if_pos h)
  · next h => exact List.lookmap_cons_none _ _ (if_neg h)

theorem dlookup_cons {k k' : K} {v : V} {l : List (Σ _ : K, V)} :
    List.dlookup k' (⟨k, v⟩ :: l) = if k' = k then some v else l.dlookup k' := by
  split
  · next h =>
      subst h
      exact dif_pos rfl
  · next h => exact dif_neg fun h' => h h'.symm

theorem dlookup_kreplace {k k' : K} {v : V} {l : List (Σ _ : K, V)} (h : k ∈ l.keys) :
    (l.kreplace k v).dlookup k' = if k' = k then some v else l.dlookup k' := by
  induction l with
  | nil => simp at h
  | cons e l ih =>
      obtain ⟨a, b⟩ := e
      rw [kreplace_cons]
      by_cases ha : k = a
      · subst ha
        simp only [if_true, dlookup_cons]
        split <;> rfl
      · have hl : k ∈ l.keys := by simpa [ha] using h
        rw [if_neg ha, dlookup_cons, dlookup_cons, ih hl]
        by_cases hk : k' = a
        · subst hk
          simp [Ne.symm ha]
        · simp [hk]

theorem lookup_replace {k k' : K} {v : V} {m : HashMap K V} (h : k ∈ m) :
    (m.replace k v).lookup k' = if k' = k then some v else m.lookup k' :=
  dlookup_kreplace h

theorem lookup_insert {k k' : K} {v : V} {m : HashMap K V} :
    (AList.insert k v m).lookup k' = if k' = k then some v else m.lookup k' := by
  split
  · next h => rw [h, AList.lookup_insert]
  · next h => exact AList.lookup_insert_ne h

/-- A table that is filled with values for distinct keys has all of them. -/
theorem lookup_foldl_insert {l : List (K × V)} {m : HashMap K V}
    (hnodup : (l.map Prod.fst).Nodup) {e : K × V} (he : e ∈ l) :
    (l.foldl (fun m e => AList.insert e.1 e.2 m) m).lookup e.1 = some e.2 := by
  induction l using List.reverseRecOn with
  | nil => simp at he
  | append_singleton l e' ih =>
      rw [List.map_append, List.nodup_append] at hnodup
      obtain ⟨hnodup, -, hne⟩ := hnodup
      rw [List.foldl_append, List.foldl_cons, List.foldl_nil, lookup_insert]
      rcases List.mem_append.mp he with he | he
      · rw [if_neg (hne _ (List.mem_map_of_mem he) _ (by simp)), ih hnodup he]
      · rw [List.mem_singleton.mp he, if_pos rfl]

/-- `entry(k).or_insert(v)` -/
def orInsert (k : K) (v : V) (m : HashMap K V) : HashMap K V :=
  if k ∈ m then m else AList.insert k v m

theorem replace_of_notMem {k : K} {v : V} {m : HashMap K V} (h : k ∉ m) : m.replace k v = m := by
  apply AList.ext
  show List.kreplace k v m.entries = m.entries
  exact List.kreplace_of_forall_not k v fun _ hmem => h (List.mem_keys_of_mem hmem)

theorem kreplace_append_cons {k : K} {v old : V} {l l' : List (Σ _ : K, V)} (h : k ∉ l.keys) :
    (l ++ ⟨k, old⟩ :: l').kreplace k v = l ++ ⟨k, v⟩ :: l' := by
  induction l with
  | nil => exact kreplace_cons.trans (if_pos rfl)
  | cons e l ih =>
      rw [List.keys_cons, List.mem_cons, not_or] at h
      rw [List.cons_append, kreplace_cons, if_neg h.1, ih h.2, List.cons_append]

/-- A value is replaced in its place. -/
theorem entries_replace {k : K} {v old : V} {m : HashMap K V} {l l' : List (Σ _ : K, V)}
    (h : m.entries = l ++ ⟨k, old⟩ :: l') : (m.replace k v).entries = l ++ ⟨k, v⟩ :: l' := by
  have hnd := m.nodupKeys
  rw [h, List.nodupKeys_middle, List.nodupKeys_cons, List.keys_append, List.mem_append] at hnd
  show m.entries.kreplace k v = _
  rw [h]
  exact kreplace_append_cons fun hmem => hnd.1 (.inl hmem)

theorem mem_entries_replace {k : K} {v : V} {m : HashMap K V} {e : Σ _ : K, V}
    (h : e ∈ (m.replace k v).entries) : e = ⟨k, v⟩ ∨ e.1 ≠ k ∧ e ∈ m.entries := by
  by_cases hk : k ∈ m
  · have hlookup : (m.replace k v).lookup e.1 = some e.2 := AList.mem_lookup_iff.mpr h
    rw [lookup_replace hk] at hlookup
    split at hlookup
    · next heq =>
        rcases e with ⟨k', v'⟩
        obtain rfl : k' = k := heq
        exact .inl (by rw [Option.some.inj hlookup])
    · next hne => exact .inr ⟨hne, AList.mem_lookup_iff.mp hlookup⟩
  · rw [replace_of_notMem hk] at h
    exact .inr ⟨fun heq => hk (heq ▸ List.mem_keys_of_mem h), h⟩

theorem lookup_erase {k k' : K} {m : HashMap K V} :
    (m.erase k).lookup k' = if k' = k then none else m.lookup k' := by
  split
  · next h => rw [h, AList.lookup_erase]
  · next h => exact AList.lookup_erase_ne h

theorem mem_of_mem_erase {k k' : K} {m : HashMap K V} (h : k' ∈ m.erase k) : k' ∈ m :=
  (AList.mem_erase.mp h).2

def mapValues {W : Type} (f : V → W) (m : HashMap K V) : HashMap K W where
  entries := m.entries.map fun e => ⟨e.1, f e.2⟩
  nodupKeys := m.nodupKeys.map₂ (fun _ => f) m.entries

theorem lookup_mapValues {W : Type} {f : V → W} {k : K} {m : HashMap K V} :
    (m.mapValues f).lookup k = (m.lookup k).map f :=
  @List.dlookup_map₂ K _ (fun _ => V) (fun _ => W) _ (fun _ => f) k

theorem perm_cons_erase {k : K} {v : V} {m : HashMap K V} (h : m.lookup k = some v) :
    List.Perm m.entries (⟨k, v⟩ :: (m.erase k).entries) := by
  have hmem : (⟨k, v⟩ : Σ _ : K, V) ∈ m.entries := AList.mem_lookup_iff.mp h
  obtain ⟨w, l₁, l₂, -, heq, herase⟩ := List.exists_of_kerase (List.mem_keys_of_mem hmem)
  have hmem' : (⟨k, w⟩ : Σ _ : K, V) ∈ m.entries := by
    rw [heq]
    simp
  obtain rfl : w = v := by
    rw [← Option.mem_def, AList.mem_lookup_iff.mpr hmem'] at h
    exact Option.some.inj h
  show List.Perm m.entries (⟨k, w⟩ :: m.entries.kerase k)
  rw [herase]
  nth_rewrite 1 [heq]
  exact List.perm_middle

theorem map_kreplace {W : Type} {g : (Σ _ : K, V) → W} {k : K} {v old : V} {l : List (Σ _ : K, V)}
    (h : l.dlookup k = some old) (hg : g ⟨k, v⟩ = g ⟨k, old⟩) :
    (l.kreplace k v).map g = l.map g := by
  induction l with
  | nil => simp at h
  | cons e l ih =>
      obtain ⟨a, b⟩ := e
      rw [kreplace_cons]
      rw [dlookup_cons] at h
      by_cases ha : k = a
      · subst ha
        obtain rfl : b = old := by simpa using h
        rw [if_pos rfl, List.map_cons, List.map_cons, hg]
      · rw [if_neg ha] at h
        rw [if_neg ha, List.map_cons, List.map_cons, ih h]

/-! ## Totals -/

def total (f : K → V → Nat) (m : HashMap K V) : Nat := (m.entries.map fun e => f e.1 e.2).sum

theorem sum_kreplace {f : K → V → Nat} {k : K} {v old : V} {l : List (Σ _ : K, V)}
    (h : l.dlookup k = some old) :
    ((l.kreplace k v).map fun e => f e.1 e.2).sum + f k old =
      (l.map fun e => f e.1 e.2).sum + f k v := by
  induction l with
  | nil => simp at h
  | cons e l ih =>
      obtain ⟨a, b⟩ := e
      rw [kreplace_cons]
      by_cases ha : k = a
      · subst ha
        obtain rfl : b = old := by simpa [dlookup_cons] using h
        simp only [if_true, List.map_cons, List.sum_cons]
        omega
      · rw [dlookup_cons, if_neg ha] at h
        have hl := ih h
        simp only [if_neg ha, List.map_cons, List.sum_cons]
        omega

theorem sum_kerase {f : K → V → Nat} {k : K} {l : List (Σ _ : K, V)} :
    ((l.kerase k).map fun e => f e.1 e.2).sum ≤ (l.map fun e => f e.1 e.2).sum := by
  have hsub : List.Sublist (l.kerase k) l := List.kerase_sublist k l
  exact (hsub.map _).sum_le_sum (fun _ _ => Nat.zero_le _)

theorem total_replace {f : K → V → Nat} {k : K} {v old : V} {m : HashMap K V}
    (h : m.lookup k = some old) : total f (m.replace k v) + f k old = total f m + f k v :=
  sum_kreplace h

theorem kerase_cons {k k' : K} {v : V} {l : List (Σ _ : K, V)} :
    List.kerase k (⟨k', v⟩ :: l) = if k = k' then l else ⟨k', v⟩ :: List.kerase k l := by
  split
  · next h => simp [List.kerase, h]
  · next h => simp [List.kerase, h]

theorem sum_kerase_of_lookup {f : K → V → Nat} {k : K} {old : V} {l : List (Σ _ : K, V)}
    (h : l.dlookup k = some old) :
    ((l.kerase k).map fun e => f e.1 e.2).sum + f k old = (l.map fun e => f e.1 e.2).sum := by
  induction l with
  | nil => simp at h
  | cons e l ih =>
      obtain ⟨a, b⟩ := e
      rw [dlookup_cons] at h
      by_cases ha : k = a
      · subst ha
        obtain rfl : b = old := by simpa using h
        rw [kerase_cons, if_pos rfl, List.map_cons, List.sum_cons, Nat.add_comm]
      · rw [if_neg ha] at h
        have hl := ih h
        rw [kerase_cons, if_neg ha]
        simp only [List.map_cons, List.sum_cons]
        omega

theorem total_erase {f : K → V → Nat} {k : K} {old : V} {m : HashMap K V}
    (h : m.lookup k = some old) : total f (m.erase k) + f k old = total f m :=
  sum_kerase_of_lookup h

theorem total_insert {f : K → V → Nat} {k : K} {v : V} {m : HashMap K V} :
    total f (AList.insert k v m) = f k v + total f (m.erase k) := rfl

theorem total_eq_zero {f : K → V → Nat} {m : HashMap K V}
    (h : ∀ k v, m.lookup k = some v → f k v = 0) : total f m = 0 := by
  rw [total, List.sum_eq_zero_iff]
  intro n hn
  obtain ⟨⟨k, v⟩, hmem, rfl⟩ := List.mem_map.mp hn
  exact h k v (AList.mem_lookup_iff.mpr hmem)

theorem total_erase_of_zero {f : K → V → Nat} {k : K} {m : HashMap K V}
    (h : ∀ v, m.lookup k = some v → f k v = 0) : total f (m.erase k) = total f m := by
  cases hlookup : m.lookup k with
  | none =>
      have hkeys : k ∉ m.entries.keys := AList.lookup_eq_none.mp hlookup
      exact congrArg (fun l => (l.map fun e => f e.1 e.2).sum) (List.kerase_of_notMem_keys hkeys)
  | some v =>
      have htotal := total_erase (f := f) hlookup
      rw [h v hlookup] at htotal
      exact htotal

omit [DecidableEq K] in
theorem total_le_total {f g : K → V → Nat} {m : HashMap K V} (h : ∀ k v, f k v ≤ g k v) :
    total f m ≤ total g m :=
  List.sum_le_sum fun e _ => h e.1 e.2

theorem total_erase_le {f : K → V → Nat} {k : K} {m : HashMap K V} :
    total f (m.erase k) ≤ total f m :=
  sum_kerase

end HashMap

end

end Libaflmm
