import Mathlib.Algebra.BigOperators.Group.List.Basic
import Mathlib.Algebra.Order.BigOperators.Group.List
import Mathlib.Algebra.Order.Field.Rat
import Mathlib.Algebra.Field.Rat
import Mathlib.Data.List.Sort
import Mathlib.Tactic.Linarith
import Mathlib.Tactic.FieldSimp
import Mathlib.Tactic.Ring

/-!
# The alias table of the loaded dice

`construct_table` pairs the smallest remaining weight with the largest one
until one weight is left. In every round the weights that remain sum to their
number times `1 / n`: so the smallest is at most `1 / n` and the largest at
least `1 / n`, and taking the missing part out of the largest keeps it
non-negative. What the entries give to an index and what remains of its weight
add up to the weight, in every round.
-/

namespace Libaflmm

/-- `f64`, in exact arithmetic. -/
structure AliasEntry where
  val : Nat
  aliasVal : Nat
  probOfVal : ℚ
deriving DecidableEq, Repr

namespace LoadedDiceSampler

def usizeMax : Nat := 2 ^ 64 - 1

/-- The most probable first; the sort is stable. -/
def sortByProb (tmp : List (Nat × ℚ)) : List (Nat × ℚ) := tmp.mergeSort fun a b => b.2 ≤ a.2

/-- One round of the `while` loop: the entry it pushes and what `tmp` is then.
It needs two weights, or an `unwrap` panics. -/
def constructRound (n invN : ℚ) (tmp : List (Nat × ℚ)) : Option (AliasEntry × List (Nat × ℚ)) := do
  let tmp := sortByProb tmp
  let (minI, minP) ← tmp.getLast?
  match tmp.dropLast with
  | [] => none
  | (maxI, maxP) :: rest =>
    let usedProb := invN - minP
    some (⟨minI, maxI, minP * n⟩, (maxI, maxP - usedProb) :: rest)

/-- The loop and what follows it, for at most `fuel` tests of its condition.
The last weight has passed the `debug_assert!`. -/
def constructLoop (n invN : ℚ) : Nat → List (Nat × ℚ) → List AliasEntry → Option (List AliasEntry)
  | 0, _, _ => none
  | fuel + 1, tmp, res =>
    if 1 < tmp.length then do
      let (entry, tmp) ← constructRound n invN tmp
      constructLoop n invN fuel tmp (res ++ [entry])
    else do
      let (lastI, lastP) ← tmp.getLast?
      if 0.999 < lastP * n ∧ lastP * n < 1.001 then
        some (res ++ [⟨lastI, usizeMax, 1⟩])
      else
        none

def enumerate (probs : List ℚ) : List (Nat × ℚ) := probs.zipIdx.map Prod.swap

def constructTable (fuel : Nat) (probs : List ℚ) : Option (List AliasEntry) :=
  constructLoop probs.length (1 / probs.length) fuel (enumerate probs) []

end LoadedDiceSampler

/-- What `sample` returns from this entry for its coin. -/
def AliasEntry.pick (entry : AliasEntry) (coin : ℚ) : Nat :=
  if coin > entry.probOfVal then entry.aliasVal else entry.val

/-- The part of the coins for which the entry gives `i`. -/
def AliasEntry.share (entry : AliasEntry) (i : Nat) : ℚ :=
  (if entry.val = i then entry.probOfVal else 0) +
    (if entry.aliasVal = i then 1 - entry.probOfVal else 0)

namespace LoadedDiceSampler

/-- The mass of `i` when each of the `n` entries is chosen alike. -/
def mass (n : ℚ) (entries : List AliasEntry) (i : Nat) : ℚ :=
  (entries.map (·.share i)).sum / n

/-- What is left of the weight of `i`. -/
def remaining (tmp : List (Nat × ℚ)) (i : Nat) : ℚ :=
  (tmp.map fun e => if e.1 = i then e.2 else 0).sum


/-! ## One round -/

/-- What a round does to `tmp`: the weights are some order of the largest, the
smallest and the others, and the smallest leaves the list. -/
theorem constructRound_spec {n invN : ℚ} {tmp : List (Nat × ℚ)} (h : 1 < tmp.length) :
    ∃ most least rest, tmp.Perm (most :: least :: rest) ∧
      (∀ e ∈ tmp, e.2 ≤ most.2) ∧ (∀ e ∈ tmp, least.2 ≤ e.2) ∧
      constructRound n invN tmp = some (⟨least.1, most.1, least.2 * n⟩,
        (most.1, most.2 - (invN - least.2)) :: rest) := by
  have hperm : (sortByProb tmp).Perm tmp := List.mergeSort_perm _ _
  have hsorted : (sortByProb tmp).Pairwise fun a b => b.2 ≤ a.2 := by
    have := @List.pairwise_mergeSort (Nat × ℚ) (fun a b => decide (b.2 ≤ a.2))
      (fun a b c hab hbc => by simp only [decide_eq_true_eq] at *; exact hbc.trans hab)
      (fun a b => by simpa using le_total b.2 a.2) tmp
    simpa [sortByProb] using this
  generalize hs : sortByProb tmp = s at hperm hsorted
  have hlen : 1 < s.length := hperm.length_eq ▸ h
  obtain ⟨most, s, rfl⟩ := List.exists_cons_of_length_pos (Nat.lt_trans Nat.zero_lt_one hlen)
  have hne : s ≠ [] := fun hnil => by simp [hnil] at hlen
  obtain ⟨rest, least, rfl⟩ : ∃ rest least, s = rest ++ [least] :=
    ⟨s.dropLast, s.getLast hne, (List.dropLast_append_getLast hne).symm⟩
  obtain ⟨hmost, hrest⟩ := List.pairwise_cons.mp hsorted
  refine ⟨most, least, rest, ?_, fun e he => ?_, fun e he => ?_, ?_⟩
  · exact hperm.symm.trans (List.Perm.cons _ (List.perm_append_singleton _ _))
  · rcases List.mem_cons.mp (hperm.mem_iff.mpr he) with rfl | hmem
    · exact le_rfl
    · exact hmost e hmem
  · have hleast := (List.pairwise_append.mp hrest).2.2
    rcases List.mem_cons.mp (hperm.mem_iff.mpr he) with rfl | hmem
    · exact hmost least (List.mem_append_right _ (List.mem_singleton_self _))
    · rcases List.mem_append.mp hmem with hmem | hmem
      · exact hleast e hmem least (List.mem_singleton_self _)
      · exact (List.mem_singleton.mp hmem ▸ le_rfl)
  · have hlast : (most :: (rest ++ [least])).getLast? = some least := by
      rw [← List.cons_append, List.getLast?_concat]
    have hdrop : (most :: (rest ++ [least])).dropLast = most :: rest := by
      rw [← List.cons_append, List.dropLast_concat]
    rw [constructRound, hs]
    simp only [hlast, hdrop]
    rfl

/-- The smallest is at most the average, and the largest at least the average. -/
theorem least_le_average {tmp : List (Nat × ℚ)} {least avg : ℚ} (hne : tmp ≠ [])
    (hsum : (tmp.map (·.2)).sum = tmp.length * avg) (hle : ∀ e ∈ tmp, least ≤ e.2) :
    least ≤ avg := by
  have hcard := List.card_nsmul_le_sum (tmp.map (·.2)) least (by simpa using fun a b => hle (b, a))
  rw [hsum, List.length_map, nsmul_eq_mul] at hcard
  have hpos : (0 : ℚ) < tmp.length := by exact_mod_cast List.length_pos_iff.mpr hne
  exact le_of_mul_le_mul_left hcard hpos

theorem average_le_most {tmp : List (Nat × ℚ)} {most avg : ℚ} (hne : tmp ≠ [])
    (hsum : (tmp.map (·.2)).sum = tmp.length * avg) (hle : ∀ e ∈ tmp, e.2 ≤ most) :
    avg ≤ most := by
  have hcard := List.sum_le_card_nsmul (tmp.map (·.2)) most (by simpa using fun a b => hle (b, a))
  rw [hsum, List.length_map, nsmul_eq_mul] at hcard
  have hpos : (0 : ℚ) < tmp.length := by exact_mod_cast List.length_pos_iff.mpr hne
  exact le_of_mul_le_mul_left hcard hpos

theorem mass_concat (n : ℚ) (res : List AliasEntry) (entry : AliasEntry) (i : Nat) :
    mass n (res ++ [entry]) i = mass n res i + entry.share i / n := by
  rw [mass, mass, List.map_append, List.sum_append, add_div]
  simp

/-- The entry of a round gives the smallest weight to its own index, and what
is missing to `1 / n` to the index of the largest. -/
theorem share_div {n : ℚ} (hn : n ≠ 0) (least most : Nat × ℚ) (i : Nat) :
    (AliasEntry.mk least.1 most.1 (least.2 * n)).share i / n =
      (if least.1 = i then least.2 else 0) + (if most.1 = i then 1 / n - least.2 else 0) := by
  have hdiv : least.2 * n / n = least.2 := mul_div_cancel_right₀ _ hn
  rw [AliasEntry.share, add_div]
  congr 1
  · split
    · exact hdiv
    · exact zero_div n
  · split
    · rw [sub_div, hdiv]
    · exact zero_div n

/-! ## The invariant of the loop -/

/-- What holds of `tmp` and `res` at the loop's condition. -/
structure Building (probs : List ℚ) (tmp : List (Nat × ℚ)) (res : List AliasEntry) : Prop where
  nonneg : ∀ e ∈ tmp, 0 ≤ e.2
  total : (tmp.map (·.2)).sum = tmp.length * (1 / probs.length)
  indices : (tmp.map (·.1) ++ res.map (·.val)).Perm (List.range probs.length)
  probs_mem : ∀ e ∈ res, 0 ≤ e.probOfVal ∧ e.probOfVal ≤ 1
  alias_lt : ∀ e ∈ res, e.aliasVal < probs.length
  weights : ∀ i, mass probs.length res i + remaining tmp i = probs.getD i 0

variable {probs : List ℚ} {tmp : List (Nat × ℚ)} {res : List AliasEntry}

theorem Building.index_lt (h : Building probs tmp res) {e : Nat × ℚ} (he : e ∈ tmp) :
    e.1 < probs.length :=
  List.mem_range.mp (h.indices.mem_iff.mp
    (List.mem_append_left _ (List.mem_map_of_mem (f := (·.1)) he)))

theorem Building.length_pos (h : Building probs tmp res) (hne : tmp ≠ []) : 0 < probs.length := by
  obtain ⟨e, he⟩ := List.exists_mem_of_ne_nil tmp hne
  exact Nat.lt_of_le_of_lt (Nat.zero_le _) (h.index_lt he)

theorem Building.step (h : Building probs tmp res) (hlen : 1 < tmp.length) :
    ∃ entry tmp', constructRound probs.length (1 / probs.length) tmp = some (entry, tmp') ∧
      tmp'.length + 1 = tmp.length ∧ Building probs tmp' (res ++ [entry]) := by
  obtain ⟨most, least, rest, hperm, hmost, hleast, hround⟩ :=
    @constructRound_spec probs.length (1 / probs.length) tmp hlen
  have hne : tmp ≠ [] := List.ne_nil_of_length_pos (Nat.lt_trans Nat.zero_lt_one hlen)
  have hn : (0 : ℚ) < probs.length := by exact_mod_cast h.length_pos hne
  have hlow := least_le_average hne h.total hleast
  have hhigh := average_le_most hne h.total hmost
  have hmem : ∀ e, e ∈ tmp ↔ e = most ∨ e = least ∨ e ∈ rest := fun e => by
    simp [hperm.mem_iff]
  have hzero : 0 ≤ least.2 := h.nonneg least ((hmem _).mpr (.inr (.inl rfl)))
  have htmp : tmp.length = rest.length + 2 := hperm.length_eq
  refine ⟨_, _, hround, by simp [htmp], ?_, ?_, ?_, ?_, ?_, fun i => ?_⟩
  · intro e he
    rcases List.mem_cons.mp he with rfl | he
    · show 0 ≤ most.2 - (1 / probs.length - least.2)
      linarith
    · exact h.nonneg e ((hmem e).mpr (.inr (.inr he)))
  · have hsum := h.total
    rw [(hperm.map _).sum_eq, htmp] at hsum
    simp only [List.map_cons, List.sum_cons, List.length_cons] at hsum ⊢
    push_cast at hsum ⊢
    linarith
  · refine List.Perm.trans ?_ h.indices
    refine List.Perm.trans ?_ ((hperm.map _).symm.append_right _)
    simp only [List.map_cons, List.map_append, List.map_nil, List.cons_append]
    refine List.Perm.cons _ ?_
    rw [← List.append_assoc]
    exact List.perm_append_singleton _ _
  · intro e he
    rcases List.mem_append.mp he with he | he
    · exact h.probs_mem e he
    · rw [List.mem_singleton.mp he]
      exact ⟨mul_nonneg hzero hn.le, (le_div_iff₀ hn).mp hlow⟩
  · intro e he
    rcases List.mem_append.mp he with he | he
    · exact h.alias_lt e he
    · rw [List.mem_singleton.mp he]
      exact h.index_lt ((hmem _).mpr (.inl rfl))
  · rw [← h.weights i, remaining, remaining, (hperm.map _).sum_eq, mass_concat]
    simp only [List.map_cons, List.sum_cons]
    have hshare := share_div hn.ne' least most i
    have hmove : (if most.1 = i then most.2 - (1 / probs.length - least.2) else 0) =
        (if most.1 = i then most.2 else 0) -
          (if most.1 = i then 1 / (probs.length : ℚ) - least.2 else 0) := by
      split <;> ring
    linarith

/-- The table of `probs`: an entry for every index, whose coin and alias are
valid, and for every index the mass it is due. -/
structure ExactTable (probs : List ℚ) (entries : List AliasEntry) : Prop where
  length_eq : entries.length = probs.length
  indices : (entries.map (·.val)).Perm (List.range probs.length)
  probs_mem : ∀ e ∈ entries, 0 ≤ e.probOfVal ∧ e.probOfVal ≤ 1
  alias_lt : ∀ e ∈ entries, e.probOfVal < 1 → e.aliasVal < probs.length
  mass_eq : ∀ i, mass probs.length entries i = probs.getD i 0

/-- No coin below one leads `sample` out of the list. -/
theorem ExactTable.pick_lt {entries : List AliasEntry} (h : ExactTable probs entries)
    {e : AliasEntry} (he : e ∈ entries) {coin : ℚ} (hcoin : coin < 1) :
    e.pick coin < probs.length := by
  rw [AliasEntry.pick]
  split
  · next hlt => exact h.alias_lt e he (lt_trans hlt hcoin)
  · exact List.mem_range.mp (h.indices.mem_iff.mp (List.mem_map_of_mem he))

/-- The last weight is `1 / n`: its entry never uses the alias. -/
theorem Building.finish (h : Building probs tmp res) (hlen : tmp.length = 1) :
    ∃ entries, ExactTable probs entries ∧
      ∀ fuel, constructLoop probs.length (1 / probs.length) (fuel + 1) tmp res = some entries := by
  obtain ⟨⟨lastI, lastP⟩, rfl⟩ := List.length_eq_one_iff.mp hlen
  have hn : (0 : ℚ) < probs.length := by exact_mod_cast h.length_pos (List.cons_ne_nil _ _)
  have hlast : lastP * probs.length = 1 := by
    have htotal : lastP = 1 / probs.length := by simpa using h.total
    rw [htotal, one_div_mul_cancel hn.ne']
  have hshare : ∀ i, (AliasEntry.mk lastI usizeMax 1).share i / probs.length =
      remaining [(lastI, lastP)] i := by
    intro i
    rw [AliasEntry.share, remaining, sub_self, div_eq_iff hn.ne']
    by_cases hi : lastI = i <;> simp [hi, hlast]
  refine ⟨res ++ [⟨lastI, usizeMax, 1⟩], ⟨?_, ?_, ?_, ?_, fun i => ?_⟩, fun fuel => ?_⟩
  · have := h.indices.length_eq
    simp only [List.map_cons, List.map_nil, List.length_append, List.length_map,
      List.length_range, List.length_cons, List.length_nil] at this ⊢
    omega
  · rw [List.map_append]
    exact (List.perm_append_comm).trans h.indices
  · intro e he
    rcases List.mem_append.mp he with he | he
    · exact h.probs_mem e he
    · rw [List.mem_singleton.mp he]
      exact ⟨zero_le_one, le_rfl⟩
  · intro e he hlt
    rcases List.mem_append.mp he with he | he
    · exact h.alias_lt e he
    · rw [List.mem_singleton.mp he] at hlt
      exact absurd hlt (lt_irrefl _)
  · rw [mass_concat, hshare, h.weights]
  · have hassert : (0.999 : ℚ) < lastP * probs.length ∧ lastP * probs.length < 1.001 := by
      rw [hlast]
      norm_num
    rw [constructLoop, if_neg (by simp)]
    exact if_pos hassert

/-- From any state of the loop on, as many tests as there are weights finish
the table. -/
theorem Building.run (rounds : Nat) : ∀ {tmp : List (Nat × ℚ)} {res : List AliasEntry},
    Building probs tmp res → tmp.length = rounds + 1 → ∃ entries, ExactTable probs entries ∧
      ∀ fuel, rounds + 1 ≤ fuel →
        constructLoop probs.length (1 / probs.length) fuel tmp res = some entries := by
  induction rounds with
  | zero =>
      intro tmp res h hlen
      obtain ⟨entries, hexact, hall⟩ := h.finish hlen
      refine ⟨entries, hexact, fun fuel hfuel => ?_⟩
      obtain ⟨fuel, rfl⟩ := Nat.exists_eq_add_of_le' hfuel
      exact hall fuel
  | succ rounds ih =>
      intro tmp res h hlen
      obtain ⟨entry, tmp', hround, hlen', h'⟩ := h.step (by omega)
      obtain ⟨entries, hexact, hall⟩ := ih h' (by omega)
      refine ⟨entries, hexact, fun fuel hfuel => ?_⟩
      obtain ⟨fuel, rfl⟩ := Nat.exists_eq_add_of_le' (Nat.le_trans (Nat.le_add_left 1 _) hfuel)
      rw [constructLoop, if_pos (by omega), hround]
      exact hall fuel (by omega)

/-! ## The whole construction -/

theorem remaining_zipIdx (probs : List ℚ) (k i : Nat) :
    remaining ((probs.zipIdx k).map Prod.swap) i = if k ≤ i then probs.getD (i - k) 0 else 0 := by
  induction probs generalizing k with
  | nil => simp [remaining]
  | cons p probs ih =>
      have htail := ih (k + 1)
      rw [remaining] at htail ⊢
      rw [List.zipIdx_cons, List.map_cons, List.map_cons, List.sum_cons, htail]
      rcases Nat.lt_trichotomy k i with hlt | rfl | hgt
      · obtain ⟨d, rfl⟩ := Nat.exists_eq_add_of_lt hlt
        simp [show k + d + 1 - k = d + 1 by omega, show k + d + 1 - (k + 1) = d by omega,
          show k + 1 ≤ k + d + 1 by omega, show k ≤ k + d + 1 by omega,
          show k ≠ k + d + 1 by omega]
      · simp
      · simp [show ¬ k ≤ i by omega, show ¬ k + 1 ≤ i by omega, show k ≠ i by omega]

theorem building_enumerate (hnonneg : ∀ p ∈ probs, 0 ≤ p) (hsum : probs.sum = 1) :
    Building probs (enumerate probs) [] := by
  have hsnd : (enumerate probs).map (·.2) = probs := by
    simp [enumerate, List.map_map, Function.comp_def]
  have hlen : (enumerate probs).length = probs.length := by
    rw [enumerate, List.length_map, List.length_zipIdx]
  refine ⟨fun e he => ?_, ?_, ?_, ?_, ?_, fun i => ?_⟩
  · exact hnonneg _ (hsnd ▸ List.mem_map_of_mem he)
  · have hpos : (0 : ℚ) < probs.length := by
      refine Nat.cast_pos.mpr (List.length_pos_iff.mpr fun hnil => ?_)
      simp [hnil] at hsum
    rw [hsnd, hsum, hlen, mul_one_div_cancel hpos.ne']
  · simp only [enumerate, List.map_map, List.map_nil, List.append_nil]
    rw [List.range_eq_range', ← List.zipIdx_map_snd]
    exact List.Perm.refl _
  · intro e he
    cases he
  · intro e he
    cases he
  · rw [enumerate, remaining_zipIdx]
    simp [mass]

/-- **The alias table is exact.** For non-negative weights that sum to one the
construction ends, none of its checks panics, and the table gives every index
its weight. -/
theorem constructTable_exact (probs : List ℚ) (hne : probs ≠ []) (hnonneg : ∀ p ∈ probs, 0 ≤ p)
    (hsum : probs.sum = 1) :
    ∃ entries, ExactTable probs entries ∧
      ∀ fuel, probs.length ≤ fuel → constructTable fuel probs = some entries := by
  obtain ⟨rounds, hrounds⟩ := Nat.exists_eq_succ_of_ne_zero
    (Nat.ne_of_gt (List.length_pos_iff.mpr hne))
  have hlen : (enumerate probs).length = rounds + 1 := by
    rw [enumerate, List.length_map, List.length_zipIdx, hrounds]
  obtain ⟨entries, hexact, hall⟩ := (building_enumerate hnonneg hsum).run rounds hlen
  exact ⟨entries, hexact, fun fuel hfuel => hall fuel (Nat.le_trans hrounds.ge hfuel)⟩

/-- A weight of zero beside two others. -/
theorem constructTable_exact_three :
    ∃ entries, ExactTable [1 / 3, 0, 2 / 3] entries ∧
      ∀ fuel, 3 ≤ fuel → constructTable fuel [1 / 3, 0, 2 / 3] = some entries := by
  refine constructTable_exact [1 / 3, 0, 2 / 3] (List.cons_ne_nil _ _) (fun p hp => ?_) ?_
  · simp only [List.mem_cons, List.not_mem_nil, or_false] at hp
    rcases hp with rfl | rfl | rfl <;> norm_num
  · norm_num

end LoadedDiceSampler

end Libaflmm
