import Mathlib.Order.Defs.Unbundled

/-!
# Calls that can fail or panic

A call reads and writes a state, and returns a value or an error; a panic is
`none`, and leaves no state. An early return with an error keeps what the
call has written so far, which is why the state is below the error.

`Call.Leaves x s Q` is the weakest condition under which a call that returns
does so with `Q`. It is computed along the call: the lemmas below take it
apart at every bind, and what remains speaks of the single steps only.
`Call.Yields x s Q` is the condition under which the call does return, and
with `Q`. `Call.Keeps x R` says that whatever the call returns, the state
after it is related to the one before by the preorder `R`.
-/

namespace Libaflmm

abbrev Call (ε σ α : Type) := ExceptT ε (StateT σ Option) α

namespace Call

variable {ε σ τ α β : Type}

def run (x : Call ε σ α) (s : σ) : Option (Except ε α × σ) := (ExceptT.run x).run s

def ofFn (f : σ → Option (Except ε α × σ)) : Call ε σ α := f

/-- A call on one part of the state. -/
def on (get : σ → τ) (set : τ → σ → σ) (x : τ → Option (Except ε α × τ)) : Call ε σ α :=
  ofFn fun s => (x (get s)).map fun (r, t) => (r, set t s)

def ofResult (r : Except ε α) : Call ε σ α := ofFn fun s => some (r, s)

def update (f : σ → σ) : Call ε σ Unit := ofFn fun s => some (.ok (), f s)

def read (f : σ → α) : Call ε σ α := ofFn fun s => some (.ok (f s), s)

@[simp] theorem run_ofFn (f : σ → Option (Except ε α × σ)) (s : σ) : (ofFn f).run s = f s := rfl

@[simp] theorem run_pure (a : α) (s : σ) : (pure a : Call ε σ α).run s = some (.ok a, s) := rfl

theorem run_bind (x : Call ε σ α) (f : α → Call ε σ β) (s : σ) :
    (x >>= f).run s = (x.run s).bind fun
      | (.ok a, t) => (f a).run t
      | (.error e, t) => some (.error e, t) := by
  show (StateT.bind _ _ s : Option _) = _
  unfold StateT.bind
  show Option.bind _ _ = _
  congr 1
  funext ⟨r, t⟩
  cases r <;> rfl

theorem run_bind_eq_ok {x : Call ε σ α} {f : α → Call ε σ β} {s u : σ} {b : β} :
    (x >>= f).run s = some (.ok b, u) ↔
      ∃ a t, x.run s = some (.ok a, t) ∧ (f a).run t = some (.ok b, u) := by
  rw [run_bind, Option.bind_eq_some_iff]
  constructor
  · rintro ⟨⟨r, t⟩, hx, hrest⟩
    cases r with
    | ok a => exact ⟨a, t, hx, hrest⟩
    | error e => cases hrest
  · rintro ⟨a, t, hx, hrest⟩
    exact ⟨_, hx, hrest⟩

theorem run_forM_cons {f : α → Call ε σ PUnit} {a : α} {as : List α} {s : σ} :
    ((a :: as).forM f).run s = (f a >>= fun _ => as.forM f).run s := rfl

/-- **The rule for a loop that does not fail.** -/
theorem run_forM_invariant {f : α → Call ε σ PUnit} (Inv : List α → σ → Prop)
    (hstep : ∀ pre a s t, Inv pre s → (f a).run s = some (.ok ⟨⟩, t) → Inv (pre ++ [a]) t)
    {as : List α} {s t : σ} (h : Inv [] s) (hrun : (as.forM f).run s = some (.ok ⟨⟩, t)) :
    Inv as t := by
  suffices hfrom : ∀ pre s, Inv pre s → (as.forM f).run s = some (.ok ⟨⟩, t) →
      Inv (pre ++ as) t from hfrom [] s h hrun
  clear h hrun
  induction as with
  | nil =>
      intro pre s h hrun
      obtain ⟨-, rfl⟩ := Prod.mk.inj (Option.some.inj hrun)
      rwa [List.append_nil]
  | cons a as ih =>
      intro pre s h hrun
      obtain ⟨⟨⟩, u, ha, has⟩ := run_bind_eq_ok.mp hrun
      have hu := ih (pre ++ [a]) u (hstep pre a s u h ha) has
      rwa [List.append_assoc, List.singleton_append] at hu

@[simp] theorem run_ofResult (r : Except ε α) (s : σ) : (ofResult r).run s = some (r, s) := rfl

@[simp] theorem run_update (f : σ → σ) (s : σ) :
    (update f : Call ε σ Unit).run s = some (.ok (), f s) := rfl

@[simp] theorem run_read (f : σ → α) (s : σ) :
    (read f : Call ε σ α).run s = some (.ok (f s), s) := rfl

theorem run_on (get : σ → τ) (set : τ → σ → σ) (x : τ → Option (Except ε α × τ)) (s : σ) :
    (on get set x).run s = (x (get s)).map fun (r, t) => (r, set t s) := rfl

theorem run_map (f : α → β) (x : Call ε σ α) (s : σ) :
    (f <$> x).run s = (x.run s).map fun (r, t) => (r.map f, t) := by
  rw [map_eq_pure_bind, run_bind]
  cases x.run s with
  | none => rfl
  | some p => rcases p with ⟨_ | _, _⟩ <;> rfl

theorem run_bind_of_ok {x : Call ε σ α} {f : α → Call ε σ β} {s t : σ} {a : α}
    (h : x.run s = some (.ok a, t)) : (x >>= f).run s = (f a).run t := by
  rw [run_bind, h]
  rfl

theorem run_bind_of_error {x : Call ε σ α} {f : α → Call ε σ β} {s t : σ} {e : ε}
    (h : x.run s = some (.error e, t)) : (x >>= f).run s = some (.error e, t) := by
  rw [run_bind, h]
  rfl

/-! ## What a call leaves -/

def Leaves (x : Call ε σ α) (s : σ) (Q : Except ε α → σ → Prop) : Prop :=
  ∀ r t, x.run s = some (r, t) → Q r t

variable {x : Call ε σ α} {s : σ} {Q : Except ε α → σ → Prop}

theorem leaves_of_run {r : Except ε α} {t : σ} (h : x.run s = some (r, t)) :
    x.Leaves s Q ↔ Q r t := by
  constructor
  · exact fun hall => hall r t h
  · intro hq r' t' hx
    obtain ⟨rfl, rfl⟩ := Prod.mk.inj (Option.some.inj (h.symm.trans hx))
    exact hq

@[simp] theorem leaves_pure {a : α} : (pure a : Call ε σ α).Leaves s Q ↔ Q (.ok a) s := by
  simp [Leaves]

@[simp] theorem leaves_ofResult {r : Except ε α} : (ofResult r).Leaves s Q ↔ Q r s := by
  simp [Leaves, ofResult]

@[simp] theorem leaves_update {f : σ → σ} {Q : Except ε Unit → σ → Prop} :
    (update f).Leaves s Q ↔ Q (.ok ()) (f s) := by
  simp [Leaves, update]

@[simp] theorem leaves_read {f : σ → α} : (read f : Call ε σ α).Leaves s Q ↔ Q (.ok (f s)) s := by
  simp [Leaves, read]

theorem leaves_on {get : σ → τ} {set : τ → σ → σ} {f : τ → Option (Except ε α × τ)} :
    (on get set f).Leaves s Q ↔ ∀ r t, f (get s) = some (r, t) → Q r (set t s) := by
  simp only [Leaves, on, run_ofFn, Option.map_eq_some_iff, Prod.mk.injEq, Prod.exists]
  constructor
  · exact fun h r t hf => h r _ ⟨r, t, hf, rfl, rfl⟩
  · rintro h r t ⟨r', t', hf, rfl, rfl⟩
    exact h r' t' hf

/-- **The rule for a sequence of calls.** -/
@[simp] theorem leaves_bind {f : α → Call ε σ β} {Q : Except ε β → σ → Prop} :
    (x >>= f).Leaves s Q ↔ x.Leaves s fun
      | .ok a, t => (f a).Leaves t Q
      | .error e, t => Q (.error e) t := by
  simp only [Leaves, run_bind, Option.bind_eq_some_iff, Prod.exists]
  constructor
  · intro h r t hx
    cases r with
    | ok a => exact fun r' t' hf => h r' t' ⟨_, _, hx, hf⟩
    | error e => exact h _ _ ⟨_, _, hx, rfl⟩
  · rintro h r' t' ⟨r, t, hx, hrest⟩
    cases r with
    | ok a => exact h _ _ hx r' t' hrest
    | error e =>
        obtain ⟨rfl, rfl⟩ := Prod.mk.inj (Option.some.inj hrest)
        exact h _ _ hx

theorem Leaves.mono {Q' : Except ε α → σ → Prop} (h : x.Leaves s Q)
    (hQ : ∀ r t, Q r t → Q' r t) : x.Leaves s Q' :=
  fun r t hx => hQ r t (h r t hx)

/-- What is left by a call that succeeds, and by one that fails. -/
def EndsIn (Inv : σ → Prop) (Err : ε → σ → Prop) : Except ε α → σ → Prop
  | .ok _, t => Inv t
  | .error e, t => Err e t

/-- **The rule for a loop that may fail.** The invariant holds as long as the
steps succeed, and the first one that does not ends the loop. -/
theorem leaves_forM {f : α → Call ε σ PUnit} {as : List α} {Inv : σ → Prop} {Err : ε → σ → Prop}
    (hstep : ∀ a ∈ as, ∀ s, Inv s → (f a).Leaves s (EndsIn Inv Err)) (h : Inv s) :
    (as.forM f).Leaves s (EndsIn Inv Err) := by
  induction as generalizing s with
  | nil => exact leaves_pure.mpr h
  | cons a as ih =>
      obtain ⟨hhead, htail⟩ := List.forall_mem_cons.mp hstep
      refine leaves_bind.mpr ((hhead s h).mono fun r t hr => ?_)
      cases r with
      | error e => exact hr
      | ok _ => exact ih htail hr

/-- A step that is known to return leaves nothing else. -/
theorem forall_returned {o : Option (α × τ)} {a : α} {t : τ} {P : α → τ → Prop}
    (h : o = some (a, t)) : (∀ b u, o = some (b, u) → P b u) ↔ P a t := by
  constructor
  · exact fun hall => hall a t h
  · intro hp b u hbu
    obtain ⟨rfl, rfl⟩ := Prod.mk.inj (Option.some.inj (h.symm.trans hbu))
    exact hp

/-! ## What a call yields -/

def Yields (x : Call ε σ α) (s : σ) (Q : Except ε α → σ → Prop) : Prop :=
  ∃ r t, x.run s = some (r, t) ∧ Q r t

theorem yields_of_run {r : Except ε α} {t : σ} (h : x.run s = some (r, t)) :
    x.Yields s Q ↔ Q r t := by
  constructor
  · rintro ⟨r', t', hx, hq⟩
    obtain ⟨rfl, rfl⟩ := Prod.mk.inj (Option.some.inj (h.symm.trans hx))
    exact hq
  · exact fun hq => ⟨r, t, h, hq⟩

@[simp] theorem yields_pure {a : α} : (pure a : Call ε σ α).Yields s Q ↔ Q (.ok a) s :=
  yields_of_run rfl

@[simp] theorem yields_ofResult {r : Except ε α} : (ofResult r).Yields s Q ↔ Q r s :=
  yields_of_run rfl

@[simp] theorem yields_update {f : σ → σ} {Q : Except ε Unit → σ → Prop} :
    (update f).Yields s Q ↔ Q (.ok ()) (f s) :=
  yields_of_run rfl

@[simp] theorem yields_read {f : σ → α} : (read f : Call ε σ α).Yields s Q ↔ Q (.ok (f s)) s :=
  yields_of_run rfl

@[simp] theorem yields_bind {f : α → Call ε σ β} {Q : Except ε β → σ → Prop} :
    (x >>= f).Yields s Q ↔ x.Yields s fun
      | .ok a, t => (f a).Yields t Q
      | .error e, t => Q (.error e) t := by
  simp only [Yields, run_bind, Option.bind_eq_some_iff, Prod.exists]
  constructor
  · rintro ⟨r', t', ⟨r, t, hx, hrest⟩, hQ⟩
    cases r with
    | ok a => exact ⟨_, _, hx, r', t', hrest, hQ⟩
    | error e =>
        obtain ⟨rfl, rfl⟩ := Prod.mk.inj (Option.some.inj hrest)
        exact ⟨_, _, hx, hQ⟩
  · rintro ⟨r, t, hx, hrest⟩
    cases r with
    | ok a =>
        obtain ⟨r', t', hf, hQ⟩ := hrest
        exact ⟨r', t', ⟨_, _, hx, hf⟩, hQ⟩
    | error e => exact ⟨_, _, ⟨_, _, hx, rfl⟩, hrest⟩

@[simp] theorem yields_map {f : α → β} {Q : Except ε β → σ → Prop} :
    (f <$> x).Yields s Q ↔ x.Yields s fun r t => Q (r.map f) t := by
  simp only [Yields, run_map, Option.map_eq_some_iff, Prod.exists, Prod.mk.injEq]
  constructor
  · rintro ⟨_, _, ⟨r, t, hx, rfl, rfl⟩, hQ⟩
    exact ⟨r, t, hx, hQ⟩
  · rintro ⟨r, t, hx, hQ⟩
    exact ⟨_, _, ⟨r, t, hx, rfl, rfl⟩, hQ⟩

theorem yields_bind_of_ok {f : α → Call ε σ β} {Q : Except ε β → σ → Prop} {a : α} {t : σ}
    (h : x.run s = some (.ok a, t)) : (x >>= f).Yields s Q ↔ (f a).Yields t Q := by
  simp only [Yields, run_bind_of_ok h]

theorem yields_bind_of_error {f : α → Call ε σ β} {Q : Except ε β → σ → Prop} {e : ε} {t : σ}
    (h : x.run s = some (.error e, t)) : (x >>= f).Yields s Q ↔ Q (.error e) t :=
  yields_of_run (run_bind_of_error h)

theorem Yields.mono {Q' : Except ε α → σ → Prop} (h : x.Yields s Q)
    (hQ : ∀ r t, Q r t → Q' r t) : x.Yields s Q' := by
  obtain ⟨r, t, hx, hq⟩ := h
  exact ⟨r, t, hx, hQ r t hq⟩

theorem yields_congr {Q' : Except ε α → σ → Prop} (hQ : ∀ r t, Q r t ↔ Q' r t) :
    x.Yields s Q ↔ x.Yields s Q' :=
  ⟨fun h => h.mono fun r t => (hQ r t).mp, fun h => h.mono fun r t => (hQ r t).mpr⟩

theorem Yields.leaves (h : x.Yields s Q) : x.Leaves s Q := by
  intro r t hx
  exact (yields_of_run hx).mp h

theorem Yields.ne_none (h : x.Yields s Q) : x.run s ≠ none := by
  obtain ⟨r, t, hx, -⟩ := h
  rw [hx]
  exact Option.some_ne_none _

/-! ## Relations a call keeps -/

/-- However the call returns, the state it leaves is related to the one it
started from. -/
def Keeps (x : Call ε σ α) (R : σ → σ → Prop) : Prop := ∀ s, x.Leaves s fun _ t => R s t

section

variable {R : σ → σ → Prop} [IsPreorder σ R]

theorem keeps_pure {a : α} : (pure a : Call ε σ α).Keeps R :=
  fun s => leaves_pure.mpr (refl_of R s)

theorem keeps_ofResult {r : Except ε α} : (ofResult r).Keeps R :=
  fun s => leaves_ofResult.mpr (refl_of R s)

theorem keeps_read {f : σ → α} : (read f : Call ε σ α).Keeps R :=
  fun s => leaves_read.mpr (refl_of R s)

theorem keeps_bind {f : α → Call ε σ β} (hx : x.Keeps R) (hf : ∀ a, (f a).Keeps R) :
    (x >>= f).Keeps R := by
  intro s
  refine leaves_bind.mpr ((hx s).mono fun r t hst => ?_)
  cases r with
  | error e => exact hst
  | ok a => exact (hf a t).mono fun _ u htu => trans_of R hst htu

theorem keeps_forM {f : α → Call ε σ PUnit} {as : List α} (hf : ∀ a ∈ as, (f a).Keeps R) :
    (as.forM f).Keeps R := by
  induction as with
  | nil => exact keeps_pure
  | cons a as ih =>
      obtain ⟨hhead, htail⟩ := List.forall_mem_cons.mp hf
      exact keeps_bind hhead fun _ => ih htail

end

theorem Keeps.leaves {R : σ → σ → Prop} (h : x.Keeps R) (s : σ) :
    x.Leaves s fun _ t => R s t :=
  h s

theorem keeps_update {R : σ → σ → Prop} {f : σ → σ} (h : ∀ s, R s (f s)) :
    (update f : Call ε σ Unit).Keeps R :=
  fun s => leaves_update.mpr (h s)

theorem keeps_ofFn {R : σ → σ → Prop} {f : σ → Option (Except ε α × σ)}
    (h : ∀ s r t, f s = some (r, t) → R s t) : (ofFn f : Call ε σ α).Keeps R :=
  fun s r t hf => h s r t hf

end Call

end Libaflmm
