import Libaflmm.ForkserverHandshake

/-!
# The size of the map of a forkserver

A map that is longer than the configured size is cut to it before the handshake.
In the handshake the target says which size it has, and the builder keeps that
size, rounded up; the map stays as it was cut. So the map has the size of the
target only if it was as short as that, or the configured size was.
-/

namespace Libaflmm

open Call

namespace Handshake

/-- What is not as long as the new length stays as it is. -/
def truncate {α : Type} (map : List α) (newLen : Nat) : List α :=
  if newLen ≤ map.length then map.take newLen else map

/-- The map of the executor. -/
def buildDynamicMap (mapObserver : List UInt8) : HandshakeCall (List UInt8) := do
  let builder ← read HandshakeState.builder
  let mapObserver := match builder.mapSize with
    | some dynamicMapSize => truncate mapObserver dynamicMapSize
    | none => mapObserver
  build
  let builder ← read HandshakeState.builder
  if builder.usesShmemTestcase && !builder.tryUseInputShmem then fail .mapNotSet
  else pure mapObserver

theorem length_truncate {α : Type} (map : List α) (newLen : Nat) :
    (truncate map newLen).length = min map.length newLen := by
  unfold truncate
  split
  · next h => rw [List.length_take, Nat.min_comm]
  · next h => exact (Nat.min_eq_left (Nat.le_of_not_le h)).symm

/-! ## What keeps the size -/

def SameMapSize (s t : HandshakeState) : Prop := t.builder.mapSize = s.builder.mapSize

instance : IsPreorder HandshakeState SameMapSize where
  refl _ := rfl
  trans _ _ _ h h' := h'.trans h

theorem keeps_readSt (e : HandshakeError) : (readSt e).Keeps SameMapSize := by
  refine keeps_ofFn fun s r t h => ?_
  split at h
  · cases h
    rfl
  · cases h
    rfl

theorem keeps_checkShmem (options : Word) : (checkShmem options).Keeps SameMapSize := by
  refine keeps_ofFn fun s r t h => ?_
  split at h
  · split at h
    · cases h
      rfl
    · cases h
      rfl
  · cases h
    rfl

theorem keeps_addAutotokens (buf : List UInt8) : (addAutotokens buf).Keeps SameMapSize := by
  refine keeps_ofFn fun s r t h => ?_
  split at h
  · obtain ⟨tokens, -, heq⟩ := Option.map_eq_some_iff.mp h
    cases heq
    rfl
  · cases h
    rfl

theorem keeps_readAutodict (options : Word) : (readAutodict options).Keeps SameMapSize := by
  unfold readAutodict
  split
  · refine keeps_bind (keeps_readSt _) fun autotokensSize => ?_
    split
    · refine keeps_bind (keeps_ofFn fun s r t h => ?_) keeps_addAutotokens
      split at h
      · cases h
        rfl
      · cases h
        rfl
    · exact keeps_ofResult
  · exact keeps_pure

theorem keeps_readAflx (hello : Word) : (readAflx hello).Keeps SameMapSize := by
  refine keeps_bind (keeps_readSt _) fun aflx => ?_
  split
  · exact keeps_ofResult
  · exact keeps_pure

/-- Behind the size of the map. -/
theorem keeps_afterMapSize (options hello : Word) :
    (checkShmem options >>= fun _ => readAutodict options >>= fun _ => readAflx hello).Keeps
      SameMapSize :=
  keeps_bind (keeps_checkShmem options) fun _ =>
    keeps_bind (keeps_readAutodict options) fun _ => keeps_readAflx hello

/-! ## The size that the builder keeps -/

theorem run_readSt_eq_ok {e : HandshakeError} {s t : HandshakeState} {val : Word}
    (h : (readSt e).run s = some (.ok val, t)) :
    ∃ st, takeWord s.st = some (val, st) ∧ t = { s with st } := by
  rw [readSt, run_ofFn] at h
  split at h
  · next val' st hread =>
      cases h
      exact ⟨st, hread, rfl⟩
  · cases h

theorem run_setMapSize_eq_ok {size : Word} {s t : HandshakeState} {actual : Nat}
    (h : (setMapSize size.toInt).run s = some (.ok actual, t)) :
    t.builder.mapSize = some (asUsize (roundedUp size.toInt)) := by
  obtain ⟨hle, hlt⟩ := toInt_bounds size
  by_cases hlarge : 2 ^ 31 - 64 < size.toInt
  · rw [run_setMapSize_of_large hlt hlarge] at h
    cases h
  by_cases hpasses : Fits s.builder.mapSize size.toInt ∨ PassesNegative s.builder.mapSize size.toInt
  · rw [run_setMapSize_of_passes hle (not_lt.mp hlarge) hpasses] at h
    cases h
    rfl
  · obtain ⟨e, hset⟩ := run_setMapSize_of_not_passes hle (not_lt.mp hlarge) hpasses
    rw [hset] at h
    cases h

/-- The handshake says which size the map of the target has. -/
def SaysMapSize (st : List UInt8) (size : Word) : Prop :=
  ∃ hello st₁ options st₂ st₃, takeWord st = some (hello, st₁) ∧
    takeWord st₁ = some (options, st₂) ∧ options &&& fsNewOptMapsize = fsNewOptMapsize ∧
    takeWord st₂ = some (size, st₃)

theorem mapSize_of_handshake {s t : HandshakeState} {size : Word} (hreport : SaysMapSize s.st size)
    (h : handshake.run s = some (.ok (), t)) :
    t.builder.mapSize = some (asUsize (roundedUp size.toInt)) := by
  obtain ⟨hello, st₁, options, st₂, st₃, hhello, hoptions, hbit, hsize⟩ := hreport
  obtain ⟨val, t₁, hread, h⟩ := run_bind_eq_ok.mp h
  obtain ⟨st, hval, rfl⟩ := run_readSt_eq_ok hread
  cases hhello.symm.trans hval
  split at h
  · cases h
  · obtain ⟨⟨⟩, t₂, hinit, h⟩ := run_bind_eq_ok.mp h
    obtain ⟨builder, t₃, hread, h⟩ := run_bind_eq_ok.mp h
    cases hread
    have hsame : t.builder.mapSize = t₂.builder.mapSize := by
      split at h
      · cases h
      · cases h
        rfl
    rw [hsame]
    obtain ⟨⟨⟩, t₄, hcheck, hinit⟩ := run_bind_eq_ok.mp hinit
    have hversion : t₄ = { s with st := st₁ } := by
      rw [checkVersion, run_ofFn] at hcheck
      split at hcheck
      · cases hcheck
      · dsimp only at hcheck
        split_ifs at hcheck <;> cases hcheck
        rfl
    obtain ⟨⟨⟩, t₅, hwrite, hinit⟩ := run_bind_eq_ok.mp hinit
    cases hwrite
    obtain ⟨val, t₆, hread, hinit⟩ := run_bind_eq_ok.mp hinit
    obtain ⟨st, hval, rfl⟩ := run_readSt_eq_ok hread
    rw [hversion] at hval
    cases hoptions.symm.trans hval
    obtain ⟨⟨⟩, t₇, hset, hrest⟩ := run_bind_eq_ok.mp hinit
    have hkept : t₂.builder.mapSize = t₇.builder.mapSize :=
      keeps_afterMapSize options hello _ _ _ hrest
    rw [hkept]
    rw [readMapSize, if_pos hbit] at hset
    obtain ⟨val, t₈, hread, hset⟩ := run_bind_eq_ok.mp hset
    obtain ⟨st, hval, rfl⟩ := run_readSt_eq_ok hread
    cases hsize.symm.trans hval
    obtain ⟨actual, t₉, hset, hpure⟩ := run_bind_eq_ok.mp hset
    cases hpure
    exact run_setMapSize_eq_ok hset

/-- The executor's map and the builder have the size that the target says. -/
def FitsTarget (size : Word) (mapObserver : List UInt8) (t : HandshakeState) : Prop :=
  (mapObserver.length : Int) = roundedUp size.toInt ∧
    ∃ mapSize, t.builder.mapSize = some mapSize ∧ (mapSize : Int) = roundedUp size.toInt

theorem fitsTarget_iff {s t : HandshakeState} {mapObserver executorMap : List UInt8} {size : Word}
    {configured : Nat} (hconfigured : s.builder.mapSize = some configured)
    (hreport : SaysMapSize s.st size)
    (h : (buildDynamicMap mapObserver).run s = some (.ok executorMap, t)) :
    FitsTarget size executorMap t ↔
      (min mapObserver.length configured : Int) = roundedUp size.toInt := by
  obtain ⟨builder, t₁, hread, h⟩ := run_bind_eq_ok.mp h
  cases hread
  obtain ⟨⟨⟩, t₂, hbuild, h⟩ := run_bind_eq_ok.mp h
  obtain ⟨builder, t₃, hread, h⟩ := run_bind_eq_ok.mp h
  cases hread
  rw [hconfigured] at h
  have hresult : executorMap = truncate mapObserver configured ∧ t = t₂ := by
    split at h
    · cases h
    · cases h
      exact ⟨rfl, rfl⟩
  obtain ⟨rfl, rfl⟩ := hresult
  obtain ⟨builder, t₄, hread, hbuild⟩ := run_bind_eq_ok.mp hbuild
  cases hread
  rw [if_neg (by rw [hconfigured]; exact nofun)] at hbuild
  have hmapSize := mapSize_of_handshake hreport hbuild
  rw [FitsTarget, length_truncate, Nat.cast_min, hmapSize]
  refine ⟨fun hfits => hfits.1, fun hmin => ⟨hmin, _, rfl, ?_⟩⟩
  have hbounds := toInt_bounds size
  have hnonneg : 0 ≤ roundedUp size.toInt := by
    rw [← hmin]
    omega
  unfold asUsize
  unfold roundedUp at hnonneg ⊢
  omega

/-- The target says that its map has one byte. -/
def oneByte (configured : Nat) : HandshakeState where
  builder := ⟨false, none, false, some configured, (absurd · Bool.false_ne_true)⟩
  st := [1, 76, 70, 65, 1, 0, 0, 0, 1, 0, 0, 0, 1, 76, 70, 65]
  ctl := []

/-- What is left of it when it is built. -/
def oneByteBuilt : HandshakeState where
  builder := ⟨false, none, false, some 64, (absurd · Bool.false_ne_true)⟩
  st := []
  ctl := [0xbeb9b3fe]

theorem saysMapSize_oneByte (configured : Nat) : SaysMapSize (oneByte configured).st 1 :=
  ⟨0x41464c01, _, 1, _, _, rfl, rfl, rfl, rfl⟩

/-- The configured size is the rounded one. -/
theorem fitsTarget_oneByte :
    FitsTarget 1 (List.replicate 64 0) oneByteBuilt ↔
      (min (List.replicate 80 (0 : UInt8)).length 64 : Int) = roundedUp (1 : Word).toInt :=
  fitsTarget_iff (s := oneByte 64) rfl (saysMapSize_oneByte 64) rfl

/-- The configured size is larger, and the map is cut to it. -/
theorem not_fitsTarget_oneByte :
    (buildDynamicMap (List.replicate 80 0)).run (oneByte 72) =
        some (.ok (List.replicate 72 0), oneByteBuilt) ∧
      ¬ FitsTarget 1 (List.replicate 72 0) oneByteBuilt :=
  ⟨rfl, fun h => absurd h.1 (by decide)⟩

end Handshake

end Libaflmm
