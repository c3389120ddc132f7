import Libaflmm.HashTables

/-!
# Dictionaries that the target sends

A dictionary is a list of tokens, each behind its length in one byte; a length
of zero has no token. To parse one that ends within a token panics.
-/

namespace Libaflmm

structure Tokens where
  tokensVec : List (List UInt8)
  tokensSet : HashSet (List UInt8)

namespace Tokens

def new : Tokens := ⟨[], ∅⟩

/-- A token is kept once. -/
def addToken (t : Tokens) (token : List UInt8) : Tokens :=
  let (inserted, tokensSet) := HashSet.insertNew token t.tokensSet
  if inserted then ⟨t.tokensVec ++ [token], tokensSet⟩ else { t with tokensSet }

/-- From the head of the slice on, which is read up to its end. -/
def parseAutodict (t : Tokens) : List UInt8 → Option Tokens
  | [] => some t
  | size :: slice =>
    if 0 < size.toNat then
      if size.toNat ≤ slice.length then
        parseAutodict (t.addToken (slice.take size.toNat)) (slice.drop size.toNat)
      else none
    else parseAutodict t slice
termination_by slice => slice.length
decreasing_by
  · rw [List.length_cons, List.length_drop]
    omega
  · exact Nat.lt_succ_self _

/-- The bytes are these tokens, each behind its length. -/
inductive IsAutodict : List UInt8 → List (List UInt8) → Prop
  | nil : IsAutodict [] []
  | empty {slice : List UInt8} {tokens : List (List UInt8)} : IsAutodict slice tokens →
      IsAutodict (0 :: slice) tokens
  | token {size : UInt8} {token slice : List UInt8} {tokens : List (List UInt8)} :
      token.length = size.toNat → 0 < size.toNat → IsAutodict slice tokens →
      IsAutodict (size :: (token ++ slice)) (token :: tokens)

def addTokens (t : Tokens) (tokens : List (List UInt8)) : Tokens := tokens.foldl addToken t

theorem parseAutodict_of_isAutodict {slice : List UInt8} {tokens : List (List UInt8)}
    (h : IsAutodict slice tokens) (t : Tokens) :
    t.parseAutodict slice = some (t.addTokens tokens) := by
  induction h generalizing t with
  | nil => rw [parseAutodict, addTokens, List.foldl_nil]
  | empty _ ih =>
      rw [parseAutodict, if_neg (by decide)]
      exact ih t
  | @token size token slice tokens hlen hpos _ ih =>
      rw [parseAutodict, if_pos hpos, if_pos (by rw [List.length_append]; omega), ← hlen,
        List.take_left, List.drop_left, ih]
      rfl

theorem exists_isAutodict {slice : List UInt8} {t t' : Tokens}
    (h : t.parseAutodict slice = some t') : ∃ tokens, IsAutodict slice tokens := by
  fun_induction parseAutodict t slice with
  | case1 t => exact ⟨[], .nil⟩
  | case2 t size slice hpos hle ih =>
      obtain ⟨tokens, hrest⟩ := ih h
      refine ⟨slice.take size.toNat :: tokens, ?_⟩
      have htoken := IsAutodict.token (List.length_take_of_le hle) hpos hrest
      rwa [List.take_append_drop] at htoken
  | case3 t size slice hpos hle => cases h
  | case4 t size slice hzero ih =>
      obtain ⟨tokens, hrest⟩ := ih h
      have hsize : size = 0 := UInt8.toNat_inj.mp (Nat.eq_zero_of_not_pos hzero)
      rw [hsize]
      exact ⟨tokens, .empty hrest⟩

theorem parseAutodict_eq_none {slice : List UInt8} {t : Tokens} :
    t.parseAutodict slice = none ↔ ¬ ∃ tokens, IsAutodict slice tokens := by
  constructor
  · rintro h ⟨tokens, hdict⟩
    rw [parseAutodict_of_isAutodict hdict] at h
    cases h
  · intro h
    cases hparse : t.parseAutodict slice with
    | none => rfl
    | some t' => exact absurd (exists_isAutodict hparse) h

end Tokens

end Libaflmm
