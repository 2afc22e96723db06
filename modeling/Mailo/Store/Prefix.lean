import Mathlib.Data.Char
import Mailo.Domain.Filter
import Mailo.Library.PrefixRange

/-!
# The range of indexed terms a typed prefix finds

A typed prefix is folded into the token the index stored, and the range from the token up to its
successor holds the terms that begin with it. Strings are compared by their scalars, which is the
order of their UTF-8 bytes.
-/

namespace Mailo.Store

open Domain Library

/-- The half-open range of indexed terms that begin with the folded prefix. -/
structure PrefixRange where
  start : List Char
  /-- Exclusive, and `none` when nothing comes after the strings that begin with `start`. -/
  «end» : Option (List Char)
deriving DecidableEq

/-- The code point after `c` that is no surrogate. -/
def nextCode (c : Char) : Nat :=
  if 0xD800 ≤ c.toNat + 1 ∧ c.toNat + 1 ≤ 0xDFFF then 0xE000 else c.toNat + 1

def nextScalar (c : Char) : Option Char :=
  if (nextCode c).isValidChar then some (Char.ofNat (nextCode c)) else none

def prefixSuccessor (token : List Char) : Option (List Char) := successor nextScalar token

section Folding

variable [FoldTable]

/-- The prefix folded the way the indexer did, if that makes exactly one token. -/
def foldedPrefix (typed : String) : Option (List Char) :=
  if typed.isEmpty then none
  else
    match searchTokens typed with
    | [token] => some token
    | _ => none

def prefixRange (typed : String) : Option PrefixRange :=
  (foldedPrefix typed).map fun start => ⟨start, prefixSuccessor start⟩

end Folding

/-- `term >= start AND term < end`. -/
def PrefixRange.holds (range : PrefixRange) (term : List Char) : Bool :=
  decide (range.start ≤ term) &&
    match range.end with
    | some bound => decide (term < bound)
    | none => true

theorem char_lt_iff {a b : Char} : a < b ↔ a.toNat < b.toNat := UInt32.lt_iff_toNat_lt

theorem toNat_ofNat {n : Nat} (h : n.isValidChar) : (Char.ofNat n).toNat = n := by
  rw [Char.ofNat, dif_pos h]
  rfl

theorem lt_nextCode (c : Char) : c.toNat < nextCode c := by
  unfold nextCode
  split <;> omega

theorem nextCode_not_surrogate (c : Char) : nextCode c < 0xD800 ∨ 0xDFFF < nextCode c := by
  unfold nextCode
  split <;> omega

/-- A code point between a scalar and the next would be a surrogate. -/
theorem nextCode_le {c d : Char} (h : c < d) : nextCode c ≤ d.toNat := by
  rw [char_lt_iff] at h
  have hd : d.toNat.isValidChar := d.valid
  unfold Nat.isValidChar at hd
  unfold nextCode
  split <;> omega

theorem stepping_nextScalar : Stepping nextScalar where
  covers {a b} h := by
    unfold nextScalar at h
    split at h
    · rename_i hvalid
      cases h
      refine ⟨?_, fun c hac hcb => ?_⟩
      · rw [char_lt_iff, toNat_ofNat hvalid]
        exact lt_nextCode a
      · rw [char_lt_iff, toNat_ofNat hvalid] at hcb
        exact absurd (nextCode_le hac) (by omega)
    · cases h
  top {a} h b := by
    unfold nextScalar at h
    split at h
    · cases h
    · rename_i hvalid
      by_contra hlt
      have hle := nextCode_le (not_le.mp hlt)
      have hsurrogate := nextCode_not_surrogate a
      have hb : b.toNat.isValidChar := b.valid
      unfold Nat.isValidChar at hvalid hb
      omega

theorem holds_iff (start term : List Char) :
    (PrefixRange.mk start (prefixSuccessor start)).holds term = true ↔ start <+: term := by
  rw [stepping_nextScalar.prefix_iff]
  unfold PrefixRange.holds prefixSuccessor
  cases successor nextScalar start <;> simp

example : prefixSuccessor ['z', 'z'] = some ['z', '{'] := by decide

example : prefixSuccessor ['a', '\uD7FF'] = some ['a', '\uE000'] := by decide

/-- Exactly the terms that begin with the token a typed prefix folds to lie in its range. -/
theorem range_is_prefix [FoldTable] {typed : String} {token : List Char}
    (h : foldedPrefix typed = some token) (term : List Char) :
    ∃ range, prefixRange typed = some range ∧ (range.holds term = true ↔ token <+: term) :=
  ⟨⟨token, prefixSuccessor token⟩, by rw [prefixRange, h, Option.map_some], holds_iff token term⟩

/-- A table that keeps every character but white space. -/
@[reducible] def keepsAll : FoldTable :=
  ⟨fun c => if Text.isWhitespace c then .split else .keep, fun _ h => if_pos h⟩

theorem range_is_prefix_before_surrogates : ∃ range,
    @prefixRange keepsAll "a\uD7FF" = some range ∧
      (range.holds ['a', '\uD7FF', 'b'] = true ↔ ['a', '\uD7FF'] <+: ['a', '\uD7FF', 'b']) :=
  letI := keepsAll
  range_is_prefix (by decide) ['a', '\uD7FF', 'b']

end Mailo.Store
