import Mathlib.Data.List.Lex
import Mathlib.Order.Cover

/-!
# The range of a prefix

In an order where every letter but the greatest has a next one, the words that begin with a prefix
are those from it up to its successor: the prefix with its last letter that has a next one raised,
and what stands behind that letter dropped.
-/

namespace Mailo.Library

variable {α : Type}

/-- The successor of a word read from its end, `none` when no letter of it has a next one. -/
def successorFrom (next : α → Option α) : List α → Option (List α)
  | [] => none
  | last :: before =>
    match next last with
    | some raised => some (raised :: before).reverse
    | none => successorFrom next before

def successor (next : α → Option α) (word : List α) : Option (List α) :=
  successorFrom next word.reverse

theorem successorFrom_concat (next : α → Option α) (before : List α) (first : α) :
    successorFrom next (before ++ [first]) =
      ((successorFrom next before).map (first :: ·)).or ((next first).map fun raised => [raised]) := by
  induction before with
  | nil => cases h : next first <;> simp [successorFrom, h]
  | cons last before ih => cases h : next last <;> simp [successorFrom, h, ih]

theorem successor_cons (next : α → Option α) (first : α) (word : List α) :
    successor next (first :: word) =
      ((successor next word).map (first :: ·)).or ((next first).map fun raised => [raised]) := by
  rw [successor, List.reverse_cons, successorFrom_concat, successor]

/-- What comes next after a letter: the least above it, and nothing after the greatest. -/
structure Stepping [LinearOrder α] (next : α → Option α) : Prop where
  covers : ∀ {a b : α}, next a = some b → a ⋖ b
  top : ∀ {a : α}, next a = none → ∀ b, b ≤ a

variable [LinearOrder α] {next : α → Option α}

theorem Stepping.eq_of_le {a b : α} (h : Stepping next) (hle : a ≤ b)
    (hlt : ∀ raised ∈ next a, b < raised) : b = a := by
  cases hnext : next a with
  | none => exact le_antisymm (h.top hnext b) hle
  | some raised =>
    have hraised := hlt raised hnext
    by_contra hne
    exact (h.covers hnext).2 (lt_of_le_of_ne hle (Ne.symm hne)) hraised

theorem cons_le_cons_iff {a b : α} {lead word : List α} :
    a :: lead ≤ b :: word ↔ a < b ∨ a = b ∧ lead ≤ word := by
  rw [← not_lt, List.cons_lt_cons_iff, ← not_lt]
  rcases lt_trichotomy a b with h | rfl | h
  · simp [h, h.asymm, h.ne']
  · simp
  · simp [h, h.asymm, h.ne']

/-- The words from a prefix up to its successor are those that begin with it. -/
theorem Stepping.prefix_iff (h : Stepping next) (lead word : List α) :
    lead <+: word ↔ lead ≤ word ∧ ∀ bound ∈ successor next lead, word < bound := by
  induction lead generalizing word with
  | nil =>
    have hle : [] ≤ word := not_lt.mp (List.not_lt_nil word)
    simp [successor, successorFrom, hle]
  | cons a lead ih =>
    cases word with
    | nil =>
      have hlt : [] < a :: lead := List.nil_lt_cons a lead
      simp [hlt]
    | cons b word =>
      rw [List.cons_prefix_cons, ih, cons_le_cons_iff, successor_cons]
      cases hbound : successor next lead with
      | some bound =>
        -- Behind the first letter the successor bounds what follows, so that letter is kept.
        have hfirst : b :: word < a :: bound ↔ b < a ∨ b = a ∧ word < bound :=
          List.cons_lt_cons_iff
        simp only [Option.map_some, Option.some_or, Option.mem_some_iff, forall_eq', hfirst]
        constructor
        · rintro ⟨rfl, hle, hlt⟩
          exact ⟨.inr ⟨rfl, hle⟩, .inr ⟨rfl, hlt⟩⟩
        · rintro ⟨hab | ⟨rfl, hle⟩, hba | ⟨heq, hlt⟩⟩
          · exact absurd hba hab.asymm
          · exact absurd heq hab.ne'
          · exact absurd hba (lt_irrefl _)
          · exact ⟨rfl, hle, hlt⟩
      | none =>
        -- Everything from the rest on begins with it: the first letter alone is bounded.
        have hfirst : (∀ bound ∈ (next a).map fun raised => [raised], b :: word < bound) ↔
            ∀ raised ∈ next a, b < raised := by
          simp [List.cons_lt_cons_iff]
        simp only [Option.map_none, Option.none_or, hfirst]
        constructor
        · rintro ⟨rfl, hle, -⟩
          exact ⟨.inr ⟨rfl, hle⟩, fun raised hraised => (h.covers hraised).lt⟩
        · rintro ⟨hab | ⟨rfl, hle⟩, hlt⟩
          · exact absurd (h.eq_of_le hab.le hlt) hab.ne'
          · exact ⟨rfl, hle, by simp⟩

end Mailo.Library
