import Mathlib.Algebra.Group.Int.Defs
import Mathlib.Algebra.GroupWithZero.Nat
import Mathlib.Data.List.Infix

/-!
# The members of a list, and where one is found in another

What is said of every member is decided along the list, also where the type of its members is
finite. A list that lacks a member is not found across it, and one that does not begin or end with
a member is not found at it.
-/

namespace Mailo.Library

section Members

universe u

variable {α : Type u} (p : α → Prop) [DecidablePred p]

instance (priority := 2000) decidableForallMem (xs : List α) : Decidable (∀ x ∈ xs, p x) :=
  List.decidableBAll p xs

instance (priority := 2000) decidableExistsMem (xs : List α) : Decidable (∃ x ∈ xs, p x) :=
  List.decidableBEx p xs

instance (priority := 2000) decidableForallSome (x : Option α) : Decidable (∀ a ∈ x, p a) :=
  Option.decidableForallMem x

end Members

namespace Infix

variable {α : Type} {needle a b : List α} {c : α}

/-- What lacks a character is found on one side of it or the other. -/
theorem infix_append_cons (lacks : c ∉ needle) :
    needle <:+: a ++ c :: b ↔ needle <:+: a ∨ needle <:+: b := by
  constructor
  · rintro ⟨s, t, h⟩
    rcases List.append_eq_append_iff.mp h with ⟨x, ha, _⟩ | ⟨x, hx, hrest⟩
    · exact .inl ⟨s, x, ha.symm⟩
    · cases x with
      | nil => exact .inl ⟨s, [], by simpa using hx⟩
      | cons d x =>
        rw [List.cons_append, List.cons.injEq] at hrest
        obtain ⟨rfl, rfl⟩ := hrest
        right
        have hsplit : s ++ needle = (a ++ [c]) ++ x := by rw [hx, List.append_assoc]; rfl
        rcases List.append_eq_append_iff.mp hsplit with ⟨y, hy, hneedle⟩ | ⟨y, _, hneedle⟩
        · rcases List.eq_nil_or_concat y with rfl | ⟨y, d, rfl⟩
          · exact ⟨[], t, by rw [hneedle]; rfl⟩
          · rw [List.concat_eq_append, ← List.append_assoc] at hy
            have hlast := (List.append_inj' hy rfl).2
            rw [hneedle, List.concat_eq_append, ← List.singleton_inj.mp hlast] at lacks
            exact absurd (by simp) lacks
        · exact ⟨y, t, by rw [hneedle]⟩
  · rintro (h | h)
    · exact h.trans (List.infix_append' [] a (c :: b))
    · exact h.trans ⟨a ++ [c], [], by simp⟩

theorem infix_cons (begins : needle.head? ≠ some c) :
    needle <:+: c :: b ↔ needle <:+: b := by
  rw [List.infix_cons_iff]
  refine ⟨fun h => ?_, .inr⟩
  rcases h with h | h
  · cases needle with
    | nil => exact List.nil_infix
    | cons d needle =>
      obtain ⟨t, ht⟩ := h
      rw [List.cons_append, List.cons.injEq] at ht
      rw [ht.1] at begins
      exact absurd rfl begins
  · exact h

theorem infix_append_singleton (ends : needle.getLast? ≠ some c) :
    needle <:+: a ++ [c] ↔ needle <:+: a := by
  rw [← List.reverse_infix, List.reverse_append, List.reverse_singleton, List.singleton_append,
    infix_cons (by rw [List.head?_reverse]; exact ends), List.reverse_infix]

end Infix

end Mailo.Library
