import Mathlib.Data.List.Basic
import Mailo.Library.Lists

/-!
# Reading what is still arriving

A reader of the bytes that have come so far finds a value at their front, finds them wrong, or asks
for more. It is firm when what it has found or refused stays so however many bytes follow, and then
it asks for more at every cut before the end of what it finds.
-/

namespace Mailo.Library

inductive Read (β ε α : Type) where
  | more
  | bad (error : ε)
  | done (value : α) (rest : List β)
deriving DecidableEq

namespace Read

variable {β ε α γ : Type}

/-- The same with bytes after what is left. -/
def extend (late : List β) : Read β ε α → Read β ε α
  | .done value rest => .done value (rest ++ late)
  | result => result

/-- Reading on from where a value ended. -/
def andThen (first : Read β ε α) (next : α → List β → Read β ε γ) : Read β ε γ :=
  match first with
  | .more => .more
  | .bad error => .bad error
  | .done value rest => next value rest

/-- What was read becomes a value, or is refused after all. -/
def settle (first : Read β ε α) (f : α → Except ε γ) : Read β ε γ :=
  first.andThen fun value rest =>
    match f value with
    | .ok value => .done value rest
    | .error error => .bad error

variable {first after : Read β ε α} {next later : α → List β → Read β ε γ} {late rest : List β}

variable {value : γ}

theorem andThen_eq_done (h : first.andThen next = .done value rest) :
    ∃ found middle, first = .done found middle ∧ next found middle = .done value rest := by
  cases first with
  | more | bad => cases h
  | done found middle => exact ⟨found, middle, rfl, h⟩

theorem settle_eq_done {f : α → Except ε γ} (h : first.settle f = .done value rest) :
    ∃ found, first = .done found rest ∧ f found = .ok value := by
  obtain ⟨found, middle, hfirst, hnext⟩ := andThen_eq_done h
  cases hf : f found with
  | error error =>
    rw [hf] at hnext
    cases hnext
  | ok settled =>
    rw [hf] at hnext
    cases hnext
    exact ⟨found, hfirst, hf⟩

theorem extend_eq_more (h : first.extend late = .more) : first = .more := by
  cases first with
  | more => rfl
  | bad | done => cases h

theorem andThen_extend (hfirst : first ≠ .more → after = first.extend late)
    (hnext : ∀ value rest, first = .done value rest → next value rest ≠ .more →
      later value (rest ++ late) = (next value rest).extend late)
    (h : first.andThen next ≠ .more) :
    after.andThen later = (first.andThen next).extend late := by
  cases first with
  | more => exact absurd rfl h
  | bad error =>
    rw [hfirst (by simp)]
    rfl
  | done value rest =>
    rw [hfirst (by simp)]
    exact hnext value rest rfl h

end Read

section Readers

variable {β ε α γ : Type}

abbrev Reader (β ε α : Type) := List β → Read β ε α

/-- What has been found, or refused, stays so when more arrives. -/
def Firm (read : Reader β ε α) : Prop :=
  ∀ arrived, read arrived ≠ .more → ∀ late, read (arrived ++ late) = (read arrived).extend late

variable {read : Reader β ε α}

variable {rest run : List β} {p : β → Bool}

/-- A firm reader asks for more at every cut before the end of what it finds. -/
theorem Firm.cut (firm : Firm read) {front back : List β} {value : α}
    (h : read (front ++ back ++ rest) = .done value rest) (hback : back ≠ []) :
    read front = .more := by
  by_contra hsettled
  have hwhole := firm front hsettled (back ++ rest)
  rw [← List.append_assoc, h] at hwhole
  cases hfront : read front with
  | more => exact hsettled hfront
  | bad error =>
    rw [hfront] at hwhole
    cases hwhole
  | done found left =>
    rw [hfront, Read.extend, Read.done.injEq] at hwhole
    have hlength := congrArg List.length hwhole.2
    simp only [List.length_append] at hlength
    exact hback (List.length_eq_zero_iff.mp (by omega))

theorem Firm.settle (firm : Firm read) (f : α → Except ε γ) :
    Firm fun arrived => (read arrived).settle f := by
  intro arrived h late
  apply Read.andThen_extend (fun hmore => firm arrived hmore late) _ h
  intro value rest _ _
  cases f value <;> rfl

theorem Firm.andThen {next : α → Reader β ε γ} (firm : Firm read) (hnext : ∀ value, Firm (next value)) :
    Firm fun arrived => (read arrived).andThen next := by
  intro arrived h late
  apply Read.andThen_extend (fun hmore => firm arrived hmore late) _ h
  intro value rest _ hmore
  exact hnext value rest hmore late

/-- The run of elements at the front, known once the one after it has come. -/
def span (p : β → Bool) : Reader β ε (List β)
  | [] => .more
  | c :: rest =>
    if p c then (span p rest).andThen fun run rest => .done (c :: run) rest
    else .done [] (c :: rest)

attribute [local simp] span in
theorem span_firm (p : β → Bool) : Firm (span p : Reader β ε (List β)) := by
  intro arrived h late
  induction arrived with
  | nil => exact absurd rfl h
  | cons c rest ih =>
    rw [span] at h
    rw [List.cons_append, span, span]
    by_cases hc : p c = true
    · rw [if_pos hc] at h
      rw [if_pos hc, if_pos hc]
      exact Read.andThen_extend ih (fun _ _ _ _ => rfl) h
    · rw [if_neg hc, if_neg hc]
      rfl

/-- What a run is: its elements meet the condition, and the one after it does not. -/
theorem span_eq_done {arrived : List β}
    (h : (span p : Reader β ε (List β)) arrived = .done run rest) :
    arrived = run ++ rest ∧ (∀ c ∈ run, p c = true) ∧ ∃ c more, rest = c :: more ∧ p c = false := by
  induction arrived generalizing run with
  | nil => cases h
  | cons c arrived ih =>
    rw [span] at h
    split at h
    · rename_i hc
      obtain ⟨found, middle, hspan, hdone⟩ := Read.andThen_eq_done h
      cases hdone
      obtain ⟨harrived, hall, hends⟩ := ih hspan
      refine ⟨by rw [harrived]; rfl, fun d hd => ?_, hends⟩
      rcases List.mem_cons.mp hd with rfl | hd
      · exact hc
      · exact hall d hd
    · rename_i hc
      cases h
      exact ⟨rfl, fun _ hd => absurd hd List.not_mem_nil, c, arrived, rfl, by simpa using hc⟩

theorem span_append {c : β} (hall : ∀ d ∈ run, p d = true) (hc : p c = false) :
    (span p : Reader β ε (List β)) (run ++ c :: rest) = .done run (c :: rest) := by
  induction run with
  | nil => rw [List.nil_append, span, hc, if_neg Bool.false_ne_true]
  | cons d run ih =>
    rw [List.cons_append, span, if_pos (hall d List.mem_cons_self),
      ih fun e he => hall e (.tail _ he)]
    rfl

def take (count : Nat) : Reader β ε (List β) := fun arrived =>
  if arrived.length < count then .more else .done (arrived.take count) (arrived.drop count)

theorem take_firm (count : Nat) : Firm (take count : Reader β ε (List β)) := by
  intro arrived h late
  unfold take at h ⊢
  split at h
  · exact absurd rfl h
  · rename_i hcount
    have hle : count ≤ arrived.length := by omega
    rw [if_neg (by rw [List.length_append]; omega), List.take_append_of_le_length hle,
      List.drop_append_of_le_length hle, if_neg hcount]
    rfl

end Readers

end Mailo.Library
