import Mathlib.Data.List.Basic
import Mailo.Library.Lists

/-!
# Lines that end in CRLF

A line ends at the first CRLF after it begins, so bytes that arrive later change neither it nor
where it ends.
-/

namespace Mailo.Library.Crlf

/-- The bytes before the first CRLF, and those after it. -/
def split : List UInt8 → Option (List UInt8 × List UInt8)
  | [] => none
  | [_] => none
  | a :: b :: rest =>
    if a = 13 ∧ b = 10 then some ([], rest)
    else (split (b :: rest)).map fun pair => (a :: pair.1, pair.2)

attribute [local simp] split

variable {buf line rest : List UInt8}

theorem split_eq (h : split buf = some (line, rest)) :
    buf = line ++ 13 :: 10 :: rest := by
  induction buf using split.induct generalizing line with
  | case1 | case2 => cases h
  | case3 a b more hcrlf =>
    rw [split, if_pos hcrlf] at h
    cases h
    rw [hcrlf.1, hcrlf.2]
    rfl
  | case4 a b more hcrlf ih =>
    rw [split, if_neg hcrlf] at h
    obtain ⟨pair, hpair, heq⟩ := Option.map_eq_some_iff.mp h
    cases heq
    rw [ih hpair]
    rfl

/-- There is no CRLF within the line found. -/
theorem split_whole (h : split buf = some (line, rest)) :
    split line = none := by
  induction buf using split.induct generalizing line with
  | case1 | case2 => cases h
  | case3 a b more hcrlf =>
    rw [split, if_pos hcrlf] at h
    cases h
    rfl
  | case4 a b more hcrlf ih =>
    rw [split, if_neg hcrlf] at h
    obtain ⟨⟨front, back⟩, hpair, heq⟩ := Option.map_eq_some_iff.mp h
    cases heq
    have hfront := ih hpair
    have hsplit := split_eq hpair
    cases front with
    | nil => rfl
    | cons first front =>
      cases hsplit
      rw [split, if_neg hcrlf, hfront]
      rfl

/-- A line without a CRLF in it ends where its own stands. -/
theorem split_line (h : split line = none) (rest : List UInt8) :
    split (line ++ 13 :: 10 :: rest) = some (line, rest) := by
  induction line with
  | nil => rfl
  | cons a line ih =>
    cases line with
    | nil => simp [split]
    | cons b line =>
      rw [split] at h
      split at h
      · cases h
      · rename_i hne
        rw [Option.map_eq_none_iff] at h
        have htail := ih h
        rw [List.cons_append] at htail
        rw [List.cons_append, List.cons_append, split, if_neg hne, htail]
        rfl

/-- A line found is found again when more is behind it. -/
theorem split_append (h : split buf = some (line, rest)) (more : List UInt8) :
    split (buf ++ more) = some (line, rest ++ more) := by
  induction buf using split.induct generalizing line with
  | case1 | case2 => cases h
  | case3 a b tail hcrlf =>
    rw [split, if_pos hcrlf] at h
    cases h
    rw [List.cons_append, List.cons_append, split, if_pos hcrlf]
  | case4 a b tail hcrlf ih =>
    rw [split, if_neg hcrlf] at h
    obtain ⟨pair, hpair, heq⟩ := Option.map_eq_some_iff.mp h
    cases heq
    have htail := ih hpair
    rw [List.cons_append] at htail
    rw [List.cons_append, List.cons_append, split, if_neg hcrlf, htail]
    rfl

/-- Where two lines without a CRLF end at the same bytes, they are one. -/
theorem line_eq {said tail : List UInt8} (whole : split line = none) (other : split said = none)
    (same : line ++ 13 :: 10 :: tail = said ++ 13 :: 10 :: rest) : line = said ∧ tail = rest := by
  have hleft := split_line whole tail
  rw [same, split_line other rest] at hleft
  cases hleft
  exact ⟨rfl, rfl⟩

/-! ## Breaks that stand whole -/

section Paired

variable {α : Type} {cr lf : α}

/-- Every CR is followed by an LF and every LF follows a CR. -/
def Paired (cr lf : α) (text : List α) : Prop :=
  (∀ i : Nat, text[i]? = some cr → text[i + 1]? = some lf) ∧
    ∀ i : Nat, text[i]? = some lf → ∃ j, i = j + 1 ∧ text[j]? = some cr

theorem paired_nil : Paired cr lf [] := ⟨fun _ h => (by cases h), fun _ h => (by cases h)⟩

theorem Paired.cons {c : α} {text : List α} (hc : c ≠ cr ∧ c ≠ lf) (h : Paired cr lf text) :
    Paired cr lf (c :: text) := by
  constructor
  · intro i hi
    cases i with
    | zero => exact absurd (Option.some.inj hi) hc.1
    | succ i => exact h.1 i hi
  · intro i hi
    cases i with
    | zero => exact absurd (Option.some.inj hi) hc.2
    | succ i =>
      obtain ⟨j, rfl, hj⟩ := h.2 i hi
      exact ⟨j + 1, rfl, hj⟩

variable {text : List α}

theorem Paired.crlf (ne : cr ≠ lf) (h : Paired cr lf text) :
    Paired cr lf (cr :: lf :: text) := by
  constructor
  · intro i hi
    match i with
    | 0 => rfl
    | 1 => exact absurd (Option.some.inj hi).symm ne
    | i + 2 => exact h.1 i hi
  · intro i hi
    match i with
    | 0 => exact absurd (Option.some.inj hi) ne
    | 1 => exact ⟨0, rfl, rfl⟩
    | i + 2 =>
      obtain ⟨j, rfl, hj⟩ := h.2 i hi
      exact ⟨j + 2, rfl, hj⟩

theorem paired_plain (h : ∀ c ∈ text, c ≠ cr ∧ c ≠ lf) : Paired cr lf text := by
  induction text with
  | nil => exact paired_nil
  | cons c text ih =>
    obtain ⟨hc, htext⟩ := List.forall_mem_cons.mp h
    exact (ih htext).cons hc

theorem Paired.append {a b : List α} (ha : Paired cr lf a) (hb : Paired cr lf b) :
    Paired cr lf (a ++ b) := by
  constructor
  · intro i hi
    by_cases hlt : i < a.length
    · rw [List.getElem?_append_left hlt] at hi
      have hnext := ha.1 i hi
      obtain ⟨hin, _⟩ := List.getElem?_eq_some_iff.mp hnext
      rw [List.getElem?_append_left hin]
      exact hnext
    · rw [List.getElem?_append_right (by omega)] at hi
      rw [List.getElem?_append_right (by omega), Nat.sub_add_comm (by omega)]
      exact hb.1 _ hi
  · intro i hi
    by_cases hlt : i < a.length
    · rw [List.getElem?_append_left hlt] at hi
      obtain ⟨j, rfl, hj⟩ := ha.2 i hi
      exact ⟨j, rfl, by rwa [List.getElem?_append_left (by omega)]⟩
    · rw [List.getElem?_append_right (by omega)] at hi
      obtain ⟨j, hij, hj⟩ := hb.2 _ hi
      refine ⟨a.length + j, by omega, ?_⟩
      rw [List.getElem?_append_right (by omega), Nat.add_sub_cancel_left]
      exact hj

end Paired

end Mailo.Library.Crlf

/-!
## Lines up to a dot

Text is sent as lines that end in CRLF, a dot put before one at the front of a line, and a line
that is a single dot after the last. Whoever receives it takes that dot off again and stops at the
first line that is one.
-/

namespace Mailo.Library.Dotted

/-- A dot before one at the front of a line. -/
def stuff (line : List UInt8) : List UInt8 := if line.head? = some 46 then 46 :: line else line

def unstuff (line : List UInt8) : List UInt8 := if line.head? = some 46 then line.tail else line

/-- What is received up to the first line that is a dot, and the bytes after it; a line takes two
bytes at least, so `fuel` above their number is enough. -/
def receive : Nat → List UInt8 → Option (List UInt8 × List UInt8)
  | 0, _ => none
  | fuel + 1, bytes =>
    match Crlf.split bytes with
    | none => none
    | some (line, rest) =>
      if line = [46] then some ([], rest)
      else (receive fuel rest).map fun pair => (unstuff line ++ 13 :: 10 :: pair.1, pair.2)

def received (bytes : List UInt8) : Option (List UInt8 × List UInt8) :=
  receive (bytes.length + 1) bytes

theorem unstuff_stuff (line : List UInt8) : unstuff (stuff line) = line := by
  unfold stuff
  split
  · rfl
  · rename_i hdot
    exact if_neg hdot

theorem stuff_ne_dot (line : List UInt8) : stuff line ≠ [46] := by
  unfold stuff
  split
  · rename_i hdot
    intro h
    rw [(List.cons.inj h).2] at hdot
    cases hdot
  · rename_i hdot
    intro h
    exact hdot (by rw [h]; rfl)

theorem split_stuff {line : List UInt8} (h : Crlf.split line = none) :
    Crlf.split (stuff line) = none := by
  unfold stuff
  split
  · cases line with
    | nil => rfl
    | cons byte rest =>
      rw [Crlf.split, if_neg (by simp), h]
      rfl
  · exact h

variable {lines : List (List UInt8)}

theorem receive_lines (whole : ∀ line ∈ lines, Crlf.split line = none) {fuel : Nat}
    (hfuel : lines.length < fuel) (rest : List UInt8) :
    receive fuel ((lines.flatMap fun line => stuff line ++ [13, 10]) ++ 46 :: 13 :: 10 :: rest) =
      some (lines.flatMap fun line => line ++ [13, 10], rest) := by
  induction lines generalizing fuel with
  | nil =>
    obtain ⟨fuel, rfl⟩ : ∃ n, fuel = n + 1 := ⟨fuel - 1, by simp at hfuel; omega⟩
    rfl
  | cons line lines ih =>
    obtain ⟨hline, hlines⟩ := List.forall_mem_cons.mp whole
    rw [List.length_cons] at hfuel
    obtain ⟨fuel, rfl⟩ : ∃ n, fuel = n + 1 := ⟨fuel - 1, by omega⟩
    have hrest := @ih hlines fuel (by omega)
    rw [List.flatMap_cons, List.append_assoc, List.append_assoc, List.cons_append,
      List.singleton_append, receive, Crlf.split_line (split_stuff hline)]
    dsimp only
    rw [if_neg (stuff_ne_dot line), hrest, unstuff_stuff]
    simp

/-- What is sent as lines is received as those lines, and nothing of what follows the dot. -/
theorem received_lines (whole : ∀ line ∈ lines, Crlf.split line = none) (rest : List UInt8) :
    received ((lines.flatMap fun line => stuff line ++ [13, 10]) ++ 46 :: 13 :: 10 :: rest) =
      some (lines.flatMap fun line => line ++ [13, 10], rest) := by
  apply receive_lines whole
  have hlength : ∀ lines : List (List UInt8),
      lines.length ≤ (lines.flatMap fun line => stuff line ++ [13, 10]).length := by
    intro lines
    induction lines with
    | nil => exact Nat.le_refl _
    | cons line lines ih =>
      simp only [List.flatMap_cons, List.length_append, List.length_cons]
      omega
  have hle := hlength lines
  rw [List.length_append]
  omega

end Mailo.Library.Dotted
