import Mathlib.Data.List.DropRight
import Mailo.Domain.Text

/-!
# Trimmed text and text in one case

White space taken from both ends is all that trimming takes, and text without any there is left
as it is. A change of ASCII case touches letters only.
-/

namespace Mailo.Domain.Text

theorem trimEnd_eq (text : List Char) : trimEnd text = text.rdropWhile isWhitespace := rfl

/-- What trimming takes away is white space, on either side. -/
theorem trim_parts (text : List Char) :
    ∃ before after, text = before ++ trim text ++ after ∧
      (∀ c ∈ before, isWhitespace c = true) ∧ ∀ c ∈ after, isWhitespace c = true := by
  refine ⟨text.takeWhile isWhitespace, (trimStart text).rtakeWhile isWhitespace, ?_, ?_, ?_⟩
  · rw [List.append_assoc, trim, trimEnd_eq, List.rdropWhile_append_rtakeWhile, trimStart,
      List.takeWhile_append_dropWhile]
  · exact fun c hc => List.mem_takeWhile_imp hc
  · exact fun c hc => List.mem_rtakeWhile_imp hc

theorem trim_head {text : List Char} {c : Char} (h : (trim text).head? = some c) :
    isWhitespace c = false := by
  have hpre : trim text <+: trimStart text := List.rdropWhile_prefix isWhitespace _
  rcases hpre with ⟨more, hmore⟩
  have hhead : (text.dropWhile isWhitespace).head? = some c := by
    rw [trimStart] at hmore
    rw [← hmore, List.head?_append, h]
    rfl
  have hnot := List.head?_dropWhile_not isWhitespace text
  rw [hhead] at hnot
  exact hnot

theorem trim_last {text : List Char} {c : Char} (h : (trim text).getLast? = some c) :
    isWhitespace c = false := by
  obtain ⟨init, hinit⟩ := List.getLast?_eq_some_iff.mp h
  have hne : (trimStart text).rdropWhile isWhitespace ≠ [] := by
    rw [← trimEnd_eq]
    show trim text ≠ []
    rw [hinit]
    simp
  have hnot := List.rdropWhile_last_not isWhitespace (trimStart text) hne
  have hlast : ((trimStart text).rdropWhile isWhitespace).getLast hne = c := by
    have heq : (trimStart text).rdropWhile isWhitespace = init ++ [c] := hinit
    simp [heq]
  rw [hlast] at hnot
  simpa using hnot

variable {text : List Char} {d c : Char}

/-- Text with no white space at either end is not trimmed. -/
theorem trim_eq_self (hhead : ∀ c, text.head? = some c → isWhitespace c = false)
    (hlast : ∀ c, text.getLast? = some c → isWhitespace c = false) : trim text = text := by
  have hstart : trimStart text = text := by
    cases text with
    | nil => rfl
    | cons c text =>
      rw [trimStart, List.dropWhile_cons_of_neg]
      simp [hhead c rfl]
  rw [trim, hstart, trimEnd_eq, List.rdropWhile_eq_self_iff]
  intro hne
  rw [hlast _ (List.getLast?_eq_some_getLast hne)]
  simp

@[simp] theorem trim_trim (text : List Char) : trim (trim text) = trim text :=
  trim_eq_self (fun _ h => trim_head h) fun _ h => trim_last h

/-! ## ASCII case -/

def isCaseless (c : Char) : Bool :=
  !((65 ≤ c.toNat && c.toNat ≤ 90) || (97 ≤ c.toNat && c.toNat ≤ 122))

theorem toUpper_cases (c : Char) :
    (97 ≤ c.toNat ∧ c.toNat ≤ 122 ∧ c.toUpper.toNat = c.toNat - 32) ∨
      ((c.toNat < 97 ∨ 122 < c.toNat) ∧ c.toUpper = c) := by
  unfold Char.toUpper
  split
  · rename_i h
    have h1 : 97 ≤ c.toNat := h.1
    have h2 : c.toNat ≤ 122 := h.2
    refine Or.inl ⟨h1, h2, ?_⟩
    show (c.val + ('A'.val - 'a'.val)).toNat = c.val.toNat - 32
    have hv : c.val.toNat = c.toNat := rfl
    have hd : ('A'.val - 'a'.val).toNat = 2 ^ 32 - 32 := by decide
    rw [UInt32.toNat_add, hd, hv]
    omega
  · rename_i h
    refine Or.inr ⟨?_, rfl⟩
    have hnot : ¬ (97 ≤ c.toNat ∧ c.toNat ≤ 122) := h
    omega

theorem toLower_cases (c : Char) :
    (65 ≤ c.toNat ∧ c.toNat ≤ 90 ∧ c.toLower.toNat = c.toNat + 32) ∨
      ((c.toNat < 65 ∨ 90 < c.toNat) ∧ c.toLower = c) := by
  delta Char.toLower
  split
  · rename_i h
    have h1 : 65 ≤ c.toNat := h.1
    have h2 : c.toNat ≤ 90 := h.2
    refine Or.inl ⟨h1, h2, ?_⟩
    show (c.val + ('a'.val - 'A'.val)).toNat = c.val.toNat + 32
    have hv : c.val.toNat = c.toNat := rfl
    have hd : ('a'.val - 'A'.val).toNat = 32 := by decide
    rw [UInt32.toNat_add, hd, hv]
    omega
  · rename_i h
    refine Or.inr ⟨?_, rfl⟩
    have hnot : ¬ (65 ≤ c.toNat ∧ c.toNat ≤ 90) := h
    omega

theorem toUpper_toUpper (c : Char) : c.toUpper.toUpper = c.toUpper := by
  rcases toUpper_cases c with ⟨h1, h2, h3⟩ | ⟨_, h⟩
  · rcases toUpper_cases c.toUpper with ⟨h4, _⟩ | ⟨_, h⟩
    · omega
    · exact h
  · rw [h, h]

theorem toUpper_toLower (c : Char) : c.toLower.toUpper = c.toUpper := by
  rcases toLower_cases c with ⟨h1, h2, h3⟩ | ⟨_, h⟩
  · apply Char.toNat_inj.mp
    rcases toUpper_cases c.toLower with ⟨_, _, h4⟩ | ⟨h4, _⟩
    · rcases toUpper_cases c with ⟨h5, _⟩ | ⟨_, h5⟩
      · omega
      · rw [h5]
        omega
    · omega
  · rw [h]

theorem toLower_toLower (c : Char) : c.toLower.toLower = c.toLower := by
  rcases toLower_cases c with ⟨h1, h2, h3⟩ | ⟨_, h⟩
  · rcases toLower_cases c.toLower with ⟨_, h4, _⟩ | ⟨_, h⟩
    · omega
    · exact h
  · rw [h, h]

/-- A character that is no letter comes from itself alone. -/
theorem toUpper_eq_iff (hd : isCaseless d = true) (c : Char) :
    c.toUpper = d ↔ c = d := by
  have hd' : (d.toNat < 65 ∨ 90 < d.toNat) ∧ (d.toNat < 97 ∨ 122 < d.toNat) := by
    simp only [isCaseless, Bool.not_eq_true', Bool.or_eq_false_iff, Bool.and_eq_false_iff,
      decide_eq_false_iff_not] at hd
    omega
  rcases toUpper_cases c with ⟨h1, h2, h3⟩ | ⟨_, h⟩
  · constructor
    · rintro rfl
      omega
    · rintro rfl
      omega
  · rw [h]

theorem toLower_eq_iff (hd : isCaseless d = true) (c : Char) :
    c.toLower = d ↔ c = d := by
  have hd' : (d.toNat < 65 ∨ 90 < d.toNat) ∧ (d.toNat < 97 ∨ 122 < d.toNat) := by
    simp only [isCaseless, Bool.not_eq_true', Bool.or_eq_false_iff, Bool.and_eq_false_iff,
      decide_eq_false_iff_not] at hd
    omega
  rcases toLower_cases c with ⟨h1, h2, h3⟩ | ⟨_, h⟩
  · constructor
    · rintro rfl
      omega
    · rintro rfl
      omega
  · rw [h]

theorem isWhitespace_letter (h1 : 65 ≤ c.toNat) (h2 : c.toNat ≤ 122) :
    isWhitespace c = false := by
  simp only [isWhitespace, Bool.or_eq_false_iff, Bool.and_eq_false_iff, decide_eq_false_iff_not,
    beq_eq_false_iff_ne]
  omega

theorem toUpper_isWhitespace (c : Char) : isWhitespace c.toUpper = isWhitespace c := by
  rcases toUpper_cases c with ⟨h1, h2, h3⟩ | ⟨_, h⟩
  · rw [isWhitespace_letter (by omega) (by omega), isWhitespace_letter (by omega) h2]
  · rw [h]

theorem toLower_isWhitespace (c : Char) : isWhitespace c.toLower = isWhitespace c := by
  rcases toLower_cases c with ⟨h1, h2, h3⟩ | ⟨_, h⟩
  · rw [isWhitespace_letter (by omega) (by omega), isWhitespace_letter h1 (by omega)]
  · rw [h]

theorem trim_map_toUpper (text : List Char) :
    trim (text.map Char.toUpper) = (trim text).map Char.toUpper := by
  have hcomp : isWhitespace ∘ Char.toUpper = isWhitespace := funext toUpper_isWhitespace
  simp only [trim, trimEnd, trimStart, List.dropWhile_map, ← List.map_reverse, hcomp]

theorem trim_toAsciiLowercase (text : List Char) :
    trim (toAsciiLowercase text) = toAsciiLowercase (trim text) := by
  have hcomp : isWhitespace ∘ Char.toLower = isWhitespace := funext toLower_isWhitespace
  simp only [toAsciiLowercase, trim, trimEnd, trimStart, List.dropWhile_map, ← List.map_reverse,
    hcomp]

theorem lower_lower (text : List Char) :
    toAsciiLowercase (toAsciiLowercase text) = toAsciiLowercase text := by
  have hcomp : Char.toLower ∘ Char.toLower = Char.toLower := funext toLower_toLower
  rw [toAsciiLowercase, toAsciiLowercase, List.map_map, hcomp]

/-- A character that has no case is in a text in small letters only if it was in the text. -/
theorem mem_lower (hc : isCaseless c = true) (h : c ∈ toAsciiLowercase text) : c ∈ text := by
  rcases List.mem_map.mp h with ⟨d, hd, hlow⟩
  rw [← (toLower_eq_iff hc d).mp hlow]
  exact hd

/-- Two texts in capitals that differ in case at most are one text. -/
theorem eq_of_eqIgnoreAsciiCase {a b : List Char} (ha : a.map Char.toUpper = a)
    (hb : b.map Char.toUpper = b) (h : eqIgnoreAsciiCase a b = true) : a = b := by
  simp only [eqIgnoreAsciiCase, toAsciiLowercase, beq_iff_eq] at h
  have hup := congrArg (List.map Char.toUpper) h
  simp only [List.map_map] at hup
  have hcomp : Char.toUpper ∘ Char.toLower = Char.toUpper := funext toUpper_toLower
  rw [hcomp, ha, hb] at hup
  exact hup

/-- A piece of a text cut at a character is of the text's other characters. -/
theorem mem_splitOn {sep : Char} {part : List Char} (h : part ∈ text.splitOn sep) :
    sep ∉ part ∧ ∀ c ∈ part, c ∈ text := by
  induction text generalizing part with
  | nil =>
    simp at h
    simp [h]
  | cons d text ih =>
    rw [List.splitOn_cons_eq_if_modifyHead] at h
    split at h
    · rcases List.mem_cons.mp h with rfl | h
      · simp
      · exact ⟨(ih h).1, fun c hc => .tail _ ((ih h).2 c hc)⟩
    · rename_i hd
      cases hsplit : text.splitOn sep with
      | nil => exact absurd hsplit (List.splitOn_ne_nil _ _)
      | cons first rest =>
        rw [hsplit, List.modifyHead_cons] at h
        rcases List.mem_cons.mp h with rfl | h
        · have hfirst := ih (by rw [hsplit]; exact .head _)
          constructor
          · rw [List.mem_cons, not_or]
            exact ⟨fun heq => hd (by simp [heq]), hfirst.1⟩
          · intro c hc
            rcases List.mem_cons.mp hc with rfl | hc
            · exact .head _
            · exact .tail _ (hfirst.2 c hc)
        · have hrest := ih (by rw [hsplit]; exact .tail _ h)
          exact ⟨hrest.1, fun c hc => .tail _ (hrest.2 c hc)⟩

end Mailo.Domain.Text
