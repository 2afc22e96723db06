import Mailo.Domain.Text

/-!
# Words and numbers as they are written

Words set apart by one space are read back one by one, and a number in decimal is read as itself.
-/

namespace Mailo.Domain.Text

/-! ## Words -/

/-- Text with no white space in it, and some. -/
structure Solid (word : List Char) : Prop where
  some : word ≠ []
  solid : ∀ c ∈ word, isWhitespace c = false

theorem space_isWhitespace : isWhitespace ' ' = true := rfl

variable {word text : List Char} {words : List (List Char)} {c : Char} {n : Nat}

theorem splitWhitespaceFrom_solid (h : ∀ c ∈ word, isWhitespace c = false)
    (before rest : List Char) :
    splitWhitespaceFrom before (word ++ rest) = splitWhitespaceFrom (before ++ word) rest := by
  induction word generalizing before with
  | nil => rw [List.nil_append, List.append_nil]
  | cons c word ih =>
    have hc := h c (.head _)
    rw [List.cons_append, splitWhitespaceFrom, if_neg (Bool.eq_false_iff.mp hc),
      ih (fun d hd => h d (.tail _ hd)), List.append_assoc]
    rfl

/-- Each word after a space. -/
def spaced (words : List (List Char)) : List Char := words.flatMap fun word => ' ' :: word

theorem splitWhitespaceFrom_spaced (h : ∀ word ∈ words, Solid word) (before : List Char) :
    splitWhitespaceFrom before (spaced words) =
      (if before.isEmpty then [] else [before]) ++ words := by
  induction words generalizing before with
  | nil =>
    rw [List.append_nil]
    rfl
  | cons word words ih =>
    have hword := h word (.head _)
    have hrest := ih (fun other hother => h other (.tail _ hother)) word
    have hsome : word.isEmpty = false := List.isEmpty_eq_false_iff.mpr hword.some
    have hread : splitWhitespaceFrom [] (word ++ spaced words) = word :: words := by
      rw [splitWhitespaceFrom_solid hword.solid, List.nil_append, hrest, hsome]
      rfl
    change splitWhitespaceFrom before (' ' :: (word ++ spaced words)) = _
    rw [splitWhitespaceFrom, if_pos space_isWhitespace, hread]
    split <;> rfl

theorem splitWhitespace_spaced (h : ∀ word ∈ words, Solid word) :
    splitWhitespace (spaced words) = words := splitWhitespaceFrom_spaced h []

theorem splitWhitespace_cons (hword : Solid word) (h : ∀ word ∈ words, Solid word) :
    splitWhitespace (word ++ spaced words) = word :: words := by
  have hsome : word.isEmpty = false := List.isEmpty_eq_false_iff.mpr hword.some
  rw [splitWhitespace, splitWhitespaceFrom_solid hword.solid, List.nil_append,
    splitWhitespaceFrom_spaced h, hsome]
  rfl

/-- What is spaced ends in its last word. -/
theorem getLast?_spaced (h : ∀ word ∈ words, Solid word) (hc : (spaced words).getLast? = some c) :
    isWhitespace c = false := by
  induction words with
  | nil => cases hc
  | cons word words ih =>
    have hword := h word (.head _)
    have hspaced : spaced (word :: words) = (' ' :: word) ++ spaced words := rfl
    rw [hspaced, List.getLast?_append] at hc
    cases hlast : (spaced words).getLast? with
    | some d =>
      rw [hlast, Option.some_or] at hc
      exact ih (fun other hother => h other (.tail _ hother))
        (hlast.trans hc)
    | none =>
      rw [hlast, Option.none_or, List.getLast?_cons_of_ne_nil hword.some] at hc
      exact hword.solid c (List.mem_of_getLast? hc)

/-- Text that begins and ends with something is trimmed to itself. -/
theorem trim_eq (hfirst : ∀ c, text.head? = some c → isWhitespace c = false)
    (hlast : ∀ c, text.getLast? = some c → isWhitespace c = false) : trim text = text := by
  have hstart : trimStart text = text := by
    cases text with
    | nil => rfl
    | cons c text =>
      rw [trimStart, List.dropWhile_cons, if_neg (Bool.eq_false_iff.mp (hfirst c rfl))]
  have hend : trimEnd text = text := by
    rw [trimEnd]
    cases hreverse : text.reverse with
    | nil =>
      rw [List.reverse_eq_nil_iff.mp hreverse]
      rfl
    | cons c rest =>
      have hc : text.getLast? = some c := by
        rw [List.getLast?_eq_head?_reverse, hreverse]
        rfl
      rw [List.dropWhile_cons, if_neg (Bool.eq_false_iff.mp (hlast c hc)), ← hreverse,
        List.reverse_reverse]
  rw [trim, hstart, hend]

/-- A lead as long as what a text begins with is stripped where it is just that. -/
theorem stripPrefix_same_length {lead : List Char} (hlength : text.length = lead.length)
    (rest : List Char) :
    stripPrefix lead (text ++ rest) = if text = lead then some rest else none := by
  induction lead generalizing text with
  | nil =>
    rw [List.length_eq_zero_iff.mp hlength]
    rfl
  | cons c lead ih =>
    cases text with
    | nil => cases hlength
    | cons d text =>
      rw [List.cons_append, stripPrefix, ih (Nat.succ.inj hlength)]
      by_cases hc : c = d
      · rw [if_pos hc, hc]
        simp
      · rw [if_neg hc, if_neg fun h => hc (List.cons.inj h).1.symm]

theorem toLower_whitespace (h : isWhitespace c = true) : c.toLower = c := by
  have hnot : ¬(c.val ≥ 'A'.val ∧ c.val ≤ 'Z'.val) := by
    rintro ⟨hlow, hhigh⟩
    have hfrom : 65 ≤ c.toNat := UInt32.le_iff_toNat_le.mp hlow
    have hto : c.toNat ≤ 90 := UInt32.le_iff_toNat_le.mp hhigh
    simp only [isWhitespace, Bool.or_eq_true, Bool.and_eq_true, decide_eq_true_eq,
      beq_iff_eq] at h
    omega
  exact dif_neg hnot

/-- A character that is no small letter is only itself in small letters. -/
theorem eq_of_toLower {d : Char} (h : c.toLower = d) (hnot : ¬(97 ≤ d.toNat ∧ d.toNat ≤ 122)) :
    c = d := by
  delta Char.toLower at h
  split at h
  · rename_i hupper
    have hfrom : 65 ≤ c.val.toNat := UInt32.le_iff_toNat_le.mp hupper.1
    have hto : c.val.toNat ≤ 90 := UInt32.le_iff_toNat_le.mp hupper.2
    have hval : d.toNat = (c.val + 32).toNat := by rw [← h]; rfl
    rw [UInt32.toNat_add] at hval
    have hthirty : (32 : UInt32).toNat = 32 := rfl
    rw [hthirty] at hval
    omega
  · exact h

variable {name : List Char} {bound : Nat}

/-- A word in either case is a word. -/
theorem solid_of_eqIgnoreAsciiCase (h : eqIgnoreAsciiCase word name = true)
    (hname : ∀ c ∈ name, isWhitespace c.toLower = false) (hc : c ∈ word) :
    isWhitespace c = false := by
  rw [eqIgnoreAsciiCase, beq_iff_eq] at h
  have hlower : c.toLower ∈ toAsciiLowercase name := h ▸ List.mem_map_of_mem hc
  obtain ⟨d, hd, heq⟩ := List.mem_map.mp hlower
  have hsame := hname d hd
  rw [heq] at hsame
  cases hspace : isWhitespace c with
  | false => rfl
  | true =>
    rw [toLower_whitespace hspace, hspace] at hsame
    cases hsame

theorem length_of_eqIgnoreAsciiCase (h : eqIgnoreAsciiCase word name = true) :
    word.length = name.length := by
  rw [eqIgnoreAsciiCase, beq_iff_eq] at h
  have := congrArg List.length h
  rwa [toAsciiLowercase, toAsciiLowercase, List.length_map, List.length_map] at this

theorem digit_range (h : c ∈ Nat.toDigits 10 n) :
    48 ≤ c.toNat ∧ c.toNat ≤ 57 := by
  have hdigit := Nat.isDigit_of_mem_toDigits (by decide) (by decide) h
  rw [Char.isDigit, Bool.and_eq_true, decide_eq_true_eq, decide_eq_true_eq] at hdigit
  exact hdigit

theorem digits_ofDigitChars (h : ∀ c ∈ text, 48 ≤ c.toNat ∧ c.toNat ≤ 57) (acc : Nat) :
    digits acc text = some (Nat.ofDigitChars 10 text acc) := by
  induction text generalizing acc with
  | nil => rw [digits, Nat.ofDigitChars_nil]
  | cons c text ih =>
    have hc : isAsciiDigit c = true := by
      rw [isAsciiDigit, Bool.and_eq_true, decide_eq_true_eq, decide_eq_true_eq]
      exact h c (.head _)
    rw [digits, if_pos hc, ih (fun d hd => h d (.tail _ hd)),
      Nat.ofDigitChars_cons, Nat.mul_comm acc 10]
    rfl

theorem digits_toDigits (n : Nat) : digits 0 (Nat.toDigits 10 n) = some n := by
  rw [digits_ofDigitChars fun c hc => digit_range hc, Nat.ofDigitChars_ten_toDigits]

theorem toDigits_ne_nil (n : Nat) : Nat.toDigits 10 n ≠ [] := by
  intro h
  have := Nat.length_toDigits_pos (b := 10) (n := n)
  rw [h] at this
  exact absurd this (Nat.lt_irrefl 0)

/-- A number in decimal is read as itself where it is below the bound. -/
theorem parseUnsigned_toDigits (h : n < bound) :
    parseUnsigned bound (Nat.toDigits 10 n) = some n := by
  have hplus : stripPrefix ['+'] (Nat.toDigits 10 n) = none := by
    cases htext : Nat.toDigits 10 n with
    | nil => rfl
    | cons c rest =>
      have hc := digit_range (htext ▸ (.head _) : c ∈ Nat.toDigits 10 n)
      have hne : '+' ≠ c := by
        rintro rfl
        exact absurd hc.1 (by decide)
      rw [stripPrefix, if_neg hne]
  have hsome : (Nat.toDigits 10 n).isEmpty = false :=
    List.isEmpty_eq_false_iff.mpr (toDigits_ne_nil n)
  rw [parseUnsigned, hplus, Option.getD_none, hsome, digits_toDigits]
  simp [h]

theorem solid_toDigits (n : Nat) : Solid (Nat.toDigits 10 n) where
  some := toDigits_ne_nil n
  solid c hc := by
    have hrange := digit_range hc
    simp [isWhitespace]
    omega

theorem parseUnsigned_lt (h : parseUnsigned bound text = some n) : n < bound := by
  rw [parseUnsigned] at h
  split at h
  · cases h
  · exact of_decide_eq_true (Option.filter_eq_some_iff.mp h).2

theorem digits_none (hc : c ∈ text) (hnot : isAsciiDigit c = false) (acc : Nat) :
    digits acc text = none := by
  induction text generalizing acc with
  | nil => cases hc
  | cons d text ih =>
    rw [digits]
    split
    · rename_i hd
      rcases List.mem_cons.mp hc with rfl | hrest
      · rw [hnot] at hd
        cases hd
      · exact ih hrest _
    · rfl

theorem parseUnsigned_none (bound : Nat) (hc : c ∈ text) (hnot : isAsciiDigit c = false)
    (hplus : c ≠ '+') : parseUnsigned bound text = none := by
  have hin : c ∈ (stripPrefix ['+'] text).getD text := by
    cases hstrip : stripPrefix ['+'] text with
    | none => exact hc
    | some rest =>
      cases text with
      | nil => cases hc
      | cons d text =>
        rw [stripPrefix] at hstrip
        split at hstrip
        · rename_i heq
          cases hstrip
          exact (List.mem_cons.mp hc).resolve_left fun h => hplus (h.trans heq.symm)
        · cases hstrip
  rw [parseUnsigned]
  split
  · rfl
  · rw [digits_none hin hnot]
    rfl

end Mailo.Domain.Text
