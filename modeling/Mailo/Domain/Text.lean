import Mailo.Library.Lists

/-!
# The string operations the rules use

Texts are read as their characters. The Unicode classes are the White_Space property and the
control characters; case is folded for ASCII letters only, as every comparison of ids, subjects
and folder names does.
-/

namespace Mailo.Domain.Text

def isWhitespace (c : Char) : Bool :=
  let n := c.toNat
  (9 ≤ n && n ≤ 13) || n == 0x20 || n == 0x85 || n == 0xA0 || n == 0x1680 ||
    (0x2000 ≤ n && n ≤ 0x200A) || n == 0x2028 || n == 0x2029 || n == 0x202F || n == 0x205F ||
    n == 0x3000

def isControl (c : Char) : Bool :=
  c.toNat < 0x20 || (0x7F ≤ c.toNat && c.toNat < 0xA0)

def isAsciiDigit (c : Char) : Bool := '0' ≤ c && c ≤ '9'

def trimStart (text : List Char) : List Char := text.dropWhile isWhitespace

def trimEnd (text : List Char) : List Char := (text.reverse.dropWhile isWhitespace).reverse

def trim (text : List Char) : List Char := trimEnd (trimStart text)

def toAsciiLowercase (text : List Char) : List Char := text.map Char.toLower

def eqIgnoreAsciiCase (a b : List Char) : Bool := toAsciiLowercase a == toAsciiLowercase b

/-- The maximal runs of characters that are not white space, `word` the run being read. -/
def splitWhitespaceFrom (word : List Char) : List Char → List (List Char)
  | [] => if word.isEmpty then [] else [word]
  | c :: rest =>
    if isWhitespace c then
      if word.isEmpty then splitWhitespaceFrom [] rest
      else word :: splitWhitespaceFrom [] rest
    else splitWhitespaceFrom (word ++ [c]) rest

def splitWhitespace (text : List Char) : List (List Char) := splitWhitespaceFrom [] text

def joinWords : List (List Char) → List Char
  | [] => []
  | [word] => word
  | word :: rest => word ++ ' ' :: joinWords rest

def splitOnce (sep : Char) : List Char → Option (List Char × List Char)
  | [] => none
  | c :: rest =>
    if c = sep then some ([], rest)
    else (splitOnce sep rest).map fun cut => (c :: cut.1, cut.2)

def stripPrefix : (lead text : List Char) → Option (List Char)
  | [], text => some text
  | _ :: _, [] => none
  | a :: lead, b :: text => if a = b then stripPrefix lead text else none

/-- Decimal digits, `acc` the value of those before them. -/
def digits (acc : Nat) : List Char → Option Nat
  | [] => some acc
  | c :: rest => if isAsciiDigit c then digits (acc * 10 + (c.toNat - 48)) rest else none

def parseUnsigned (bound : Nat) (text : List Char) : Option Nat :=
  let unsigned := (stripPrefix ['+'] text).getD text
  if unsigned.isEmpty then none
  else (digits 0 unsigned).filter fun value => decide (value < bound)

theorem stripPrefix_append (lead text : List Char) :
    stripPrefix lead (lead ++ text) = some text := by
  induction lead with
  | nil => rfl
  | cons c lead ih => simp [stripPrefix, ih]

variable {c : Char} {text : List Char}

theorem mem_dropWhile {p : Char → Bool} (h : c ∈ text.dropWhile p) : c ∈ text :=
  (List.dropWhile_sublist p).subset h

theorem mem_trim (h : c ∈ trim text) : c ∈ text := by
  rw [trim, trimEnd, List.mem_reverse] at h
  exact mem_dropWhile (List.mem_reverse.mp (mem_dropWhile h))

section Cut

variable {sep : Char} {a b : List Char}

theorem splitOnce_stop (h : sep ∉ a) (b : List Char) :
    splitOnce sep (a ++ sep :: b) = some (a, b) := by
  induction a with
  | nil => simp [splitOnce]
  | cons c a ih =>
    rw [List.mem_cons, not_or] at h
    rw [List.cons_append, splitOnce, if_neg (Ne.symm h.1), ih h.2]
    rfl

theorem splitOnce_none (h : sep ∉ a) : splitOnce sep a = none := by
  induction a with
  | nil => rfl
  | cons c a ih =>
    rw [List.mem_cons, not_or] at h
    rw [splitOnce, if_neg (Ne.symm h.1), ih h.2]
    rfl

theorem of_splitOnce (h : splitOnce sep text = some (a, b)) : text = a ++ sep :: b ∧ sep ∉ a := by
  induction text generalizing a with
  | nil => cases h
  | cons c text ih =>
    rw [splitOnce] at h
    split at h
    · rename_i hc
      cases h
      simp [hc]
    · rename_i hc
      rcases Option.map_eq_some_iff.mp h with ⟨⟨a', b'⟩, hcut, heq⟩
      cases heq
      rcases ih hcut with ⟨rfl, hno⟩
      exact ⟨rfl, by simp [hno, Ne.symm hc]⟩

theorem of_splitOnce_none (h : splitOnce sep text = none) : sep ∉ text := by
  intro hmem
  obtain ⟨a, b, rfl, hno⟩ := List.eq_append_cons_of_mem hmem
  rw [splitOnce_stop hno] at h
  cases h

end Cut

end Mailo.Domain.Text
