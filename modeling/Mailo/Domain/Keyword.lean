import Mathlib.Data.List.Chain
import Mailo.Domain.State
import Mailo.Domain.Trimming

/-!
# Labels as keywords

On a server without labels of its own a label is written as a keyword: an atom made of its name. A
keyword is read back as a label where it is one this client could have written.
-/

namespace Mailo.Domain

def Hue.asStr : Hue → String
  | red => "red"
  | orange => "orange"
  | yellow => "yellow"
  | green => "green"
  | blue => "blue"
  | purple => "purple"
  | gray => "gray"

def flagBitKeywords : List String := ["$MailFlagBit0", "$MailFlagBit1", "$MailFlagBit2"]

def Hue.flagBits : Hue → Nat
  | red => 0
  | orange => 1
  | yellow => 2
  | green => 3
  | blue => 4
  | purple => 5
  | gray => 6

def Hue.fromFlagBits : Nat → Hue
  | 1 => orange
  | 2 => yellow
  | 3 => green
  | 4 => blue
  | 5 => purple
  | 6 => gray
  | _ => red

def Hue.fromKeywords (keywords : List String) : Hue :=
  Hue.fromFlagBits ((flagBitKeywords.zipIdx.filter fun bit =>
    keywords.any fun keyword => Text.eqIgnoreAsciiCase keyword.toList bit.1.toList).foldl
      (fun bits bit => bits ||| (1 <<< bit.2)) 0)

def Hue.flagKeywords (hue : Hue) : List String × List String :=
  let (set, clear) := flagBitKeywords.zipIdx.partition fun bit => hue.flagBits.testBit bit.2
  (set.map Prod.fst, clear.map Prod.fst)

/-- Thunderbird's built-in tags: the keyword, the name it shows and the colour it draws. -/
def thunderbirdTags : List (String × String × Hue) :=
  [("$label1", "Important", .red), ("$label2", "Work", .orange), ("$label3", "Personal", .green),
    ("$label4", "To Do", .blue), ("$label5", "Later", .purple)]

def reserved : List String := ["Junk", "NonJunk", "NotJunk", "JunkRecorded", "Forwarded"]

def keepOne (atom : List Char) (c : Char) : List Char :=
  if c.isAlphanum || c = '-' || c = '.' then atom ++ [c]
  else if atom.getLast? = some '_' then atom
  else atom ++ ['_']

/-- Every run of characters an atom does not keep becomes one underscore. -/
def atomOf (name : List Char) : List Char := name.foldl keepOne []

def trimUnderscores (text : List Char) : List Char :=
  ((text.dropWhile (· = '_')).reverse.dropWhile (· = '_')).reverse

/-- The keyword a label is written to the server as, `none` when its name makes none. -/
def labelKeyword (name : String) : Option String :=
  let trimmed := Text.trim name.toList
  match thunderbirdTags.find? fun tag => Text.eqIgnoreAsciiCase tag.2.1.toList trimmed with
  | some tag => some tag.1
  | none =>
    let atom := trimUnderscores (atomOf trimmed)
    let hasWord := atom.any Char.isAlphanum
    let isReserved := reserved.any fun word => Text.eqIgnoreAsciiCase word.toList atom
    if hasWord && !isReserved then some (String.ofList atom) else none

example : labelKeyword "  a  (b)  " = some "a_b" := by decide

example : labelKeyword "junk" = none := by decide

/-- The label a keyword on a message stands for, with the colour of a built-in tag. -/
def keywordLabel (keyword : String) : Option (String × Option Hue) :=
  match thunderbirdTags.find? fun tag =>
    Text.eqIgnoreAsciiCase tag.1.toList keyword.toList with
  | some tag => some (tag.2.1, some tag.2.2)
  | none =>
    if keyword.toList.head? = some '$' ∨ keyword.toList.head? = some '\\' then none
    else if labelKeyword keyword = some keyword then some (keyword, none)
    else none

/-! ## What is written is read back -/

/-- The characters of an IMAP atom. -/
def isAtomChar (c : Char) : Bool :=
  0x20 < c.toNat && c.toNat < 0x7F && !"()\x7b%*\"\\]".toList.contains c

def isAtom (keyword : List Char) : Bool := !keyword.isEmpty && keyword.all isAtomChar

def isTagName (text : List Char) : Bool :=
  thunderbirdTags.any fun tag => Text.eqIgnoreAsciiCase tag.2.1.toList text

def isTagKeyword (text : List Char) : Bool :=
  thunderbirdTags.any fun tag => Text.eqIgnoreAsciiCase tag.1.toList text

def isKept (c : Char) : Bool := c.isAlphanum || c = '-' || c = '.'

/-- A name without its runs of other characters: one underscore for each within it. -/
def collapsed (name : String) : List Char := trimUnderscores (atomOf (Text.trim name.toList))

/-- Kept characters, with single underscores among them. -/
structure Single (text : List Char) : Prop where
  chars : ∀ c ∈ text, isKept c = true ∨ c = '_'
  apart : text.IsChain fun a b => ¬ (a = '_' ∧ b = '_')

theorem Single.part {text part : List Char} (h : Single text) (hpart : part <:+: text) :
    Single part :=
  ⟨fun c hc => h.chars c (hpart.subset hc), List.IsChain.infix h.apart hpart⟩

theorem atomOf_concat (text : List Char) (c : Char) :
    atomOf (text ++ [c]) = keepOne (atomOf text) c := by
  unfold atomOf
  rw [List.foldl_append]
  rfl

theorem Single.concat {text : List Char} {c : Char} (h : Single text)
    (hc : isKept c = true ∨ c = '_') (hapart : text.getLast? = some '_' → c ≠ '_') :
    Single (text ++ [c]) := by
  constructor
  · intro d hd
    rcases List.mem_append.mp hd with hd | hd
    · exact h.chars d hd
    · rw [List.mem_singleton.mp hd]
      exact hc
  · refine h.apart.append (List.isChain_singleton c) ?_
    rintro a ha b hb ⟨rfl, rfl⟩
    have heq : c = '_' := Option.some.inj hb
    exact hapart ha heq

theorem single_atomOf (text : List Char) : Single (atomOf text) := by
  induction text using List.reverseRecOn with
  | nil => exact ⟨by simp [atomOf], by simp [atomOf]⟩
  | append_singleton text c ih =>
    rw [atomOf_concat, keepOne]
    split
    · rename_i hkept
      refine ih.concat (.inl hkept) ?_
      rintro - rfl
      exact absurd hkept (by decide)
    · split
      · exact ih
      · rename_i hlast
        exact ih.concat (.inr rfl) fun h => absurd h hlast

theorem Single.atomOf_eq {text : List Char} (h : Single text) : atomOf text = text := by
  induction text using List.reverseRecOn with
  | nil => rfl
  | append_singleton text c ih =>
    rw [atomOf_concat, ih (h.part (List.prefix_append text [c]).isInfix), keepOne]
    split
    · rfl
    · rename_i hkept
      have hc : c = '_' := (h.chars c (by simp)).resolve_left hkept
      have hlast : text.getLast? ≠ some '_' := by
        intro hlast
        have hjoin := (List.isChain_append.mp h.apart).2.2 '_' hlast c (by simp)
        exact hjoin ⟨rfl, hc⟩
      rw [if_neg hlast, hc]

theorem trimUnderscores_isInfix (text : List Char) : trimUnderscores text <:+: text :=
  (List.rdropWhile_prefix (· = '_') _).isInfix.trans (List.dropWhile_suffix (· = '_')).isInfix

theorem trimUnderscores_trimmed (text : List Char) :
    trimUnderscores (trimUnderscores text) = trimUnderscores text := by
  have hstart : (trimUnderscores text).dropWhile (· = '_') = trimUnderscores text := by
    have hpre : trimUnderscores text <+: text.dropWhile (· = '_') := List.rdropWhile_prefix _ _
    cases hrest : trimUnderscores text with
    | nil => rfl
    | cons c rest =>
      rw [hrest] at hpre
      obtain ⟨more, hmore⟩ := hpre
      have hnot := List.head?_dropWhile_not (fun c => decide (c = '_')) text
      rw [← hmore] at hnot
      exact List.dropWhile_cons_of_neg (by simpa using hnot)
  unfold trimUnderscores at hstart ⊢
  rw [hstart]
  exact List.rdropWhile_idempotent (fun c => decide (c = '_')) _

theorem single_collapsed (name : String) : Single (collapsed name) :=
  (single_atomOf _).part (trimUnderscores_isInfix _)

theorem lt_of_isKept {c : Char} (h : isKept c = true ∨ c = '_') : c.toNat < 128 := by
  have hz : 'z'.val.toNat = 122 := rfl
  have hZ : 'Z'.val.toNat = 90 := rfl
  have hnine : '9'.val.toNat = 57 := rfl
  unfold isKept at h
  delta Char.isAlphanum Char.isAlpha Char.isUpper Char.isLower Char.isDigit at h
  simp only [ge_iff_le, UInt32.le_iff_toNat_le, Bool.or_eq_true, Bool.and_eq_true,
    decide_eq_true_eq] at h
  show c.val.toNat < 128
  rcases h with ((h | rfl) | rfl) | rfl
  · omega
  · decide
  · decide
  · decide

/-- The characters kept, and the underscore, are no white space and stand in an atom. -/
theorem plain_of_isKept {c : Char} (h : isKept c = true ∨ c = '_') :
    isAtomChar c = true ∧ Text.isWhitespace c = false ∧ c ≠ '$' ∧ c ≠ '\\' := by
  have hall : ∀ n < 128, isKept (Char.ofNat n) = true ∨ Char.ofNat n = '_' →
      isAtomChar (Char.ofNat n) = true ∧ Text.isWhitespace (Char.ofNat n) = false ∧
        Char.ofNat n ≠ '$' ∧ Char.ofNat n ≠ '\\' := by decide
  have hc := hall c.toNat (lt_of_isKept h)
  rw [Char.ofNat_toNat] at hc
  exact hc h

theorem isAlphanum_toLower (c : Char) : c.toLower.isAlphanum = c.isAlphanum := by
  have hall : ∀ n < 128, (Char.ofNat n).toLower.isAlphanum = (Char.ofNat n).isAlphanum := by
    decide
  by_cases hc : c.toNat < 128
  · rw [← Char.ofNat_toNat c]
    exact hall c.toNat hc
  · rcases Text.toLower_cases c with ⟨_, hle, _⟩ | ⟨_, heq⟩
    · omega
    · rw [heq]

/-- Whether an atom is a label's keyword: it has a letter or a digit, and no other meaning. -/
def isLabel (atom : List Char) : Bool :=
  atom.any Char.isAlphanum && !reserved.any fun word => Text.eqIgnoreAsciiCase word.toList atom

section Collapsed

variable {name : String}

theorem labelKeyword_eq (name : String) :
    labelKeyword name =
      match thunderbirdTags.find? fun tag =>
        Text.eqIgnoreAsciiCase tag.2.1.toList (Text.trim name.toList) with
      | some tag => some tag.1
      | none =>
        if isLabel (collapsed name) then some (String.ofList (collapsed name)) else none := rfl

theorem labelKeyword_tag (h : isTagName (Text.trim name.toList) = true) :
    ∃ tag ∈ thunderbirdTags, labelKeyword name = some tag.1 := by
  obtain ⟨tag, hfound⟩ := Option.isSome_iff_exists.mp (List.find?_isSome.mpr (List.any_eq_true.mp h))
  exact ⟨tag, List.mem_of_find?_eq_some hfound, by rw [labelKeyword_eq, hfound]⟩

theorem labelKeyword_plain (h : isTagName (Text.trim name.toList) = false) :
    labelKeyword name =
      if isLabel (collapsed name) then some (String.ofList (collapsed name)) else none := by
  have hnone : (thunderbirdTags.find? fun tag =>
      Text.eqIgnoreAsciiCase tag.2.1.toList (Text.trim name.toList)) = none := by
    simpa [isTagName] using h
  rw [labelKeyword_eq, hnone]

theorem trim_collapsed : Text.trim (collapsed name) = collapsed name := by
  have hplain : ∀ c ∈ collapsed name, Text.isWhitespace c = false := fun c hc =>
    (plain_of_isKept ((single_collapsed name).chars c hc)).2.1
  exact Text.trim_eq_self (fun c hc => hplain c (List.mem_of_mem_head? hc))
    fun c hc => hplain c (List.mem_of_getLast? hc)

theorem collapsed_again : collapsed (String.ofList (collapsed name)) = collapsed name := by
  rw [collapsed, String.toList_ofList, trim_collapsed, (single_collapsed name).atomOf_eq]
  exact trimUnderscores_trimmed _

/-- A keyword made of a name without a tag's is no tag's keyword, which begins with a dollar. -/
theorem isTagKeyword_collapsed : isTagKeyword (collapsed name) = false := by
  have hdollar : ∀ tag ∈ thunderbirdTags, '$' ∈ Text.toAsciiLowercase tag.1.toList := by decide
  by_contra htag
  obtain ⟨tag, hmem, heq⟩ := List.any_eq_true.mp (Bool.not_eq_false _ ▸ htag)
  have hin := hdollar tag hmem
  rw [Text.eqIgnoreAsciiCase, beq_iff_eq] at heq
  rw [heq] at hin
  have hc := Text.mem_lower (by decide) hin
  exact (plain_of_isKept ((single_collapsed name).chars '$' hc)).2.2.1 rfl

theorem isTagKeyword_tag : ∀ tag ∈ thunderbirdTags, isTagKeyword tag.1.toList = true := by decide

theorem keywordLabel_collapsed :
    keywordLabel (String.ofList (collapsed name)) =
      if isTagName (collapsed name) = false ∧ isLabel (collapsed name) = true then
        some (String.ofList (collapsed name), none) else none := by
  have hnone : (thunderbirdTags.find? fun tag =>
      Text.eqIgnoreAsciiCase tag.1.toList (String.ofList (collapsed name)).toList) = none := by
    simpa [isTagKeyword] using @isTagKeyword_collapsed name
  have hhead : ∀ c, (collapsed name).head? = some c → c ≠ '$' ∧ c ≠ '\\' := fun c hc =>
    (plain_of_isKept ((single_collapsed name).chars c (List.mem_of_mem_head? hc))).2.2
  rw [keywordLabel, hnone, String.toList_ofList]
  dsimp only
  rw [if_neg (by rintro (h | h) <;> simpa using hhead _ h)]
  cases htag : isTagName (collapsed name) with
  | true =>
    -- The name of a tag is written as the tag's keyword, never as itself.
    obtain ⟨tag, hmem, hwritten⟩ := @labelKeyword_tag (String.ofList (collapsed name))
      (by rwa [String.toList_ofList, trim_collapsed])
    have hne : tag.1 ≠ String.ofList (collapsed name) := by
      intro heq
      have hkeyword := isTagKeyword_tag tag hmem
      rw [heq, String.toList_ofList, isTagKeyword_collapsed] at hkeyword
      cases hkeyword
    simp [hwritten, hne]
  | false =>
    have hwritten := @labelKeyword_plain (String.ofList (collapsed name))
      (by rwa [String.toList_ofList, trim_collapsed])
    rw [hwritten, collapsed_again]
    cases hlabel : isLabel (collapsed name) <;> simp

theorem isAtom_collapsed (h : isLabel (collapsed name) = true) :
    isAtom (collapsed name) = true := by
  have hall : (collapsed name).all isAtomChar = true := List.all_eq_true.mpr fun c hc =>
    (plain_of_isKept ((single_collapsed name).chars c hc)).1
  cases hatom : collapsed name with
  | nil =>
    rw [hatom] at h
    cases h
  | cons c rest => rw [isAtom, ← hatom, hall, hatom]; rfl

/-- The name of a tag has letters in it, and is none of the reserved words. -/
theorem isLabel_of_isTagName {atom : List Char} (h : isTagName atom = true) :
    isLabel atom = true := by
  have hword : ∀ tag ∈ thunderbirdTags,
      (Text.toAsciiLowercase tag.2.1.toList).any Char.isAlphanum = true := by decide
  have hfree : ∀ tag ∈ thunderbirdTags, ∀ word ∈ reserved,
      Text.toAsciiLowercase word.toList ≠ Text.toAsciiLowercase tag.2.1.toList := by decide
  obtain ⟨tag, hmem, heq⟩ := List.any_eq_true.mp h
  rw [Text.eqIgnoreAsciiCase, beq_iff_eq] at heq
  rw [isLabel, Bool.and_eq_true, Bool.not_eq_true', List.any_eq_false]
  constructor
  · have hany := hword tag hmem
    rw [heq, Text.toAsciiLowercase, List.any_map] at hany
    simpa [Function.comp_def, isAlphanum_toLower] using hany
  · intro word hmore
    rw [Text.eqIgnoreAsciiCase, beq_iff_eq, ← heq]
    exact hfree tag hmem word hmore

end Collapsed

theorem tags_read : ∀ tag ∈ thunderbirdTags,
    isAtom tag.1.toList = true ∧ keywordLabel tag.1 = some (tag.2.1, some tag.2.2) ∧
      labelKeyword tag.2.1 = some tag.1 := by
  decide

/-- A keyword that is a label is written again as itself, up to the case of a built-in tag. -/
theorem keywordLabel_written {keyword label : String} {hue : Option Hue}
    (h : keywordLabel keyword = some (label, hue)) :
    ∃ written, labelKeyword label = some written ∧
      (written = keyword ∨ isTagKeyword written.toList = true ∧
        Text.eqIgnoreAsciiCase written.toList keyword.toList = true) := by
  unfold keywordLabel at h
  split at h
  · rename_i tag hfound
    have hmem := List.mem_of_find?_eq_some hfound
    have hcase := List.find?_some (p := fun tag : String × String × Hue =>
      Text.eqIgnoreAsciiCase tag.1.toList keyword.toList) hfound
    cases h
    exact ⟨tag.1, (tags_read tag hmem).2.2, .inr ⟨isTagKeyword_tag tag hmem, hcase⟩⟩
  · split at h
    · cases h
    · split at h
      · rename_i hwritten
        cases h
        exact ⟨keyword, hwritten, .inl rfl⟩
      · cases h

/-- A label is read back from its keyword as a label with that keyword unless its name, without
being a tag's, is made into the name of one; a keyword read as a label is written again. -/
theorem label_survives_iff (name : String) :
    ((∀ keyword, labelKeyword name = some keyword → isAtom keyword.toList = true ∧
        ∃ label hue, keywordLabel keyword = some (label, hue) ∧
          labelKeyword label = some keyword) ↔
      (isTagName (Text.trim name.toList) = true ∨ isTagName (collapsed name) = false)) ∧
    ∀ keyword label hue, keywordLabel keyword = some (label, hue) →
      ∃ written, labelKeyword label = some written ∧
        (written = keyword ∨ isTagKeyword written.toList = true ∧
          Text.eqIgnoreAsciiCase written.toList keyword.toList = true) := by
  refine ⟨?_, fun keyword label hue h => keywordLabel_written h⟩
  cases htag : isTagName (Text.trim name.toList) with
  | true =>
    obtain ⟨tag, hmem, hwritten⟩ := labelKeyword_tag htag
    obtain ⟨hatom, hread, hagain⟩ := tags_read tag hmem
    refine iff_of_true ?_ (.inl rfl)
    intro keyword hkeyword
    obtain rfl : tag.1 = keyword := Option.some.inj (hwritten.symm.trans hkeyword)
    exact ⟨hatom, tag.2.1, some tag.2.2, hread, hagain⟩
  | false =>
    rw [labelKeyword_plain htag]
    cases hlabel : isLabel (collapsed name) with
    | false =>
      have hplain : isTagName (collapsed name) = false := by
        by_contra h
        rw [isLabel_of_isTagName (Bool.not_eq_false _ ▸ h)] at hlabel
        cases hlabel
      simp [hplain]
    | true =>
      have hread := @keywordLabel_collapsed name
      cases hname : isTagName (collapsed name) with
      | true =>
        rw [hname] at hread
        refine iff_of_false ?_ (by simp)
        intro hall
        obtain ⟨_, label, hue, hlost, _⟩ := hall _ rfl
        rw [hread] at hlost
        cases hlost
      | false =>
        rw [hname, hlabel] at hread
        refine iff_of_true ?_ (.inr rfl)
        intro keyword hkeyword
        obtain rfl : String.ofList (collapsed name) = keyword := Option.some.inj hkeyword
        rw [String.toList_ofList]
        refine ⟨isAtom_collapsed hlabel, _, none, hread, ?_⟩
        rw [labelKeyword_plain (by rwa [String.toList_ofList, trim_collapsed]), collapsed_again,
          if_pos hlabel]

theorem bracketed_work_lost :
    ¬ ∀ keyword, labelKeyword "(Work)" = some keyword → isAtom keyword.toList = true ∧
      ∃ label hue, keywordLabel keyword = some (label, hue) ∧
        labelKeyword label = some keyword := by
  intro hall
  obtain ⟨_, label, hue, hread, _⟩ := hall "Work" (by decide)
  rw [show keywordLabel "Work" = none by decide] at hread
  cases hread

end Mailo.Domain
