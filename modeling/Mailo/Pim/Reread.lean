import Mailo.Domain.Trimming
import Mailo.Pim.Folding

/-!
# A line written and read again

What a parsed line is like, how each part of it is written, and what the parser makes of the
text. A parameter name that leaves a quote open takes in what follows it; white space at the ends
of an unquoted parameter value is lost; all else is read back as it was.
-/

namespace Mailo.Pim.Line

open Domain Library

variable {a text raw : List Char} {sep c : Char} {line : ContentLine} {p : Param}
  {before : List Param}

/-! ## Carets -/

theorem uncaret_plain (hc : c ≠ '^') (text : List Char) :
    uncaret (c :: text) = c :: uncaret text := by
  cases text with
  | nil => rfl
  | cons d text => rw [uncaret, if_neg hc]

theorem uncaret_caret (text : List Char) : uncaret (caret text) = text := by
  induction text with
  | nil => rfl
  | cons c text ih =>
    show uncaret (caretChar c ++ caret text) = _
    unfold caretChar
    split
    · rename_i hc
      subst hc
      simp [uncaret, ih]
    · split
      · rename_i hc
        subst hc
        simp [uncaret, ih]
      · split
        · rename_i hc
          subst hc
          simp [uncaret, ih]
        · rename_i hc _ _
          rw [List.singleton_append, uncaret_plain hc, ih]

theorem mem_caretChar {d : Char} (h : c ∈ caretChar d) :
    (c = d ∧ d ≠ '^' ∧ d ≠ '\n' ∧ d ≠ '"') ∨ c = '^' ∨ c = 'n' ∨ c = '\'' := by
  unfold caretChar at h
  split at h
  · simp only [List.mem_cons, List.not_mem_nil, or_false, or_self] at h
    exact Or.inr (Or.inl h)
  · rename_i hcaret
    split at h
    · simp only [List.mem_cons, List.not_mem_nil, or_false] at h
      rcases h with h | h
      · exact Or.inr (Or.inl h)
      · exact Or.inr (Or.inr (Or.inl h))
    · rename_i hline
      split at h
      · simp only [List.mem_cons, List.not_mem_nil, or_false] at h
        rcases h with h | h
        · exact Or.inr (Or.inl h)
        · exact Or.inr (Or.inr (Or.inr h))
      · rename_i hquote
        exact Or.inl ⟨List.mem_singleton.mp h, hcaret, hline, hquote⟩

theorem quote_notMem_caret (text : List Char) : '"' ∉ caret text := by
  intro h
  rcases List.mem_flatMap.mp h with ⟨d, _, hc⟩
  rcases mem_caretChar hc with ⟨rfl, _, _, hne⟩ | h | h | h
  · exact hne rfl
  · exact absurd h (by decide)
  · exact absurd h (by decide)
  · exact absurd h (by decide)

/-- A caret form holds no line feed, and a carriage return only if the text did. -/
theorem caret_unbroken (h : ∀ c ∈ text, c ≠ '\r') :
    ∀ c ∈ caret text, isBreak c = false := by
  intro c hc
  rcases List.mem_flatMap.mp hc with ⟨d, hd, hc⟩
  rcases mem_caretChar hc with ⟨rfl, _, hne, _⟩ | rfl | rfl | rfl
  · simp [isBreak, hne, h c hd]
  · rfl
  · rfl
  · rfl

theorem mem_uncaret (h : c ∈ uncaret text) :
    c ∈ text ∨ c = '\n' ∨ c = '"' ∨ c = '^' := by
  induction text using uncaret.induct with
  | case1 => cases h
  | case2 d => exact Or.inl h
  | case3 next rest hn ih =>
    rw [uncaret, if_pos rfl, if_pos hn, List.mem_cons] at h
    rcases h with h | h
    · exact Or.inr (Or.inl h)
    · exact (ih h).imp_left fun h => .tail _ (.tail _ h)
  | case4 rest hn ih =>
    rw [uncaret, if_pos rfl, if_neg hn, if_pos rfl, List.mem_cons] at h
    rcases h with h | h
    · exact Or.inr (Or.inr (Or.inl h))
    · exact (ih h).imp_left fun h => .tail _ (.tail _ h)
  | case5 rest hn hq ih =>
    rw [uncaret, if_pos rfl, if_neg hn, if_neg hq, if_pos rfl, List.mem_cons] at h
    rcases h with h | h
    · exact Or.inr (Or.inr (Or.inr h))
    · exact (ih h).imp_left fun h => .tail _ (.tail _ h)
  | case6 next rest hn hq hc ih =>
    rw [uncaret, if_pos rfl, if_neg hn, if_neg hq, if_neg hc, List.mem_cons] at h
    rcases h with h | h
    · exact Or.inr (Or.inr (Or.inr h))
    · exact (ih h).imp_left fun h => .tail _ h
  | case7 d next rest hd ih =>
    rw [uncaret, if_neg hd, List.mem_cons] at h
    rcases h with rfl | h
    · exact Or.inl (.head _)
    · exact (ih h).imp_left fun h => .tail _ h

theorem mem_unquote (h : c ∈ unquote text) : c ∈ text := by
  unfold unquote at h
  split at h
  · split at h
    · exact .tail _ ((List.dropLast_sublist _).subset h)
    · exact h
  · exact h

/-- The characters that end a parameter. -/
def isSep (c : Char) : Bool := c == ';' || c == ':'

theorem sep_uncaret (text : List Char) :
    (uncaret text).countP isSep = text.countP isSep := by
  induction text using uncaret.induct with
  | case1 | case2 => rfl
  | case3 next rest hn ih =>
    rw [uncaret, if_pos rfl, if_pos hn]
    rcases hn with rfl | rfl
    · simpa [isSep] using ih
    · simpa [isSep] using ih
  | case4 rest hn ih =>
    rw [uncaret, if_pos rfl, if_neg hn, if_pos rfl]
    simpa [isSep] using ih
  | case5 rest hn hq ih =>
    rw [uncaret, if_pos rfl, if_neg hn, if_neg hq, if_pos rfl]
    simpa [isSep] using ih
  | case6 next rest hn hq hc ih =>
    rw [uncaret, if_pos rfl, if_neg hn, if_neg hq, if_neg hc]
    simp only [List.countP_cons, ih]
  | case7 d next rest hd ih =>
    rw [uncaret, if_neg hd]
    simp only [List.countP_cons, ih]

theorem sep_caret (text : List Char) : (caret text).countP isSep = text.countP isSep := by
  rw [← sep_uncaret (caret text), uncaret_caret]

theorem sep_unquote (text : List Char) :
    (unquote text).countP isSep = text.countP isSep := by
  unfold unquote
  split
  · rename_i rest
    split
    · rename_i hlast
      obtain ⟨init, rfl⟩ := List.getLast?_eq_some_iff.mp hlast
      simp [isSep]
    · rfl
  · rfl

theorem sep_whitespace (h : ∀ c ∈ text, Text.isWhitespace c = true) :
    text.countP isSep = 0 := by
  rw [List.countP_eq_zero]
  intro c hc hsep
  have hws := h c hc
  simp only [isSep, Bool.or_eq_true, beq_iff_eq] at hsep
  rcases hsep with rfl | rfl
  · revert hws
    decide
  · revert hws
    decide

theorem sep_trim (text : List Char) :
    (Text.trim text).countP isSep = text.countP isSep := by
  rcases Text.trim_parts text with ⟨before, after, htext, hbefore, hafter⟩
  conv_rhs => rw [htext]
  rw [List.countP_append, List.countP_append, sep_whitespace hbefore, sep_whitespace hafter]
  omega

variable (value : List Char)

theorem sep_paramValue :
    (paramValue value).countP isSep = value.countP isSep := by
  unfold paramValue
  dsimp only
  split
  · rw [List.countP_append, List.countP_cons, sep_caret]
    simp [isSep]
  · exact sep_caret value

/-! ## One parameter -/

/-- What the parser keeps of a parameter value written. -/
def reValue (value : List Char) : List Char := uncaret (unquote (Text.trim (paramValue value)))

/-- A value that is written quoted, or has no white space at its ends. -/
def Firm (value : List Char) : Prop :=
  (∃ c ∈ value, c = ':' ∨ c = ';' ∨ c = ',') ∨ Text.trim (caret value) = caret value

theorem quoted_iff :
    ((caret value).any fun c => c == ':' || c == ';' || c == ',') = true ↔
      ∃ c ∈ value, c = ':' ∨ c = ';' ∨ c = ',' := by
  rw [List.any_eq_true]
  constructor
  · rintro ⟨c, hc, hsep⟩
    rcases List.mem_flatMap.mp hc with ⟨d, hd, hc⟩
    have hsep' : c = ':' ∨ c = ';' ∨ c = ',' := by
      simpa [or_assoc] using hsep
    rcases mem_caretChar hc with ⟨rfl, _⟩ | rfl | rfl | rfl
    · exact ⟨c, hd, hsep'⟩
    · exact absurd hsep' (by decide)
    · exact absurd hsep' (by decide)
    · exact absurd hsep' (by decide)
  · rintro ⟨c, hc, hsep⟩
    refine ⟨c, List.mem_flatMap.mpr ⟨c, hc, ?_⟩, by simpa [or_assoc] using hsep⟩
    rcases hsep with rfl | rfl | rfl
    · exact List.mem_singleton.mpr rfl
    · exact List.mem_singleton.mpr rfl
    · exact List.mem_singleton.mpr rfl

theorem unquote_plain (h : '"' ∉ text) : unquote text = text := by
  unfold unquote
  split
  · exact absurd (.head _) h
  · rfl

theorem trim_quoted (text : List Char) :
    Text.trim ('"' :: text ++ ['"']) = '"' :: text ++ ['"'] := by
  have hquote : Text.isWhitespace '"' = false := by decide
  apply Text.trim_eq_self
  · intro c hc
    cases hc
    exact hquote
  · intro c hc
    rw [List.getLast?_concat] at hc
    cases hc
    exact hquote

theorem unquote_quoted (text : List Char) : unquote ('"' :: text ++ ['"']) = text := by
  simp [unquote]

theorem uncaret_whitespace {before : List Char}
    (h : ∀ c ∈ before, Text.isWhitespace c = true) (text : List Char) :
    uncaret (before ++ text) = before ++ uncaret text := by
  induction before with
  | nil => rfl
  | cons c before ih =>
    have hc : c ≠ '^' := by
      rintro rfl
      have hws := h '^' (.head _)
      revert hws
      decide
    rw [List.cons_append, uncaret_plain hc, ih fun d hd => h d (.tail _ hd)]
    rfl

theorem uncaret_append_whitespace (text : List Char) {after : List Char}
    (h : ∀ c ∈ after, Text.isWhitespace c = true) :
    uncaret (text ++ after) = uncaret text ++ after := by
  have hafter : uncaret after = after := by
    have hall := uncaret_whitespace h []
    rw [List.append_nil] at hall
    rw [hall]
    simp [uncaret]
  induction text using uncaret.induct with
  | case1 => exact hafter
  | case2 d =>
    by_cases hd : d = '^'
    · subst hd
      cases after with
      | nil => rfl
      | cons c after =>
        have hc := h c (.head _)
        have hn : ¬ (c = 'n' ∨ c = 'N') := by
          rintro (rfl | rfl)
          · exact absurd hc (by decide)
          · exact absurd hc (by decide)
        have hq : ¬ c = '\'' := by
          rintro rfl
          exact absurd hc (by decide)
        have hcaret : ¬ c = '^' := by
          rintro rfl
          exact absurd hc (by decide)
        have hone : uncaret ['^'] = ['^'] := rfl
        rw [hone, List.singleton_append, uncaret, if_pos rfl, if_neg hn, if_neg hq,
          if_neg hcaret, hafter]
    · rw [List.singleton_append, uncaret_plain hd, hafter]
      rfl
  | case3 next rest hn ih =>
    rw [List.cons_append, List.cons_append, uncaret, if_pos rfl, if_pos hn, ih, uncaret,
      if_pos rfl, if_pos hn]
    rfl
  | case4 rest hn ih =>
    rw [List.cons_append, List.cons_append, uncaret, if_pos rfl, if_neg hn, if_pos rfl, ih,
      uncaret, if_pos rfl, if_neg hn, if_pos rfl]
    rfl
  | case5 rest hn hq ih =>
    rw [List.cons_append, List.cons_append, uncaret, if_pos rfl, if_neg hn, if_neg hq,
      if_pos rfl, ih, uncaret, if_pos rfl, if_neg hn, if_neg hq, if_pos rfl]
    rfl
  | case6 next rest hn hq hc ih =>
    rw [List.cons_append, List.cons_append, uncaret, if_pos rfl, if_neg hn, if_neg hq,
      if_neg hc, ← List.cons_append, ih, uncaret, if_pos rfl, if_neg hn, if_neg hq, if_neg hc]
    rfl
  | case7 d next rest hd ih =>
    rw [List.cons_append, List.cons_append, uncaret_plain hd, ← List.cons_append, ih,
      uncaret_plain hd]
    rfl

/-- A value is read back exactly when it is firm. -/
theorem reValue_iff : reValue value = value ↔ Firm value := by
  unfold reValue paramValue
  by_cases hquoted : ((caret value).any fun c => c == ':' || c == ';' || c == ',') = true
  · rw [if_pos hquoted, trim_quoted, unquote_quoted, uncaret_caret]
    exact iff_of_true rfl (Or.inl ((quoted_iff value).mp hquoted))
  · rw [if_neg hquoted]
    have hplain : '"' ∉ Text.trim (caret value) := fun h =>
      quote_notMem_caret value (Text.mem_trim h)
    rw [unquote_plain hplain]
    constructor
    · intro hback
      rcases Text.trim_parts (caret value) with ⟨before, after, htext, hbefore, hafter⟩
      have hall : value = before ++ (value ++ after) := by
        conv_lhs =>
          rw [← uncaret_caret value, htext, List.append_assoc, uncaret_whitespace hbefore,
            uncaret_append_whitespace _ hafter, hback]
      have hlen := congrArg List.length hall
      simp only [List.length_append] at hlen
      have hb : before = [] := List.eq_nil_of_length_eq_zero (by omega)
      have ha : after = [] := List.eq_nil_of_length_eq_zero (by omega)
      rw [hb, ha, List.append_nil, List.nil_append] at htext
      exact Or.inr htext.symm
    · rintro (hsep | htrim)
      · exact absurd ((quoted_iff value).mpr hsep) hquoted
      · rw [htrim, uncaret_caret]

/-- A parameter value is written with its quotes closed and no separator outside them. -/
theorem paramValue_closed :
    Quoted.inside '"' false (paramValue value) = false ∧
      ∀ c ∈ Quoted.outside '"' false (paramValue value), c ≠ ';' ∧ c ≠ ':' ∧ c ≠ ',' := by
  have hquote := quote_notMem_caret value
  unfold paramValue
  dsimp only
  split
  · constructor
    · show Quoted.inside '"' true (caret value ++ ['"']) = false
      rw [Quoted.inside_append, Quoted.inside_of_notMem '"' hquote]
      rfl
    · show ∀ c ∈ Quoted.outside '"' true (caret value ++ ['"']), _
      rw [Quoted.outside_append, Quoted.outside_of_notMem '"' hquote,
        Quoted.inside_of_notMem '"' hquote]
      intro c hc
      cases hc
  · rename_i hplain
    refine ⟨Quoted.inside_of_notMem '"' hquote false, fun c hc => ?_⟩
    have hmem := Quoted.mem_of_outside '"' hc
    have hnot : ¬ (c = ':' ∨ c = ';' ∨ c = ',') := by
      intro hsep
      apply hplain
      rw [List.any_eq_true]
      exact ⟨c, hmem, by simpa [or_assoc] using hsep⟩
    exact ⟨fun h => hnot (Or.inr (Or.inl h)), fun h => hnot (Or.inl h),
      fun h => hnot (Or.inr (Or.inr h))⟩

/-! ## What a parsed line is like -/

/-- A parameter name the parser made. -/
structure ParamName (name : List Char) : Prop where
  plain : '=' ∉ name
  trimmed : Text.trim name = name
  upper : toAsciiUppercase name = name
  outside : ∀ c ∈ Quoted.outside '"' false name, c ≠ ';' ∧ c ≠ ':'
  unbroken : ∀ c ∈ name, isBreak c = false

/-- A parameter the parser made. -/
structure Param.Parsed (p : Param) : Prop where
  name : ParamName p.name
  some_value : p.values ≠ []
  unbroken : ∀ v ∈ p.values, ∀ c ∈ v, c ≠ '\r'

def fullName (line : ContentLine) : List Char :=
  (match line.group with
    | some group => group ++ ['.']
    | none => []) ++ line.name

/-- A line the parser made. -/
structure ContentLine.Parsed (line : ContentLine) : Prop where
  closed : Quoted.inside '"' false (fullName line) = false
  outside : ∀ c ∈ Quoted.outside '"' false (fullName line), c ≠ ';' ∧ c ≠ ':'
  group : ∀ g, line.group = some g → '.' ∉ g
  no_group : line.group = none → '.' ∉ line.name
  trimmed : Text.trim line.name = line.name
  upper : toAsciiUppercase line.name = line.name
  named : line.name ≠ []
  unbroken : ∀ c ∈ fullName line, isBreak c = false
  params : ∀ p ∈ line.params, p.Parsed

theorem inside_upper (quoted : Bool) (text : List Char) :
    Quoted.inside '"' quoted (toAsciiUppercase text) = Quoted.inside '"' quoted text :=
  Quoted.inside_map '"' (Text.toUpper_eq_iff (by decide)) quoted text

variable {quoted : Bool} {more rest : List Char} {read : ContentLine}

theorem outside_upper (h : ∀ c ∈ Quoted.outside '"' quoted text, c ≠ ';' ∧ c ≠ ':') :
    ∀ c ∈ Quoted.outside '"' quoted (toAsciiUppercase text), c ≠ ';' ∧ c ≠ ':' := by
  intro c hc
  rw [toAsciiUppercase, Quoted.outside_map '"' (Text.toUpper_eq_iff (by decide))] at hc
  rcases List.mem_map.mp hc with ⟨d, hd, rfl⟩
  have hne := h d hd
  exact ⟨fun hup => hne.1 ((Text.toUpper_eq_iff (by decide) d).mp hup),
    fun hup => hne.2 ((Text.toUpper_eq_iff (by decide) d).mp hup)⟩

theorem whitespace_closed (h : ∀ c ∈ text, Text.isWhitespace c = true) :
    '"' ∉ text := by
  intro hmem
  exact absurd (h _ hmem) (by decide)

theorem inside_trim (quoted : Bool) (text : List Char) :
    Quoted.inside '"' quoted (Text.trim text) = Quoted.inside '"' quoted text := by
  rcases Text.trim_parts text with ⟨before, after, htext, hbefore, hafter⟩
  conv_rhs => rw [htext]
  rw [Quoted.inside_append, Quoted.inside_append,
    Quoted.inside_of_notMem '"' (whitespace_closed hbefore),
    Quoted.inside_of_notMem '"' (whitespace_closed hafter)]

theorem outside_trim (h : c ∈ Quoted.outside '"' quoted (Text.trim text)) :
    c ∈ Quoted.outside '"' quoted text := by
  rcases Text.trim_parts text with ⟨before, after, htext, hbefore, hafter⟩
  rw [htext, Quoted.outside_append, Quoted.outside_append,
    Quoted.inside_of_notMem '"' (whitespace_closed hbefore)]
  exact List.mem_append_left _ (List.mem_append_right _ h)

theorem upper_upper (text : List Char) :
    toAsciiUppercase (toAsciiUppercase text) = toAsciiUppercase text := by
  unfold toAsciiUppercase
  rw [List.map_map]
  have hcomp : Char.toUpper ∘ Char.toUpper = Char.toUpper := funext Text.toUpper_toUpper
  rw [hcomp]

theorem trim_upper (text : List Char) :
    Text.trim (toAsciiUppercase text) = toAsciiUppercase (Text.trim text) :=
  Text.trim_map_toUpper text

/-- A character that has no case is in a text in capitals only if it was in the text. -/
theorem mem_upper (hc : Text.isCaseless c = true) (h : c ∈ toAsciiUppercase text) : c ∈ text := by
  rcases List.mem_map.mp h with ⟨d, hd, hup⟩
  rw [← (Text.toUpper_eq_iff hc d).mp hup]
  exact hd

theorem upper_unbroken (h : ∀ c ∈ text, isBreak c = false) :
    ∀ c ∈ toAsciiUppercase text, isBreak c = false := by
  intro c hc
  by_contra hbreak
  have hor : c = '\n' ∨ c = '\r' := by
    simpa only [isBreak, Bool.not_eq_false, Bool.or_eq_true, beq_iff_eq] using hbreak
  rcases hor with rfl | rfl
  · exact absurd (h _ (mem_upper (by decide) hc)) (by decide)
  · exact absurd (h _ (mem_upper (by decide) hc)) (by decide)

theorem encoding_name : ParamName "ENCODING".toList :=
  ⟨by decide, by decide, by decide, by decide, by decide⟩

theorem type_name : ParamName "TYPE".toList :=
  ⟨by decide, by decide, by decide, by decide, by decide⟩

theorem param_parsed (hbreak : ∀ c ∈ raw, isBreak c = false)
    (hout : ∀ c ∈ Quoted.outside '"' false raw, c ≠ ';' ∧ c ≠ ':') : (param raw).Parsed := by
  unfold param
  cases hcut : Text.splitOnce '=' raw with
  | some cut =>
    rcases cut with ⟨name, values⟩
    rcases Text.of_splitOnce hcut with ⟨rfl, hno⟩
    have hname : ∀ c ∈ Quoted.outside '"' false name, c ≠ ';' ∧ c ≠ ':' := by
      intro c hc
      apply hout
      rw [Quoted.outside_append]
      exact List.mem_append_left _ hc
    have hchars : ∀ c ∈ Text.trim name, isBreak c = false := fun c hc =>
      hbreak c (List.mem_append_left _ (Text.mem_trim hc))
    refine ⟨⟨fun h => hno (Text.mem_trim (mem_upper (by decide) h)), ?_, upper_upper _,
      outside_upper fun c hc => hname c (outside_trim hc), upper_unbroken hchars⟩, ?_, ?_⟩
    · rw [trim_upper, Text.trim_trim]
    · simpa [splitOutsideQuotes] using Quoted.split_ne_nil '"' ',' false values
    · intro v hv c hc
      rcases List.mem_map.mp hv with ⟨part, hpart, rfl⟩
      rcases mem_uncaret hc with hc | rfl | rfl | rfl
      · have hmem := Quoted.mem_split '"' hpart (Text.mem_trim (mem_unquote hc))
        have hb := hbreak c (List.mem_append_right _ (.tail _ hmem))
        rintro rfl
        exact absurd hb (by decide)
      · decide
      · decide
      · decide
  | none =>
    have hvalues : ∀ v ∈ [Text.trim raw], ∀ c ∈ v, c ≠ '\r' := by
      intro v hv c hc
      rw [List.mem_singleton.mp hv] at hc
      have hb := hbreak c (Text.mem_trim hc)
      rintro rfl
      exact absurd hb (by decide)
    dsimp only
    split
    · exact ⟨encoding_name, by simp, hvalues⟩
    · exact ⟨type_name, by simp, hvalues⟩

/-- The group and the name of a line, as they were written but for white space and case. -/
theorem splitGroup_written (raw : List Char) :
    ∃ lead, raw = lead ++ (splitGroup raw).2 ∧
      lead = (match (splitGroup raw).1 with
        | some group => group ++ ['.']
        | none => []) ∧
      (∀ g, (splitGroup raw).1 = some g → '.' ∉ g) ∧
      ((splitGroup raw).1 = none → '.' ∉ (splitGroup raw).2) := by
  unfold splitGroup
  cases hcut : Text.splitOnce '.' raw with
  | some cut =>
    rcases Text.of_splitOnce hcut with ⟨hraw, hno⟩
    refine ⟨cut.1 ++ ['.'], ?_, rfl, ?_, ?_⟩
    · rw [hraw]
      simp
    · rintro g hg
      cases hg
      exact hno
    · intro hg
      cases hg
  | none =>
    refine ⟨[], rfl, rfl, ?_, fun _ => Text.of_splitOnce_none hcut⟩
    intro g hg
    cases hg

theorem parse_parsed (h : parse raw = some line) (hbreak : ∀ c ∈ raw, isBreak c = false) :
    line.Parsed := by
  unfold parse at h
  cases hhead : splitHead raw with
  | none =>
    rw [hhead] at h
    cases h
  | some cut =>
    rcases cut with ⟨head, value⟩
    rcases of_splitHead hhead with ⟨rfl, hcolon, hclosed⟩
    rw [hhead] at h
    dsimp only at h
    have hsemi : ';' ≠ '"' := by decide
    have hparts := Quoted.split_part '"' hsemi hclosed
    cases hsplit : splitOutsideQuotes head ';' with
    | nil =>
      rw [hsplit] at h
      cases h
    | cons full parts =>
      rw [hsplit] at h
      dsimp only at h
      split at h
      · cases h
      · rename_i hnamed
        cases h
        have hin : ∀ part ∈ full :: parts, part ∈ splitOutsideQuotes head ';' := by
          rw [hsplit]
          exact fun _ hp => hp
        have hpart : ∀ part ∈ full :: parts, Quoted.inside '"' false part = false ∧
            (∀ c ∈ Quoted.outside '"' false part, c ≠ ';' ∧ c ≠ ':') ∧
            ∀ c ∈ part, isBreak c = false := by
          intro part hp
          have hfacts := hparts part (hin part hp)
          refine ⟨hfacts.closed, fun c hc => ⟨?_, ?_⟩, fun c hc => ?_⟩
          · rintro rfl
            exact hfacts.sep_out hc
          · rintro rfl
            exact hcolon (hfacts.subset _ hc)
          · exact hbreak c (List.mem_append_left _ (Quoted.mem_split '"' (hin part hp) hc))
        rcases hpart full (.head _) with ⟨hfclosed, hfout, hfbreak⟩
        rcases splitGroup_written full with ⟨lead, hfull, hlead, hgroup, hnogroup⟩
        have hname : fullName
            { group := (splitGroup full).1
              name := toAsciiUppercase (Text.trim (splitGroup full).2)
              params := (parts.filter fun p => !p.isEmpty).map param
              value := value } =
            lead ++ toAsciiUppercase (Text.trim (splitGroup full).2) := by
          unfold fullName
          rw [hlead]
        have hchars : ∀ c ∈ Text.trim (splitGroup full).2, c ∈ full := by
          intro c hc
          rw [hfull]
          exact List.mem_append_right _ (Text.mem_trim hc)
        refine ⟨?_, ?_, hgroup, ?_, ?_, upper_upper _, ?_, ?_, ?_⟩
        · rw [hname, Quoted.inside_append, inside_upper, inside_trim, ← Quoted.inside_append,
            ← hfull]
          exact hfclosed
        · rw [hname]
          intro c hc
          rw [hfull, Quoted.outside_append] at hfout
          rw [Quoted.outside_append] at hc
          rcases List.mem_append.mp hc with hc | hc
          · exact hfout c (List.mem_append_left _ hc)
          · refine outside_upper (fun d hd => ?_) c hc
            exact hfout d (List.mem_append_right _ (outside_trim hd))
        · intro hnone hdot
          exact hnogroup hnone (Text.mem_trim (mem_upper (by decide) hdot))
        · rw [trim_upper, Text.trim_trim]
        · intro hnil
          apply hnamed
          have hlen := congrArg List.length hnil
          simpa [toAsciiUppercase] using hlen
        · rw [hname]
          intro c hc
          rcases List.mem_append.mp hc with hc | hc
          · apply hfbreak
            rw [hfull]
            exact List.mem_append_left _ hc
          · exact upper_unbroken (fun d hd => hfbreak d (hchars d hd)) c hc
        · intro p hp
          rcases List.mem_map.mp hp with ⟨rawp, hrawp, rfl⟩
          have hmem : rawp ∈ full :: parts :=
            List.mem_cons_of_mem _ (List.mem_filter.mp hrawp).1
          exact param_parsed (hpart rawp hmem).2.2 (hpart rawp hmem).2.1

/-- Decoding changes the value and leaves parameters out: the line is still as the parser made
it. -/
theorem decode_parsed (E : Encodings) (h : line.Parsed) :
    (decodeValue E line).Parsed := by
  unfold decodeValue
  split
  · exact { h with params := fun p hp => h.params p (List.mem_filter.mp hp).1 }
  · exact h

/-! ## A line written -/

/-- A parameter as written, without the `;` before it. -/
def body (p : Param) : List Char := p.name ++ '=' :: [','].intercalate (p.values.map paramValue)

attribute [local simp] body in
theorem writeParam_eq (p : Param) : writeParam p = ';' :: body p := rfl

theorem values_closed (p : Param) :
    Quoted.inside '"' false ([','].intercalate (p.values.map paramValue)) = false ∧
      ∀ c ∈ Quoted.outside '"' false ([','].intercalate (p.values.map paramValue)),
        c ≠ ';' ∧ c ≠ ':' := by
  have hin : ∀ part ∈ p.values.map paramValue, Quoted.inside '"' false part = false := by
    intro part hpart
    rcases List.mem_map.mp hpart with ⟨v, _, rfl⟩
    exact (paramValue_closed v).1
  refine ⟨Quoted.inside_intercalate '"' (by decide) hin, fun c hc => ?_⟩
  rcases Quoted.outside_intercalate '"' (by decide) hin hc with rfl | ⟨part, hpart, hc⟩
  · decide
  · rcases List.mem_map.mp hpart with ⟨v, _, rfl⟩
    have hne := (paramValue_closed v).2 c hc
    exact ⟨hne.1, hne.2.1⟩

/-- A parameter written leaves a quote open when its name does. -/
theorem body_inside (p : Param) (hopen : Quoted.inside '"' false p.name = false) :
    Quoted.inside '"' false (body p) = false := by
  rw [body, Quoted.inside_append, hopen]
  exact (values_closed p).1

theorem body_outside (h : p.Parsed) (hopen : Quoted.inside '"' false p.name = false) :
    ∀ c ∈ Quoted.outside '"' false (body p), c ≠ ';' ∧ c ≠ ':' := by
  intro c hc
  rw [body, Quoted.outside_append, hopen] at hc
  rcases List.mem_append.mp hc with hc | hc
  · exact h.name.outside c hc
  · rcases List.mem_cons.mp hc with rfl | hc
    · decide
    · exact (values_closed p).2 c hc

theorem intercalate_flatMap (sep : Char) (first : List Char) (parts : List (List Char)) :
    [sep].intercalate (first :: parts) = first ++ parts.flatMap fun part => sep :: part := by
  induction parts generalizing first with
  | nil => simp
  | cons part parts ih =>
    rw [List.intercalate_cons_cons, ih, List.flatMap_cons, List.append_assoc]
    rfl

theorem writeHead_eq (line : ContentLine) :
    writeHead line = [';'].intercalate (fullName line :: line.params.map body) := by
  rw [intercalate_flatMap, List.flatMap_map]
  rfl

/-- What the parser keeps of a parameter written. -/
def reParam (p : Param) : Param := { p with values := p.values.map reValue }

theorem param_body (h : p.Parsed) : param (body p) = reParam p := by
  have hvalues : splitOutsideQuotes ([','].intercalate (p.values.map paramValue)) ',' =
      p.values.map paramValue := by
    apply Quoted.split_intercalate '"' (by decide)
    · simpa using h.some_value
    · intro part hpart
      rcases List.mem_map.mp hpart with ⟨v, _, rfl⟩
      exact (paramValue_closed v).1
    · intro part hpart hcomma
      rcases List.mem_map.mp hpart with ⟨v, _, rfl⟩
      exact ((paramValue_closed v).2 ',' hcomma).2.2 rfl
  unfold param body
  rw [Text.splitOnce_stop h.name.plain]
  dsimp only
  rw [hvalues, h.name.trimmed, h.name.upper, List.map_map]
  rfl

theorem splitGroup_fullName (h : line.Parsed) :
    splitGroup (fullName line) = (line.group, line.name) := by
  unfold splitGroup fullName
  cases hgroup : line.group with
  | some group =>
    rw [List.append_assoc, List.singleton_append, Text.splitOnce_stop (h.group group hgroup)]
  | none =>
    rw [List.nil_append, Text.splitOnce_none (h.no_group hgroup)]

def NamesClosed (line : ContentLine) : Prop :=
  ∀ p ∈ line.params, Quoted.inside '"' false p.name = false

theorem parts_closed (h : line.Parsed) (hnames : NamesClosed line) :
    ∀ part ∈ fullName line :: line.params.map body, Quoted.inside '"' false part = false ∧
      ∀ c ∈ Quoted.outside '"' false part, c ≠ ';' ∧ c ≠ ':' := by
  intro part hpart
  rcases List.mem_cons.mp hpart with rfl | hpart
  · exact ⟨h.closed, h.outside⟩
  · rcases List.mem_map.mp hpart with ⟨p, hp, rfl⟩
    exact ⟨body_inside p (hnames p hp), body_outside (h.params p hp) (hnames p hp)⟩

theorem writeHead_closed (h : line.Parsed) (hnames : NamesClosed line) :
    Quoted.inside '"' false (writeHead line) = false ∧
      ':' ∉ Quoted.outside '"' false (writeHead line) := by
  have hparts := parts_closed h hnames
  rw [writeHead_eq]
  refine ⟨Quoted.inside_intercalate '"' (by decide) fun part hp => (hparts part hp).1, ?_⟩
  intro hcolon
  rcases Quoted.outside_intercalate '"' (by decide) (fun part hp => (hparts part hp).1) hcolon
    with heq | ⟨part, hpart, hc⟩
  · exact absurd heq (by decide)
  · exact ((hparts part hpart).2 _ hc).2 rfl

theorem splitHead_written (h : line.Parsed) (hnames : NamesClosed line) (value : List Char) :
    splitHead (writeHead line ++ ':' :: value) = some (writeHead line, value) := by
  rcases writeHead_closed h hnames with ⟨hin, hout⟩
  exact splitHead_stop hout hin value

/-- The parser on a head as written: all is read back but the parameter values it trims. -/
theorem parse_written (h : line.Parsed) (hnames : NamesClosed line) (value : List Char) :
    parse (writeHead line ++ ':' :: value) =
      some { line with params := line.params.map reParam, value := value } := by
  have hparts := parts_closed h hnames
  have hsplit : splitOutsideQuotes (writeHead line) ';' =
      fullName line :: line.params.map body := by
    rw [writeHead_eq]
    apply Quoted.split_intercalate '"' (by decide) (by simp) fun part hp => (hparts part hp).1
    intro part hpart hsemi
    exact ((hparts part hpart).2 _ hsemi).1 rfl
  have hkept : (line.params.map body).filter (fun p => !p.isEmpty) = line.params.map body := by
    rw [List.filter_eq_self]
    intro part hpart
    rcases List.mem_map.mp hpart with ⟨p, _, rfl⟩
    simp [body]
  have hnamed : line.name.isEmpty = false := by simpa using h.named
  unfold parse
  rw [splitHead_written h hnames value]
  dsimp only
  rw [hsplit]
  dsimp only
  rw [splitGroup_fullName h, h.trimmed, h.upper, hkept, if_neg (by simp [hnamed]), List.map_map]
  congr 2
  apply List.map_congr_left
  exact fun p hp => param_body (h.params p hp)

/-! ## A quote left open -/

theorem sep_upper (text : List Char) :
    (toAsciiUppercase text).countP isSep = text.countP isSep := by
  rw [toAsciiUppercase, List.countP_map]
  apply List.countP_congr
  intro c _
  simp only [Function.comp_apply, isSep, Bool.or_eq_true, beq_iff_eq,
    Text.toUpper_eq_iff (show Text.isCaseless ';' = true by decide),
    Text.toUpper_eq_iff (show Text.isCaseless ':' = true by decide)]

/-- The separators of a parameter: those of its name and of its values. -/
def seps (p : Param) : Nat :=
  p.name.countP isSep + (p.values.map (List.countP isSep)).sum

theorem seps_param {name values : List Char} (hcut : Text.splitOnce '=' raw = some (name, values)) :
    seps (param raw) = raw.countP isSep := by
  rcases Text.of_splitOnce hcut with ⟨hraw, _⟩
  unfold param seps
  rw [hcut]
  rw [sep_upper, sep_trim, List.map_map]
  have hsame : (List.countP isSep ∘ fun v => uncaret (unquote (Text.trim v))) =
      List.countP isSep := by
    funext v
    rw [Function.comp_apply, sep_uncaret, sep_unquote, sep_trim]
  rw [hsame, splitOutsideQuotes, Quoted.countP_split '"' (by decide), hraw, List.countP_append,
    List.countP_cons]
  simp [isSep]

theorem seps_body (h : p.Parsed) : (body p).countP isSep = seps p := by
  have hcut : Text.splitOnce '=' (body p) =
      some (p.name, [','].intercalate (p.values.map paramValue)) :=
    Text.splitOnce_stop h.name.plain _
  rw [← seps_param hcut, param_body h]
  unfold seps reParam
  rw [List.map_map]
  congr 3
  funext v
  rw [Function.comp_apply, reValue, sep_uncaret, sep_unquote, sep_trim, sep_paramValue]

/-- A parameter whose name leaves a quote open is read back with other values: its last value
takes in the separator after it, or one of its values is cut at a separator of its own. -/
theorem param_opened (h : p.Parsed) (hopen : Quoted.inside '"' false p.name = true) {s : Char}
    (hclosed : Quoted.inside '"' false raw = false) (hs : isSep s = true) (hsep : isSep sep = true)
    (htext : raw ++ s :: rest = body p ++ sep :: more) :
    raw ≠ [] ∧ (param raw).name = p.name ∧ (param raw).values ≠ p.values := by
  have hseq : s ≠ '=' := by
    rintro rfl
    exact absurd hs (by decide)
  have hnot : s ∉ Quoted.outside '"' false p.name := by
    intro hmem
    have hne := h.name.outside s hmem
    simp [isSep, hne] at hs
  have hsquote : s ≠ '"' := by
    rintro rfl
    exact absurd hs (by decide)
  -- the name and its `=` are in front of the first separator
  have hfront : ∃ values, raw = p.name ++ '=' :: values := by
    rw [body, List.append_assoc, List.cons_append] at htext
    rcases List.append_eq_append_iff.mp htext with ⟨a, ha, hb⟩ | ⟨a, ha, hb⟩
    · cases a with
      | nil => exact absurd (List.cons.inj hb).1 hseq
      | cons c a =>
        exfalso
        have hc : s = c := (List.cons.inj hb).1
        apply hnot
        rw [ha, Quoted.outside_append, hclosed, ← hc]
        simp [Quoted.outside, hsquote]
    · cases a with
      | nil => exact absurd (List.cons.inj hb).1.symm hseq
      | cons c a =>
        have hc : '=' = c := (List.cons.inj hb).1
        exact ⟨a, by rw [ha, ← hc]⟩
  rcases hfront with ⟨values, hraw⟩
  have hcut : Text.splitOnce '=' raw = some (p.name, values) := by
    rw [hraw]
    exact Text.splitOnce_stop h.name.plain _
  have hname : (param raw).name = p.name := by
    unfold param
    rw [hcut]
    dsimp only
    rw [h.name.trimmed, h.name.upper]
  refine ⟨by rw [hraw]; simp, hname, fun hvalues => ?_⟩
  have hcount : raw.countP isSep = (body p).countP isSep := by
    rw [← seps_param hcut, seps_body h]
    unfold seps
    rw [hname, hvalues]
  have hbody : Quoted.inside '"' false (body p) = true := by
    rw [body, Quoted.inside_append, hopen]
    show Quoted.inside '"' (!false) ([','].intercalate _) = true
    rw [Quoted.inside_not, (values_closed p).1]
    rfl
  rcases List.append_eq_append_iff.mp htext with ⟨a, ha, hb⟩ | ⟨a, ha, hb⟩
  · cases a with
    | nil =>
      rw [List.append_nil] at ha
      rw [ha, hclosed] at hbody
      cases hbody
    | cons c a =>
      rw [ha, List.countP_append, List.countP_cons, ← (List.cons.inj hb).1, hs] at hcount
      simp at hcount
  · cases a with
    | nil =>
      rw [List.append_nil] at ha
      rw [← ha, hclosed] at hbody
      cases hbody
    | cons c a =>
      rw [ha, List.countP_append, List.countP_cons, ← (List.cons.inj hb).1, hsep] at hcount
      simp at hcount

/-- Some parameters as written after the full name of a line. -/
def frontOf (line : ContentLine) (before : List Param) : List Char :=
  [';'].intercalate (fullName line :: before.map body)

theorem front_closed (h : line.Parsed) (hparsed : ∀ q ∈ before, q.Parsed)
    (hnames : ∀ q ∈ before, Quoted.inside '"' false q.name = false) :
    Quoted.inside '"' false (frontOf line before) = false ∧
      ':' ∉ Quoted.outside '"' false (frontOf line before) ∧
      ∀ text, splitOutsideQuotes (frontOf line before ++ ';' :: text) ';' =
        fullName line :: before.map body ++ splitOutsideQuotes text ';' := by
  have hline : ContentLine.Parsed { line with params := before } := { h with params := hparsed }
  have hparts := parts_closed hline hnames
  have hhead := writeHead_closed hline hnames
  rw [writeHead_eq] at hhead
  refine ⟨hhead.1, hhead.2, fun text => ?_⟩
  apply Quoted.split_intercalate_append '"' (by decide) (by simp)
  · exact fun part hp => (hparts part hp).1
  · intro part hpart hsemi
    exact ((hparts part hpart).2 _ hsemi).1 rfl

theorem parse_front (h : line.Parsed) (hparsed : ∀ q ∈ before, q.Parsed)
    (hnames : ∀ q ∈ before, Quoted.inside '"' false q.name = false)
    (hparse : parse (frontOf line before ++ ';' :: text) = some read) :
    ∃ head value, splitHead text = some (head, value) ∧
      read.params = before.map reParam ++
        ((splitOutsideQuotes head ';').filter fun p => !p.isEmpty).map param := by
  rcases front_closed h hparsed hnames with ⟨hin, hout, hsplit⟩
  have hcut : splitHead (frontOf line before ++ ';' :: text) =
      (splitHead text).map fun cut => (frontOf line before ++ ';' :: cut.1, cut.2) := by
    unfold splitHead
    rw [Quoted.cutAt_append '"' false hout, hin, Quoted.cutAt, if_neg (by decide),
      if_neg (by decide), Option.map_map]
    rfl
  unfold parse at hparse
  rw [hcut] at hparse
  cases htext : splitHead text with
  | none =>
    rw [htext] at hparse
    cases hparse
  | some cut =>
    rcases cut with ⟨head, value⟩
    refine ⟨head, value, rfl, ?_⟩
    rw [htext] at hparse
    dsimp only [Option.map_some] at hparse
    rw [hsplit] at hparse
    dsimp only [List.cons_append] at hparse
    split at hparse
    · cases hparse
    · cases hparse
      have hkept : (before.map body).filter (fun p => !p.isEmpty) = before.map body := by
        rw [List.filter_eq_self]
        intro part hpart
        rcases List.mem_map.mp hpart with ⟨p, _, rfl⟩
        simp [body]
      show ((before.map body ++ splitOutsideQuotes head ';').filter _).map param = _
      rw [List.filter_append, hkept, List.map_append, List.map_map]
      congr 1
      apply List.map_congr_left
      exact fun p hp => param_body (hparsed p hp)

/-- What is sure to be read of a parameter that leaves a quote open: up to the `:` that ends the
head in it, or with the separator after it. -/
def openTail (p : Param) (sep : Char) : List Char :=
  match splitHead (body p ++ [sep]) with
  | some (head, _) => head ++ [':']
  | none => body p ++ [sep]

theorem openTail_colon (p : Param) (sep : Char) {upto : List Char}
    (h : openTail p sep = upto ++ c :: rest) : ':' ∉ Quoted.outside '"' false upto := by
  intro hcolon
  unfold openTail at h
  cases hcut : splitHead (body p ++ [sep]) with
  | some cut =>
    rcases cut with ⟨head, value⟩
    rw [hcut] at h
    rcases of_splitHead hcut with ⟨_, hout, _⟩
    rcases List.append_eq_append_iff.mp h with ⟨a, ha, hb⟩ | ⟨a, ha, _⟩
    · cases a with
      | nil =>
        rw [List.append_nil] at ha
        rw [ha] at hcolon
        exact hout hcolon
      | cons d a =>
        have hlen := congrArg List.length hb
        simp at hlen
    · rw [ha, Quoted.outside_append] at hout
      exact hout (List.mem_append_left _ hcolon)
  | none =>
    rw [hcut] at h
    dsimp only at h
    have hout := Quoted.of_cutAt_none '"' hcut
    rw [h, Quoted.outside_append] at hout
    exact hout (List.mem_append_left _ hcolon)

theorem openTail_last (p : Param) (hsep : isSep sep = true) :
    ∃ init last, openTail p sep = init ++ [last] ∧ isSep last = true := by
  unfold openTail
  cases splitHead (body p ++ [sep]) with
  | some cut => exact ⟨cut.1, ':', rfl, rfl⟩
  | none => exact ⟨body p, sep, rfl, hsep⟩

theorem openTail_prefix (p : Param) (sep : Char) : openTail p sep <+: body p ++ [sep] := by
  unfold openTail
  cases hcut : splitHead (body p ++ [sep]) with
  | some cut =>
    rcases of_splitHead hcut with ⟨htext, _⟩
    refine ⟨cut.2, ?_⟩
    rw [htext]
    simp
  | none => exact List.prefix_refl _

/-- The parser at a parameter that leaves a quote open. -/
theorem parse_opened (h : line.Parsed) (hparsed : ∀ q ∈ before, q.Parsed)
    (hnames : ∀ q ∈ before, Quoted.inside '"' false q.name = false) (hp : p.Parsed)
    (hopen : Quoted.inside '"' false p.name = true) (hsep : isSep sep = true)
    (hparse : parse (frontOf line before ++ ';' :: (openTail p sep ++ more)) = some read) :
    ∃ q rest, read.params = before.map reParam ++ q :: rest ∧ q.name = p.name ∧
      q.values ≠ p.values := by
  rcases parse_front h hparsed hnames hparse with ⟨head, value, hhead, hread⟩
  rcases of_splitHead hhead with ⟨htext, _, hclosed⟩
  cases hsplit : splitOutsideQuotes head ';' with
  | nil => exact absurd hsplit (Quoted.split_ne_nil '"' ';' false head)
  | cons raw raws =>
    have hmem : raw ∈ splitOutsideQuotes head ';' := by
      rw [hsplit]
      exact .head _
    have hsemi : ';' ≠ '"' := by decide
    have hrawclosed := (Quoted.split_part '"' hsemi hclosed raw hmem).closed
    -- the first part ends at a separator
    obtain ⟨s, rest, hs, hrest⟩ : ∃ s rest, isSep s = true ∧ head ++ [':'] = raw ++ s :: rest := by
      rcases Quoted.split_first '"' hsplit with heq | ⟨m, heq⟩
      · exact ⟨':', [], rfl, by rw [heq]⟩
      · exact ⟨';', m ++ [':'], rfl, by rw [heq]; simp⟩
    have hfull : ∃ rest' more', raw ++ s :: rest' = body p ++ sep :: more' := by
      unfold openTail at htext hhead
      cases hcut : splitHead (body p ++ [sep]) with
      | some cut =>
        rcases cut with ⟨head', value'⟩
        rw [hcut] at hhead
        rcases of_splitHead hcut with ⟨hbody, hout, hin⟩
        rw [List.append_assoc, List.singleton_append, splitHead_stop hout hin] at hhead
        cases hhead
        refine ⟨rest ++ value', [], ?_⟩
        rw [← List.cons_append, ← List.append_assoc, ← hrest, List.append_assoc,
          List.singleton_append, hbody]
      | none =>
        rw [hcut] at htext
        refine ⟨rest ++ value, more, ?_⟩
        rw [← List.cons_append, ← List.append_assoc, ← hrest, List.append_assoc,
          List.singleton_append, ← htext, List.append_assoc, List.singleton_append]
    rcases hfull with ⟨rest', more', hfull⟩
    rcases param_opened hp hopen hrawclosed hs hsep hfull with ⟨hne, hname, hvalues⟩
    refine ⟨param raw, (raws.filter fun p => !p.isEmpty).map param, ?_, hname, hvalues⟩
    rw [hread, hsplit, List.filter_cons_of_pos (by simpa using hne), List.map_cons]

end Mailo.Pim.Line
