import Mailo.Pim.VCard.Lines

/-!
# A card written and read again

Each field's writer against its reader, then the card as a whole. The reader takes a scheme and
white space off an address and off a number, once each; the writer puts neither back, so an
address that still begins with one of them is read differently the second time.
-/

namespace Mailo.Pim.VCard

open Domain Library Pim.Line

/-! ## Escapes -/

variable {c : Char} {text : List Char}

theorem unescape_plain (hc : c ≠ '\\') (text : List Char) :
    unescape (c :: text) = c :: unescape text := by
  cases text with
  | nil => rfl
  | cons d text => rw [unescape, if_neg hc]

theorem unescape_escape (h : NoReturn text) :
    unescape (escape text) = text := by
  induction text with
  | nil => rfl
  | cons c text ih =>
    have hrest := ih fun d hd => h d (.tail _ hd)
    have hc := h c (.head _)
    show unescape (escapeChar c ++ escape text) = _
    unfold escapeChar
    split
    · rename_i heq
      subst heq
      simp [unescape, hrest]
    · rename_i hslash
      split
      · rename_i heq
        subst heq
        simp [unescape, hrest]
      · split
        · rename_i heq
          subst heq
          simp [unescape, hrest]
        · split
          · rename_i heq
            subst heq
            simp [unescape, hrest]
          · rw [List.singleton_append, unescape_plain hslash, hrest]

theorem mem_escape (h : c ∈ escape text) :
    c ≠ '\n' ∧ c ≠ '\r' := by
  rcases List.mem_flatMap.mp h with ⟨d, _, hc⟩
  unfold escapeChar at hc
  split at hc
  · simp only [List.mem_cons, List.not_mem_nil, or_false, or_self] at hc
    rw [hc]
    decide
  · split at hc
    · simp only [List.mem_cons, List.not_mem_nil, or_false] at hc
      rcases hc with rfl | rfl
      · decide
      · decide
    · split at hc
      · simp only [List.mem_cons, List.not_mem_nil, or_false] at hc
        rcases hc with rfl | rfl
        · decide
        · decide
      · split at hc
        · simp only [List.mem_cons, List.not_mem_nil, or_false] at hc
          rcases hc with rfl | rfl
          · decide
          · decide
        · rename_i hline
          split at hc
          · cases hc
          · rename_i hreturn
            rw [List.mem_singleton.mp hc]
            exact ⟨hline, hreturn⟩

theorem escape_unbroken (text : List Char) : ∀ c ∈ escape text, isBreak c = false := by
  intro c hc
  have hne := mem_escape hc
  simp [isBreak, hne]

variable {sep : Char} {scheme : List Char}

theorem splitUnescaped_plain (hc : c ≠ '\\') (hsep : c ≠ sep) (text : List Char) :
    splitUnescaped sep (c :: text) = (splitUnescaped sep text).modifyHead (c :: ·) := by
  cases text with
  | nil => simp [splitUnescaped, hsep]
  | cons d text => rw [splitUnescaped, if_neg hc, if_neg hsep]

theorem splitUnescaped_sep (hsep : sep ≠ '\\') (text : List Char) :
    splitUnescaped sep (sep :: text) = [] :: splitUnescaped sep text := by
  cases text with
  | nil => simp [splitUnescaped, hsep]
  | cons d text => rw [splitUnescaped, if_neg hsep, if_pos rfl]

theorem splitUnescaped_escape (text more : List Char) :
    splitUnescaped ';' (escape text ++ more) =
      (splitUnescaped ';' more).modifyHead (escape text ++ ·) := by
  have hne : ∀ more, ∃ first rest, splitUnescaped ';' more = first :: rest := by
    intro more
    induction more using splitUnescaped.induct ';' with
    | case1 => exact ⟨_, _, rfl⟩
    | case2 d hd => exact ⟨[], [[]], by rw [splitUnescaped, if_pos hd]⟩
    | case3 d hd => exact ⟨[d], [], by rw [splitUnescaped, if_neg hd]⟩
    | case4 next rest ih =>
      rcases ih with ⟨first, parts, hparts⟩
      exact ⟨_, parts, by rw [splitUnescaped, if_pos rfl, hparts, List.modifyHead_cons]⟩
    | case5 next rest hd ih =>
      exact ⟨[], _, by rw [splitUnescaped, if_neg hd, if_pos rfl]⟩
    | case6 d next rest hd hsep ih =>
      rcases ih with ⟨first, parts, hparts⟩
      exact ⟨_, parts, by
        rw [splitUnescaped, if_neg hd, if_neg hsep, hparts, List.modifyHead_cons]⟩
  induction text with
  | nil =>
    rcases hne more with ⟨first, rest, hmore⟩
    have hnil : escape [] = [] := rfl
    rw [hnil, List.nil_append, hmore, List.modifyHead_cons]
    rfl
  | cons c text ih =>
    rcases hne more with ⟨first, rest, hmore⟩
    have hcons : escape (c :: text) = escapeChar c ++ escape text := rfl
    rw [hmore, List.modifyHead_cons] at ih
    rw [hcons, List.append_assoc, hmore, List.modifyHead_cons, List.append_assoc]
    have hpair : ∀ d, splitUnescaped ';' (['\\', d] ++ (escape text ++ more)) =
        (['\\', d] ++ (escape text ++ first)) :: rest := by
      intro d
      show splitUnescaped ';' ('\\' :: d :: (escape text ++ more)) = _
      rw [splitUnescaped, if_pos rfl, ih, List.modifyHead_cons]
    unfold escapeChar
    split
    · exact hpair _
    · rename_i hslash
      split
      · exact hpair _
      · split
        · exact hpair _
        · rename_i hsemi
          split
          · exact hpair _
          · split
            · exact ih
            · rw [List.singleton_append, splitUnescaped_plain hslash hsemi, ih]
              rfl

/-- Parts escaped and joined are split where they were joined. -/
theorem splitEscaped_join {parts : List (List Char)} (hne : parts ≠ [])
    (h : ∀ part ∈ parts, NoReturn part) :
    splitEscaped ([';'].intercalate (parts.map escape)) ';' = parts := by
  have hraw : splitUnescaped ';' ([';'].intercalate (parts.map escape)) = parts.map escape := by
    clear h
    induction parts with
    | nil => exact absurd rfl hne
    | cons part parts ih =>
      cases parts with
      | nil =>
        have hone := splitUnescaped_escape part []
        rw [List.append_nil] at hone
        rw [List.map_cons, List.map_nil, List.intercalate_singleton, hone]
        simp [splitUnescaped]
      | cons next parts =>
        have hrest := ih (by simp)
        rw [List.map_cons] at hrest ⊢
        rw [List.map_cons, List.intercalate_cons_cons, List.append_assoc,
          List.singleton_append, splitUnescaped_escape, splitUnescaped_sep (by decide), hrest,
          List.modifyHead_cons, List.append_nil]
  unfold splitEscaped
  rw [hraw, List.map_map]
  conv_rhs => rw [← List.map_id parts]
  apply List.map_congr_left
  exact fun part hp => unescape_escape (h part hp)

/-- What the reader would take off `text`: a scheme, or white space. -/
def Bare (scheme text : List Char) : Prop :=
  (∀ c, text.head? = some c → Text.isWhitespace c = false) ∧ ¬ scheme <+: text

theorem withoutScheme_of_not (h : ¬ scheme <+: text) :
    withoutScheme scheme text = text := by
  unfold withoutScheme
  cases hstrip : Text.stripPrefix scheme text with
  | none => rfl
  | some rest =>
    exfalso
    apply h
    refine ⟨rest, ?_⟩
    revert hstrip
    clear h
    induction scheme generalizing text with
    | nil =>
      intro hstrip
      exact (Option.some.inj hstrip).symm
    | cons c scheme ih =>
      intro hstrip
      cases text with
      | nil => cases hstrip
      | cons d text =>
        rw [Text.stripPrefix] at hstrip
        split at hstrip
        · rename_i hcd
          rw [List.cons_append, ih hstrip, hcd]
        · cases hstrip

theorem withoutScheme_prefix (scheme rest : List Char) :
    withoutScheme scheme (scheme ++ rest) = rest := by
  unfold withoutScheme
  rw [Text.stripPrefix_append]
  rfl

/-- An address is read as it was exactly when there is nothing to take off. -/
theorem withoutScheme_iff (hscheme : scheme ≠ [])
    (hlast : ∀ c, text.getLast? = some c → Text.isWhitespace c = false) :
    withoutScheme scheme (Text.trim text) = text ↔ Bare scheme text := by
  constructor
  · intro hsame
    have hlen : text.length ≤ (Text.trim text).length := by
      rcases withoutScheme_suffix scheme (Text.trim text) with ⟨lead, hlead⟩
      rw [hsame] at hlead
      rw [hlead, List.length_append]
      omega
    rcases Text.trim_parts text with ⟨before, after, htext, _, _⟩
    have htrim : Text.trim text = text := by
      have hall := congrArg List.length htext
      simp only [List.length_append] at hall
      have hb : before = [] := List.eq_nil_of_length_eq_zero (by omega)
      have ha : after = [] := List.eq_nil_of_length_eq_zero (by omega)
      rw [hb, ha, List.append_nil, List.nil_append] at htext
      exact htext.symm
    constructor
    · intro c hc
      apply @Text.trim_head text
      rw [htrim]
      exact hc
    · rintro ⟨rest, hrest⟩
      rw [htrim, ← hrest, withoutScheme_prefix] at hsame
      have hlens := congrArg List.length hsame
      rw [List.length_append] at hlens
      exact hscheme (List.eq_nil_of_length_eq_zero (by omega))
  · rintro ⟨hhead, hnot⟩
    rw [Text.trim_eq_self hhead hlast, withoutScheme_of_not hnot]

/-! ## Types and preferences -/

def prefText (n : UInt8) : List Char := (toString n.toNat).toList

theorem prefText_read (n : UInt8) :
    parseU8 (Text.trim (prefText n)) = some n ∧ Text.trim (caret (prefText n)) = caret (prefText n) ∧
      NoReturn (prefText n) := by
  have hall : ∀ m < 256, parseU8 (Text.trim (prefText (UInt8.ofNat m))) = some (UInt8.ofNat m) ∧
      Text.trim (caret (prefText (UInt8.ofNat m))) = caret (prefText (UInt8.ofNat m)) ∧
      NoReturn (prefText (UInt8.ofNat m)) := by
    unfold NoReturn
    decide +kernel
  have hn := hall n.toNat n.toNat_lt
  rw [UInt8.ofNat_toNat] at hn
  exact hn

def typeParams (kinds : List (List Char)) (pref : Option UInt8) : List Param :=
  (if kinds.isEmpty then [] else [⟨"TYPE".toList, kinds⟩]) ++
    (pref.map fun n => ⟨"PREF".toList, [prefText n]⟩).toList

theorem typed_eq (name : List Char) (lead : List Param) (value : List Char)
    (kinds : List (List Char)) (pref : Option UInt8) :
    typed ⟨none, name, lead, value⟩ kinds pref =
      ⟨none, name, lead ++ typeParams kinds pref, value⟩ := by
  have htype : toAsciiUppercase "TYPE".toList = "TYPE".toList := by decide
  have hpref : toAsciiUppercase "PREF".toList = "PREF".toList := by decide
  unfold typed typeParams ContentLine.plus
  rw [htype, hpref]
  cases kinds with
  | nil | cons =>
    cases pref with
    | none => simp
    | some n => simp [prefText]

theorem emailLine_eq (email : Email) :
    emailLine email = ⟨none, "EMAIL".toList,
      typeParams (email.kinds.filter fun kind => kind != "internet".toList) email.pref,
      escape email.address⟩ := by
  have hname : toAsciiUppercase "EMAIL".toList = "EMAIL".toList := by decide
  unfold emailLine ContentLine.new
  rw [hname, typed_eq]
  rfl

theorem phoneLine_eq (phone : Phone) :
    phoneLine phone = ⟨none, "TEL".toList,
      [⟨"VALUE".toList, ["text".toList]⟩] ++ typeParams phone.kinds phone.pref,
      escape phone.number⟩ := by
  have hname : toAsciiUppercase "TEL".toList = "TEL".toList := by decide
  have hvalue : toAsciiUppercase "VALUE".toList = "VALUE".toList := by decide
  unfold phoneLine ContentLine.new ContentLine.plus
  rw [hname, hvalue, typed_eq]
  rfl

section Typed

variable {name value : List Char} {lead : List Param} {kinds : List (List Char)}
  {pref : Option UInt8} (hlead : ∀ p ∈ lead, p.name = "VALUE".toList)
  (hkinds : ∀ kind ∈ kinds, Kind kind)

include hlead

theorem values_type :
    (⟨none, name, lead ++ typeParams kinds pref, value⟩ : ContentLine).values "TYPE".toList =
      kinds := by
  have hnone : lead.filter (fun p => Text.eqIgnoreAsciiCase p.name "TYPE".toList) = [] := by
    rw [List.filter_eq_nil_iff]
    intro p hp
    rw [hlead p hp]
    decide
  have hpref : (pref.map fun n => (⟨"PREF".toList, [prefText n]⟩ : Param)).toList.filter
      (fun p => Text.eqIgnoreAsciiCase p.name "TYPE".toList) = [] := by
    rw [List.filter_eq_nil_iff]
    intro p hp
    rcases Option.map_eq_some_iff.mp (Option.mem_toList.mp hp) with ⟨n, _, rfl⟩
    show ¬ Text.eqIgnoreAsciiCase "PREF".toList "TYPE".toList = true
    decide
  have hsame : Text.eqIgnoreAsciiCase "TYPE".toList "TYPE".toList = true := by decide
  unfold ContentLine.values typeParams
  rw [List.filter_append, List.filter_append, hnone, hpref, List.append_nil, List.nil_append]
  cases kinds with
  | nil => rfl
  | cons kind kinds =>
    have hkept : [(⟨"TYPE".toList, kind :: kinds⟩ : Param)].filter
        (fun p => Text.eqIgnoreAsciiCase p.name "TYPE".toList) =
        [⟨"TYPE".toList, kind :: kinds⟩] := by
      rw [List.filter_eq_self]
      intro p hp
      rw [List.mem_singleton.mp hp]
      exact hsame
    rw [if_neg (by simp), hkept]
    simp

theorem values_pref :
    (⟨none, name, lead ++ typeParams kinds pref, value⟩ : ContentLine).values "PREF".toList =
      (pref.map prefText).toList := by
  have hnone : lead.filter (fun p => Text.eqIgnoreAsciiCase p.name "PREF".toList) = [] := by
    rw [List.filter_eq_nil_iff]
    intro p hp
    rw [hlead p hp]
    decide
  have htype : (if kinds.isEmpty then [] else [(⟨"TYPE".toList, kinds⟩ : Param)]).filter
      (fun p => Text.eqIgnoreAsciiCase p.name "PREF".toList) = [] := by
    split
    · rfl
    · rw [List.filter_cons_of_neg (by show ¬ Text.eqIgnoreAsciiCase "TYPE".toList _ = true; decide)]
      rfl
  have hsame : Text.eqIgnoreAsciiCase "PREF".toList "PREF".toList = true := by decide
  unfold ContentLine.values typeParams
  rw [List.filter_append, List.filter_append, hnone, htype, List.nil_append, List.nil_append]
  cases pref with
  | none => rfl
  | some n =>
    have hkept : [(⟨"PREF".toList, [prefText n]⟩ : Param)].filter
        (fun p => Text.eqIgnoreAsciiCase p.name "PREF".toList) =
        [⟨"PREF".toList, [prefText n]⟩] := by
      rw [List.filter_eq_self]
      intro p hp
      rw [List.mem_singleton.mp hp]
      exact hsame
    rw [Option.map_some, Option.toList_some, hkept]
    rfl

include hkinds

/-- The types written are the types read. -/
theorem kindsOf_typed :
    kindsOf ⟨none, name, lead ++ typeParams kinds pref, value⟩ = kinds := by
  have hsplit : kinds.flatMap (fun v => v.splitOn ',') = kinds := by
    conv_rhs => rw [← List.flatMap_singleton' kinds]
    apply List.flatMap_congr
    exact fun kind hk => List.splitOn_eq_singleton (hkinds kind hk).no_comma
  have hmap : kinds.map (fun v => Text.toAsciiLowercase (Text.trim v)) = kinds := by
    conv_rhs => rw [← List.map_id kinds]
    apply List.map_congr_left
    intro kind hk
    rw [(hkinds kind hk).trimmed, (hkinds kind hk).lower]
    rfl
  unfold kindsOf
  rw [values_type hlead, hsplit, hmap, List.filter_eq_self]
  intro kind hk
  rw [Bool.and_eq_true]
  exact ⟨by simpa using (hkinds kind hk).some_text, bne_iff_ne.mpr (hkinds kind hk).no_pref⟩

theorem prefOf_typed :
    prefOf ⟨none, name, lead ++ typeParams kinds pref, value⟩ = pref := by
  unfold prefOf
  rw [values_pref hlead]
  cases pref with
  | some n =>
    rw [Option.map_some, Option.toList_some, List.findSome?_cons, (prefText_read n).1]
    rfl
  | none =>
    have hhas : (⟨none, name, lead ++ typeParams kinds none, value⟩ : ContentLine).has
        "TYPE".toList "pref".toList = false := by
      unfold ContentLine.has
      rw [values_type hlead, List.any_eq_false]
      intro kind hk hsame
      apply (hkinds kind hk).no_pref
      have hlow : Text.toAsciiLowercase "pref".toList = "pref".toList := by decide
      simp only [Text.eqIgnoreAsciiCase, beq_iff_eq] at hsame
      rw [(hkinds kind hk).lower, hlow] at hsame
      exact hsame
    rw [hhas]
    rfl

end Typed

theorem caretChar_ends (c : Char) :
    ((caretChar c).head? = some c ∨ (caretChar c).head? = some '^') ∧
      ∃ init last, caretChar c = init ++ [last] ∧ (last = c ∨ last = '^' ∨ last = 'n' ∨ last = '\'') := by
  unfold caretChar
  split
  · exact ⟨Or.inr rfl, ['^'], '^', rfl, Or.inr (Or.inl rfl)⟩
  · split
    · exact ⟨Or.inr rfl, ['^'], 'n', rfl, Or.inr (Or.inr (Or.inl rfl))⟩
    · split
      · exact ⟨Or.inr rfl, ['^'], '\'', rfl, Or.inr (Or.inr (Or.inr rfl))⟩
      · exact ⟨Or.inl rfl, [], c, rfl, Or.inl rfl⟩

theorem trim_caret (h : Text.trim text = text) :
    Text.trim (caret text) = caret text := by
  apply Text.trim_eq_self
  · intro c hc
    cases text with
    | nil => cases hc
    | cons d text =>
      have hd : Text.isWhitespace d = false := by
        apply @Text.trim_head (d :: text)
        rw [h]
        rfl
      have hcaret : caret (d :: text) = caretChar d ++ caret text := rfl
      rw [hcaret, List.head?_append] at hc
      rcases (caretChar_ends d).1 with hhead | hhead
      · rw [hhead] at hc
        cases hc
        exact hd
      · rw [hhead] at hc
        cases hc
        decide
  · intro c hc
    rcases List.eq_nil_or_concat text with rfl | ⟨text, d, rfl⟩
    · cases hc
    · rw [List.concat_eq_append] at h hc
      have hd : Text.isWhitespace d = false := by
        apply @Text.trim_last (text ++ [d])
        rw [h, List.getLast?_concat]
      rcases (caretChar_ends d).2 with ⟨init, last, hlast, hcases⟩
      have hcaret : caret (text ++ [d]) = (caret text ++ init) ++ [last] := by
        unfold caret
        rw [List.flatMap_append, List.flatMap_singleton, hlast, List.append_assoc]
      rw [hcaret, List.getLast?_concat, Option.some.injEq] at hc
      subst hc
      rcases hcases with rfl | rfl | rfl | rfl
      · exact hd
      · decide
      · decide
      · decide

/-! ## The lines of a card -/

theorem typeParams_read {kinds : List (List Char)} (hkinds : ∀ kind ∈ kinds, Kind kind)
    (pref : Option UInt8) : ∀ p ∈ typeParams kinds pref, p.Parsed ∧
      p.name ≠ "ENCODING".toList ∧ Quoted.inside '"' false p.name = false ∧
      ∀ v ∈ p.values, Firm v := by
  have htype : Capitals "TYPE".toList := ⟨by decide, by decide⟩
  have hpref : Capitals "PREF".toList := ⟨by decide, by decide⟩
  have htypene : "TYPE".toList ≠ "ENCODING".toList := by decide
  have hprefne : "PREF".toList ≠ "ENCODING".toList := by decide
  intro p hp
  rcases List.mem_append.mp hp with hp | hp
  · split at hp
    · cases hp
    · rename_i hne
      rw [List.mem_singleton.mp hp]
      exact ⟨⟨htype.paramName, by simpa using hne, fun v hv => (hkinds v hv).no_return⟩,
        htypene, htype.closed.1, fun v hv => Or.inr (trim_caret (hkinds v hv).trimmed)⟩
  · rcases Option.map_eq_some_iff.mp (Option.mem_toList.mp hp) with ⟨n, _, rfl⟩
    have hn := prefText_read n
    refine ⟨⟨hpref.paramName, by simp, ?_⟩, hprefne, hpref.closed.1, ?_⟩
    · intro v hv
      rw [List.mem_singleton.mp hv]
      exact hn.2.2
    · intro v hv
      rw [List.mem_singleton.mp hv]
      exact Or.inr hn.2.1

/-- What a line must be to be read back among others, once it is plain. -/
def Steady (line : ContentLine) : Prop :=
  FoldsHard [] (logical line) ∧ soft (logical line) = false

theorem emailLine_alone {email : Email} (h : email.Sound) (hsteady : Steady (emailLine email)) :
    Alone (emailLine email) := by
  rw [emailLine_eq] at hsteady ⊢
  have hname : Capitals "EMAIL".toList := ⟨by decide, by decide⟩
  have hkinds : ∀ kind ∈ email.kinds.filter fun kind => kind != "internet".toList, Kind kind :=
    fun kind hk => h.kinds kind (List.mem_filter.mp hk).1
  have hparams := typeParams_read hkinds email.pref
  exact { plain_of hname (escape_unbroken _) (fun p hp => (hparams p hp).1)
      (fun p hp => (hparams p hp).2.1) with
    closed := fun p hp => (hparams p hp).2.2.1
    firm := fun p hp => (hparams p hp).2.2.2
    hard := hsteady.1
    ends := hsteady.2 }

theorem phoneLine_alone {phone : Phone} (h : phone.Sound) (hsteady : Steady (phoneLine phone)) :
    Alone (phoneLine phone) := by
  rw [phoneLine_eq] at hsteady ⊢
  have hname : Capitals "TEL".toList := ⟨by decide, by decide⟩
  have hvalue : Capitals "VALUE".toList := ⟨by decide, by decide⟩
  have hparams : ∀ p ∈ [(⟨"VALUE".toList, ["text".toList]⟩ : Param)] ++
      typeParams phone.kinds phone.pref, p.Parsed ∧ p.name ≠ "ENCODING".toList ∧
        Quoted.inside '"' false p.name = false ∧ ∀ v ∈ p.values, Firm v := by
    intro p hp
    rcases List.mem_append.mp hp with hp | hp
    · rw [List.mem_singleton.mp hp]
      refine ⟨⟨hvalue.paramName, by simp, ?_⟩, by decide, hvalue.closed.1, ?_⟩
      · intro v hv
        rw [List.mem_singleton.mp hv]
        decide
      · intro v hv
        rw [List.mem_singleton.mp hv]
        exact Or.inr (by decide)
    · exact typeParams_read h.kinds phone.pref p hp
  exact { plain_of hname (escape_unbroken _) (fun p hp => (hparams p hp).1)
      (fun p hp => (hparams p hp).2.1) with
    closed := fun p hp => (hparams p hp).2.2.1
    firm := fun p hp => (hparams p hp).2.2.2
    hard := hsteady.1
    ends := hsteady.2 }

/-- The lines of a card are read back among each other. Only a line carried along can have a
parameter whose name opens a quote or whose value begins or ends with white space. -/
structure LinesHold (card : Card) : Prop where
  closed : ∀ line ∈ card.other, NamesClosed line
  firm : ∀ line ∈ card.other, ∀ p ∈ line.params, ∀ v ∈ p.values, Firm v
  steady : ∀ line ∈ cardLines card, Steady line

theorem whitespace_unbroken (h : ∀ c ∈ text, Text.isWhitespace c = false) :
    ∀ c ∈ text, isBreak c = false := by
  intro c hc
  unfold isBreak
  rw [Bool.or_eq_false_iff, beq_eq_false_iff_ne, beq_eq_false_iff_ne]
  constructor
  · rintro rfl
    exact absurd (h _ hc) (by decide)
  · rintro rfl
    exact absurd (h _ hc) (by decide)

theorem intercalate_unbroken (parts : List (List Char)) :
    ∀ c ∈ [';'].intercalate (parts.map escape), isBreak c = false := by
  intro c hc
  cases parts with
  | nil => cases hc
  | cons part parts =>
    rw [List.map_cons, intercalate_flatMap] at hc
    rcases List.mem_append.mp hc with hc | hc
    · exact escape_unbroken part c hc
    · rcases List.mem_flatMap.mp hc with ⟨piece, hpiece, hc⟩
      rcases List.mem_map.mp hpiece with ⟨raw, _, rfl⟩
      rcases List.mem_cons.mp hc with rfl | hc
      · rfl
      · exact escape_unbroken raw c hc

theorem cardLines_alone {card : Card} (h : card.Finished) (hold : LinesHold card) :
    ∀ line ∈ cardLines card, Alone line := by
  intro line hline
  have hst := hold.steady line hline
  unfold cardLines at hline
  simp only [List.mem_append, List.mem_cons, List.not_mem_nil, or_false, Option.mem_toList,
    Option.map_eq_some_iff, List.mem_map, or_assoc] at hline
  rcases hline with rfl | rfl | ⟨u, _, rfl⟩ | ⟨k, hk, rfl⟩ | rfl | ⟨n, _, rfl⟩ | ⟨e, he, rfl⟩ |
    ⟨p, hp, rfl⟩ | horg | ⟨n, _, rfl⟩ | ⟨p, hp, rfl⟩ | ⟨r, hr, rfl⟩ | hmember | hother | rfl
  · exact new_alone ⟨by decide, by decide⟩ (by decide)
  · exact new_alone ⟨by decide, by decide⟩ (by decide)
  · exact new_alone ⟨by decide, by decide⟩ (escape_unbroken u)
  · exact new_alone ⟨by decide, by decide⟩ (h.kind k hk).unbroken
  · exact new_alone ⟨by decide, by decide⟩ (escape_unbroken _)
  · exact new_alone ⟨by decide, by decide⟩ (intercalate_unbroken n.parts)
  · exact emailLine_alone (h.emails e he) hst
  · exact phoneLine_alone (h.phones p hp) hst
  · split at horg
    · cases horg
    · rw [List.mem_singleton.mp horg]
      exact new_alone ⟨by decide, by decide⟩ (intercalate_unbroken card.org)
  · exact new_alone ⟨by decide, by decide⟩ (escape_unbroken n)
  · exact new_alone ⟨by decide, by decide⟩ (whitespace_unbroken (h.photo p hp).2)
  · exact new_alone ⟨by decide, by decide⟩ (h.revision r hr).unbroken
  · split at hmember
    · rcases List.mem_map.mp hmember with ⟨m, hm, rfl⟩
      exact new_alone ⟨by decide, by decide⟩ (h.members m hm).unbroken
    · cases hmember
  · exact { (h.other line hother).toPlain with
      closed := hold.closed line hother
      firm := hold.firm line hother
      hard := hst.1
      ends := hst.2 }
  · exact new_alone ⟨by decide, by decide⟩ (by decide)

end Mailo.Pim.VCard
