import Mailo.Pim.VCard.Reading

/-!
# The lines of a card on the wire

Which lines a text is read into, and when lines written one after another are read back as
themselves: each must write back on its own, and none may end where a soft break would join the
next one to it.
-/

namespace Mailo.Pim.VCard

open Domain Library Pim.Line

/-! ## The lines of a text -/

def NoEncoding (text : List Char) : Prop :=
  ∀ raw ∈ unfold text, ∀ line, Line.parse raw = some line →
    ∀ p ∈ line.params, p.name ≠ "ENCODING".toList

theorem continues_append {a : List Char} (hne : a ≠ []) (b : List Char) :
    Unfolding.continues (a ++ b) = Unfolding.continues a := by
  cases a with
  | nil => exact absurd rfl hne
  | cons c a => rfl

theorem soft_dropLast {last : List Char} (h : soft last = true) :
    last.dropLast ≠ [] ∧ ∀ more, Unfolding.continues (last.dropLast ++ more) =
      Unfolding.continues last := by
  obtain ⟨init, rfl⟩ := List.getLast?_eq_some_iff.mp (soft_end h)
  have hne : init ≠ [] := by
    rintro rfl
    revert h
    decide
  rw [List.dropLast_concat]
  exact ⟨hne, fun more => by rw [continues_append hne, continues_append hne]⟩

variable {raw text name : List Char} {line : ContentLine} {E : Encodings}

theorem unfold_starts (h : raw ∈ (unfold text).tail) :
    Unfolding.continues raw = false := by
  have hrun : ∀ (ps out : List (List Char)), (∀ l ∈ out, l ≠ []) →
      (∀ l ∈ out.tail, Unfolding.continues l = false) →
      ∀ l ∈ (ps.foldl rejoin out).tail, Unfolding.continues l = false := by
    intro ps
    induction ps with
    | nil => exact fun _ _ hout => hout
    | cons p ps ih =>
      intro out hne hout
      have hlastof (last last' : List Char) (hlast : out.getLast? = some last)
          (hne' : last' ≠ []) (hsame : Unfolding.continues last' = Unfolding.continues last) :
          (∀ l ∈ out.dropLast ++ [last'], l ≠ []) ∧
            ∀ l ∈ (out.dropLast ++ [last']).tail, Unfolding.continues l = false := by
        obtain ⟨init, rfl⟩ := List.getLast?_eq_some_iff.mp hlast
        rw [List.dropLast_concat]
        constructor
        · intro l hl
          rcases List.mem_append.mp hl with hl | hl
          · exact hne l (List.mem_append_left _ hl)
          · rw [List.mem_singleton.mp hl]
            exact hne'
        · cases init with
          | nil => simp
          | cons first init =>
            intro l hl
            rcases List.mem_append.mp hl with hl | hl
            · exact hout l (List.mem_append_left _ hl)
            · rw [List.mem_singleton.mp hl, hsame]
              exact hout last (List.mem_append_right _ (List.mem_singleton.mpr rfl))
      have hstep : (∀ l ∈ rejoin out p, l ≠ []) ∧
          ∀ l ∈ (rejoin out p).tail, Unfolding.continues l = false := by
        unfold rejoin
        split
        · exact ⟨hne, hout⟩
        · rename_i hp
          have hpne : p ≠ [] := by simpa using hp
          have hmem : ∀ l ∈ out ++ [p], l ≠ [] := by
            intro l hl
            rcases List.mem_append.mp hl with hl | hl
            · exact hne l hl
            · rw [List.mem_singleton.mp hl]
              exact hpne
          split
          · rename_i hlast
            rw [List.getLast?_eq_none_iff] at hlast
            subst hlast
            exact ⟨hmem, by simp⟩
          · rename_i last hlast
            split
            · rename_i hsoft
              have hdrop := soft_dropLast hsoft
              exact hlastof last _ hlast (by simp [hpne]) (hdrop.2 p)
            · have hlne := hne last (List.mem_of_getLast? hlast)
              split
              · exact hlastof last _ hlast (by simp [hlne]) (continues_append hlne _)
              · rename_i hcont
                refine ⟨hmem, ?_⟩
                cases out with
                | nil => cases hlast
                | cons first out =>
                  intro l hl
                  rcases List.mem_append.mp hl with hl | hl
                  · exact hout l hl
                  · rw [List.mem_singleton.mp hl]
                    simpa using hcont
      exact ih _ hstep.1 hstep.2
  rw [unfold_eq] at h
  exact hrun _ [] (by simp) (by simp) raw h

theorem parse_value (h : Line.parse raw = some line) :
    ∀ c ∈ line.value, c ∈ raw := by
  unfold Line.parse at h
  split at h
  · cases h
  · rename_i head value hhead
    rcases of_splitHead hhead with ⟨rfl, _⟩
    split at h
    · cases h
    · dsimp only at h
      split at h
      · cases h
      · cases h
        exact fun c hc => List.mem_append_right _ (.tail _ hc)

theorem continues_trimmed (name : List Char) :
    Unfolding.continues (toAsciiUppercase (Text.trim name)) = false := by
  have hhead : ∀ c, (toAsciiUppercase (Text.trim name)).head? = some c →
      Text.isWhitespace c = false := by
    rw [← trim_upper]
    exact fun c hc => Text.trim_head hc
  cases htext : toAsciiUppercase (Text.trim name) with
  | nil => rfl
  | cons c rest =>
    have hc := hhead c (by rw [htext]; rfl)
    unfold Unfolding.continues
    rw [List.head?_cons]
    cases hspace : (some c == some ' ' || some c == some '\t') with
    | false => rfl
    | true =>
      simp only [Bool.or_eq_true, beq_iff_eq, Option.some.injEq] at hspace
      rcases hspace with rfl | rfl
      · exact absurd hc (by decide)
      · exact absurd hc (by decide)

theorem parse_starts (h : Line.parse raw = some line) (hraw : Unfolding.continues raw = false) :
    Unfolding.continues (fullName line) = false := by
  unfold Line.parse at h
  split at h
  · cases h
  · rename_i head value hhead
    rcases of_splitHead hhead with ⟨rfl, _⟩
    split at h
    · cases h
    · rename_i full parts hsplit
      dsimp only at h
      split at h
      · cases h
      · cases h
        rcases splitGroup_written full with ⟨lead, hfull, hlead, _⟩
        have hname : fullName
            { group := (splitGroup full).1
              name := toAsciiUppercase (Text.trim (splitGroup full).2)
              params := (parts.filter fun p => !p.isEmpty).map param
              value := value } =
            lead ++ toAsciiUppercase (Text.trim (splitGroup full).2) := by
          unfold fullName
          rw [hlead]
        rw [hname]
        by_cases hnil : lead = []
        · rw [hnil, List.nil_append]
          exact continues_trimmed _
        · rw [continues_append hnil]
          have hstart : Unfolding.continues (head ++ ':' :: value) =
              Unfolding.continues lead := by
            have hhead' : ∃ more, head = full ++ more := by
              rcases Quoted.split_first '"' hsplit with heq | ⟨more, heq⟩
              · exact ⟨[], by rw [heq, List.append_nil]⟩
              · exact ⟨_, heq⟩
            rcases hhead' with ⟨more, hmore⟩
            rw [hmore, hfull, List.append_assoc, List.append_assoc, continues_append hnil]
          rw [← hstart]
          exact hraw

theorem decode_plain (E : Encodings) (h : line.Parsed)
    (hno : ∀ p ∈ line.params, p.name ≠ "ENCODING".toList) : decodeValue E line = line := by
  unfold decodeValue
  rw [has_none h hno, if_neg (by simp)]

theorem lines_eq (h : NoEncoding text) :
    lines E text = (unfold text).filterMap Line.parse := by
  unfold Line.lines
  conv_rhs => rw [← List.map_id ((unfold text).filterMap Line.parse)]
  apply List.map_congr_left
  intro line hline
  rcases List.mem_filterMap.mp hline with ⟨raw, hraw, hparse⟩
  exact decode_plain E (parse_parsed hparse (unfold_unbroken hraw)) (h raw hraw line hparse)

theorem lines_plain (h : NoEncoding text) :
    ∀ line ∈ (lines E text).tail, Plain line := by
  rw [lines_eq h]
  have htail : ∀ line ∈ ((unfold text).filterMap Line.parse).tail,
      ∃ raw ∈ (unfold text).tail, Line.parse raw = some line := by
    cases unfold text with
    | nil => simp
    | cons raw raws =>
      intro line hline
      rw [List.filterMap_cons] at hline
      cases hparse : Line.parse raw with
      | none =>
        rw [hparse] at hline
        exact List.mem_filterMap.mp (List.mem_of_mem_tail hline)
      | some first =>
        rw [hparse] at hline
        exact List.mem_filterMap.mp hline
  intro line hline
  rcases htail line hline with ⟨raw, hraw, hparse⟩
  have hmem := List.mem_of_mem_tail hraw
  have hunb := unfold_unbroken hmem
  exact ⟨parse_parsed hparse hunb, fun c hc => hunb c (parse_value hparse c hc),
    h raw hmem line hparse, parse_starts hparse (unfold_starts hraw)⟩

/-- Every card of a text that declares no encoding. -/
theorem parse_finished (h : NoEncoding text) :
    ∀ card ∈ parse E text, card.Finished :=
  readLines_finished (lines_plain h)

/-- A line that is read back among others. -/
structure Alone (line : ContentLine) : Prop extends Plain line where
  closed : NamesClosed line
  firm : ∀ p ∈ line.params, ∀ v ∈ p.values, Firm v
  hard : FoldsHard [] (logical line)
  ends : soft (logical line) = false

theorem Alone.writesBack (h : Alone line) : WritesBack line :=
  ⟨h.unbroken, h.closed, h.firm, h.hard⟩

theorem continues_logical (h : Plain line) :
    Unfolding.continues (logical line) = false := by
  have hne : fullName line ≠ [] := by
    unfold fullName
    simp [h.parsed.named]
  have hhead : logical line =
      fullName line ++ (line.params.flatMap writeParam ++ ':' :: line.value) := by
    have hwrite : writeHead line = fullName line ++ line.params.flatMap writeParam := rfl
    rw [logical, hwrite, List.append_assoc]
  rw [hhead, continues_append hne]
  exact h.starts

theorem unfold_lines {lines : List ContentLine} (h : ∀ line ∈ lines, Alone line)
    {out : List (List Char)} (hout : ∀ last, out.getLast? = some last → soft last = false) :
    (physicals (lines.flatMap Line.write)).foldl rejoin out = out ++ lines.map logical := by
  induction lines generalizing out with
  | nil => simp [physicals, rejoin_blank]
  | cons line lines ih =>
    have hline := h line (.head _)
    have hunb := logical_unbroken hline.parsed hline.unbroken
    rw [List.flatMap_cons, Line.write,
      fold_read (by simp [logical]) hunb hline.hard hout
        (Or.inr (continues_logical hline.toPlain)),
      ih (fun l hl => h l (.tail _ hl))]
    · simp
    · intro last hlast
      rw [List.getLast?_concat, Option.some.injEq] at hlast
      rw [← hlast]
      exact hline.ends

/-- Lines that are read back among others are read back together. -/
theorem lines_written (E : Encodings) {ls : List ContentLine} (h : ∀ line ∈ ls, Alone line) :
    lines E (ls.flatMap Line.write) = ls := by
  have hread : unfold (ls.flatMap Line.write) = ls.map logical := by
    rw [unfold_eq, unfold_lines h fun _ hl => by cases hl]
    rfl
  have hparse : ∀ line ∈ ls, Line.parse (logical line) = some line := fun line hl =>
    parse_logical (h line hl).parsed (h line hl).writesBack
  have hmap : (ls.map logical).filterMap Line.parse = ls := by
    rw [List.filterMap_map]
    conv_rhs => rw [← List.filterMap_some (l := ls)]
    exact List.filterMap_congr hparse
  unfold Line.lines
  rw [hread, hmap]
  conv_rhs => rw [← List.map_id ls]
  apply List.map_congr_left
  exact fun line hl => decode_plain E (h line hl).parsed (h line hl).no_encoding

/-! ## The lines of a card -/

/-- A line that does not declare quoted-printable ends in no soft break, at any place in it. -/
theorem soft_prefix {upto : List Char} (more : List Char)
    (h : quotedPrintable (upto ++ more) = false) :
    soft upto = false := by
  have hnone : quotedPrintable upto = false := by
    cases hhead : splitHead upto with
    | none => exact quotedPrintable_none hhead
    | some cut =>
      have hsome : (splitHead upto).isSome := by rw [hhead]; rfl
      rw [← (quotedPrintable_more hsome more).2]
      exact h
  simp [soft, hnone]

theorem hard_of (h : quotedPrintable (logical line) = false) :
    FoldsHard [] (logical line) ∧ soft (logical line) = false := by
  constructor
  · intro upto c rest htext _
    rw [List.nil_append]
    apply soft_prefix (c :: rest)
    rw [← htext]
    exact h
  · apply soft_prefix []
    rw [List.append_nil]
    exact h

/-- A property name written in capitals. -/
structure Capitals (name : List Char) : Prop where
  some_text : name ≠ []
  letters : ∀ c ∈ name, 65 ≤ c.toNat ∧ c.toNat ≤ 90

theorem Capitals.not_mem (h : Capitals name) {d : Char} (hd : d.toNat < 65 ∨ 90 < d.toNat) :
    d ∉ name := by
  intro hmem
  have hletter := h.letters d hmem
  omega

theorem Capitals.upper (h : Capitals name) :
    toAsciiUppercase name = name := by
  unfold toAsciiUppercase
  conv_rhs => rw [← List.map_id name]
  apply List.map_congr_left
  intro c hc
  have hletter := h.letters c hc
  rcases Text.toUpper_cases c with ⟨h1, _⟩ | ⟨_, hsame⟩
  · omega
  · exact hsame

theorem Capitals.trimmed (h : Capitals name) : Text.trim name = name := by
  have hletter : ∀ c ∈ name, Text.isWhitespace c = false := by
    intro c hc
    have hbound := h.letters c hc
    exact Text.isWhitespace_letter hbound.1 (by omega)
  apply Text.trim_eq_self
  · exact fun c hc => hletter c (List.mem_of_head? hc)
  · exact fun c hc => hletter c (List.mem_of_getLast? hc)

theorem Capitals.unbroken (h : Capitals name) :
    ∀ c ∈ name, isBreak c = false := by
  intro c hc
  have hletter := h.letters c hc
  unfold isBreak
  rw [Bool.or_eq_false_iff, beq_eq_false_iff_ne, beq_eq_false_iff_ne]
  constructor
  · rintro rfl
    exact absurd hletter (by decide)
  · rintro rfl
    exact absurd hletter (by decide)

theorem Capitals.closed (h : Capitals name) :
    Quoted.inside '"' false name = false ∧
      ∀ c ∈ Quoted.outside '"' false name, c ≠ ';' ∧ c ≠ ':' := by
  refine ⟨Quoted.inside_of_notMem '"' (h.not_mem (by decide)) false, fun c hc => ?_⟩
  have hmem := Quoted.mem_of_outside '"' hc
  constructor
  · rintro rfl
    exact h.not_mem (by decide) hmem
  · rintro rfl
    exact h.not_mem (by decide) hmem

theorem Capitals.paramName (h : Capitals name) : ParamName name :=
  ⟨h.not_mem (by decide), h.trimmed, h.upper, h.closed.2, h.unbroken⟩

/-- A line written by hand: a name in capitals and parameters that are read back. -/
theorem plain_of {value : List Char} (hname : Capitals name)
    (hvalue : ∀ c ∈ value, isBreak c = false) {params : List Param}
    (hparams : ∀ p ∈ params, p.Parsed) (hno : ∀ p ∈ params, p.name ≠ "ENCODING".toList) :
    Plain ⟨none, name, params, value⟩ := by
  have hfull : fullName ⟨none, name, params, value⟩ = name := rfl
  refine ⟨⟨?_, ?_, ?_, ?_, hname.trimmed, hname.upper, hname.some_text, ?_, hparams⟩, hvalue,
    hno, ?_⟩
  · rw [hfull]
    exact hname.closed.1
  · rw [hfull]
    exact hname.closed.2
  · intro g hg
    cases hg
  · intro _
    exact hname.not_mem (by decide)
  · rw [hfull]
    exact hname.unbroken
  · rw [hfull, ← hname.upper, ← hname.trimmed]
    exact continues_trimmed name

/-- A line without parameters is read back among others. -/
theorem new_alone {value : List Char} (hname : Capitals name)
    (hvalue : ∀ c ∈ value, isBreak c = false) : Alone (ContentLine.new name value) := by
  have hnew : ContentLine.new name value = ⟨none, name, [], value⟩ := by
    unfold ContentLine.new
    rw [hname.upper]
  have hplain : Plain ⟨none, name, [], value⟩ := plain_of hname hvalue (by simp) (by simp)
  have hnames : NamesClosed ⟨none, name, [], value⟩ := fun p hp => by cases hp
  have hquoted : quotedPrintable (logical ⟨none, name, [], value⟩) = false := by
    have hsplit : splitOutsideQuotes name ';' = [name] :=
      Quoted.split_whole '"' (by decide) fun hc => (hname.closed.2 _ hc).1 rfl
    unfold quotedPrintable logical
    rw [splitHead_written hplain.parsed hnames]
    have hhead : writeHead ⟨none, name, [], value⟩ = name := by simp [writeHead]
    rw [hhead]
    dsimp only
    rw [hsplit]
    rfl
  rw [hnew]
  exact { hplain with
    closed := hnames
    firm := fun p hp => by cases hp
    hard := (hard_of hquoted).1
    ends := (hard_of hquoted).2 }

end Mailo.Pim.VCard
