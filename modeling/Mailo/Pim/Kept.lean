import Mailo.Pim.Reread

/-!
# A line kept and a line written

A line read from a stranger's text is echoed by writing it. Four things it may hold are lost on
the way: a line break that quoted-printable carried into the value, a quote left open by a
parameter name, white space at the ends of an unquoted parameter value, and an `=` in front of a
fold where the head seems to declare quoted-printable. A line with none of them is read back as
it was.
-/

namespace Mailo.Pim.Line

open Domain Library

/-- What a line must be for its text to be read back. -/
structure WritesBack (line : ContentLine) : Prop where
  unbroken : ∀ c ∈ line.value, isBreak c = false
  closed : NamesClosed line
  firm : ∀ p ∈ line.params, ∀ v ∈ p.values, Firm v
  hard : FoldsHard [] (logical line)

/-- Whether a parameter says what the value is written in, and so goes when it is decoded. -/
def describes (p : Param) : Bool :=
  !(p.name != "ENCODING".toList && p.name != "CHARSET".toList)

variable {line : ContentLine} {E : Encodings} {raw : List Char}

theorem has_encoding (h : line.Parsed)
    (henc : line.has "ENCODING".toList "QUOTED-PRINTABLE".toList = true) :
    ∃ p ∈ line.params, describes p = true := by
  unfold ContentLine.has ContentLine.values at henc
  rw [List.any_eq_true] at henc
  rcases henc with ⟨v, hv, _⟩
  rcases List.mem_flatMap.mp hv with ⟨p, hp, _⟩
  rcases List.mem_filter.mp hp with ⟨hp, hname⟩
  have hupper : ("ENCODING".toList).map Char.toUpper = "ENCODING".toList := by decide
  have hsame := Text.eq_of_eqIgnoreAsciiCase (h.params p hp).name.upper hupper hname
  exact ⟨p, hp, by simp [describes, hsame]⟩

/-- A line decoded holds no parameter that describes it; any other line is left as it is. -/
theorem decode_cases (E : Encodings) (h : line.Parsed) :
    decodeValue E line = line ∨
      (∃ p ∈ line.params, describes p = true) ∧
        (decodeValue E line).params = line.params.filter fun p => !describes p := by
  unfold decodeValue
  split
  · rename_i henc
    refine Or.inr ⟨has_encoding h henc, ?_⟩
    simp [describes]
  · exact Or.inl rfl

theorem decode_read (E : Encodings) (h : line.Parsed) :
    decodeValue E (decodeValue E line) = decodeValue E line := by
  by_cases henc : line.has "ENCODING".toList "QUOTED-PRINTABLE".toList = true
  · have hparsed := decode_parsed E h
    rcases decode_cases E hparsed with hsame | ⟨⟨p, hp, hdesc⟩, _⟩
    · exact hsame
    · exfalso
      rcases decode_cases E h with hsame | ⟨_, hparams⟩
      · have hfilter : line.params.filter (fun p => !describes p) = line.params := by
          have hval := congrArg ContentLine.params hsame
          unfold decodeValue at hval
          rw [if_pos henc] at hval
          simpa [describes] using hval
        rcases has_encoding h henc with ⟨q, hq, hqdesc⟩
        have hnot := List.filter_eq_self.mp hfilter q hq
        rw [hqdesc] at hnot
        cases hnot
      · rw [hparams] at hp
        have hnot := (List.mem_filter.mp hp).2
        rw [hdesc] at hnot
        cases hnot
  · have hsame : decodeValue E line = line := by
      unfold decodeValue
      rw [if_neg henc]
    rw [hsame, hsame]

theorem lines_read {text : List Char} (h : line ∈ lines E text) :
    line.Parsed ∧ decodeValue E line = line := by
  unfold lines at h
  rcases List.mem_map.mp h with ⟨parsed, hparsed, rfl⟩
  rcases List.mem_filterMap.mp hparsed with ⟨raw, hraw, hparse⟩
  have hline := parse_parsed hparse (unfold_unbroken hraw)
  exact ⟨decode_parsed E hline, decode_read E hline⟩

variable {p : Param} {params : List Param}

theorem body_unbroken (h : p.Parsed) : ∀ c ∈ body p, isBreak c = false := by
  intro c hc
  unfold body at hc
  rcases List.mem_append.mp hc with hc | hc
  · exact h.name.unbroken c hc
  · rcases List.mem_cons.mp hc with rfl | hc
    · rfl
    · have hvalue : ∀ v ∈ p.values, ∀ c ∈ paramValue v, isBreak c = false := by
        intro v hv c hc
        have hcaret := caret_unbroken (h.unbroken v hv)
        unfold paramValue at hc
        dsimp only at hc
        split at hc
        · rcases List.mem_append.mp hc with hc | hc
          · rcases List.mem_cons.mp hc with rfl | hc
            · rfl
            · exact hcaret c hc
          · rw [List.mem_singleton.mp hc]
            rfl
        · exact hcaret c hc
      cases hvalues : p.values with
      | nil => exact absurd hvalues h.some_value
      | cons v vs =>
        rw [hvalues, List.map_cons, intercalate_flatMap] at hc
        rw [hvalues] at hvalue
        rcases List.mem_append.mp hc with hc | hc
        · exact hvalue v (.head _) c hc
        · rcases List.mem_flatMap.mp hc with ⟨part, hpart, hc⟩
          rcases List.mem_map.mp hpart with ⟨w, hw, rfl⟩
          rcases List.mem_cons.mp hc with rfl | hc
          · rfl
          · exact hvalue w (.tail _ hw) c hc

theorem writeHead_unbroken {line : ContentLine} (h : line.Parsed) :
    ∀ c ∈ writeHead line, isBreak c = false := by
  intro c hc
  rw [writeHead_eq, intercalate_flatMap] at hc
  rcases List.mem_append.mp hc with hc | hc
  · exact h.unbroken c hc
  · rcases List.mem_flatMap.mp hc with ⟨part, hpart, hc⟩
    rcases List.mem_map.mp hpart with ⟨p, hp, rfl⟩
    rcases List.mem_cons.mp hc with rfl | hc
    · rfl
    · exact body_unbroken (h.params p hp) c hc

theorem logical_unbroken (h : line.Parsed) (hvalue : ∀ c ∈ line.value, isBreak c = false) :
    ∀ c ∈ logical line, isBreak c = false := by
  intro c hc
  rcases List.mem_append.mp hc with hc | hc
  · exact writeHead_unbroken h c hc
  · rcases List.mem_cons.mp hc with rfl | hc
    · rfl
    · exact hvalue c hc

theorem reParams_firm (h : ∀ p ∈ params, ∀ v ∈ p.values, Firm v) :
    params.map reParam = params := by
  conv_rhs => rw [← List.map_id params]
  apply List.map_congr_left
  intro p hp
  have hvalues : p.values.map reValue = p.values := by
    conv_rhs => rw [← List.map_id p.values]
    apply List.map_congr_left
    exact fun v hv => (reValue_iff v).mpr (h p hp v hv)
  show { p with values := p.values.map reValue } = p
  rw [hvalues]

theorem firm_reParams (h : params.map reParam = params) :
    ∀ p ∈ params, ∀ v ∈ p.values, Firm v := by
  intro p hp v hv
  have hsame : params.map reParam = params.map id := by rw [h, List.map_id]
  have hparam := List.map_inj_left.mp hsame p hp
  have hvalues : p.values.map reValue = p.values.map id := by
    rw [List.map_id]
    exact congrArg Param.values hparam
  exact (reValue_iff v).mp (List.map_inj_left.mp hvalues v hv)

theorem parse_logical (h : line.Parsed) (hback : WritesBack line) :
    parse (logical line) = some line := by
  unfold logical
  rw [parse_written h hback.closed, reParams_firm hback.firm]

/-! ## The first logical line -/

theorem soft_none {upto : List Char} (h : ':' ∉ Quoted.outside '"' false upto) :
    soft upto = false := by
  have hnone : splitHead upto = none := Quoted.cutAt_none '"' h
  simp [soft, quotedPrintable_none hnone]

theorem unfold_head (h : line.Parsed) (hnames : NamesClosed line)
    (hread : unfold (write line) = [raw]) :
    ∃ value, raw = writeHead line ++ ':' :: value := by
  have hout := (writeHead_closed h hnames).2
  have hunb : ∀ c ∈ writeHead line ++ [':'], isBreak c = false := by
    intro c hc
    rcases List.mem_append.mp hc with hc | hc
    · exact writeHead_unbroken h c hc
    · rw [List.mem_singleton.mp hc]
      rfl
  have hsoft : ∀ upto c rest, writeHead line ++ [':'] = upto ++ c :: rest →
      soft upto = false := by
    intro upto c rest hsplit
    apply soft_none
    intro hcolon
    rcases List.append_eq_append_iff.mp hsplit with ⟨a, ha, hb⟩ | ⟨a, ha, _⟩
    · cases a with
      | nil =>
        rw [List.append_nil] at ha
        rw [ha] at hcolon
        exact hout hcolon
      | cons d a =>
        have hlen := congrArg List.length hb
        simp at hlen
    · rw [ha, Quoted.outside_append] at hout
      exact hout (List.mem_append_left _ hcolon)
  rcases unfold_lead (by simp) hunb (by simp) hsoft line.value with ⟨more, hmore⟩
  have hwrite : fold (writeHead line ++ [':'] ++ line.value) = write line := by
    unfold write logical
    rw [List.append_assoc, List.singleton_append]
  rw [hwrite, hread] at hmore
  cases hmore
  exact ⟨more, by rw [List.append_assoc, List.singleton_append]⟩

theorem first_failing {α : Type} {p : α → Prop} {xs : List α} (h : ¬ ∀ x ∈ xs, p x) :
    ∃ before x after, xs = before ++ x :: after ∧ (∀ y ∈ before, p y) ∧ ¬ p x := by
  induction xs with
  | nil => exact absurd (by simp) h
  | cons x xs ih =>
    by_cases hx : p x
    · have hrest : ¬ ∀ y ∈ xs, p y := by
        intro hall
        apply h
        intro y hy
        rcases List.mem_cons.mp hy with rfl | hy
        · exact hx
        · exact hall y hy
      rcases ih hrest with ⟨before, y, after, rfl, hbefore, hy⟩
      refine ⟨x :: before, y, after, rfl, ?_, hy⟩
      intro z hz
      rcases List.mem_cons.mp hz with rfl | hz
      · exact hx
      · exact hbefore z hz
    · exact ⟨[], x, xs, rfl, by simp, hx⟩

theorem logical_at {before after : List Param} (hparams : line.params = before ++ p :: after) :
    ∃ sep rest, isSep sep = true ∧ isBreak sep = false ∧
      logical line = frontOf line before ++ ';' :: (body p ++ sep :: rest) := by
  have hfront : frontOf line before = fullName line ++ before.flatMap writeParam := by
    rw [frontOf, intercalate_flatMap, List.flatMap_map]
    rfl
  have hlogical : logical line =
      frontOf line before ++ ';' :: (body p ++ (after.flatMap writeParam ++ ':' :: line.value)) := by
    have hhead : writeHead line = fullName line ++ line.params.flatMap writeParam := rfl
    rw [logical, hhead, hparams, hfront, List.flatMap_append, List.flatMap_cons, writeParam_eq]
    simp only [List.append_assoc, List.cons_append]
  cases after with
  | nil => exact ⟨':', line.value, rfl, rfl, hlogical⟩
  | cons q after =>
    refine ⟨';', body q ++ (after.flatMap writeParam ++ ':' :: line.value), rfl, rfl, ?_⟩
    rw [hlogical, List.flatMap_cons, writeParam_eq]
    simp only [List.append_assoc, List.cons_append]

theorem closed_of_back {read : ContentLine} (h : line.Parsed) (hread : unfold (write line) = [raw])
    (hparse : parse raw = some read) (hback : decodeValue E read = line) : NamesClosed line := by
  by_contra hnot
  rcases first_failing hnot with ⟨before, p, after, hparams, hbefore, hopen⟩
  have hmem : ∀ q ∈ before ++ p :: after, q ∈ line.params := by
    rw [hparams]
    exact fun _ hq => hq
  have hparsed : ∀ q ∈ before, q.Parsed := fun q hq =>
    h.params q (hmem q (List.mem_append_left _ hq))
  have hp : p.Parsed := h.params p (hmem p (List.mem_append_right _ (.head _)))
  have hopen' : Quoted.inside '"' false p.name = true := by simpa using hopen
  rcases logical_at hparams with ⟨sep, rest, hsep, hsepb, hlogical⟩
  rcases front_closed h hparsed hbefore with ⟨hclosed, hfront, _⟩
  have hraw : ∃ more, raw = frontOf line before ++ ';' :: (openTail p sep ++ more) := by
    rcases openTail_prefix p sep with ⟨spare, hover⟩
    have htext : logical line =
        (frontOf line before ++ ';' :: openTail p sep) ++ (spare ++ rest) := by
      rw [hlogical, ← List.singleton_append (x := sep), ← List.append_assoc (body p), ← hover]
      simp only [List.append_assoc, List.cons_append]
    have hunb : ∀ c ∈ frontOf line before ++ ';' :: openTail p sep, isBreak c = false := by
      intro c hc
      rcases List.mem_append.mp hc with hc | hc
      · apply @writeHead_unbroken { line with params := before } { h with params := hparsed }
        rw [writeHead_eq]
        exact hc
      · rcases List.mem_cons.mp hc with rfl | hc
        · rfl
        · have hin : c ∈ body p ++ [sep] := by
            rw [← hover]
            exact List.mem_append_left _ hc
          rcases List.mem_append.mp hin with hin | hin
          · exact body_unbroken hp c hin
          · rw [List.mem_singleton.mp hin]
            exact hsepb
    have hend : (frontOf line before ++ ';' :: openTail p sep).getLast? ≠ some '=' := by
      rcases openTail_last p hsep with ⟨init, last, htail, hlast⟩
      rw [htail, ← List.cons_append, ← List.append_assoc, List.getLast?_concat]
      intro heq
      rw [Option.some.inj heq] at hlast
      exact absurd hlast (by decide)
    have hsoft : ∀ upto c rest, frontOf line before ++ ';' :: openTail p sep = upto ++ c :: rest →
        soft upto = false := by
      intro upto c rest hsplit
      apply soft_none
      rcases List.append_eq_append_iff.mp hsplit with ⟨a, ha, hb⟩ | ⟨a, ha, _⟩
      · cases a with
        | nil =>
          rw [ha, List.append_nil]
          exact hfront
        | cons d a =>
          rw [ha, Quoted.outside_append, hclosed]
          rw [← (List.cons.inj hb).1]
          intro hcolon
          rcases List.mem_append.mp hcolon with hcolon | hcolon
          · exact hfront hcolon
          · rcases List.mem_cons.mp hcolon with heq | hcolon
            · exact absurd heq (by decide)
            · exact openTail_colon p sep (List.cons.inj hb).2 hcolon
      · intro hcolon
        rw [ha, Quoted.outside_append] at hfront
        exact hfront (List.mem_append_left _ hcolon)
    rcases unfold_lead (by simp) hunb hend hsoft (spare ++ rest) with ⟨more, hmore⟩
    rw [← htext] at hmore
    have hhead : some raw = some (frontOf line before ++ ';' :: openTail p sep ++ more) := by
      rw [← hmore]
      show [raw].head? = (unfold (write line)).head?
      rw [hread]
    refine ⟨more, ?_⟩
    rw [Option.some.inj hhead, List.append_assoc, List.cons_append]
  rcases hraw with ⟨more, rfl⟩
  rcases parse_opened h hparsed hbefore hp hopen' hsep hparse with ⟨q, rest', hq, hname, hvalues⟩
  apply hvalues
  have hreadp : read.Parsed := parse_parsed hparse (unfold_unbroken (by rw [hread]; simp))
  -- decoding takes none of the parameters that stand in front
  have hsame : ∃ rest'', line.params = before.map reParam ++ q :: rest'' := by
    rcases decode_cases E hreadp with hsame | ⟨_, hfilter⟩
    · rw [hsame] at hback
      rw [← hback, hq]
      exact ⟨rest', rfl⟩
    · rw [hback] at hfilter
      have hkeep : ∀ x ∈ line.params, describes x = false := by
        rw [hfilter]
        intro x hx
        simpa using (List.mem_filter.mp hx).2
      rw [hq, List.filter_append] at hfilter
      have hfront : (before.map reParam).filter (fun x => !describes x) = before.map reParam := by
        rw [List.filter_eq_self]
        intro x hx
        rcases List.mem_map.mp hx with ⟨b, hb, rfl⟩
        show (!describes b) = true
        rw [hkeep b (hmem b (List.mem_append_left _ hb))]
        rfl
      have hqkeep : describes q = false := by
        unfold describes
        rw [hname]
        exact hkeep p (hmem p (List.mem_append_right _ (.head _)))
      rw [hfront, List.filter_cons_of_pos (by simp [hqkeep])] at hfilter
      exact ⟨_, hfilter⟩
  rcases hsame with ⟨rest'', hsame⟩
  rw [hparams] at hsame
  have hinj := List.append_inj hsame (by simp)
  rw [(List.cons.inj hinj.2).1]

/-! ## Written once -/

/-- A line written is one logical line, read again as the line it was, in physical lines of at
most 75 octets cut between characters. -/
structure WrittenOnce (E : Encodings) (line : ContentLine) : Prop where
  one : (unfold (write line)).length = 1
  back : lines E (write line) = [line]
  octets : ∀ physical ∈ physicals (write line), octets physical ≤ foldAt
  cut : ∃ (first : List Char) (rest : List (List Char)), logical line = first ++ rest.flatten ∧
    write line = first ++ rest.flatMap (fun piece => '\r' :: '\n' :: ' ' :: piece) ++ ['\r', '\n']

theorem write_octets (line : ContentLine) :
    ∀ physical ∈ physicals (write line), octets physical ≤ foldAt := by
  have hnil : octets [] ≤ 0 := Nat.le_refl _
  exact physicals_octets (by simp) hnil (Nat.zero_le _) (logical line)

theorem unfold_written (h : line.Parsed) (hback : WritesBack line) :
    unfold (write line) = [logical line] := by
  apply unfold_whole _ (logical_unbroken h hback.unbroken) hback.hard
  simp [logical]

theorem writesBack_of_back (h : line.Parsed) (hread : unfold (write line) = [raw])
    (hback : lines E (write line) = [line]) : WritesBack line := by
  obtain ⟨read, hparse, hdec⟩ : ∃ read, parse raw = some read ∧ decodeValue E read = line := by
    unfold lines at hback
    rw [hread] at hback
    cases hparse : parse raw with
    | none => simp [hparse] at hback
    | some read => exact ⟨read, rfl, by simpa [hparse] using hback⟩
  have hnames := closed_of_back h hread hparse hdec
  have hunb : ∀ c ∈ raw, isBreak c = false := unfold_unbroken (by rw [hread]; simp)
  rcases unfold_head h hnames hread with ⟨value, hraw⟩
  have hparsed := parse_parsed hparse hunb
  rw [hraw, parse_written h hnames, Option.some.injEq] at hparse
  have hsame : read = line := by
    rcases decode_cases E hparsed with hsame | ⟨⟨p, hp, hdesc⟩, hfilter⟩
    · rw [← hsame, hdec]
    · -- a parameter that describes the value would be gone
      exfalso
      rw [← hparse] at hp
      rcases List.mem_map.mp hp with ⟨q, hq, rfl⟩
      rw [hdec] at hfilter
      rw [hfilter] at hq
      have hnot : (!describes q) = true := (List.mem_filter.mp hq).2
      have hq' : describes q = true := hdesc
      rw [hq'] at hnot
      cases hnot
  rw [hsame] at hparse
  have hvalue : value = line.value := congrArg ContentLine.value hparse
  have hparams : line.params.map reParam = line.params := congrArg ContentLine.params hparse
  have hlogical : raw = logical line := by
    rw [hraw, hvalue]
    rfl
  refine ⟨fun c hc => ?_, hnames, firm_reParams hparams, ?_⟩
  · apply hunb
    rw [hlogical]
    exact List.mem_append_right _ (.tail _ hc)
  · apply unfold_hard
    · rw [← hlogical]
      exact hunb
    · show unfold (write line) = [logical line]
      rw [hread, hlogical]

/-- A line read from any text is written once exactly when its value holds no line break, no
parameter name leaves a quote open, every parameter value is quoted or has no white space at its
ends, and no fold stands where a soft break would. -/
theorem writtenOnce_iff {E : Encodings} {text : List Char} {line : ContentLine}
    (h : line ∈ lines E text) : WrittenOnce E line ↔ WritesBack line := by
  rcases lines_read h with ⟨hparsed, hdec⟩
  constructor
  · intro honce
    obtain ⟨raw, hread⟩ := List.length_eq_one_iff.mp honce.one
    exact writesBack_of_back hparsed hread honce.back
  · intro hback
    have hread := unfold_written hparsed hback
    refine ⟨by rw [hread]; rfl, ?_, write_octets line, foldFrom_cuts 0 (logical line)⟩
    unfold lines
    rw [hread]
    simp [parse_logical hparsed hback, hdec]

def utf8Only : Encodings := ⟨Unit, (), fun _ => none, fun _ bytes => Utf8.decodeLossy bytes⟩

/-- A birthday is kept and written as it was. -/
theorem birthday_once :
    WrittenOnce utf8Only
      ⟨none, "BDAY".toList, [⟨"VALUE".toList, ["date".toList]⟩], "1980-01-01".toList⟩ ↔
    WritesBack ⟨none, "BDAY".toList, [⟨"VALUE".toList, ["date".toList]⟩], "1980-01-01".toList⟩ := by
  have hread : lines utf8Only "BDAY;VALUE=date:1980-01-01".toList =
      [⟨none, "BDAY".toList, [⟨"VALUE".toList, ["date".toList]⟩], "1980-01-01".toList⟩] := by
    decide +kernel
  have hmem : (⟨none, "BDAY".toList, [⟨"VALUE".toList, ["date".toList]⟩],
      "1980-01-01".toList⟩ : ContentLine) ∈ lines utf8Only "BDAY;VALUE=date:1980-01-01".toList := by
    rw [hread]
    exact List.mem_singleton.mpr rfl
  exact writtenOnce_iff hmem

/-- A note whose quoted-printable value holds a line break: written, it is an address too. -/
theorem note_brings_address :
    ¬ ∀ (E : Encodings) (text : List Char) (line : ContentLine), line ∈ lines E text →
      lines E (write line) = [line] := by
  intro hall
  have hread : lines utf8Only "NOTE;ENCODING=QUOTED-PRINTABLE:a=0D=0AEMAIL:x".toList =
      [⟨none, "NOTE".toList, [], "a\r\nEMAIL:x".toList⟩] := by
    decide +kernel
  have hagain : lines utf8Only (write ⟨none, "NOTE".toList, [], "a\r\nEMAIL:x".toList⟩) =
      [⟨none, "NOTE".toList, [], "a".toList⟩, ⟨none, "EMAIL".toList, [], "x".toList⟩] := by
    decide +kernel
  have hback := hall utf8Only "NOTE;ENCODING=QUOTED-PRINTABLE:a=0D=0AEMAIL:x".toList
    ⟨none, "NOTE".toList, [], "a\r\nEMAIL:x".toList⟩
    (by rw [hread]; exact List.mem_singleton.mpr rfl)
  rw [hagain] at hback
  cases hback

end Mailo.Pim.Line
