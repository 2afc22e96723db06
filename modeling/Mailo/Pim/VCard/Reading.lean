import Mailo.Pim.Kept
import Mailo.Pim.VCard.Card

/-!
# What a card read is like

The values of a text that declares no encoding hold no line break, so every field of a card read
from it is free of carriage returns and trimmed as its reader trims it, and every line carried
along is one the parser made.
-/

namespace Mailo.Pim.VCard

open Domain Library Pim.Line

/-! ## Where a character of a field comes from -/

variable {c sep : Char} {text part value : List Char} {line : ContentLine}

theorem mem_unescape (h : c ∈ unescape text) :
    c ∈ text ∨ c = '\n' := by
  induction text using unescape.induct with
  | case1 => cases h
  | case2 d => exact Or.inl h
  | case3 next rest ih =>
    rw [unescape, if_pos rfl, List.mem_cons] at h
    rcases h with h | h
    · split at h
      · exact Or.inr h
      · rw [h]
        exact Or.inl (by simp)
    · exact (ih h).imp_left fun h => .tail _ (.tail _ h)
  | case4 d next rest hd ih =>
    rw [unescape, if_neg hd, List.mem_cons] at h
    rcases h with rfl | h
    · exact Or.inl (.head _)
    · exact (ih h).imp_left fun h => .tail _ h

theorem mem_modifyHead {lead : List Char} {parts : List (List Char)}
    (h : part ∈ parts.modifyHead (lead ++ ·)) (hc : c ∈ part) :
    c ∈ lead ∨ ∃ other ∈ parts, c ∈ other := by
  cases parts with
  | nil => cases h
  | cons first rest =>
    rw [List.modifyHead_cons] at h
    rcases List.mem_cons.mp h with rfl | h
    · exact (List.mem_append.mp hc).imp_right fun hc => ⟨first, .head _, hc⟩
    · exact Or.inr ⟨part, .tail _ h, hc⟩

theorem mem_splitUnescaped (h : part ∈ splitUnescaped sep text) (hc : c ∈ part) : c ∈ text := by
  induction text using splitUnescaped.induct sep generalizing part with
  | case1 =>
    rw [List.mem_singleton.mp h] at hc
    exact hc
  | case2 d hd =>
    rw [splitUnescaped, if_pos hd] at h
    simp only [List.mem_cons, List.not_mem_nil, or_false, or_self] at h
    rw [h] at hc
    cases hc
  | case3 d hd =>
    rw [splitUnescaped, if_neg hd] at h
    rw [List.mem_singleton.mp h] at hc
    exact hc
  | case4 next rest ih =>
    rw [splitUnescaped, if_pos rfl] at h
    rcases mem_modifyHead h hc with hc | ⟨other, hother, hc⟩
    · simp only [List.mem_cons, List.not_mem_nil, or_false] at hc
      rcases hc with rfl | rfl
      · exact .head _
      · exact .tail _ (.head _)
    · exact .tail _ (.tail _ (ih hother hc))
  | case5 next rest hne ih =>
    rw [splitUnescaped, if_neg hne, if_pos rfl] at h
    rcases List.mem_cons.mp h with rfl | h
    · cases hc
    · exact .tail _ (ih h hc)
  | case6 d next rest hd hsep ih =>
    rw [splitUnescaped, if_neg hd, if_neg hsep] at h
    have hhead : part ∈ (splitUnescaped sep (next :: rest)).modifyHead ([d] ++ ·) := h
    rcases mem_modifyHead hhead hc with hc | ⟨other, hother, hc⟩
    · rw [List.mem_singleton.mp hc]
      exact .head _
    · exact .tail _ (ih hother hc)

def NoReturn (text : List Char) : Prop := ∀ c ∈ text, c ≠ '\r'

theorem NoReturn.of_unbroken (h : ∀ c ∈ text, isBreak c = false) :
    NoReturn text := by
  intro c hc
  rintro rfl
  exact absurd (h _ hc) (by decide)

theorem NoReturn.trim (h : NoReturn text) : NoReturn (Text.trim text) :=
  fun c hc => h c (Text.mem_trim hc)

theorem NoReturn.unescape (h : NoReturn text) :
    NoReturn (unescape text) := by
  intro c hc
  rcases mem_unescape hc with hc | rfl
  · exact h c hc
  · decide

theorem NoReturn.splitEscaped (h : NoReturn text) (hpart : part ∈ splitEscaped text sep) :
    NoReturn part := by
  rcases List.mem_map.mp hpart with ⟨raw, hraw, rfl⟩
  apply NoReturn.unescape
  exact fun c hc => h c (mem_splitUnescaped hraw hc)

theorem crlfToLf_plain (h : NoReturn text) : crlfToLf text = text := by
  induction text using crlfToLf.induct with
  | case1 | case2 => rfl
  | case3 c next rest hc ih => exact absurd hc.1 (h c (.head _))
  | case4 c next rest hc ih =>
    rw [crlfToLf, if_neg hc, ih fun d hd => h d (.tail _ hd)]

/-- A text field: trimmed, not empty, and free of carriage returns. -/
structure Tidy (text : List Char) : Prop where
  some_text : text ≠ []
  trimmed : Text.trim text = text
  no_return : NoReturn text

variable {field : List Char} {card : Card}

theorem nonEmpty_tidy (h : NoReturn text) (hfield : nonEmpty text = some field) : Tidy field := by
  unfold nonEmpty at hfield
  dsimp only at hfield
  split at hfield
  · cases hfield
  · rename_i hne
    cases hfield
    exact ⟨by simpa using hne, Text.trim_trim text, h.trim⟩

theorem Tidy.nonEmpty (h : Tidy text) : nonEmpty text = some text := by
  unfold VCard.nonEmpty
  rw [h.trimmed, if_neg (by simpa using h.some_text)]

/-- A `TYPE` value as it is kept. -/
structure Kind (kind : List Char) : Prop where
  some_text : kind ≠ []
  no_pref : kind ≠ "pref".toList
  trimmed : Text.trim kind = kind
  lower : Text.toAsciiLowercase kind = kind
  no_comma : ',' ∉ kind
  no_return : NoReturn kind

def readNames : List (List Char) :=
  ["VERSION".toList, "UID".toList, "KIND".toList, "FN".toList, "N".toList, "EMAIL".toList,
    "TEL".toList, "ORG".toList, "NOTE".toList, "REV".toList, "PHOTO".toList, "PRODID".toList]

/-- A line of a text that declares no encoding, other than its first. -/
structure Plain (line : ContentLine) : Prop where
  parsed : line.Parsed
  unbroken : ∀ c ∈ line.value, isBreak c = false
  no_encoding : ∀ p ∈ line.params, p.name ≠ "ENCODING".toList
  starts : Unfolding.continues (fullName line) = false

/-- A line carried along. -/
structure Carried (line : ContentLine) : Prop extends Plain line where
  unread : line.name ∉ readNames
  inside : isVcard line = true → line.name ≠ "BEGIN".toList ∧ line.name ≠ "END".toList

structure Email.Sound (email : Email) : Prop where
  some_address : email.address ≠ []
  no_return : NoReturn email.address
  last : ∀ c, email.address.getLast? = some c → Text.isWhitespace c = false
  kinds : ∀ kind ∈ email.kinds, Kind kind

structure Phone.Sound (phone : Phone) : Prop where
  some_number : phone.number ≠ []
  no_return : NoReturn phone.number
  last : ∀ c, phone.number.getLast? = some c → Text.isWhitespace c = false
  kinds : ∀ kind ∈ phone.kinds, Kind kind

/-- A value written as it was read. -/
structure Verbatim (text : List Char) : Prop where
  some_text : text ≠ []
  trimmed : Text.trim text = text
  unbroken : ∀ c ∈ text, isBreak c = false

structure CardKind.Sound (kind : CardKind) : Prop where
  some_text : kind.asStr ≠ []
  again : CardKind.parse kind.asStr = kind
  unbroken : ∀ c ∈ kind.asStr, isBreak c = false

def Name.parts (name : Name) : List (List Char) :=
  [name.family, name.given, name.additional, name.prefixes, name.suffixes]

/-- A card in reading. -/
structure Card.Sound (card : Card) : Prop where
  uid : ∀ u, card.uid = some u → Tidy u
  kind : ∀ k, card.kind = some k → k.Sound
  formattedName : ∀ f, card.formattedName = some f → Tidy f
  name : ∀ n, card.name = some n → ∀ part ∈ n.parts, Text.trim part = part ∧ NoReturn part
  emails : ∀ e ∈ card.emails, e.Sound
  phones : ∀ p ∈ card.phones, p.Sound
  org : ∀ part ∈ card.org, NoReturn part
  org_last : ∀ part, card.org.getLast? = some part → Text.trim part ≠ []
  note : ∀ n, card.note = some n → Tidy n
  revision : ∀ r, card.revision = some r → Verbatim r
  photo : ∀ p, card.photo = some p → p ≠ [] ∧ ∀ c ∈ p, Text.isWhitespace c = false
  other : ∀ line ∈ card.other, Carried line

/-- A card read to its end. -/
structure Card.Finished (card : Card) : Prop extends card.Sound where
  members : ∀ m ∈ card.members, Verbatim m
  members_group : card.isGroup = false → card.members = []
  other_group : card.isGroup = true → ∀ line ∈ card.other, line.name ≠ "MEMBER".toList

theorem Card.new_sound : Card.new.Sound where
  uid _ h := by cases h
  kind _ h := by cases h
  formattedName _ h := by cases h
  name _ h := by cases h
  emails _ h := by cases h
  phones _ h := by cases h
  org _ h := by cases h
  org_last _ h := by cases h
  note _ h := by cases h
  revision _ h := by cases h
  photo _ h := by cases h
  other _ h := by cases h

/-! ## Each field -/

theorem kindsOf_kind (h : line.Parsed) : ∀ kind ∈ kindsOf line, Kind kind := by
  intro kind hkind
  rcases List.mem_filter.mp hkind with ⟨hkind, hkeep⟩
  rcases List.mem_map.mp hkind with ⟨piece, hpiece, rfl⟩
  rcases List.mem_flatMap.mp hpiece with ⟨value, hvalue, hpiece⟩
  rcases List.mem_flatMap.mp hvalue with ⟨p, hp, hvalue⟩
  have hparam := h.params p (List.mem_filter.mp hp).1
  simp only [Bool.and_eq_true, Bool.not_eq_true', bne_iff_ne, ne_eq, List.isEmpty_eq_false_iff]
    at hkeep
  rcases Text.mem_splitOn hpiece with ⟨hcomma, hchars⟩
  refine ⟨hkeep.1, hkeep.2, ?_, Text.lower_lower _, ?_, ?_⟩
  · rw [Text.trim_toAsciiLowercase, Text.trim_trim]
  · intro hin
    exact hcomma (Text.mem_trim (Text.mem_lower (by decide) hin))
  · intro c hc
    rintro rfl
    have hin := Text.mem_trim (Text.mem_lower (by decide) hc)
    exact hparam.unbroken value hvalue _ (hchars _ hin) rfl

theorem parse_kind (value : List Char) :
    (CardKind.parse value).asStr = Text.toAsciiLowercase (Text.trim value) := by
  unfold CardKind.parse
  dsimp only
  split
  · rename_i h
    exact h.symm
  · split
    · rename_i h
      exact h.symm
    · split
      · rename_i h
        exact h.symm
      · split
        · rename_i h
          exact h.symm
        · rfl

theorem kind_sound (h : ∀ c ∈ value, isBreak c = false) (hne : (CardKind.parse value).asStr ≠ []) :
    (CardKind.parse value).Sound := by
  refine ⟨hne, ?_, ?_⟩
  · rw [parse_kind]
    unfold CardKind.parse
    rw [Text.trim_toAsciiLowercase, Text.trim_trim, Text.lower_lower]
  · intro c hc
    rw [parse_kind] at hc
    by_contra hbreak
    have hor : c = '\n' ∨ c = '\r' := by
      simpa only [isBreak, Bool.not_eq_false, Bool.or_eq_true, beq_iff_eq] using hbreak
    rcases hor with rfl | rfl
    · exact absurd (h _ (Text.mem_trim (Text.mem_lower (by decide) hc))) (by decide)
    · exact absurd (h _ (Text.mem_trim (Text.mem_lower (by decide) hc))) (by decide)

theorem nameOf_sound (h : NoReturn value) :
    ∀ part ∈ (nameOf value).parts, Text.trim part = part ∧ NoReturn part := by
  have hget (i : Nat) : Text.trim (((splitEscaped value ';').map Text.trim)[i]?.getD []) =
      ((splitEscaped value ';').map Text.trim)[i]?.getD [] ∧
      NoReturn (((splitEscaped value ';').map Text.trim)[i]?.getD []) := by
    cases hi : ((splitEscaped value ';').map Text.trim)[i]? with
    | none => exact ⟨rfl, fun c hc => by cases hc⟩
    | some part =>
      rcases List.mem_map.mp (List.mem_of_getElem? hi) with ⟨raw, hraw, rfl⟩
      exact ⟨Text.trim_trim raw, (h.splitEscaped hraw).trim⟩
  intro part hpart
  simp only [Name.parts, nameOf, List.mem_cons, List.not_mem_nil, or_false] at hpart
  rcases hpart with rfl | rfl | rfl | rfl | rfl
  · exact hget 0
  · exact hget 1
  · exact hget 2
  · exact hget 3
  · exact hget 4

theorem withoutScheme_suffix (scheme text : List Char) :
    ∃ lead, text = lead ++ withoutScheme scheme text := by
  unfold withoutScheme
  have hstrip : ∀ scheme text rest, Text.stripPrefix scheme text = some rest →
      text = scheme ++ rest := by
    intro scheme
    induction scheme with
    | nil =>
      intro text rest h
      exact Option.some.inj h
    | cons c scheme ih =>
      intro text rest h
      cases text with
      | nil => cases h
      | cons d text =>
        rw [Text.stripPrefix] at h
        split at h
        · rename_i hcd
          rw [ih text rest h, hcd]
          rfl
        · cases h
  cases h : Text.stripPrefix scheme text with
  | none => exact ⟨[], rfl⟩
  | some rest => exact ⟨scheme, hstrip _ _ _ h⟩

theorem withoutScheme_sound (scheme : List Char) (h : NoReturn value) {kept : List Char}
    (hkept : withoutScheme scheme (Text.trim (unescape value)) = kept) :
    NoReturn kept ∧ ∀ c, kept.getLast? = some c → Text.isWhitespace c = false := by
  rcases withoutScheme_suffix scheme (Text.trim (unescape value)) with ⟨lead, htext⟩
  rw [hkept] at htext
  constructor
  · intro c hc
    have hall := h.unescape.trim
    rw [htext] at hall
    exact hall c (List.mem_append_right _ hc)
  · intro c hc
    have hlast : (Text.trim (unescape value)).getLast? = some c := by
      rw [htext, List.getLast?_append, hc]
      rfl
    exact Text.trim_last hlast

theorem dropBlankEnd_sound (h : NoReturn value) :
    (∀ part ∈ dropBlankEnd (splitEscaped value ';'), NoReturn part) ∧
      ∀ part, (dropBlankEnd (splitEscaped value ';')).getLast? = some part →
        Text.trim part ≠ [] := by
  unfold dropBlankEnd
  constructor
  · intro part hpart
    rw [List.mem_reverse] at hpart
    have hin := (List.dropWhile_sublist _).subset hpart
    rw [List.mem_reverse] at hin
    exact h.splitEscaped hin
  · intro part hpart
    rw [List.getLast?_reverse] at hpart
    have hnot := List.head?_dropWhile_not (fun p => (Text.trim p).isEmpty)
      (splitEscaped value ';').reverse
    rw [hpart] at hnot
    simpa using hnot

theorem mem_splitWhitespaceFrom {word : List Char} (h : part ∈ Text.splitWhitespaceFrom word text)
    (hc : c ∈ part) (hword : ∀ d ∈ word, Text.isWhitespace d = false) :
    Text.isWhitespace c = false := by
  induction text generalizing word with
  | nil =>
    unfold Text.splitWhitespaceFrom at h
    split at h
    · cases h
    · rw [List.mem_singleton.mp h] at hc
      exact hword c hc
  | cons d text ih =>
    unfold Text.splitWhitespaceFrom at h
    split at h
    · split at h
      · exact ih h (by simp)
      · rcases List.mem_cons.mp h with rfl | h
        · exact hword c hc
        · exact ih h (by simp)
    · rename_i hd
      apply ih h
      intro e he
      rcases List.mem_append.mp he with he | he
      · exact hword e he
      · rw [List.mem_singleton.mp he]
        simpa using hd

theorem has_none (h : line.Parsed) (hno : ∀ p ∈ line.params, p.name ≠ "ENCODING".toList)
    (value : List Char) :
    line.has "ENCODING".toList value = false := by
  unfold ContentLine.has ContentLine.values
  have hnone : line.params.filter (fun p => Text.eqIgnoreAsciiCase p.name "ENCODING".toList) =
      [] := by
    rw [List.filter_eq_nil_iff]
    intro p hp hname
    apply hno p hp
    exact Text.eq_of_eqIgnoreAsciiCase (h.params p hp).name.upper (by decide) hname
  rw [hnone]
  rfl

theorem Plain.inBase64 (h : Plain line) : inBase64 line = false := by
  unfold VCard.inBase64
  rw [has_none h.parsed h.no_encoding, has_none h.parsed h.no_encoding]
  rfl

theorem photoOf_sound (h : Plain line) {photo : List Char} (hphoto : photoOf line = some photo) :
    photo ≠ [] ∧ ∀ c ∈ photo, Text.isWhitespace c = false := by
  unfold photoOf at hphoto
  dsimp only at hphoto
  split at hphoto
  · cases hphoto
  · rename_i hne
    rw [h.inBase64, if_neg (by simp), Option.some.injEq] at hphoto
    subst hphoto
    refine ⟨by simpa using hne, fun c hc => ?_⟩
    rcases List.mem_flatten.mp hc with ⟨part, hpart, hc⟩
    exact mem_splitWhitespaceFrom hpart hc (by simp)

theorem verbatim_of (h : ∀ c ∈ value, isBreak c = false) (hfield : nonEmpty value = some field) :
    Verbatim field := by
  have htidy := nonEmpty_tidy (NoReturn.of_unbroken h) hfield
  refine ⟨htidy.some_text, htidy.trimmed, fun c hc => ?_⟩
  unfold nonEmpty at hfield
  dsimp only at hfield
  split at hfield
  · cases hfield
  · cases hfield
    exact h c (Text.mem_trim hc)

/-! ## Reading a card -/

theorem readProperty_sound (hcard : card.Sound) (h : Plain line)
    (hinside : isVcard line = true → line.name ≠ "BEGIN".toList ∧ line.name ≠ "END".toList) :
    (readProperty card line).Sound := by
  have hreturn := NoReturn.of_unbroken h.unbroken
  unfold readProperty
  by_cases hversion : line.name = "VERSION".toList
  · rw [if_pos hversion]
    exact { hcard with }
  rw [if_neg hversion]
  by_cases huid : line.name = "UID".toList
  · rw [if_pos huid]
    exact { hcard with uid := fun u hu => nonEmpty_tidy hreturn.unescape hu }
  rw [if_neg huid]
  by_cases hkind : line.name = "KIND".toList
  · rw [if_pos hkind]
    refine { hcard with kind := fun k hk => ?_ }
    have hfilter : (some (CardKind.parse line.value)).filter
        (fun kind => !kind.asStr.isEmpty) = some k := hk
    rcases Option.filter_eq_some_iff.mp hfilter with ⟨hsome, hne⟩
    cases hsome
    exact kind_sound h.unbroken (by simpa using hne)
  rw [if_neg hkind]
  by_cases hfn : line.name = "FN".toList
  · rw [if_pos hfn]
    exact { hcard with formattedName := fun f hf => nonEmpty_tidy hreturn.unescape hf }
  rw [if_neg hfn]
  by_cases hn : line.name = "N".toList
  · rw [if_pos hn]
    refine { hcard with name := fun n hn => ?_ }
    cases hn
    exact nameOf_sound hreturn
  rw [if_neg hn]
  by_cases hemail : line.name = "EMAIL".toList
  · rw [if_pos hemail]
    dsimp only
    split
    · exact hcard
    · rename_i hne
      refine { hcard with emails := fun e he => ?_ }
      rcases List.mem_append.mp he with he | he
      · exact hcard.emails e he
      · rw [List.mem_singleton.mp he]
        have hkept := withoutScheme_sound "mailto:".toList hreturn rfl
        exact ⟨by simpa using hne, hkept.1, hkept.2, kindsOf_kind h.parsed⟩
  rw [if_neg hemail]
  by_cases htel : line.name = "TEL".toList
  · rw [if_pos htel]
    dsimp only
    split
    · exact hcard
    · rename_i hne
      refine { hcard with phones := fun e he => ?_ }
      rcases List.mem_append.mp he with he | he
      · exact hcard.phones e he
      · rw [List.mem_singleton.mp he]
        have hkept := withoutScheme_sound "tel:".toList hreturn rfl
        exact ⟨by simpa using hne, hkept.1, hkept.2, kindsOf_kind h.parsed⟩
  rw [if_neg htel]
  by_cases horg : line.name = "ORG".toList
  · rw [if_pos horg]
    have hparts := dropBlankEnd_sound hreturn
    exact { hcard with org := hparts.1, org_last := hparts.2 }
  rw [if_neg horg]
  by_cases hnote : line.name = "NOTE".toList
  · rw [if_pos hnote]
    refine { hcard with note := fun n hn => ?_ }
    rw [crlfToLf_plain hreturn.unescape] at hn
    exact nonEmpty_tidy hreturn.unescape hn
  rw [if_neg hnote]
  by_cases hrev : line.name = "REV".toList
  · rw [if_pos hrev]
    exact { hcard with revision := fun r hr => verbatim_of h.unbroken hr }
  rw [if_neg hrev]
  by_cases hphoto : line.name = "PHOTO".toList
  · rw [if_pos hphoto]
    exact { hcard with photo := fun p hp => photoOf_sound h hp }
  rw [if_neg hphoto]
  by_cases hprodid : line.name = "PRODID".toList
  · rw [if_pos hprodid]
    exact hcard
  rw [if_neg hprodid, h.inBase64, if_neg (by simp)]
  refine { hcard with other := fun l hl => ?_ }
  rcases List.mem_append.mp hl with hl | hl
  · exact hcard.other l hl
  · rw [List.mem_singleton.mp hl]
    refine { h with unread := ?_, inside := hinside }
    simp only [readNames, List.mem_cons, List.not_mem_nil, or_false, not_or]
    exact ⟨hversion, huid, hkind, hfn, hn, hemail, htel, horg, hnote, hrev, hphoto, hprodid⟩

theorem readProperty_members (card : Card) (line : ContentLine) :
    (readProperty card line).members = card.members := by
  unfold readProperty
  simp only [apply_ite Card.members, ite_self]

theorem finish_finished (h : card.Sound) (hmembers : card.members = []) :
    (finish card).Finished := by
  unfold finish
  by_cases hgroup : card.isGroup = true
  · rw [if_pos hgroup]
    refine { h with
      other := fun l hl => h.other l (List.mem_filter.mp hl).1
      members := fun m hm => ?_
      members_group := fun hno => ?_
      other_group := fun _ l hl => ?_ }
    · rcases List.mem_filter.mp hm with ⟨hm, hne⟩
      rcases List.mem_map.mp hm with ⟨l, hl, rfl⟩
      have hcarried := h.other l (List.mem_filter.mp hl).1
      refine ⟨by simpa using hne, Text.trim_trim _, fun c hc => ?_⟩
      exact hcarried.unbroken c (Text.mem_trim hc)
    · have hyes : card.isGroup = false := hno
      rw [hgroup] at hyes
      cases hyes
    · simpa using (List.mem_filter.mp hl).2
  · rw [if_neg hgroup]
    exact { h with
      members := fun m hm => by rw [hmembers] at hm; cases hm
      members_group := fun _ => hmembers
      other_group := fun hyes => absurd hyes hgroup }

/-- What holds between two lines of a text. -/
structure Reading.Sound (st : Reading) : Prop where
  cards : ∀ card ∈ st.cards, card.Finished
  current : ∀ card, st.current = some card → card.Sound ∧ card.members = []

theorem Reading.step_sound {st : Reading} (hst : st.Sound) (h : Plain line) :
    (st.step line).Sound := by
  unfold Reading.step
  dsimp only
  by_cases hbegin : line.name = "BEGIN".toList ∧ isVcard line = true
  · rw [if_pos hbegin]
    refine ⟨hst.cards, fun card hcard => ?_⟩
    split at hcard
    · cases hcard
      exact ⟨Card.new_sound, rfl⟩
    · exact hst.current card hcard
  · rw [if_neg hbegin]
    by_cases hend : line.name = "END".toList ∧ isVcard line = true
    · rw [if_pos hend]
      split
      · rename_i card _ hcurrent
        have hcard := hst.current card hcurrent
        refine ⟨fun c hc => ?_, fun c hc => by cases hc⟩
        rcases List.mem_append.mp hc with hc | hc
        · exact hst.cards c hc
        · rw [List.mem_singleton.mp hc]
          exact finish_finished hcard.1 hcard.2
      · exact ⟨hst.cards, hst.current⟩
    · rw [if_neg hend]
      split
      · refine ⟨hst.cards, fun card hcard => ?_⟩
        rcases Option.map_eq_some_iff.mp hcard with ⟨before, hbefore, rfl⟩
        have hcur := hst.current before hbefore
        refine ⟨readProperty_sound hcur.1 h fun hv => ?_, ?_⟩
        · exact ⟨fun hn => hbegin ⟨hn, hv⟩, fun hn => hend ⟨hn, hv⟩⟩
        · rw [readProperty_members]
          exact hcur.2
      · exact hst

theorem Reading.first_sound (line : ContentLine) : (Reading.start.step line).Sound := by
  unfold Reading.step Reading.start
  split
  · refine ⟨by simp, fun card hcard => ?_⟩
    cases hcard
    exact ⟨Card.new_sound, rfl⟩
  · split
    · exact ⟨by simp, fun card hcard => by cases hcard⟩
    · rw [if_neg (by decide)]
      exact ⟨by simp, fun card hcard => by cases hcard⟩

theorem readLines_finished {lines : List ContentLine} (h : ∀ line ∈ lines.tail, Plain line) :
    ∀ card ∈ readLines lines, card.Finished := by
  have hrun : ∀ (lines : List ContentLine) (st : Reading), st.Sound →
      (∀ line ∈ lines, Plain line) → (lines.foldl Reading.step st).Sound := by
    intro lines
    induction lines with
    | nil => exact fun st hst _ => hst
    | cons line lines ih =>
      intro st hst hlines
      exact ih _ (Reading.step_sound hst (hlines line (.head _)))
        fun l hl => hlines l (.tail _ hl)
  have hsound : (lines.foldl Reading.step Reading.start).Sound := by
    cases lines with
    | nil => exact ⟨by simp [Reading.start], fun card hcard => by cases hcard⟩
    | cons line lines => exact hrun lines _ (Reading.first_sound line) h
  intro card hcard
  rcases List.mem_append.mp hcard with hcard | hcard
  · exact hsound.cards card hcard
  · rcases Option.mem_toList.mp hcard with hcard
    rcases Option.map_eq_some_iff.mp hcard with ⟨before, hbefore, rfl⟩
    have hcur := hsound.current before hbefore
    exact finish_finished hcur.1 hcur.2

end Mailo.Pim.VCard
