import Mailo.Pim.VCard.RoundTrip

/-!
# What is read of the card written

The lines of a card are read section by section: each section fills the field it was written
from and leaves the others, so that the card read is known line by line.
-/

namespace Mailo.Pim.VCard

open Domain Library Pim.Line

/-- An address less the old kind that every address of a 4.0 card has. -/
def Email.dropped (email : Email) : Email :=
  { email with kinds := email.kinds.filter fun kind => kind != "internet".toList }

/-- A card as it is to be read back: version 4.0, its name filled in, the old kind dropped. -/
def Card.filled (card : Card) : Card :=
  { card with
    version := .v40
    formattedName := nonEmpty (card.formattedName.getD (fallback card))
    emails := card.emails.map Email.dropped }

/-- What is read of an address as written. -/
def Email.again (email : Email) : Option Email :=
  let address := withoutScheme "mailto:".toList (Text.trim email.address)
  if address.isEmpty then none else some { email.dropped with address := address }

/-- What is read of a number as written. -/
def Phone.again (phone : Phone) : Option Phone :=
  let number := withoutScheme "tel:".toList (Text.trim phone.number)
  if number.isEmpty then none else some { phone with number := number }

/-! ## Reading a section -/

section Sections

variable (c : Card)

variable (value : List Char)

theorem read_version :
    readProperty c (ContentLine.new "VERSION".toList value) =
      { c with version := versionOf value } := rfl

theorem read_uid :
    readProperty c (ContentLine.new "UID".toList value) =
      { c with uid := nonEmpty (unescape value) } := rfl

theorem read_kind :
    readProperty c (ContentLine.new "KIND".toList value) =
      { c with kind := (some (CardKind.parse value)).filter fun kind => !kind.asStr.isEmpty } :=
  rfl

theorem read_fn :
    readProperty c (ContentLine.new "FN".toList value) =
      { c with formattedName := nonEmpty (unescape value) } := rfl

theorem read_n :
    readProperty c (ContentLine.new "N".toList value) = { c with name := some (nameOf value) } :=
  rfl

theorem read_org :
    readProperty c (ContentLine.new "ORG".toList value) =
      { c with org := dropBlankEnd (splitEscaped value ';') } := rfl

theorem read_note :
    readProperty c (ContentLine.new "NOTE".toList value) =
      { c with note := nonEmpty (crlfToLf (unescape value)) } := rfl

theorem read_photo :
    readProperty c (ContentLine.new "PHOTO".toList value) =
      { c with photo := photoOf (ContentLine.new "PHOTO".toList value) } := rfl

theorem read_rev :
    readProperty c (ContentLine.new "REV".toList value) = { c with revision := nonEmpty value } :=
  rfl

theorem read_member :
    readProperty c (ContentLine.new "MEMBER".toList value) =
      { c with other := c.other ++ [ContentLine.new "MEMBER".toList value] } := rfl

end Sections

theorem photoOf_new {photo : List Char} (hne : photo ≠ [])
    (h : ∀ c ∈ photo, Text.isWhitespace c = false) :
    photoOf (ContentLine.new "PHOTO".toList photo) = some photo := by
  have hsplit : ∀ text word, (∀ d ∈ text, Text.isWhitespace d = false) →
      (Text.splitWhitespaceFrom word text).flatten = word ++ text := by
    intro text
    induction text with
    | nil =>
      intro word _
      unfold Text.splitWhitespaceFrom
      split
      · rename_i hword
        simpa using hword
      · simp
    | cons d text ih =>
      intro word htext
      rw [Text.splitWhitespaceFrom, htext d List.mem_cons_self, if_neg (by simp),
        ih _ fun e he => htext e (.tail _ he), List.append_assoc,
        List.singleton_append]
  have hflat : (Text.splitWhitespace photo).flatten = photo := hsplit photo [] h
  have hplain : inBase64 (ContentLine.new "PHOTO".toList photo) = false := rfl
  have hvalue : (ContentLine.new "PHOTO".toList photo).value = photo := rfl
  unfold photoOf
  rw [hvalue, hflat, hplain]
  simp [hne]

variable {email : Email} {phone : Phone} {lines : List ContentLine} {c : Card}

theorem read_email (c : Card) (h : email.Sound) :
    readProperty c (emailLine email) =
      { c with emails := c.emails ++ email.again.toList } := by
  have hkinds : ∀ kind ∈ email.dropped.kinds, Kind kind :=
    fun kind hk => h.kinds kind (List.mem_filter.mp hk).1
  have hread : readProperty c (emailLine email) =
      if (withoutScheme "mailto:".toList
        (Text.trim (unescape (escape email.address)))).isEmpty then c
      else { c with emails := c.emails ++ [⟨withoutScheme "mailto:".toList
        (Text.trim (unescape (escape email.address))), kindsOf (emailLine email),
          prefOf (emailLine email)⟩] } := by
    rw [emailLine_eq]
    rfl
  have hshape : emailLine email = ⟨none, "EMAIL".toList,
      [] ++ typeParams email.dropped.kinds email.pref, escape email.address⟩ :=
    emailLine_eq email
  rw [hread, unescape_escape h.no_return, hshape, kindsOf_typed (by simp) hkinds,
    prefOf_typed (by simp) hkinds]
  unfold Email.again
  dsimp only
  split
  · rw [Option.toList_none, List.append_nil]
  · rw [Option.toList_some]
    rfl

theorem read_phone (c : Card) (h : phone.Sound) :
    readProperty c (phoneLine phone) =
      { c with phones := c.phones ++ phone.again.toList } := by
  have hread : readProperty c (phoneLine phone) =
      if (withoutScheme "tel:".toList
        (Text.trim (unescape (escape phone.number)))).isEmpty then c
      else { c with phones := c.phones ++ [⟨withoutScheme "tel:".toList
        (Text.trim (unescape (escape phone.number))), kindsOf (phoneLine phone),
          prefOf (phoneLine phone)⟩] } := by
    rw [phoneLine_eq]
    rfl
  rw [hread, unescape_escape h.no_return, phoneLine_eq, kindsOf_typed (by simp) h.kinds,
    prefOf_typed (by simp) h.kinds]
  unfold Phone.again
  dsimp only
  split
  · rw [Option.toList_none, List.append_nil]
  · rw [Option.toList_some]

theorem read_emails (c : Card) {emails : List Email} (h : ∀ e ∈ emails, e.Sound) :
    (emails.map emailLine).foldl readProperty c =
      { c with emails := c.emails ++ emails.filterMap Email.again } := by
  induction emails generalizing c with
  | nil => simp
  | cons email emails ih =>
    rw [List.map_cons, List.foldl_cons, read_email c (h email List.mem_cons_self),
      ih _ fun e he => h e (.tail _ he), List.filterMap_cons]
    cases email.again with
    | none | some => simp

theorem read_phones (c : Card) {phones : List Phone} (h : ∀ p ∈ phones, p.Sound) :
    (phones.map phoneLine).foldl readProperty c =
      { c with phones := c.phones ++ phones.filterMap Phone.again } := by
  induction phones generalizing c with
  | nil => simp
  | cons phone phones ih =>
    rw [List.map_cons, List.foldl_cons, read_phone c (h phone List.mem_cons_self),
      ih _ fun e he => h e (.tail _ he), List.filterMap_cons]
    cases phone.again with
    | none | some => simp

theorem read_carried (c : Card) {line : ContentLine} (h : Carried line) :
    readProperty c line = { c with other := c.other ++ [line] } := by
  have hunread := h.unread
  simp only [readNames, List.mem_cons, List.not_mem_nil, or_false, not_or] at hunread
  rcases hunread with ⟨h1, h2, h3, h4, h5, h6, h7, h8, h9, h10, h11, h12⟩
  unfold readProperty
  rw [if_neg h1, if_neg h2, if_neg h3, if_neg h4, if_neg h5, if_neg h6, if_neg h7, if_neg h8,
    if_neg h9, if_neg h10, if_neg h11, if_neg h12, h.inBase64, if_neg (by simp)]

theorem read_others (c : Card) (h : ∀ line ∈ lines, Carried line) :
    lines.foldl readProperty c = { c with other := c.other ++ lines } := by
  induction lines generalizing c with
  | nil => simp
  | cons line lines ih =>
    rw [List.foldl_cons, read_carried c (h line List.mem_cons_self),
      ih _ fun l hl => h l (.tail _ hl)]
    simp

theorem read_members (c : Card) (members : List (List Char)) :
    (members.map fun uri => ContentLine.new "MEMBER".toList uri).foldl readProperty c =
      { c with
        other := c.other ++ members.map fun uri => ContentLine.new "MEMBER".toList uri } := by
  induction members generalizing c with
  | nil => simp
  | cons uri members ih =>
    rw [List.map_cons, List.foldl_cons, read_member, ih]
    simp

/-! ## The fields that come once -/

theorem read_once {α : Type} (put : Card → Option α → Card) (write : α → ContentLine)
    (hnone : put c none = c) {field : Option α}
    (hread : ∀ a, field = some a → readProperty c (write a) = put c (some a)) :
    (field.map write).toList.foldl readProperty c = put c field := by
  cases field with
  | none => exact hnone.symm
  | some a => exact hread a rfl

theorem nameOf_structured {name : Name}
    (h : ∀ part ∈ name.parts, Text.trim part = part ∧ NoReturn part) :
    nameOf (structured name) = name := by
  have hparts : (splitEscaped (structured name) ';').map Text.trim = name.parts := by
    have hjoin : structured name = [';'].intercalate (name.parts.map escape) := rfl
    rw [hjoin, splitEscaped_join (by simp [Name.parts]) fun part hp => (h part hp).2]
    conv_rhs => rw [← List.map_id name.parts]
    apply List.map_congr_left
    exact fun part hp => (h part hp).1
  unfold nameOf
  rw [hparts]
  rfl

theorem dropBlankEnd_kept {parts : List (List Char)}
    (h : ∀ part, parts.getLast? = some part → Text.trim part ≠ []) :
    dropBlankEnd parts = parts := by
  rcases List.eq_nil_or_concat parts with rfl | ⟨init, last, rfl⟩
  · rfl
  · rw [List.concat_eq_append] at h ⊢
    have hlast := h last (by rw [List.getLast?_concat])
    unfold dropBlankEnd
    rw [List.reverse_append, List.reverse_singleton, List.singleton_append,
      List.dropWhile_cons_of_neg (by simpa using hlast)]
    simp

theorem join_noReturn {given family : List Char} (hgiven : NoReturn given)
    (hfamily : NoReturn family) :
    NoReturn ([' '].intercalate
      (([given, family].map Text.trim).filter fun part => !part.isEmpty)) := by
  have hparts : ∀ part ∈ ([given, family].map Text.trim).filter fun part => !part.isEmpty,
      NoReturn part := by
    intro part hp
    rcases List.mem_map.mp (List.mem_filter.mp hp).1 with ⟨raw, hraw, rfl⟩
    simp only [List.mem_cons, List.not_mem_nil, or_false] at hraw
    rcases hraw with rfl | rfl
    · exact hgiven.trim
    · exact hfamily.trim
  generalize ([given, family].map Text.trim).filter (fun part => !part.isEmpty) = parts
    at hparts
  induction parts with
  | nil => exact fun c hc => by cases hc
  | cons part parts ih =>
    have hpart := hparts part (.head _)
    have hrest := ih fun p hp => hparts p (.tail _ hp)
    cases parts with
    | nil => rwa [List.intercalate_singleton]
    | cons next parts =>
      rw [List.intercalate_cons_cons]
      intro c hc
      rcases List.mem_append.mp hc with hc | hc
      · rcases List.mem_append.mp hc with hc | hc
        · exact hpart c hc
        · rw [List.mem_singleton.mp hc]
          decide
      · exact hrest c hc

variable {card : Card}

theorem fallback_noReturn (h : card.Sound) : NoReturn (fallback card) := by
  have hfirst : NoReturn ((card.emails.head?.map Email.address).getD []) := by
    cases hemails : card.emails with
    | nil => exact fun c hc => by cases hc
    | cons email emails =>
      exact (h.emails email (by rw [hemails]; exact .head _)).no_return
  unfold fallback
  cases hdisplay : card.displayName with
  | none => exact hfirst
  | some name =>
    unfold Card.displayName at hdisplay
    dsimp only at hdisplay
    split at hdisplay
    · rename_i formatted _ hformatted
      cases hdisplay
      rcases Option.filter_eq_some_iff.mp hformatted with ⟨hmap, _⟩
      rcases Option.map_eq_some_iff.mp hmap with ⟨raw, hraw, rfl⟩
      exact (h.formattedName raw hraw).no_return.trim
    · cases hdisplay
    · rename_i n _ hname
      split at hdisplay
      · cases hdisplay
      · cases hdisplay
        have hparts := h.name n hname
        exact join_noReturn (hparts n.given (by simp [Name.parts])).2
          (hparts n.family (by simp [Name.parts])).2

theorem shown_noReturn (h : card.Sound) :
    NoReturn (card.formattedName.getD (fallback card)) := by
  cases hname : card.formattedName with
  | none => exact fallback_noReturn h
  | some name => exact (h.formattedName name hname).no_return

/-! ## The card as a whole -/

/-- The lines between the first and the last. -/
def cardBody (card : Card) : List ContentLine :=
  [ContentLine.new "VERSION".toList "4.0".toList]
    ++ (card.uid.map fun uid => ContentLine.new "UID".toList (escape uid)).toList
    ++ (card.kind.map fun kind => ContentLine.new "KIND".toList kind.asStr).toList
    ++ [ContentLine.new "FN".toList (escape (card.formattedName.getD (fallback card)))]
    ++ (card.name.map fun name => ContentLine.new "N".toList (structured name)).toList
    ++ card.emails.map emailLine
    ++ card.phones.map phoneLine
    ++ (if card.org.isEmpty then []
        else [ContentLine.new "ORG".toList ([';'].intercalate (card.org.map escape))])
    ++ (card.note.map fun note => ContentLine.new "NOTE".toList (escape note)).toList
    ++ (card.photo.map fun photo => ContentLine.new "PHOTO".toList photo).toList
    ++ (card.revision.map fun rev => ContentLine.new "REV".toList rev).toList
    ++ (if card.isGroup then card.members.map fun uri => ContentLine.new "MEMBER".toList uri
        else [])
    ++ card.other

theorem cardLines_eq (card : Card) :
    cardLines card = ContentLine.new "BEGIN".toList "VCARD".toList ::
      (cardBody card ++ [ContentLine.new "END".toList "VCARD".toList]) := by
  simp [cardLines, cardBody]

def Card.unfinished (card : Card) : Card :=
  { card.filled with
    emails := card.emails.filterMap Email.again
    phones := card.phones.filterMap Phone.again
    members := []
    other := (if card.isGroup then card.members.map fun uri => ContentLine.new "MEMBER".toList uri
      else []) ++ card.other }

section Fields

variable {card : Card} (h : card.Sound) {c : Card}

include h

theorem read_uid_field (hc : c.uid = none) :
    (card.uid.map fun uid => ContentLine.new "UID".toList (escape uid)).toList.foldl readProperty c =
      { c with uid := card.uid } := by
  apply read_once fun c uid => { c with uid := uid }
  · rw [← hc]
  · intro u hu
    have ht := h.uid u hu
    rw [read_uid, unescape_escape ht.no_return, ht.nonEmpty]

theorem read_kind_field (hc : c.kind = none) :
    (card.kind.map fun kind => ContentLine.new "KIND".toList kind.asStr).toList.foldl readProperty c =
      { c with kind := card.kind } := by
  apply read_once fun c kind => { c with kind := kind }
  · rw [← hc]
  · intro k hk
    have ht := h.kind k hk
    rw [read_kind, ht.again]
    simp [Option.filter, ht.some_text]

theorem read_name_field (hc : c.name = none) :
    (card.name.map fun name => ContentLine.new "N".toList (structured name)).toList.foldl
      readProperty c = { c with name := card.name } := by
  apply read_once fun c name => { c with name := name }
  · rw [← hc]
  · intro n hn
    rw [read_n, nameOf_structured (h.name n hn)]

theorem read_org_field (hc : c.org = []) :
    (if card.org.isEmpty then []
      else [ContentLine.new "ORG".toList ([';'].intercalate (card.org.map escape))]).foldl
      readProperty c = { c with org := card.org } := by
  cases horg : card.org with
  | nil => rw [List.isEmpty_nil, if_pos rfl, List.foldl_nil, ← hc]
  | cons first rest =>
    have hlast := h.org_last
    have hreturn := h.org
    rw [horg] at hlast hreturn
    rw [if_neg (by simp), List.foldl_cons, List.foldl_nil, read_org,
      splitEscaped_join (by simp) hreturn, dropBlankEnd_kept hlast]

theorem read_note_field (hc : c.note = none) :
    (card.note.map fun note => ContentLine.new "NOTE".toList (escape note)).toList.foldl
      readProperty c = { c with note := card.note } := by
  apply read_once fun c note => { c with note := note }
  · rw [← hc]
  · intro n hn
    have ht := h.note n hn
    rw [read_note, unescape_escape ht.no_return, crlfToLf_plain ht.no_return, ht.nonEmpty]

theorem read_photo_field (hc : c.photo = none) :
    (card.photo.map fun photo => ContentLine.new "PHOTO".toList photo).toList.foldl
      readProperty c = { c with photo := card.photo } := by
  apply read_once fun c photo => { c with photo := photo }
  · rw [← hc]
  · intro p hp
    have ht := h.photo p hp
    rw [read_photo, photoOf_new ht.1 ht.2]

theorem read_rev_field (hc : c.revision = none) :
    (card.revision.map fun rev => ContentLine.new "REV".toList rev).toList.foldl readProperty c =
      { c with revision := card.revision } := by
  apply read_once fun c rev => { c with revision := rev }
  · rw [← hc]
  · intro r hr
    have ht := h.revision r hr
    have htidy : Tidy r := ⟨ht.some_text, ht.trimmed, NoReturn.of_unbroken ht.unbroken⟩
    rw [read_rev, htidy.nonEmpty]

end Fields

theorem read_member_field (card : Card) (hc : c.other = []) :
    (if card.isGroup then card.members.map fun uri => ContentLine.new "MEMBER".toList uri
      else []).foldl readProperty c = { c with
        other := if card.isGroup then
          card.members.map fun uri => ContentLine.new "MEMBER".toList uri else [] } := by
  split
  · rw [read_members, hc, List.nil_append]
  · rw [List.foldl_nil, ← hc]

theorem read_body (h : card.Sound) :
    (cardBody card).foldl readProperty Card.new = card.unfinished := by
  have hversion : versionOf "4.0".toList = .v40 := by decide
  unfold cardBody
  simp only [List.foldl_append, List.foldl_cons, List.foldl_nil]
  rw [read_version, hversion, read_uid_field h rfl, read_kind_field h rfl, read_fn,
    unescape_escape (shown_noReturn h), read_name_field h rfl, read_emails _ h.emails,
    read_phones _ h.phones, read_org_field h rfl, read_note_field h rfl, read_photo_field h rfl,
    read_rev_field h rfl, read_member_field card rfl, read_others _ h.other]
  rfl

/-- A line of the body is read into the card at hand. -/
theorem body_inside (h : card.Sound) :
    ∀ line ∈ cardBody card, ¬(line.name = "BEGIN".toList ∧ isVcard line = true) ∧
      ¬(line.name = "END".toList ∧ isVcard line = true) := by
  have hnamed : ∀ line : ContentLine, line.name ≠ "BEGIN".toList ∧ line.name ≠ "END".toList →
      ¬(line.name = "BEGIN".toList ∧ isVcard line = true) ∧
        ¬(line.name = "END".toList ∧ isVcard line = true) :=
    fun line hne => ⟨fun hline => hne.1 hline.1, fun hline => hne.2 hline.1⟩
  have hnew : ∀ name value, toAsciiUppercase name ≠ "BEGIN".toList ∧
      toAsciiUppercase name ≠ "END".toList →
      (ContentLine.new name value).name ≠ "BEGIN".toList ∧
        (ContentLine.new name value).name ≠ "END".toList := fun _ _ hne => hne
  intro line hline
  unfold cardBody at hline
  simp only [List.mem_append, List.mem_cons, List.not_mem_nil, or_false, Option.mem_toList,
    Option.map_eq_some_iff, List.mem_map, or_assoc] at hline
  rcases hline with rfl | ⟨u, _, rfl⟩ | ⟨k, _, rfl⟩ | rfl | ⟨n, _, rfl⟩ | ⟨e, _, rfl⟩ |
    ⟨p, _, rfl⟩ | horg | ⟨n, _, rfl⟩ | ⟨p, _, rfl⟩ | ⟨r, _, rfl⟩ | hmember | hother
  · exact hnamed _ (hnew _ _ (by decide))
  · exact hnamed _ (hnew _ _ (by decide))
  · exact hnamed _ (hnew _ _ (by decide))
  · exact hnamed _ (hnew _ _ (by decide))
  · exact hnamed _ (hnew _ _ (by decide))
  · apply hnamed
    rw [emailLine_eq]
    show "EMAIL".toList ≠ "BEGIN".toList ∧ "EMAIL".toList ≠ "END".toList
    decide
  · apply hnamed
    rw [phoneLine_eq]
    show "TEL".toList ≠ "BEGIN".toList ∧ "TEL".toList ≠ "END".toList
    decide
  · split at horg
    · cases horg
    · rw [List.mem_singleton.mp horg]
      exact hnamed _ (hnew _ _ (by decide))
  · exact hnamed _ (hnew _ _ (by decide))
  · exact hnamed _ (hnew _ _ (by decide))
  · exact hnamed _ (hnew _ _ (by decide))
  · split at hmember
    · rcases List.mem_map.mp hmember with ⟨m, _, rfl⟩
      exact hnamed _ (hnew _ _ (by decide))
    · cases hmember
  · have hinside := (h.other line hother).inside
    exact ⟨fun hline => (hinside hline.2).1 hline.1, fun hline => (hinside hline.2).2 hline.1⟩

theorem steps_inside
    (h : ∀ line ∈ lines, ¬(line.name = "BEGIN".toList ∧ isVcard line = true) ∧
      ¬(line.name = "END".toList ∧ isVcard line = true)) (c : Card) :
    lines.foldl Reading.step ⟨[], some c, 1⟩ = ⟨[], some (lines.foldl readProperty c), 1⟩ := by
  induction lines generalizing c with
  | nil => rfl
  | cons line lines ih =>
    have hline := h line (.head _)
    have hstep : Reading.step ⟨[], some c, 1⟩ line = ⟨[], some (readProperty c line), 1⟩ := by
      unfold Reading.step
      rw [if_neg hline.1, if_neg hline.2, if_pos rfl]
      rfl
    rw [List.foldl_cons, hstep, ih (fun l hl => h l (.tail _ hl)),
      List.foldl_cons]

theorem readLines_card (h : card.Sound) :
    readLines (cardLines card) = [finish card.unfinished] := by
  have hbegin : Reading.step Reading.start (ContentLine.new "BEGIN".toList "VCARD".toList) =
      ⟨[], some Card.new, 1⟩ := by
    unfold Reading.step
    rw [if_pos (by decide)]
    rfl
  have hend : Reading.step ⟨[], some card.unfinished, 1⟩
      (ContentLine.new "END".toList "VCARD".toList) = ⟨[finish card.unfinished], none, 0⟩ := by
    unfold Reading.step
    rw [if_neg (by decide), if_pos (by decide)]
    rfl
  unfold readLines
  rw [cardLines_eq, List.foldl_cons, hbegin, List.foldl_append, steps_inside (body_inside h),
    read_body h, List.foldl_cons, List.foldl_nil, hend]
  rfl

theorem finish_unfinished (h : card.Finished) :
    finish card.unfinished = { card.filled with
      emails := card.emails.filterMap Email.again
      phones := card.phones.filterMap Phone.again } := by
  have hgroup : card.unfinished.isGroup = card.isGroup := rfl
  unfold finish
  rw [hgroup]
  by_cases hg : card.isGroup = true
  · rw [if_pos hg]
    have hother : card.unfinished.other =
        (card.members.map fun uri => ContentLine.new "MEMBER".toList uri) ++ card.other := by
      unfold Card.unfinished
      rw [if_pos hg]
    have hnone : card.other.filter (fun line => line.name == "MEMBER".toList) = [] := by
      rw [List.filter_eq_nil_iff]
      intro line hline
      simpa using h.other_group hg line hline
    have hall : card.other.filter (fun line => line.name != "MEMBER".toList) = card.other := by
      rw [List.filter_eq_self]
      intro line hline
      simpa using h.other_group hg line hline
    have hname : ∀ uri, (ContentLine.new "MEMBER".toList uri).name = "MEMBER".toList :=
      fun _ => rfl
    have hmembers : (card.members.map fun uri => ContentLine.new "MEMBER".toList uri).filter
        (fun line => line.name == "MEMBER".toList) =
        card.members.map fun uri => ContentLine.new "MEMBER".toList uri := by
      rw [List.filter_eq_self]
      intro line hline
      rcases List.mem_map.mp hline with ⟨uri, _, rfl⟩
      rw [hname]
      exact beq_self_eq_true _
    have hnomembers : (card.members.map fun uri => ContentLine.new "MEMBER".toList uri).filter
        (fun line => line.name != "MEMBER".toList) = [] := by
      rw [List.filter_eq_nil_iff]
      intro line hline
      rcases List.mem_map.mp hline with ⟨uri, _, rfl⟩
      rw [hname]
      simp
    have hvalues : ((card.members.map fun uri => ContentLine.new "MEMBER".toList uri).map
        fun line => Text.trim line.value) = card.members := by
      rw [List.map_map]
      conv_rhs => rw [← List.map_id card.members]
      apply List.map_congr_left
      exact fun uri huri => (h.members uri huri).trimmed
    have hkept : card.members.filter (fun uri => !uri.isEmpty) = card.members := by
      rw [List.filter_eq_self]
      intro uri huri
      simpa using (h.members uri huri).some_text
    rw [hother, List.filter_append, List.filter_append, hnone, hall, hmembers, hnomembers,
      List.append_nil, List.nil_append, hvalues, hkept]
    rfl
  · rw [if_neg hg]
    have hmembers := h.members_group (by simpa using hg)
    unfold Card.unfinished Card.filled
    rw [if_neg hg, hmembers, List.nil_append]

/-! ## The round trip -/

theorem again_email (h : email.Sound) :
    email.again = some email.dropped ↔ Bare "mailto:".toList email.address := by
  rw [← withoutScheme_iff (by decide) h.last]
  unfold Email.again
  dsimp only
  constructor
  · intro hagain
    split at hagain
    · cases hagain
    · exact congrArg Email.address (Option.some.inj hagain)
  · intro hsame
    rw [hsame, if_neg (by simpa using h.some_address)]
    rfl

theorem again_phone (h : phone.Sound) :
    phone.again = some phone ↔ Bare "tel:".toList phone.number := by
  rw [← withoutScheme_iff (by decide) h.last]
  unfold Phone.again
  dsimp only
  constructor
  · intro hagain
    split at hagain
    · cases hagain
    · exact congrArg Phone.number (Option.some.inj hagain)
  · intro hsame
    rw [hsame, if_neg (by simpa using h.some_number)]

/-- Nothing can be lost or changed by `f` without changing the list. -/
theorem filterMap_eq_map {α β : Type} {f : α → Option β} {g : α → β} {xs : List α} :
    xs.filterMap f = xs.map g ↔ ∀ x ∈ xs, f x = some (g x) := by
  constructor
  · intro h
    induction xs with
    | nil => exact fun x hx => by cases hx
    | cons x xs ih =>
      rw [List.filterMap_cons, List.map_cons] at h
      cases hx : f x with
      | none =>
        rw [hx] at h
        have hlen := congrArg List.length h
        have hle := List.length_filterMap_le f xs
        rw [List.length_cons, List.length_map] at hlen
        dsimp only at hlen
        omega
      | some y =>
        rw [hx] at h
        have hparts := List.cons.inj h
        intro z hz
        rcases List.mem_cons.mp hz with rfl | hz
        · rw [hx, hparts.1]
        · exact ih hparts.2 z hz
  · intro h
    induction xs with
    | nil => rfl
    | cons x xs ih =>
      rw [List.filterMap_cons, h x List.mem_cons_self, List.map_cons,
        ih fun y hy => h y (.tail _ hy)]

/-- A card read from a text that declares no encoding comes back from its own text as one card:
the same but for its version, its name filled in and the old kind dropped, exactly when no address
and no number begins with what the reader takes off. -/
theorem parse_write {E : Encodings} {text : List Char} (hplain : NoEncoding text) {card : Card}
    (hcard : card ∈ parse E text) (hold : LinesHold card) :
    parse E (write card) = [card.filled] ↔
      (∀ e ∈ card.emails, Bare "mailto:".toList e.address) ∧
        ∀ p ∈ card.phones, Bare "tel:".toList p.number := by
  have hfinished := parse_finished hplain card hcard
  have hread : parse E (write card) = [{ card.filled with
      emails := card.emails.filterMap Email.again
      phones := card.phones.filterMap Phone.again }] := by
    unfold parse write
    rw [lines_written E (cardLines_alone hfinished hold), readLines_card hfinished.toSound,
      finish_unfinished hfinished]
  have hemails : card.emails.filterMap Email.again = card.emails.map Email.dropped ↔
      ∀ e ∈ card.emails, Bare "mailto:".toList e.address := by
    rw [filterMap_eq_map]
    exact forall₂_congr fun e he => again_email (hfinished.emails e he)
  have hphones : card.phones.filterMap Phone.again = card.phones ↔
      ∀ p ∈ card.phones, Bare "tel:".toList p.number := by
    have hmap := @filterMap_eq_map _ _ Phone.again id card.phones
    rw [List.map_id] at hmap
    rw [hmap]
    exact forall₂_congr fun p hp => again_phone (hfinished.phones p hp)
  rw [hread, ← hemails, ← hphones]
  constructor
  · intro hsame
    have hone := List.singleton_inj.mp hsame
    exact ⟨congrArg Card.emails hone, congrArg Card.phones hone⟩
  · rintro ⟨hsame, hsame'⟩
    rw [hsame, hsame']
    rfl

/-- A card as an older phone writes it. -/
def adaText : List Char :=
  ("BEGIN:VCARD\r\nVERSION:3.0\r\nN:Lovelace;Ada;;;\r\nEMAIL;TYPE=INTERNET,home:ada@x.test\r\n"
    ++ "item1.X-AB;TYPE=a:b\r\nEND:VCARD\r\n").toList

def adaCard : Card :=
  { Card.new with
    version := .v30
    name := some ⟨"Lovelace".toList, "Ada".toList, [], [], []⟩
    emails := [⟨"ada@x.test".toList, ["internet".toList, "home".toList], none⟩]
    other := [⟨some "item1".toList, "X-AB".toList, [⟨"TYPE".toList, ["a".toList]⟩], "b".toList⟩] }

theorem noEncoding_of {text : List Char}
    (h : ∀ raw ∈ unfold text, ∀ line ∈ (Line.parse raw).toList, ∀ p ∈ line.params,
      p.name ≠ "ENCODING".toList) : NoEncoding text :=
  fun raw hraw line hline => h raw hraw line (Option.mem_toList.mpr hline)

theorem ada_lines : LinesHold adaCard where
  closed := by
    unfold NamesClosed
    decide +kernel
  firm := by
    unfold Line.Firm
    decide +kernel
  steady := by
    have hquoted : ∀ line ∈ cardLines adaCard, quotedPrintable (logical line) = false := by
      decide +kernel
    exact fun line hline => hard_of (hquoted line hline)

theorem ada_reads : NoEncoding adaText ∧ adaCard ∈ parse utf8Only adaText :=
  ⟨noEncoding_of (by decide +kernel), by decide +kernel⟩

theorem ada_back : parse utf8Only (write adaCard) = [adaCard.filled] := by
  apply (parse_write ada_reads.1 ada_reads.2 ada_lines).mpr
  unfold Bare
  decide +kernel

def spacedText : List Char :=
  "BEGIN:VCARD\r\nVERSION:4.0\r\nFN:Ada\r\nEMAIL:mailto: ada@x.test\r\nEND:VCARD\r\n".toList

/-- The space is not there the second time. -/
theorem spaced_lost :
    ¬ ∀ (E : Encodings) (text : List Char), NoEncoding text → ∀ card ∈ parse E text,
      parse E (write card) = [card.filled] := by
  intro hall
  have hmem : (parse utf8Only spacedText).all fun card =>
      parse utf8Only (write card) != [card.filled] := by
    decide +kernel
  have hne : parse utf8Only spacedText ≠ [] := by decide +kernel
  rcases List.exists_mem_of_ne_nil _ hne with ⟨card, hcard⟩
  have hback := hall utf8Only spacedText (noEncoding_of (by decide +kernel)) card hcard
  have hdiff := List.all_eq_true.mp hmem card hcard
  rw [hback] at hdiff
  simp at hdiff

end Mailo.Pim.VCard
