import Mailo.Pim.Line
import Mailo.Domain.Message

/-!
# Cards

A card of any version is read into one model: who someone is and where to write to them are
fields, and every other property rides along as the line it was. A card is always written as
version 4.0.
-/

namespace Mailo.Pim.VCard

open Domain Pim.Line

/-- The version a card was read as. -/
inductive Version where
  | v21
  | v30
  | v40
  deriving DecidableEq

/-- What a card stands for. -/
inductive CardKind where
  | individual
  | group
  | org
  | location
  | other (kind : List Char)
  deriving DecidableEq

def CardKind.parse (value : List Char) : CardKind :=
  let kind := Text.toAsciiLowercase (Text.trim value)
  if kind = "individual".toList then .individual
  else if kind = "group".toList then .group
  else if kind = "org".toList then .org
  else if kind = "location".toList then .location
  else .other kind

def CardKind.asStr : CardKind → List Char
  | .individual => "individual".toList
  | .group => "group".toList
  | .org => "org".toList
  | .location => "location".toList
  | .other kind => kind

/-- `N`: family; given; additional; prefixes; suffixes. -/
structure Name where
  family : List Char
  given : List Char
  additional : List Char
  prefixes : List Char
  suffixes : List Char
  deriving DecidableEq

structure Email where
  address : List Char
  kinds : List (List Char)
  pref : Option UInt8
  deriving DecidableEq

structure Phone where
  number : List Char
  kinds : List (List Char)
  pref : Option UInt8
  deriving DecidableEq

structure Card where
  version : Version
  uid : Option (List Char)
  kind : Option CardKind
  formattedName : Option (List Char)
  name : Option Name
  emails : List Email
  phones : List Phone
  org : List (List Char)
  note : Option (List Char)
  revision : Option (List Char)
  photo : Option (List Char)
  members : List (List Char)
  other : List ContentLine
  deriving DecidableEq

def Card.new : Card := ⟨.v40, none, none, none, none, [], [], [], none, none, none, [], []⟩

def Card.isGroup (card : Card) : Bool := card.kind == some .group

def Card.displayName (card : Card) : Option (List Char) :=
  let formatted := (card.formattedName.map Text.trim).filter fun name => !name.isEmpty
  match formatted, card.name with
  | some name, _ => some name
  | none, none => none
  | none, some n =>
    let joined := [' '].intercalate
      (([n.given, n.family].map Text.trim).filter fun part => !part.isEmpty)
    if joined.isEmpty then none else some joined

/-! ## Reading -/

def nonEmpty (text : List Char) : Option (List Char) :=
  let trimmed := Text.trim text
  if trimmed.isEmpty then none else some trimmed

def nameOf (value : List Char) : Name :=
  let parts := (splitEscaped value ';').map Text.trim
  ⟨parts[0]?.getD [], parts[1]?.getD [], parts[2]?.getD [], parts[3]?.getD [],
    parts[4]?.getD []⟩

/-- `TYPE` values lower-cased, less `pref`. -/
def kindsOf (line : ContentLine) : List (List Char) :=
  (((line.values "TYPE".toList).flatMap fun v => v.splitOn ',').map fun v =>
    Text.toAsciiLowercase (Text.trim v)).filter fun v => !v.isEmpty && v != "pref".toList

def parseU8 (text : List Char) : Option UInt8 := (Text.parseUnsigned 256 text).map UInt8.ofNat

/-- The preference, from `PREF` or from an older `TYPE=pref`. -/
def prefOf (line : ContentLine) : Option UInt8 :=
  ((line.values "PREF".toList).findSome? fun v => parseU8 (Text.trim v)).orElse fun _ =>
    if line.has "TYPE".toList "pref".toList then some 1 else none

def inBase64 (line : ContentLine) : Bool :=
  line.has "ENCODING".toList "b".toList || line.has "ENCODING".toList "BASE64".toList

/-- A 4.0 URI as written, or an older card's inline base64 as a `data:` URI. -/
def photoOf (line : ContentLine) : Option (List Char) :=
  let value := (Text.splitWhitespace line.value).flatten
  if value.isEmpty then none
  else if inBase64 line then
    let subtype := match (line.values "TYPE".toList).head?.map Text.toAsciiLowercase with
      | some t => (Text.stripPrefix "image/".toList t).getD t
      | none => "jpeg".toList
    some ("data:image/".toList ++ subtype ++ ";base64,".toList ++ value)
  else some value

def withoutScheme (scheme text : List Char) : List Char :=
  (Text.stripPrefix scheme text).getD text

def dropBlankEnd (parts : List (List Char)) : List (List Char) :=
  (parts.reverse.dropWhile fun p => (Text.trim p).isEmpty).reverse

def crlfToLf : List Char → List Char
  | [] => []
  | [c] => [c]
  | c :: next :: rest =>
    if c = '\r' ∧ next = '\n' then '\n' :: crlfToLf rest else c :: crlfToLf (next :: rest)

def versionOf (value : List Char) : Version :=
  if Text.trim value = "2.1".toList then .v21
  else if Text.trim value = "3.0".toList then .v30
  else .v40

def readProperty (card : Card) (line : ContentLine) : Card :=
  if line.name = "VERSION".toList then { card with version := versionOf line.value }
  else if line.name = "UID".toList then { card with uid := nonEmpty (unescape line.value) }
  else if line.name = "KIND".toList then
    { card with
      kind := (some (CardKind.parse line.value)).filter fun kind => !kind.asStr.isEmpty }
  else if line.name = "FN".toList then
    { card with formattedName := nonEmpty (unescape line.value) }
  else if line.name = "N".toList then { card with name := some (nameOf line.value) }
  else if line.name = "EMAIL".toList then
    let address := withoutScheme "mailto:".toList (Text.trim (unescape line.value))
    if address.isEmpty then card
    else { card with emails := card.emails ++ [⟨address, kindsOf line, prefOf line⟩] }
  else if line.name = "TEL".toList then
    let number := withoutScheme "tel:".toList (Text.trim (unescape line.value))
    if number.isEmpty then card
    else { card with phones := card.phones ++ [⟨number, kindsOf line, prefOf line⟩] }
  else if line.name = "ORG".toList then
    { card with org := dropBlankEnd (splitEscaped line.value ';') }
  else if line.name = "NOTE".toList then
    { card with note := nonEmpty (crlfToLf (unescape line.value)) }
  else if line.name = "REV".toList then { card with revision := nonEmpty line.value }
  else if line.name = "PHOTO".toList then { card with photo := photoOf line }
  else if line.name = "PRODID".toList then card
  else if inBase64 line then card
  else { card with other := card.other ++ [line] }

/-- A card read to its end: a group's `MEMBER`s become its members. -/
def finish (card : Card) : Card :=
  if card.isGroup then
    { card with
      other := card.other.filter fun line => line.name != "MEMBER".toList
      members := ((card.other.filter fun line => line.name == "MEMBER".toList).map fun line =>
        Text.trim line.value).filter fun uri => !uri.isEmpty }
  else card

/-- The loop of `parse`: the cards finished, the one being read, and how deep it is nested. -/
structure Reading where
  cards : List Card
  current : Option Card
  depth : Nat

def Reading.start : Reading := ⟨[], none, 0⟩

def isVcard (line : ContentLine) : Bool :=
  Text.eqIgnoreAsciiCase (Text.trim line.value) "VCARD".toList

def Reading.step (st : Reading) (line : ContentLine) : Reading :=
  if line.name = "BEGIN".toList ∧ isVcard line then
    { st with
      current := if st.depth = 0 then some Card.new else st.current
      depth := st.depth + 1 }
  else if line.name = "END".toList ∧ isVcard line then
    let depth := st.depth - 1
    match depth, st.current with
    | 0, some card => ⟨st.cards ++ [finish card], none, 0⟩
    | _, _ => { st with depth := depth }
  else if st.depth = 1 then
    { st with current := st.current.map fun card => readProperty card line }
  else st

def readLines (lines : List ContentLine) : List Card :=
  let st := lines.foldl Reading.step Reading.start
  st.cards ++ (st.current.map finish).toList

def parse (E : Encodings) (text : List Char) : List Card := readLines (lines E text)

def typed (line : ContentLine) (kinds : List (List Char)) (pref : Option UInt8) : ContentLine :=
  let line := if kinds.isEmpty then line else line.plus "TYPE".toList kinds
  match pref with
  | some n => line.plus "PREF".toList [(toString n.toNat).toList]
  | none => line

def structured (name : Name) : List Char :=
  [';'].intercalate
    ([name.family, name.given, name.additional, name.prefixes, name.suffixes].map escape)

/-- What `FN` says of a card that has none: its display name, else its first address, else
nothing. -/
def fallback (card : Card) : List Char :=
  ((card.displayName).orElse fun _ => card.emails.head?.map Email.address).getD []

def emailLine (email : Email) : ContentLine :=
  typed (ContentLine.new "EMAIL".toList (escape email.address))
    (email.kinds.filter fun kind => kind != "internet".toList) email.pref

def phoneLine (phone : Phone) : ContentLine :=
  typed ((ContentLine.new "TEL".toList (escape phone.number)).plus "VALUE".toList ["text".toList])
    phone.kinds phone.pref

def cardLines (card : Card) : List ContentLine :=
  [ContentLine.new "BEGIN".toList "VCARD".toList, ContentLine.new "VERSION".toList "4.0".toList]
    ++ (card.uid.map fun uid => ContentLine.new "UID".toList (escape uid)).toList
    ++ (card.kind.map fun kind => ContentLine.new "KIND".toList kind.asStr).toList
    ++ [ContentLine.new "FN".toList (escape (card.formattedName.getD (fallback card)))]
    ++ (card.name.map fun name => ContentLine.new "N".toList (structured name)).toList
    ++ card.emails.map emailLine
    ++ card.phones.map phoneLine
    ++ (if card.org.isEmpty then []
        else [ContentLine.new "ORG".toList ([';'].intercalate (card.org.map escape))])
    ++ (card.note.map fun note => ContentLine.new "NOTE".toList (escape note)).toList
    ++ (card.photo.map fun photo => ContentLine.new "PHOTO".toList photo).toList
    ++ (card.revision.map fun rev => ContentLine.new "REV".toList rev).toList
    ++ (if card.isGroup then card.members.map fun uri => ContentLine.new "MEMBER".toList uri
        else [])
    ++ card.other
    ++ [ContentLine.new "END".toList "VCARD".toList]

def write (card : Card) : List Char := (cardLines card).flatMap Line.write

end Mailo.Pim.VCard

/-!
## The addresses of a card
-/

namespace Mailo.Pim.VCard

open Domain

def Card.addressesByPreference (card : Card) : List (List Char) :=
  (card.emails.insertionSort fun a b =>
    (a.pref.getD 255).toNat ≤ (b.pref.getD 255).toNat).map Email.address

/-- The addresses as an address book keys them, each once. An email that is no address is left
out. -/
def Card.addresses [Unicode] (card : Card) : List String :=
  (card.addressesByPreference.filterMap normalise).foldl
    (fun addresses address =>
      if addresses.contains address then addresses else addresses ++ [address]) []

end Mailo.Pim.VCard
