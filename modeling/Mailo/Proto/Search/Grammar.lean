import Mailo.Proto.Search.Imap

/-!
# The grammar of an IMAP search

A `UID SEARCH` command as RFC 3501 spells it, with the return options of RFC 4731, the literals of
RFC 7888 and Gmail's two keys, read for the keys a search can be made of. A reader says what it
read, what was left wherever the server would have answered `+`, and what is left after it.
-/

namespace Mailo.Proto.Search

open Domain Library

/-- What was read, what was left at each synchronising literal, and what is left. -/
structure Reading (α : Type) where
  value : α
  cuts : List Bytes
  rest : Bytes

/-- A day of the civil calendar, its month counted from nought. -/
structure Civil where
  year : Int
  month0 : Nat
  day : Nat
deriving DecidableEq

def months : List String :=
  ["Jan", "Feb", "Mar", "Apr", "May", "Jun", "Jul", "Aug", "Sep", "Oct", "Nov", "Dec"]

def imapDate (date : Civil) : List Char :=
  (toString date.day ++ "-" ++ months.getD date.month0 "" ++ "-" ++ toString date.year).toList

/-- The civil calendar, as the date library has it. -/
structure Chrono where
  civil : NaiveDate → Civil
  ofCivil : Civil → Option NaiveDate
  month_lt : ∀ date, (civil date).month0 < 12
  day_le : ∀ date, (civil date).day ≤ 31
  ofCivil_civil : ∀ date, ofCivil (civil date) = some date

/-- Dates on the wire, by the civil calendar. -/
@[reducible] def Chrono.dates (chrono : Chrono) (instant : DateTime → List Char) : ImapDates where
  day date := imapDate (chrono.civil date)
  instant := instant

namespace Grammar

def isWordByte (b : UInt8) : Bool :=
  (0x41 ≤ b && b ≤ 0x5a) || (0x61 ≤ b && b ≤ 0x7a) || b == 0x2d

def isAstringByte (b : UInt8) : Bool :=
  0x21 ≤ b && b ≤ 0x7e && !(wire "()\x7b%*\"\\").contains b

def upper (b : UInt8) : UInt8 := if 0x61 ≤ b && b ≤ 0x7a then b - 0x20 else b

def strip (lead bytes : Bytes) : Option Bytes :=
  if lead.isPrefixOf bytes then some (bytes.drop lead.length) else none

def value (digits : Bytes) : Nat := digits.foldl (fun n b => 10 * n + (b.toNat - 0x30)) 0

def readNumber (bytes : Bytes) : Option (Nat × Bytes) :=
  let digits := bytes.takeWhile Utf8.isAsciiDigit
  if digits.isEmpty ∨ 2 ^ 32 ≤ value digits then none
  else some (value digits, bytes.dropWhile Utf8.isAsciiDigit)

/-- A quoted string, its opening quote read; `slash` when a backslash was read before. -/
def readQuoted (slash : Bool) : Bytes → Option (Bytes × Bytes)
  | [] => none
  | b :: rest =>
    if slash then
      if b = 0x22 ∨ b = 0x5c then
        (readQuoted false rest).map fun read => (b :: read.1, read.2)
      else none
    else if b = 0x22 then some ([], rest)
    else if b = 0x5c then readQuoted true rest
    else if b = 0 ∨ b = 0x0a ∨ b = 0x0d ∨ 0x80 ≤ b then none
    else (readQuoted false rest).map fun read => (b :: read.1, read.2)

/-- A literal, its opening brace read. One without `+` is sent when the server says so. -/
def readLiteral (bytes : Bytes) : Option (Reading Bytes) := do
  let (length, rest) ← readNumber bytes
  let asked := rest.head? ≠ some 0x2b
  let after ← strip (wire "\x7d\r\n") (if asked then rest else rest.tail)
  if length ≤ after.length ∧ 0 ∉ after.take length then
    some ⟨after.take length, if asked then [after] else [], after.drop length⟩
  else none

def readAstring (bytes : Bytes) : Option (Reading Bytes) :=
  match bytes with
  | [] => none
  | b :: rest =>
    if b = 0x22 then (readQuoted false rest).map fun read => ⟨read.1, [], read.2⟩
    else if b = 0x7b then readLiteral rest
    else if isAstringByte b then
      some ⟨bytes.takeWhile isAstringByte, [], bytes.dropWhile isAstringByte⟩
    else none

def ofUtf8 (bytes : Bytes) : Option String :=
  bytes.toByteArray.utf8Decode?.map fun chars => String.ofList chars.toList

def readText (bytes : Bytes) : Option (Reading String) := do
  let read ← readAstring bytes
  let text ← ofUtf8 read.value
  some ⟨text, read.cuts, read.rest⟩

def readCivil (bytes : Bytes) : Option (Civil × Bytes) := do
  let day := bytes.takeWhile Utf8.isAsciiDigit
  if day.isEmpty ∨ 2 < day.length then none
  else
    let rest ← strip [0x2d] (bytes.dropWhile Utf8.isAsciiDigit)
    let month0 ← months.findIdx? fun name =>
      (wire name).map upper == (rest.take 3).map upper
    let rest ← strip [0x2d] (rest.drop 3)
    let year := rest.takeWhile Utf8.isAsciiDigit
    if year.length = 4 then some (⟨value year, month0, value day⟩, rest.dropWhile Utf8.isAsciiDigit)
    else none

def readDate (chrono : Chrono) (bytes : Bytes) : Option (NaiveDate × Bytes) :=
  match strip [0x22] bytes with
  | some inner => do
      let (civil, rest) ← readCivil inner
      let date ← chrono.ofCivil civil
      return (date, ← strip [0x22] rest)
  | none => do
      let (civil, rest) ← readCivil bytes
      return (← chrono.ofCivil civil, rest)

/-- What a key's name takes after it. -/
inductive Verb where
  | plain (key : SearchKey)
  | text (key : String → SearchKey)
  | date (key : NaiveDate → SearchKey)
  | size (key : Nat → SearchKey)
  | not
  | or

def verbs : List (String × Verb) :=
  [("ALL", .plain .all), ("SEEN", .plain .seen), ("UNSEEN", .plain .unseen),
    ("FLAGGED", .plain .flagged), ("UNFLAGGED", .plain .unflagged), ("FROM", .text .sender),
    ("TO", .text .to), ("CC", .text .cc), ("SUBJECT", .text .subject), ("BODY", .text .body),
    ("X-GM-LABELS", .text .gmailLabel), ("X-GM-RAW", .text .gmailRaw),
    ("SENTSINCE", .date .sentSince), ("SENTBEFORE", .date .sentBefore),
    ("LARGER", .size .larger), ("SMALLER", .size .smaller), ("NOT", .not), ("OR", .or)]

def verbOf (word : Bytes) : Option Verb :=
  (verbs.find? fun verb => wire verb.1 == word.map upper).map Prod.snd

section Keys

variable (chrono : Chrono)

mutual

def readKey : Nat → Bytes → Option (Reading SearchKey)
  | 0, _ => none
  | fuel + 1, bytes =>
    match strip [0x28] bytes with
    | some inner => do
        let keys ← readKeys fuel inner
        let rest ← strip [0x29] keys.rest
        some ⟨.and keys.value, keys.cuts, rest⟩
    | none => do
        let verb ← verbOf (bytes.takeWhile isWordByte)
        let rest := bytes.dropWhile isWordByte
        match verb with
        | .plain key => some ⟨key, [], rest⟩
        | .text key => do
            let read ← readText (← strip [0x20] rest)
            some ⟨key read.value, read.cuts, read.rest⟩
        | .date key => do
            let (date, rest) ← readDate chrono (← strip [0x20] rest)
            some ⟨key date, [], rest⟩
        | .size key => do
            let (n, rest) ← readNumber (← strip [0x20] rest)
            some ⟨key n, [], rest⟩
        | .not => do
            let inner ← readKey fuel (← strip [0x20] rest)
            some ⟨.not inner.value, inner.cuts, inner.rest⟩
        | .or => do
            let first ← readKey fuel (← strip [0x20] rest)
            let second ← readKey fuel (← strip [0x20] first.rest)
            some ⟨.or first.value second.value, first.cuts ++ second.cuts, second.rest⟩

def readKeys : Nat → Bytes → Option (Reading (List SearchKey))
  | 0, _ => none
  | fuel + 1, bytes => do
      let first ← readKey fuel bytes
      match strip [0x20] first.rest with
      | none => some ⟨[first.value], first.cuts, first.rest⟩
      | some more => do
          let others ← readKeys fuel more
          some ⟨first.value :: others.value, first.cuts ++ others.cuts, others.rest⟩

end

def skipReturn (bytes : Bytes) : Option Bytes :=
  match strip (wire " RETURN (") bytes with
  | some inner => strip [0x29] (inner.dropWhile (· != 0x29))
  | none => some bytes

def readCharset (bytes : Bytes) : Option (Option Bytes × Bytes) :=
  match strip (wire " CHARSET ") bytes with
  | some inner => (readAstring inner).map fun read => (some read.value, read.rest)
  | none => some (none, bytes)

def readCommand (tag : String) (bytes : Bytes) :
    Option (Option Bytes × Reading (List SearchKey)) := do
  let rest ← strip (wire (tag ++ " UID SEARCH")) bytes
  let (charset, rest) ← readCharset (← skipReturn rest)
  let keys ← readKeys chrono rest.length (← strip [0x20] rest)
  if keys.rest = wire "\r\n" then some (charset, keys) else none

end Keys

end Grammar

end Mailo.Proto.Search
