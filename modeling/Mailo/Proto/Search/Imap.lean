import Mailo.Proto.Imap.Capability

/-!
# A search as IMAP is asked for one

A string is quoted where it is printable ASCII and a literal where it is not. The command is cut
where the server must say `+` before a literal is sent.
-/

namespace Mailo.Proto.Search

open Domain Library Proto.Imap

/-- One search key, as a tree. -/
inductive SearchKey where
  | all
  | seen
  | unseen
  | flagged
  | unflagged
  | sender (text : String)
  | to (text : String)
  | cc (text : String)
  | subject (text : String)
  | body (text : String)
  | sentSince (date : NaiveDate)
  | sentBefore (date : NaiveDate)
  | gmailLabel (name : String)
  | larger (bytes : Nat)
  | smaller (bytes : Nat)
  | gmailRaw (query : String)
  | not (inner : SearchKey)
  | or (a b : SearchKey)
  | and (keys : List SearchKey)

def both (keys : List SearchKey) : SearchKey :=
  match keys with
  | [one] => one
  | keys => .and keys

/-- How chrono writes an IMAP date, and an instant in UTC as IMAP's date-time. -/
class ImapDates where
  day : NaiveDate → List Char
  instant : DateTime → List Char

/-- One piece of a command line: text, or a string that has to go as a literal. -/
inductive Piece where
  | text (text : List Char)
  | literal (bytes : Bytes)
deriving DecidableEq

def isLineBreak (c : Char) : Bool := c == '\r' || c == '\n' || c.toNat == 0

def searchString (value : String) : Except ProtoError Piece :=
  if value.toList.any isLineBreak then .error (.malformed "a search string holds a line break")
  else if value.toList.all fun c => ' ' ≤ c && c ≤ '~' then
    .ok (.text ('"' :: value.toList.flatMap (fun c =>
      if c = '\\' ∨ c = '"' then ['\\', c] else [c]) ++ ['"']))
  else .ok (.literal (Utf8.encode value.toList))

def isAscii (value : String) : Bool := value.toList.all fun c => c.toNat < 128

mutual

def needsUtf8 : SearchKey → Bool
  | .sender v | .to v | .cc v | .subject v | .body v | .gmailLabel v | .gmailRaw v => !isAscii v
  | .not inner => needsUtf8 inner
  | .or a b => needsUtf8 a || needsUtf8 b
  | .and keys => anyNeedsUtf8 keys
  | _ => false

def anyNeedsUtf8 : List SearchKey → Bool
  | [] => false
  | key :: keys => needsUtf8 key || anyNeedsUtf8 keys

end

def field (name : String) (value : String) : Except ProtoError (List Piece) :=
  (searchString value).map fun piece => [.text (name ++ " ").toList, piece]

section Dates

variable [ImapDates]

mutual

def renderKey : SearchKey → Except ProtoError (List Piece)
  | .all => .ok [.text "ALL".toList]
  | .seen => .ok [.text "SEEN".toList]
  | .unseen => .ok [.text "UNSEEN".toList]
  | .flagged => .ok [.text "FLAGGED".toList]
  | .unflagged => .ok [.text "UNFLAGGED".toList]
  | .sender v => field "FROM" v
  | .to v => field "TO" v
  | .cc v => field "CC" v
  | .subject v => field "SUBJECT" v
  | .body v => field "BODY" v
  | .gmailLabel v => field "X-GM-LABELS" v
  | .gmailRaw v => field "X-GM-RAW" v
  | .sentSince date => .ok [.text ("SENTSINCE ".toList ++ ImapDates.day date)]
  | .sentBefore date => .ok [.text ("SENTBEFORE ".toList ++ ImapDates.day date)]
  | .larger n => .ok [.text ("LARGER " ++ toString n).toList]
  | .smaller n => .ok [.text ("SMALLER " ++ toString n).toList]
  | .not inner => (renderKey inner).map fun pieces => .text "NOT ".toList :: pieces
  | .or a b =>
    (renderKey a).bind fun first => (renderKey b).map fun second =>
      .text "OR ".toList :: first ++ .text " ".toList :: second
  | .and keys =>
    (renderKeys keys).map fun parts =>
      .text "(".toList :: [Piece.text " ".toList].intercalate parts ++ [.text ")".toList]

def renderKeys : List SearchKey → Except ProtoError (List (List Piece))
  | [] => .ok []
  | key :: keys =>
    (renderKey key).bind fun first => (renderKeys keys).map fun rest => first :: rest

end

/-- The pieces as parts: a literal the server must ask for begins a part of its own. -/
def parts (capabilities : List (List Char)) : List Piece → Bytes × List Bytes
  | [] => (wire "\r\n", [])
  | .text text :: pieces =>
    let rest := parts capabilities pieces
    (Utf8.encode text ++ rest.1, rest.2)
  | .literal bytes :: pieces =>
    let rest := parts capabilities pieces
    let count := '\x7b' :: (toString bytes.length).toList
    if nonSynchronizing capabilities bytes.length then
      (Utf8.encode (count ++ ['+', '\x7d', '\r', '\n']) ++ bytes ++ rest.1, rest.2)
    else (Utf8.encode (count ++ ['\x7d', '\r', '\n']), (bytes ++ rest.1) :: rest.2)

/-- `keys` as the command `UID SEARCH`: the part sent at once, and each part sent after a `+`. -/
def command (tag : String) (keys : List SearchKey) (capabilities : List (List Char)) :
    Except ProtoError (Bytes × List Bytes) :=
  (renderKeys keys).map fun rendered =>
    parts capabilities
      (.text (tag ++ " UID SEARCH").toList ::
        (if hasCapability capabilities "ESEARCH" then [.text " RETURN (COUNT ALL)".toList] else [])
        ++ (if anyNeedsUtf8 keys then [.text " CHARSET UTF-8".toList] else [])
        ++ rendered.flatMap fun pieces => .text " ".toList :: pieces)

end Dates

end Mailo.Proto.Search
