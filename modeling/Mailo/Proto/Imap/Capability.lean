import Mailo.Proto.Machine

/-!
# What an IMAP server offers

A capability is kept as `imap-proto` prints it: `Atom("NAME")`, `Auth("NAME")` or `Imap4rev1`. It
is matched as a whole atom, never as part of one.
-/

namespace Mailo.Proto.Imap

open Domain

/-- What the standard library takes from the Unicode tables: a text printed in quotes for a
program's own eyes, and a text in capitals. -/
class TextTables where
  quoted : List Char → List Char
  toUppercase : List Char → List Char

/-- The tables for printable ASCII without quotes and backslashes. -/
@[reducible] def TextTables.ascii : TextTables :=
  ⟨fun text => '"' :: text ++ ['"'], fun text => text.map Char.toUpper⟩

def stripSuffix (c : Char) (text : List Char) : Option (List Char) :=
  if text.getLast? = some c then some text.dropLast else none

def trimMatches (c : Char) (text : List Char) : List Char :=
  ((text.dropWhile (· == c)).reverse.dropWhile (· == c)).reverse

def capabilityName (printed : List Char) : List Char :=
  let printed := Text.trim printed
  match (Text.splitOnce '(' printed).bind fun cut => stripSuffix ')' cut.2 with
  | some inner => trimMatches '"' inner
  | none => printed

def hasCapability (capabilities : List (List Char)) (name : String) : Bool :=
  capabilities.any fun c => Text.eqIgnoreAsciiCase (capabilityName c) name.toList

def offersSasl (capabilities : List (List Char)) (mechanism : String) : Bool :=
  capabilities.any fun c =>
    match (Text.stripPrefix "Auth(".toList (Text.trim c)).bind (stripSuffix ')') with
    | some name => Text.eqIgnoreAsciiCase (trimMatches '"' name) mechanism.toList
    | none => false

def isAsciiSpace (c : Char) : Bool :=
  c == ' ' || c == '\t' || c == '\n' || c == '\r' || c.toNat == 12

/-- The runs of characters that are not ASCII white space, `word` the run being read. -/
def splitAsciiFrom (word : List Char) : List Char → List (List Char)
  | [] => if word.isEmpty then [] else [word]
  | c :: rest =>
    if isAsciiSpace c then
      if word.isEmpty then splitAsciiFrom [] rest else word :: splitAsciiFrom [] rest
    else splitAsciiFrom (word ++ [c]) rest

section Printed

variable [TextTables]

def capabilityAtoms (list : List Char) : List (List Char) :=
  (splitAsciiFrom [] list).map fun atom =>
    if Text.eqIgnoreAsciiCase atom "IMAP4rev1".toList then "Imap4rev1".toList
    else if Text.eqIgnoreAsciiCase (atom.take 5) "AUTH=".toList then
      "Auth(".toList ++ TextTables.quoted (atom.drop 5) ++ [')']
    else "Atom(".toList ++ TextTables.quoted atom ++ [')']

end Printed

def unselects (capabilities : List (List Char)) : Bool :=
  hasCapability capabilities "UNSELECT" || hasCapability capabilities "IMAP4rev2"

def nonSynchronizing (capabilities : List (List Char)) (len : Nat) : Bool :=
  hasCapability capabilities "LITERAL+" ||
    (hasCapability capabilities "LITERAL-" && len ≤ 4096)

def notOffered (any : List String) : String :=
  "the server does not offer " ++ " or ".intercalate any ++ ", so nothing was sent"

section Examples

attribute [local instance] TextTables.ascii

example : hasCapability (capabilityAtoms "imap4REV1 auth=PLAIN REMOVE".toList) "MOVE" = false := by
  decide

end Examples

end Mailo.Proto.Imap
