import Mailo.Domain.Text
import Mailo.Library.Quoted
import Mailo.Library.Utf8

/-!
# Content lines

The grammar vCard and iCalendar share: `[group "."] name *(";" param) ":" value`, folded at 75
octets by a line break and one space. A parameter may be quoted, and what quoting cannot carry is
escaped with a caret. Older cards write a parameter bare, and a value in quoted-printable with a
soft break at the end of a line.
-/

namespace Mailo.Pim.Line

open Domain Library

structure Param where
  name : List Char
  values : List (List Char)
  deriving DecidableEq

/-- One property, unfolded, its parameters parsed and its value still escaped as written. -/
structure ContentLine where
  group : Option (List Char)
  name : List Char
  params : List Param
  value : List Char
  deriving DecidableEq

/-- The character encodings a `CHARSET` may name: those of the `encoding_rs` crate. -/
structure Encodings where
  Encoding : Type
  utf8 : Encoding
  forLabel : List UInt8 → Option Encoding
  decode : Encoding → List UInt8 → List Char

def toAsciiUppercase (text : List Char) : List Char := text.map Char.toUpper

namespace ContentLine

def new (name value : List Char) : ContentLine := ⟨none, toAsciiUppercase name, [], value⟩

def plus (line : ContentLine) (name : List Char) (values : List (List Char)) : ContentLine :=
  { line with params := line.params ++ [⟨toAsciiUppercase name, values⟩] }

def values (line : ContentLine) (name : List Char) : List (List Char) :=
  (line.params.filter fun p => Text.eqIgnoreAsciiCase p.name name).flatMap Param.values

def has (line : ContentLine) (name value : List Char) : Bool :=
  (line.values name).any fun v => Text.eqIgnoreAsciiCase v value

end ContentLine

/-! ## Reading -/

/-- Parameter values vCard 2.1 writes bare that name an encoding rather than a type. -/
def encodings : List (List Char) :=
  ["7BIT".toList, "8BIT".toList, "QUOTED-PRINTABLE".toList, "BASE64".toList, "B".toList]

def splitHead (line : List Char) : Option (List Char × List Char) :=
  Quoted.cutAt '"' ':' false line

def splitOutsideQuotes (text : List Char) (sep : Char) : List (List Char) :=
  Quoted.split '"' sep false text

def trimMatches (c : Char) (text : List Char) : List Char :=
  ((text.dropWhile (· == c)).reverse.dropWhile (· == c)).reverse

def namesQuotedPrintable (param : List Char) : Bool :=
  let value := match Text.splitOnce '=' param with
    | some (_, v) => v
    | none => param
  (value.splitOn ',').any fun v =>
    Text.eqIgnoreAsciiCase (trimMatches '"' v) "QUOTED-PRINTABLE".toList

/-- Whether a raw line declares a quoted-printable value, by its parameters as whole tokens. -/
def quotedPrintable (line : List Char) : Bool :=
  match splitHead line with
  | none => false
  | some (head, _) => ((splitOutsideQuotes head ';').drop 1).any namesQuotedPrintable

/-- The physical lines of a text: what stands between `\n`s, and between the `\r`s of that. -/
def physicals (text : List Char) : List (List Char) :=
  (text.splitOn '\n').flatMap fun l => l.splitOn '\r'

/-- The loop of `unfold`. Of the logical line being built, `colon` is whether a `:` has arrived,
and `qp`, once its head has, whether it declares quoted-printable. -/
structure Unfolding where
  out : List (List Char)
  softBreak : Bool
  colon : Bool
  qp : Option Bool

namespace Unfolding

def start : Unfolding := ⟨[], false, false, none⟩

def continues (physical : List Char) : Bool :=
  physical.head? == some ' ' || physical.head? == some '\t'

/-- The physical line joined to the last logical one or begun as one of its own, and the piece of
it that was added. -/
def join (st : Unfolding) (physical : List Char) : Unfolding × List Char :=
  match st.out.getLast? with
  | some last =>
    if st.softBreak then
      ({ st with out := st.out.dropLast ++ [last.dropLast ++ physical] }, physical)
    else if continues physical then
      ({ st with out := st.out.dropLast ++ [last ++ physical.tail] }, physical.tail)
    else ({ st with out := st.out ++ [physical], colon := false, qp := none }, physical)
  | none => ({ st with out := st.out ++ [physical], colon := false, qp := none }, physical)

/-- Whether the last line ends in a soft break. Its head is read once. -/
def watch (st : Unfolding) : Unfolding :=
  match st.out.getLast? with
  | some last =>
    if last.getLast? = some '=' ∧ st.colon then
      match st.qp with
      | some known => { st with softBreak := known }
      | none =>
        if (splitHead last).isSome then
          { st with softBreak := quotedPrintable last, qp := some (quotedPrintable last) }
        else { st with softBreak := false }
    else { st with softBreak := false }
  | none => { st with softBreak := false }

/-- One physical line. A blank one means nothing, and ends no soft break. -/
def step (st : Unfolding) (physical : List Char) : Unfolding :=
  if physical.isEmpty then st
  else
    let joined := st.join physical
    watch { joined.1 with colon := joined.1.colon || joined.2.contains ':' }

end Unfolding

/-- Undo folding: a physical line that begins with a space or a tab continues the one before it,
and so does any line after a soft break. Blank lines are dropped. -/
def unfold (text : List Char) : List (List Char) :=
  ((physicals text).foldl Unfolding.step Unfolding.start).out

def unquote (value : List Char) : List Char :=
  match value with
  | '"' :: rest => if rest.getLast? = some '"' then rest.dropLast else value
  | _ => value

/-- `^n` is a line break, `^'` a double quote, `^^` a caret. Any other `^` is itself. -/
def uncaret : List Char → List Char
  | [] => []
  | [c] => [c]
  | c :: next :: rest =>
    if c = '^' then
      if next = 'n' ∨ next = 'N' then '\n' :: uncaret rest
      else if next = '\'' then '"' :: uncaret rest
      else if next = '^' then '^' :: uncaret rest
      else c :: uncaret (next :: rest)
    else c :: uncaret (next :: rest)

def caretChar (c : Char) : List Char :=
  if c = '^' then ['^', '^']
  else if c = '\n' then ['^', 'n']
  else if c = '"' then ['^', '\'']
  else [c]

def caret (value : List Char) : List Char := value.flatMap caretChar

/-- One `name=value,value` parameter, or a vCard 2.1 bare one. -/
def param (raw : List Char) : Param :=
  match Text.splitOnce '=' raw with
  | some (name, values) =>
    { name := toAsciiUppercase (Text.trim name)
      values := (splitOutsideQuotes values ',').map fun v => uncaret (unquote (Text.trim v)) }
  | none =>
    let value := Text.trim raw
    { name := if encodings.any fun e => Text.eqIgnoreAsciiCase e value then "ENCODING".toList
        else "TYPE".toList
      values := [value] }

def splitGroup (fullName : List Char) : Option (List Char) × List Char :=
  match Text.splitOnce '.' fullName with
  | some (group, name) => (some group, name)
  | none => (none, fullName)

def parse (line : List Char) : Option ContentLine :=
  match splitHead line with
  | none => none
  | some (head, value) =>
    match splitOutsideQuotes head ';' with
    | [] => none
    | fullName :: parts =>
      let name := Text.trim (splitGroup fullName).2
      if name.isEmpty then none
      else
        some
          { group := (splitGroup fullName).1
            name := toAsciiUppercase name
            params := (parts.filter fun p => !p.isEmpty).map param
            value := value }

def hexDigit (b : UInt8) : Option UInt8 :=
  if 48 ≤ b ∧ b ≤ 57 then some (b - 48)
  else if 97 ≤ b ∧ b ≤ 102 then some (b - 97 + 10)
  else if 65 ≤ b ∧ b ≤ 70 then some (b - 65 + 10)
  else none

/-- The byte two hex digits spell. -/
def hexByte (high low : UInt8) : Option UInt8 :=
  (hexDigit high).bind fun h => (hexDigit low).map fun l => h * 16 + l

def fromQuotedPrintable : List UInt8 → List UInt8
  | [] => []
  | [b] => [b]
  | [b, c] => [b, c]
  | b :: high :: low :: rest =>
    if b = 61 then
      match hexByte high low with
      | some byte => byte :: fromQuotedPrintable rest
      | none => b :: fromQuotedPrintable (high :: low :: rest)
    else b :: fromQuotedPrintable (high :: low :: rest)

/-- Decode a quoted-printable value in its `CHARSET`, and drop the parameters that described
it. -/
def decodeValue (E : Encodings) (line : ContentLine) : ContentLine :=
  if line.has "ENCODING".toList "QUOTED-PRINTABLE".toList then
    let bytes := fromQuotedPrintable (Utf8.encode line.value)
    let charset := (line.values "CHARSET".toList).head?.getD "UTF-8".toList
    let encoding := (E.forLabel (Utf8.encode charset)).getD E.utf8
    { line with
      value := E.decode encoding bytes
      params := line.params.filter fun p =>
        p.name != "ENCODING".toList && p.name != "CHARSET".toList }
  else line

/-- Every property in `text`, unfolded and decoded. A line that does not parse is skipped. -/
def lines (E : Encodings) (text : List Char) : List ContentLine :=
  ((unfold text).filterMap parse).map (decodeValue E)

/-- Undo text escaping: `\n` or `\N` is a line break, and a backslash before anything else is
dropped. -/
def unescape : List Char → List Char
  | [] => []
  | [c] => [c]
  | c :: next :: rest =>
    if c = '\\' then
      (if next = 'n' ∨ next = 'N' then '\n' else next) :: unescape rest
    else c :: unescape (next :: rest)

def escapeChar (c : Char) : List Char :=
  if c = '\\' then ['\\', '\\']
  else if c = ',' then ['\\', ',']
  else if c = ';' then ['\\', ';']
  else if c = '\n' then ['\\', 'n']
  else if c = '\r' then []
  else [c]

def escape (value : List Char) : List Char := value.flatMap escapeChar

def splitUnescaped (sep : Char) : List Char → List (List Char)
  | [] => [[]]
  | [c] => if c = sep ∧ c ≠ '\\' then [[], []] else [[c]]
  | c :: next :: rest =>
    if c = '\\' then (splitUnescaped sep rest).modifyHead ([c, next] ++ ·)
    else if c = sep then [] :: splitUnescaped sep (next :: rest)
    else (splitUnescaped sep (next :: rest)).modifyHead (c :: ·)

def splitEscaped (value : List Char) (sep : Char) : List (List Char) :=
  (splitUnescaped sep value).map unescape

/-- The octets a physical line may hold before it is folded. -/
def foldAt : Nat := 75

/-- A parameter value, quoted when it holds a character that would otherwise end it. -/
def paramValue (value : List Char) : List Char :=
  let encoded := caret value
  if encoded.any fun c => c == ':' || c == ';' || c == ',' then '"' :: encoded ++ ['"']
  else encoded

def foldFrom : Nat → List Char → List Char
  | _, [] => ['\r', '\n']
  | width, c :: rest =>
    if width + c.utf8Size > foldAt then
      '\r' :: '\n' :: ' ' :: c :: foldFrom (1 + c.utf8Size) rest
    else c :: foldFrom (width + c.utf8Size) rest

/-- Fold at 75 octets, never inside a character, and end with CRLF. -/
def fold (logical : List Char) : List Char := foldFrom 0 logical

def writeParam (param : Param) : List Char :=
  ';' :: (param.name ++ '=' :: [','].intercalate (param.values.map paramValue))

def writeHead (line : ContentLine) : List Char :=
  (match line.group with
    | some group => group ++ ['.']
    | none => []) ++ line.name ++ line.params.flatMap writeParam

def logical (line : ContentLine) : List Char := writeHead line ++ ':' :: line.value

/-- One line as it goes on the wire: named, parameterised, folded, and ended with CRLF. -/
def write (line : ContentLine) : List Char := fold (logical line)

end Mailo.Pim.Line
