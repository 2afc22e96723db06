import Mailo.Domain.Filter

/-!
# What is typed into a search box, as a filter

A line is cut into tokens, tokens joined by `OR` into groups, and each group read as a clause. A
token that names no clause is a word, and the words are searched for together.
-/

namespace Mailo.Logic.Query

open Domain

/-- What the parser asks of the world: what a name stands for, and where a day begins. -/
structure Names where
  labels : List Char → List LabelId
  accounts : List Char → List AccountId
  midnight : List Char → Option DateTime

/-- A token without its dash and its quotation marks. -/
structure Token where
  text : List Char
  negated : Bool
  quoted : Bool
deriving DecidableEq

/-- What is being read when a character comes. -/
inductive Scan where
  | between
  | dash
  | word (text : List Char) (negated : Bool)
  | quoted (text : List Char) (negated : Bool)

/-- Quotation marks with nothing in them are no token. -/
def phrase (text : List Char) (negated : Bool) : List Token :=
  if text.isEmpty then [] else [⟨text, negated, true⟩]

def scan : Scan → List Char → List Token
  | .between, [] => []
  | .between, c :: rest =>
    if Text.isWhitespace c then scan .between rest
    else if c = '-' then scan .dash rest
    else if c = '"' then scan (.quoted [] false) rest
    else scan (.word [c] false) rest
  -- A dash with nothing behind it is a word.
  | .dash, [] => [⟨['-'], false, false⟩]
  | .dash, c :: rest =>
    if Text.isWhitespace c then ⟨['-'], false, false⟩ :: scan .between rest
    else if c = '"' then scan (.quoted [] true) rest
    else scan (.word [c] true) rest
  | .word text negated, [] => [⟨text, negated, false⟩]
  | .word text negated, c :: rest =>
    if Text.isWhitespace c then ⟨text, negated, false⟩ :: scan .between rest
    -- The value of a field may be quoted.
    else if c = '"' ∧ text.getLast? = some ':' then scan (.quoted text negated) rest
    else scan (.word (text ++ [c]) negated) rest
  | .quoted text negated, [] => phrase text negated
  | .quoted text negated, c :: rest =>
    if c = '"' then phrase text negated ++ scan .between rest
    else scan (.quoted (text ++ [c]) negated) rest

def tokenize (input : List Char) : List Token := scan .between input

def joins (word : List Char) : Bool := word = "OR".toList || word = "|".toList

def isEither (token : Token) : Bool := !token.quoted && !token.negated && joins token.text

/-- The groups so far, and whether the next token joins the last of them. -/
def group (state : List (List Token) × Bool) (token : Token) : List (List Token) × Bool :=
  if isEither token then (state.1, !state.1.isEmpty)
  else
    match state.1.getLast?, state.2 with
    | some last, true => (state.1.dropLast ++ [last ++ [token]], false)
    | _, _ => (state.1 ++ [[token]], false)

def eitherGroups (tokens : List Token) : List (List Token) := (tokens.foldl group ([], false)).1

def checked (bound n : Nat) : Option Nat := if n < bound then some n else none

/-- A count and a unit, as days; a count alone is days. -/
def span (value : List Char) : Option Nat := do
  let value := Text.trim value
  let last ← value.getLast?
  let (count, unit) := if last.isAlpha then (value.dropLast, last.toLower) else (value, 'd')
  let count ← (Text.parseUnsigned (2 ^ 32) count).filter (0 < ·)
  match unit with
  | 'd' => some count
  | 'w' => checked (2 ^ 32) (count * 7)
  | 'm' => checked (2 ^ 32) (count * 30)
  | 'y' => checked (2 ^ 32) (count * 365)
  | _ => none

/-- A size, in bytes or by a unit, with three decimals at most. -/
def bytes (value : List Char) : Option Nat := do
  let value := Text.trim value
  let last ← value.getLast?
  let (number, scale) ←
    if last.isAlpha then
      match last.toUpper with
      | 'B' => some (value.dropLast, 1)
      | 'K' => some (value.dropLast, 1024)
      | 'M' => some (value.dropLast, 1024 * 1024)
      | 'G' => some (value.dropLast, 1024 * 1024 * 1024)
      | _ => none
    else some (value, 1)
  let (whole, fraction) := (Text.splitOnce '.' number).getD (number, [])
  if whole.isEmpty && fraction.isEmpty then none
  else
    let whole ← if whole.isEmpty then some 0 else Text.parseUnsigned (2 ^ 64) whole
    let thousandths ← Text.parseUnsigned (2 ^ 64)
      ((fraction ++ List.replicate (3 - fraction.length) '0').take 3)
    let whole ← checked (2 ^ 64) (whole * scale)
    checked (2 ^ 64) (whole + thousandths * scale / 1000)

def mailbox (value : List Char) : Option MailboxRole :=
  match String.ofList (Text.toAsciiLowercase value) with
  | "inbox" => some .inbox
  | "archive" | "all" => some .archive
  | "sent" => some .sent
  | "drafts" | "draft" => some .drafts
  | "spam" | "junk" => some .spam
  | "trash" | "bin" | "deleted" => some .trash
  | _ => none

def categoryNamed (name : List Char) : Option Category :=
  [.primary, .social, .promotions, .updates, .forums].find? fun category : Category =>
    Text.eqIgnoreAsciiCase category.name.toList name

def state (value : List Char) : Option Filter :=
  match String.ofList (Text.toAsciiLowercase value) with
  | "unread" => some (.read .unread)
  | "read" => some (.read .read)
  | "starred" | "flagged" => some (.starred .starred)
  | "unstarred" => some (.starred .unstarred)
  | "pinned" => some .pinned
  | "snoozed" => some .snoozed
  | "kept" => some (.or [.starred .starred, .pinned])
  | "vip" | "vips" => some .vip
  | _ => none

/-- A name that stands for several is any of them, and one that stands for none is text. -/
def oneOf (clause : α → Filter) : List α → Option Filter
  | [] => none
  | [one] => some (clause one)
  | many => some (.or (many.map clause))

def contains (value : List Char) : TextMatch := .contains (String.ofList value)

/-- What a field asks of a value. -/
def asks (names : Names) (field : String) (value : List Char) : Option Filter :=
  match field with
  | "from" => some (.sender (contains value))
  | "to" => some (.to (contains value))
  | "cc" => some (.cc (contains value))
  | "subject" => some (.subject (contains value))
  | "has" =>
    match String.ofList (Text.toAsciiLowercase value) with
    | "attachment" | "attachments" | "file" => some .hasAttachment
    | _ => none
  | "is" => state value
  | "in" => (mailbox value).map .inMailbox
  | "category" => (categoryNamed value).map .category
  | "label" => oneOf .hasLabel (names.labels value)
  | "before" => (names.midnight value).map fun day => .date ⟨none, some day⟩
  | "after" => (names.midnight value).map fun day => .date ⟨some day, none⟩
  | "newer" | "newer_than" => (span value).map .newerThan
  | "older" | "older_than" => (span value).map .olderThan
  | "account" => oneOf .account (names.accounts value)
  | "larger" => (bytes value).map .larger
  | "smaller" => (bytes value).map .smaller
  | "size" =>
    match value with
    | '>' :: value => (bytes value).map .larger
    | '<' :: value => (bytes value).map .smaller
    | _ => none
  | _ => none

/-- The field a token names and its value. -/
def field (token : Token) : Option (String × List Char) :=
  if token.quoted && !token.text.contains ':' then none
  else ((Text.splitOnce ':' token.text).filter fun parts => !parts.2.isEmpty).map fun parts =>
    (String.ofList (Text.toAsciiLowercase parts.1), parts.2)

def wrap (token : Token) (filter : Filter) : Filter := if token.negated then .not filter else filter

/-- The filter one token means, or `none` when it is just a word. -/
def term (names : Names) (token : Token) : Option Filter :=
  if token.quoted && !token.text.contains ':' then
    some (wrap token (.text (.exact (String.ofList token.text))))
  else (field token).bind fun asked => (asks names asked.1 asked.2).map (wrap token)

def termOrText (names : Names) (token : Token) : Filter :=
  (term names token).getD (.text (contains token.text))

/-- The clauses of a line, and the words among them. -/
def read (names : Names) (state : List Filter × List (List Char)) (tokens : List Token) :
    List Filter × List (List Char) :=
  match tokens with
  | [one] =>
    match term names one with
    | some filter => (state.1 ++ [filter], state.2)
    | none => (state.1, state.2 ++ [one.text])
  | many => (state.1 ++ [.or (many.map (termOrText names))], state.2)

def parseWith (names : Names) (input : List Char) : Filter :=
  let (clauses, words) := (eitherGroups (tokenize input)).foldl (read names) ([], [])
  let clauses :=
    if words.isEmpty then clauses else clauses ++ [.text (contains (Text.joinWords words))]
  match clauses with
  | [] => .all
  | [one] => one
  | many => .and many

end Mailo.Logic.Query
