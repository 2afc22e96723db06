import Mailo.Domain.Rule

/-!
# Rules and a vacation reply as one Sieve script

Only what Sieve can say the same way is written; a rule that asks for anything else stays with
this client, and is named with the reason. Texts are lists of characters.
-/

namespace Mailo.Proto.Sieve

open Domain

/-- A date as the server compares it: to the second, in UTC, without a zone. -/
class IsoDate where
  format : DateTime → List Char

/-- Where a server keeps the roles a rule can file into, by path. -/
structure Places where
  archive : Option String
  trash : Option String
  spam : Option String
deriving DecidableEq

def Places.of (places : Places) : MailboxRole → Option String
  | .archive => places.archive
  | .trash => places.trash
  | .spam => places.spam
  | .inbox | .sent | .drafts => none

inductive Unmappable where
  | clause (what : String)
  | label
  | noFolder (role : MailboxRole)
  | missing (ext : String)
  | speaks
deriving DecidableEq

inductive VacationPlaced where
  | absent | dated | undated | outside | unsupported
deriving DecidableEq

structure Compiled where
  script : List Char
  mapped : List String
  localOnly : List (String × Unmappable)
  vacation : VacationPlaced
deriving DecidableEq

/-- A string's characters, escaped; line breaks become CRLF, and a NUL is dropped. -/
def escape : List Char → List Char
  | [] => []
  | '\r' :: '\n' :: rest => '\r' :: '\n' :: escape rest
  | c :: rest =>
    if c = '\\' then '\\' :: '\\' :: escape rest
    else if c = '"' then '\\' :: '"' :: escape rest
    else if c.toNat = 0 then escape rest
    else if c = '\r' ∨ c = '\n' then '\r' :: '\n' :: escape rest
    else c :: escape rest

def quoted (text : String) : List Char := '"' :: (escape text.toList ++ ['"'])

/-- A rule's name as a comment, on one line. -/
def comment (name : String) : List Char :=
  name.toList.map fun c => if Text.isControl c then ' ' else c

def joinedWith (separator : String) (parts : List (List Char)) : List Char :=
  separator.toList.intercalate parts

def bracketed (parts : List (List Char)) : List Char :=
  "[".toList ++ joinedWith ", " parts ++ "]".toList

/-- Tests under one name, the empty list as the fold's identity. -/
def joined (name empty : String) (tests : List (List Char)) : List Char :=
  match tests with
  | [] => empty.toList
  | [one] => one
  | _ => name.toList ++ " (".toList ++ joinedWith ", " tests ++ ")".toList

def headerList (headers : List String) : List Char :=
  match headers with
  | [one] => quoted one
  | _ => bracketed (headers.map quoted)

def hasPunctuation (needle : String) : Bool :=
  needle.toList.any fun c => c = '<' || c = '>' || c = '"' || c = ','

def addressTest (headers : List String) (text : TextMatch) (clause : String) :
    Except Unmappable (List Char) :=
  match text with
  | .contains s =>
    if hasPunctuation s then .error (.clause clause)
    else .ok ("header :contains ".toList ++ headerList headers ++ " ".toList ++ quoted s)
  | .exact s =>
    if s.toList.contains '@' then
      .ok ("address :all :is ".toList ++ headerList headers ++ " ".toList ++ quoted s)
    else .error (.clause clause)

mutual

/-- A filter as a test, or the clause that has none. -/
def test : Filter → AccountId → Except Unmappable (List Char)
  | .all, _ => .ok "true".toList
  | .nothing, _ => .ok "false".toList
  | .and parts, account => (tests parts account).map (joined "allof" "true")
  | .or parts, account => (tests parts account).map (joined "anyof" "false")
  | .not inner, account => (test inner account).map ("not ".toList ++ ·)
  | .account id, account => .ok (if id = account then "true".toList else "false".toList)
  | .sender text, _ => addressTest ["from"] text "from:"
  | .fromAddress email, _ => addressTest ["from"] (.exact email) "from:"
  | .vip, _ => .error (.clause "is:vip")
  | .to text, _ => addressTest ["to", "cc"] text "to:"
  | .cc text, _ => addressTest ["cc"] text "cc:"
  | .subject (.contains s), _ => .ok ("header :contains \"subject\" ".toList ++ quoted s)
  | .subject (.exact s), _ => .ok ("header :is \"subject\" ".toList ++ quoted s)
  | .text _, _ => .error (.clause "full text")
  | .inMailbox _, _ | .inFolder _, _ => .error (.clause "in:")
  | .read _, _ => .error (.clause "is:read / is:unread")
  | .starred _, _ => .error (.clause "is:starred")
  | .hasLabel _, _ => .error (.clause "label:")
  | .date _, _ => .error (.clause "before: / after:")
  | .newerThan _, _ | .olderThan _, _ => .error (.clause "newer_than: / older_than:")
  | .hasAttachment, _ => .error (.clause "has:attachment")
  | .snoozed, _ | .snoozeDue, _ => .error (.clause "is:snoozed")
  | .pinned, _ => .error (.clause "is:pinned")
  | .larger bytes, _ => .ok ("size :over ".toList ++ (toString bytes).toList)
  | .smaller bytes, _ => .ok ("size :under ".toList ++ (toString bytes).toList)
  | .category _, _ => .error (.clause "category:")

def tests : List Filter → AccountId → Except Unmappable (List (List Char))
  | [], _ => .ok []
  | part :: rest, account =>
    match test part account with
    | .error why => .error why
    | .ok text => (tests rest account).map (text :: ·)

end

/-- What a block does: flags in the order asked for, and the last place filed into. -/
structure Doing where
  flags : List (String × String)
  destination : Option String
deriving DecidableEq

def place (places : Places) (role : MailboxRole) : Except Unmappable String :=
  match places.of role with
  | some path => .ok path
  | none => .error (.noFolder role)

def act (places : Places) (doing : Doing) : RuleAction → Except Unmappable Doing
  | .label _ => .error .label
  | .markRead => .ok { doing with flags := doing.flags ++ [("addflag", "\\Seen")] }
  | .markUnread => .ok { doing with flags := doing.flags ++ [("removeflag", "\\Seen")] }
  | .star => .ok { doing with flags := doing.flags ++ [("addflag", "\\Flagged")] }
  | .notify | .forward _ | .reply _ => .error .speaks
  | .archive => (place places .archive).map fun path => { doing with destination := some path }
  | .trash => (place places .trash).map fun path => { doing with destination := some path }
  | .spam => (place places .spam).map fun path => { doing with destination := some path }
  | .file path => .ok { doing with destination := some path }

def has (extensions : List String) (name : String) : Bool :=
  extensions.any fun e => Text.eqIgnoreAsciiCase e.toList name.toList

def flagText (flag : String × String) : List Char :=
  "    ".toList ++ flag.1.toList ++ " ".toList ++ quoted flag.2 ++ ";\r\n".toList

def blockText (name : String) (condition : List Char) (doing : Doing) (after : AfterMatch) :
    List Char :=
  "\r\n# ".toList ++ comment name ++ "\r\nif ".toList ++ condition ++ " \x7b\r\n".toList ++
    doing.flags.flatMap flagText ++
    (match doing.destination with
      | some path => "    fileinto ".toList ++ quoted path ++ ";\r\n".toList
      | none => []) ++
    (if after = .stop then "    stop;\r\n".toList else []) ++ "\x7d\r\n".toList

/-- One rule as a block, with the extensions it needs. -/
def block (rule : Rule) (places : Places) (extensions : List String) :
    Except Unmappable (List Char × List String) :=
  match test rule.filter rule.account with
  | .error why => .error why
  | .ok condition =>
    match rule.actions.foldlM (act places) ⟨[], none⟩ with
    | .error why => .error why
    | .ok doing =>
      if !doing.flags.isEmpty && !has extensions "imap4flags" then
        .error (.missing "imap4flags")
      else if doing.destination.isSome && !has extensions "fileinto" then
        .error (.missing "fileinto")
      else
        .ok (blockText rule.name condition doing rule.after,
          (if doing.flags.isEmpty then [] else ["imap4flags"]) ++
            if doing.destination.isSome then ["fileinto"] else [])

section Vacation

variable [IsoDate]

def bound (relation : String) (at_ : DateTime) : List Char :=
  "currentdate :zone \"+0000\" :value ".toList ++ quoted relation ++ " \"iso8601\" ".toList ++
    quoted (String.ofList (IsoDate.format at_))

def vacationCommand (vacation : Vacation) : List Char :=
  "vacation :days ".toList ++ (toString (max vacation.days 1)).toList ++ " :subject ".toList ++
    quoted vacation.subject ++
    (match vacation.sender with
      | some sender => " :from ".toList ++ quoted sender
      | none => []) ++
    (if vacation.addresses.isEmpty then []
      else " :addresses ".toList ++ bracketed (vacation.addresses.map quoted)) ++
    " ".toList ++ quoted vacation.body ++ ";".toList

def bounds (vacation : Vacation) (dated : Bool) : List (List Char) :=
  if dated then
    (vacation.during.from?.map (bound "ge")).toList ++ (vacation.during.to?.map (bound "lt")).toList
  else []

def vacationBlock (vacation : Vacation) (dated : Bool) : List Char :=
  "\r\n# Vacation reply\r\n".toList ++
    match bounds vacation dated with
    | [] => vacationCommand vacation ++ "\r\n".toList
    | [one] =>
      "if ".toList ++ one ++ " \x7b\r\n    ".toList ++ vacationCommand vacation ++ "\r\n\x7d\r\n".toList
    | many =>
      "if allof (".toList ++ joinedWith ", " many ++ ") \x7b\r\n    ".toList ++
        vacationCommand vacation ++ "\r\n\x7d\r\n".toList

/-- What becomes of the reply: the text it adds, the extensions it needs, and where it stands. -/
def placeVacation (vacation : Option Vacation) (extensions : List String) (now : DateTime) :
    List Char × List String × VacationPlaced :=
  match vacation with
  | none => ([], [], .absent)
  | some vacation =>
    if !has extensions "vacation" then ([], [], .unsupported)
    else
      let dated := has extensions "date" && has extensions "relational"
      let bounded := vacation.during.from?.isSome || vacation.during.to?.isSome
      if bounded && !dated && !vacation.activeAt now then ([], [], .outside)
      else
        (vacationBlock vacation (bounded && dated),
          "vacation" :: if bounded && dated then ["date", "relational"] else [],
          if bounded && dated then .dated else .undated)

end Vacation

/-- The rules written so far: their text, the extensions they need, and both lists of names. -/
structure Written where
  body : List Char
  needs : List String
  mapped : List String
  localOnly : List (String × Unmappable)
deriving DecidableEq

def write (places : Places) (extensions : List String) (written : Written) (rule : Rule) :
    Written :=
  match block rule places extensions with
  | .ok (text, needs) =>
    { written with
      body := written.body ++ text
      needs := written.needs ++ needs
      mapped := written.mapped ++ [rule.name] }
  | .error why => { written with localOnly := written.localOnly ++ [(rule.name, why)] }

def requireNames (needs : List String) : List String :=
  needs.dedup.insertionSort fun a b => a ≤ b

def requireText (needs : List String) : List Char :=
  if (requireNames needs).isEmpty then []
  else "require ".toList ++ bracketed ((requireNames needs).map quoted) ++ ";\r\n".toList

/-- Rules and a vacation reply as one script for a server that offers these extensions. -/
def compile [IsoDate] (rules : List Rule) (vacation : Option Vacation) (extensions : List String)
    (places : Places) (client : String) (now : DateTime) : Compiled :=
  let written := (ordered rules).foldl (write places extensions) ⟨[], [], [], []⟩
  let (reply, needs, placed) := placeVacation vacation extensions now
  { script := "# Written by ".toList ++ client.toList ++
      ", and replaced whenever its rules change: edit them there.\r\n".toList ++
      requireText (written.needs ++ needs) ++ written.body ++ reply
    mapped := written.mapped
    localOnly := written.localOnly
    vacation := placed }

end Mailo.Proto.Sieve
