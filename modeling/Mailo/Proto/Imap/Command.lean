import Mailo.Proto.Mutf7
import Mailo.Proto.Search.Imap
import Mailo.Proto.Smtp.Submission

/-!
# IMAP commands

A walk is a fixed list of commands. Some send nothing and stop the walk unless what the server
said allows it to go on; some are decided by what a search earlier in the walk found.
-/

namespace Mailo.Proto.Imap

open Domain Library Proto.Search

inductive Access where
  | readWrite | readOnly
deriving DecidableEq

inductive ImapCommand where
  | capability
  | authenticateXoauth2
  | login
  | list
  | enable (capability : String)
  | select (mailbox : String) (access : Access) (qresync : Option Resync)
  | uidFetch (set items : String)
  /-- A refusal of it is passed over where `tolerate` is set. -/
  | uidStore (set what : String) (tolerate : Bool)
  | uidSearch (criteria : String)
  | search (keys : List SearchKey)
  | uidCopy (set mailbox : String)
  | uidMove (set mailbox : String)
  | append (mailbox : String) (flags : List String) (date : Option DateTime) (raw : Bytes)
  | uidExpunge (set : String)
  /-- `UID STORE` of what the last search before it found, nothing where it found none. -/
  | uidStoreFound (what : String)
  /-- `UID EXPUNGE` of what the last search before it found, where the server can. -/
  | uidExpungeFound
  /-- Sends nothing: the walk stops unless one of these is offered. -/
  | requireCapability (any : List String)
  /-- Sends nothing: the walk stops unless this is the `UIDVALIDITY` last reported. -/
  | requireUidValidity (expected : UInt32)
  | lsub
  | create (mailbox : String)
  | rename (origin target : String)
  | delete (mailbox : String)
  | subscribe (mailbox : String)
  | unsubscribe (mailbox : String)
  | getQuotaRoot (mailbox : String)
  /-- `STATUS`, and the walk stops unless it says there is no message. -/
  | requireEmpty (mailbox : String)
  | idle
  /-- `IDLE`, unless mail arrived after the caller last looked. -/
  | idleAfter (uidnext : UInt32)
  | compress
  | notify (mailboxes : List String)
  | notifyNone
  | noop
  | logout

/-- One untagged response, and the command outstanding when it arrived. -/
structure Untagged where
  during : Nat
  text : List Char
  raw : Bytes
deriving DecidableEq

/-- A tagged `OK`, and the command it completed. -/
structure Completed where
  index : Nat
  text : List Char
deriving DecidableEq

/-- What a session saw. -/
structure Transcript where
  untagged : List Untagged
  capabilities : List (List Char)
  completed : List Completed
deriving DecidableEq

def Transcript.empty : Transcript := ⟨[], [], []⟩

def codeValue (name : String) (text : List Char) : Option Nat :=
  if Text.eqIgnoreAsciiCase (text.take 6) "* OK [".toList then
    match (Text.splitOnce ']' (text.drop 6)).bind fun cut => Text.splitOnce ' ' cut.1 with
    | some (key, value) =>
      if Text.eqIgnoreAsciiCase key name.toList then
        Text.parseUnsigned (2 ^ 64) (Text.trim value)
      else none
    | none => none
  else none

def responseCode (untagged : List Untagged) (name : String) : Option Nat :=
  (untagged.filterMap fun u => codeValue name u.text).getLast?

def reportedUidnext (untagged : List Untagged) : Option UInt32 :=
  ((responseCode untagged "UIDNEXT").filter fun n => n < 2 ^ 32).map UInt32.ofNat

def reportedUidvalidity (untagged : List Untagged) : Option UInt32 :=
  ((responseCode untagged "UIDVALIDITY").filter fun n => n < 2 ^ 32).map UInt32.ofNat

def searchLine (text : List Char) : List UInt32 :=
  let text := Text.trim text
  let rest := text.drop 8
  if Text.eqIgnoreAsciiCase (text.take 8) "* SEARCH".toList ∧
      (rest.isEmpty ∨ rest.head? = some ' ') then
    ((Text.splitWhitespace rest).filterMap fun n => Text.parseUnsigned (2 ^ 32) n).filterMap
      fun uid => if uid > 0 then some (UInt32.ofNat uid) else none
  else []

def isUidSearch : ImapCommand → Bool
  | .uidSearch _ => true
  | _ => false

def searchBefore (commands : List ImapCommand) : Nat → Option Nat
  | 0 => none
  | index + 1 =>
    if (commands[index]?.map isUidSearch).getD false then some index
    else searchBefore commands index

/-- A set of UIDs as a command names it. -/
def setText (uids : List UInt32) : String :=
  ",".intercalate (uids.map fun uid => toString uid.toNat)

def foundDuring (search : Nat) (untagged : List Untagged) : List UInt32 :=
  (untagged.filter fun u => u.during = search).flatMap fun u => searchLine u.text

def foundBefore (commands : List ImapCommand) (untagged : List Untagged) (index : Nat) :
    Option (List UInt32) :=
  match searchBefore commands index with
  | none => none
  | some search =>
    let uids := foundDuring search untagged
    if uids.isEmpty then none else some uids

/-! ## How a command is written -/

def quoted (value : List Char) : List Char :=
  '"' :: value.flatMap (fun c => if c = '\\' ∨ c = '"' then ['\\', c] else [c]) ++ ['"']

def wireName (mailbox : String) : List Char := quoted (Mutf7.encode mailbox.toList)

/-- A UID set is digits, ranges and commas. -/
def isSet (set : String) : Bool :=
  !set.toList.isEmpty && set.toList.all fun c =>
    Text.isAsciiDigit c || c == ':' || c == ',' || c == '*'

def isGraphic (c : Char) : Bool := '!' ≤ c && c ≤ '~'

/-- A flag as an atom, with a backslash before it for a system flag. -/
def isFlag (flag : String) : Bool :=
  let atom := (Text.stripPrefix ['\\'] flag.toList).getD flag.toList
  !atom.isEmpty && atom.all fun c =>
    isGraphic c && !(['(', ')', '\x7b', '%', '*', '"', '\\', ']'].contains c)

def selectVerb : Access → String
  | .readOnly => "EXAMINE "
  | .readWrite => "SELECT "

section Rendering

variable [TextTables] [ImapDates]

def checkSet (set : String) (body : List Char) : Except ProtoError (List Char) :=
  if isSet set then .ok body
  else .error (.malformed
    (String.ofList (TextTables.quoted set.toList ++ " is not a UID set".toList)))

def renderLogin (auth : Smtp.SignIn) (capabilities : List (List Char)) :
    Except ProtoError (List Char) :=
  if offersSasl capabilities "PLAIN" && (hasCapability capabilities "SASL-IR" ||
      hasCapability capabilities "IMAP4rev2") then
    match auth.credential with
    | .password pass =>
      .ok ("AUTHENTICATE PLAIN " ++ Smtp.b64 (Smtp.plainRaw auth.username pass)).toList
    | _ => .error (.unsupported "PLAIN needs a password credential")
  else if hasCapability capabilities "LOGINDISABLED" then
    .error (.unsupported ("the server advertises LOGINDISABLED: it does not accept " ++
      "passwords on this connection, so one was not sent"))
  else
    match auth.credential with
    | .password pass =>
      .ok ("LOGIN ".toList ++ quoted auth.username.toList ++ ' ' :: quoted pass.toList)
    | _ => .error (.unsupported "LOGIN needs a password credential")

def renderXoauth2 (auth : Smtp.SignIn) : Except ProtoError (List Char) :=
  match auth.credential with
  | .oAuth access _ =>
    if auth.sasl.contains .xOauth2 then
      .ok ("AUTHENTICATE XOAUTH2 " ++ Smtp.b64 (Smtp.xoauth2Raw auth.username access)).toList
    else .error (.unsupported "this account does not offer XOAUTH2")
  | _ => .error (.unsupported "XOAUTH2 needs an OAuth credential")

def renderAppend (capabilities : List (List Char)) (mailbox : String) (flags : List String)
    (date : Option DateTime) (raw : Bytes) : Except ProtoError (List Char) :=
  match flags.find? fun flag => !isFlag flag with
  | some flag =>
    .error (.malformed (String.ofList (TextTables.quoted flag.toList ++ " is not a flag".toList)))
  | none =>
    let said := match date with
      | some instant => ' ' :: '"' :: ImapDates.instant instant ++ ['"']
      | none => []
    let plus := if nonSynchronizing capabilities raw.length then ['+'] else []
    .ok ("APPEND ".toList ++ wireName mailbox ++ (" (" ++ " ".intercalate flags ++ ")").toList
      ++ said ++ ' ' :: '\x7b' :: (toString raw.length).toList ++ plus ++ ['\x7d'])

/-- A command as text, without its tag. -/
def renderBody (auth : Smtp.SignIn) (capabilities : List (List Char)) :
    ImapCommand → Except ProtoError (List Char)
  | .capability => .ok "CAPABILITY".toList
  | .noop => .ok "NOOP".toList
  | .logout => .ok "LOGOUT".toList
  | .idle | .idleAfter _ => .ok "IDLE".toList
  | .compress => .ok "COMPRESS DEFLATE".toList
  | .notifyNone => .ok "NOTIFY NONE".toList
  | .notify mailboxes =>
    let named := match mailboxes.map wireName with
      | [one] => one
      | many => '(' :: [' '].intercalate many ++ [')']
    .ok ("NOTIFY SET (selected (MessageNew MessageExpunge FlagChange)) (mailboxes ".toList
      ++ named ++ " (MessageNew MessageExpunge))".toList)
  | .list => .ok "LIST \"\" \"*\"".toList
  | .lsub => .ok "LSUB \"\" \"*\"".toList
  | .create mailbox => .ok ("CREATE ".toList ++ wireName mailbox)
  | .rename origin target => .ok ("RENAME ".toList ++ wireName origin ++ ' ' :: wireName target)
  | .delete mailbox => .ok ("DELETE ".toList ++ wireName mailbox)
  | .subscribe mailbox => .ok ("SUBSCRIBE ".toList ++ wireName mailbox)
  | .unsubscribe mailbox => .ok ("UNSUBSCRIBE ".toList ++ wireName mailbox)
  | .getQuotaRoot mailbox => .ok ("GETQUOTAROOT ".toList ++ wireName mailbox)
  | .requireEmpty mailbox => .ok ("STATUS ".toList ++ wireName mailbox ++ " (MESSAGES)".toList)
  | .login => renderLogin auth capabilities
  | .authenticateXoauth2 => renderXoauth2 auth
  | .enable capability => .ok ("ENABLE " ++ capability).toList
  | .select mailbox access qresync =>
    let resync := match qresync with
      | some r => (" (QRESYNC (" ++ toString r.uidvalidity.toNat ++ " " ++ toString r.modseq ++
          "))").toList
      | none => []
    .ok ((selectVerb access).toList ++ wireName mailbox ++ resync)
  | .uidFetch set items => checkSet set ("UID FETCH " ++ set ++ " " ++ items).toList
  | .uidStore set what _ => checkSet set ("UID STORE " ++ set ++ " " ++ what).toList
  | .uidSearch criteria => .ok ("UID SEARCH " ++ criteria).toList
  | .search _ => .error (.malformed "a search is written by search::imap")
  | .uidExpunge set => checkSet set ("UID EXPUNGE " ++ set).toList
  | .requireCapability _ | .requireUidValidity _ => .error (.malformed "a guard is not a command")
  | .uidStoreFound _ | .uidExpungeFound =>
    .error (.malformed "a command on what a search found is decided in the walk")
  | .uidCopy set mailbox => checkSet set (("UID COPY " ++ set ++ " ").toList ++ wireName mailbox)
  | .append mailbox flags date raw => renderAppend capabilities mailbox flags date raw
  | .uidMove set mailbox => checkSet set (("UID MOVE " ++ set ++ " ").toList ++ wireName mailbox)

/-- A command as it goes on the wire. What would end the line early is refused. -/
def render (auth : Smtp.SignIn) (capabilities : List (List Char)) (command : ImapCommand)
    (tag : String) : Except ProtoError Bytes :=
  match renderBody auth capabilities command with
  | .error error => .error error
  | .ok body =>
    if body.any isLineBreak then .error (.malformed "a command contains CR, LF or NUL")
    else .ok (Utf8.encode (tag.toList ++ ' ' :: body ++ ['\r', '\n']))

end Rendering

end Mailo.Proto.Imap
