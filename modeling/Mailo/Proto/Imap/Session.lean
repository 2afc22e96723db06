import Mailo.Domain.Filter
import Mailo.Proto.Imap.Command

/-!
# An IMAP session

The commands are queued beforehand. The session writes them one after another, each when the one
before it is completed, and keeps everything the server says meanwhile. Parsing a response is not
done here: `imap-proto` does it.
-/

namespace Mailo.Proto.Imap

open Domain Library Proto.Search

def maxResponse : Nat := 256 * 1024 * 1024

def maxTranscript : Nat := 1024 * 1024 * 1024

inductive Status where
  | ok | no | bad | preAuth | bye
deriving DecidableEq

/-- A response, as far as the session reads one. Capabilities are atoms as `imap-proto` prints
them. -/
inductive Response where
  | done (tag : List Char) (status : Status) (capabilities : Option (List (List Char)))
  | data (status : Status) (capabilities : Option (List (List Char)))
  | capabilities (atoms : List (List Char))
  /-- A `STATUS`, and the count of messages it gives. -/
  | status (messages : Option Nat)
  | other
deriving DecidableEq

inductive Parsed where
  | ok (used : Nat) (response : Response)
  | incomplete
  | error
deriving DecidableEq

/-- `imap_proto::parser::parse_response`: it takes a response from the front of what it is given,
at least one byte of it, and a tag is never empty. -/
class ResponseParser where
  parse : Bytes → Parsed
  used_some : ∀ {buf used response}, parse buf = .ok used response → 0 < used ∧ used ≤ buf.length
  tag_some : ∀ {buf used tag status capabilities},
    parse buf = .ok used (.done tag status capabilities) → tag ≠ []

inductive Phase where
  | greeting
  | startingTls (tag : String)
  | awaitingTls
  /-- Upgraded, and asking again what the server offers. -/
  | recapping (tag : String)
  | running (index : Nat) (tag : String)
  | idlePending (index : Nat) (tag : String)
  | idling (index : Nat) (tag : String)
  | idleEnding (index : Nat) (tag : String)
  /-- `APPEND` was sent, and the server has not asked for the literal. -/
  | appendPending (index : Nat) (tag : String) (body : Bytes)
  /-- A search was sent up to a literal: `part` goes at the next `+`. -/
  | literalPending (index : Nat) (tag : String) (part : Bytes) (rest : List Bytes)
  /-- Leaving the mailbox an earlier session selected. -/
  | deselecting (tag : String)
  | finished
deriving DecidableEq

namespace Phase

def tag : Phase → String
  | .running _ tag | .idlePending _ tag | .idling _ tag | .idleEnding _ tag
  | .appendPending _ tag _ | .literalPending _ tag _ _ | .deselecting tag | .startingTls tag
  | .recapping tag => tag
  | _ => ""

/-- The command a tagged reply completes. -/
def index : Phase → Nat
  | .running index _ | .idlePending index _ | .idling index _ | .idleEnding index _
  | .appendPending index _ _ | .literalPending index _ _ _ => index
  | _ => 0

/-- The command an untagged response is said to have arrived during. -/
def during : Phase → Nat
  | .running index _ | .idlePending index _ | .idling index _ | .idleEnding index _ => index
  | _ => 0

/-- Whether what arrives untagged is not this session's. -/
def deaf : Phase → Bool
  | .deselecting _ | .startingTls _ | .awaitingTls | .recapping _ => true
  | _ => false

def isDeselecting : Phase → Bool
  | .deselecting _ => true
  | _ => false

end Phase

/-- What became of a command when its turn came: the command written, if one was, and what the
session knew then. -/
structure Decided where
  sent : Option ImapCommand
  knew : Transcript

/-- What survives from one event to the next. `trail` is a record of the commands dealt with, which
nothing reads. -/
structure Session where
  auth : Smtp.SignIn
  commands : List ImapCommand
  phase : Phase
  buf : Bytes
  transcript : Transcript
  counter : Nat
  maxResponse : Nat
  maxTranscript : Nat
  held : Nat
  resumed : Bool
  /-- How the connection's mailbox is selected, if one is. -/
  selected : Option Access
  starttls : Option (String × Nat)
  /-- `COMPRESS` was just accepted. -/
  compressing : Bool
  trail : List Decided

/-- What a session that finished leaves for the next one on its connection. -/
structure Resume where
  capabilities : List (List Char)
  tags : Nat
  selected : Option Access
  unread : Bytes
deriving DecidableEq

def tagText (n : Nat) : String :=
  let digits := toString n
  "a" ++ (if digits.length = 1 then "00" else if digits.length = 2 then "0" else "") ++ digits

namespace Resume

end Resume

/-! ## Reading -/

def toAsciiUppercase (text : List Char) : List Char := text.map Char.toUpper

def startsWithIgnoreCase (buf : Bytes) (lead : String) : Bool :=
  let first := buf.take lead.length
  first.length = lead.length &&
    Text.eqIgnoreAsciiCase (first.map fun b => Char.ofNat b.toNat) lead.toList

def afterFirst (needle : List Char) : List Char → Option (List Char)
  | [] => if needle.isEmpty then some [] else none
  | c :: text =>
    match Text.stripPrefix needle (c :: text) with
    | some rest => some rest
    | none => afterFirst needle text

/-- A text less a break at its end. -/
def lineOf (line : List Char) : List Char :=
  if line.getLast? = some '\r' then line.dropLast else line

def codeList (text : List Char) : Option (List Char) :=
  if text.isEmpty then none
  else
    let line := match Text.splitOnce '\n' text with
      | some (line, _) => lineOf line
      | none => text
    -- Found in capitals, and cut from the line as it is.
    (afterFirst "[CAPABILITY ".toList (toAsciiUppercase line)).map fun upper =>
      let list := line.drop (line.length - upper.length)
      ((Text.splitOnce ']' list).map Prod.fst).getD list

def excerpt (bytes : Bytes) : String :=
  let head := (Utf8.decodeLossy (bytes.take 400)).flatMap fun c =>
    if c = '\r' then ['\\', 'r'] else if c = '\n' then ['\\', 'n'] else [c]
  if bytes.length > 400 then
    String.ofList head ++ "… (" ++ toString bytes.length ++ " bytes)"
  else String.ofList head

def classify (text : List Char) (refused : Option ImapCommand) : ProtoError :=
  let upper := toAsciiUppercase text
  let speaks := fun (what : String) => containsText what.toList upper
  if speaks "[LIMIT]" || speaks "[OVERQUOTA]" || speaks "TOO MANY" then
    .throttled (String.ofList text) none
  else
    let signingIn := match refused with
      | some .login | some .authenticateXoauth2 => true
      | _ => false
    if signingIn || speaks "[AUTHENTICATIONFAILED]" || speaks "[EXPIRED]" ||
        speaks "[AUTHORIZATIONFAILED]" || speaks "INVALID CREDENTIALS" then
      .authRejected (String.ofList text)
    else .refused .permanent (String.ofList text)

section Heard

variable [TextTables] [ResponseParser]

/-- Whether an untagged response announces something worth waking for. -/
def isNews (text : List Char) : Bool :=
  match Text.stripPrefix "* ".toList (TextTables.toUppercase (Text.trim text)) with
  | none => false
  | some rest =>
    match Text.splitWhitespace rest with
    | [] => false
    | first :: words =>
      if first = "STATUS".toList then true
      else if (Text.parseUnsigned (2 ^ 64) first).isNone then false
      else match words.head? with
        | some word => word = "EXISTS".toList || word = "RECENT".toList ||
            word = "EXPUNGE".toList || word = "FETCH".toList
        | none => false

def capabilitiesSaid (response : Response) (text : List Char) : Option (List (List Char)) :=
  match response with
  | .capabilities atoms => some atoms
  | .data _ (some atoms) | .done _ _ (some atoms) => some atoms
  | .data _ none | .done _ _ none => (codeList text).map capabilityAtoms
  | _ => none

def notEmpty (untagged : List Untagged) (index : Nat) (mailbox : String) : Option ProtoError :=
  let counts := (untagged.filter fun u => u.during = index).filterMap fun u =>
    match ResponseParser.parse u.raw with
    | .ok _ (.status messages) => messages
    | _ => none
  match counts.getLast? with
  | some 0 => none
  | some n =>
    some (.refused .permanent
      (mailbox ++ " holds " ++ toString n ++ " message(s) on the server; not deleted"))
  | none =>
    some (.refused .permanent
      ("the server did not say how many messages " ++ mailbox ++ " holds; not deleted"))

end Heard

namespace Session

def isForbidden (text : String) : Bool := text.toList.any isLineBreak

def credentialForbidden : Smtp.Credential → Bool
  | .password secret => isForbidden secret
  | .oAuth access refresh => isForbidden access || isForbidden refresh
  | _ => true

def new (auth : Smtp.SignIn) (commands : List ImapCommand) : Except ProtoError Session :=
  if isForbidden auth.username || credentialForbidden auth.credential then
    .error (.malformed "credential contains CR, LF, or NUL")
  else
    .ok
      { auth, commands
        phase := .greeting
        buf := []
        transcript := .empty
        counter := 0
        maxResponse := Imap.maxResponse
        maxTranscript := Imap.maxTranscript
        held := 0
        resumed := false
        selected := none
        starttls := none
        compressing := false
        trail := [] }

def withStarttls (session : Session) (host : String) (port : Nat) : Session :=
  { session with starttls := some (host, port) }

def resuming (session : Session) (earlier : Resume) : Session :=
  { session with
    transcript := { session.transcript with capabilities := earlier.capabilities }
    counter := earlier.tags
    selected := earlier.selected
    buf := earlier.unread
    resumed := true
    starttls := none }

def takeUnread (session : Session) : Bytes := session.buf

variable (session : Session)

def fail (error : ProtoError) : Session × Progress Transcript :=
  ({ session with phase := .finished }, .failed error)

/-- A command of the session's own, which no walk named. -/
def ask (what : String) (phase : String → Phase) : Session × Progress Transcript :=
  let tag := tagText (session.counter + 1)
  ({ session with counter := session.counter + 1, phase := phase tag },
    .need [.write (wire (tag ++ " " ++ what ++ "\r\n")), .read])

def deselect : Session × Progress Transcript :=
  if unselects session.transcript.capabilities then session.ask "UNSELECT" .deselecting
  else session.fail (.unsupported
    "the server has no UNSELECT, so a connection with a mailbox selected is not reused")

/-- The connection is upgraded: what the server offered before is forgotten, and asked again. -/
def upgraded : Session × Progress Transcript :=
  ask { session with transcript := { session.transcript with capabilities := [] } } "CAPABILITY"
    .recapping

inductive Decision where
  | pass
  | stop (error : ProtoError)
  | send (command : ImapCommand)

/-- What becomes of the command at `index`, by what the server has said. -/
def decision (commands : List ImapCommand) (knew : Transcript) (index : Nat)
    (command : ImapCommand) : Decision :=
  match command with
  | .idleAfter uidnext =>
    match reportedUidnext knew.untagged with
    | some now => if now > uidnext then .pass else .send command
    | none => .send command
  | .requireUidValidity expected =>
    let refuse := fun (now : String) => Decision.stop (.refused .permanent
      ("the mailbox's UIDVALIDITY is " ++ now ++ " where " ++ toString expected.toNat ++
        " was expected: its UIDs may name other messages now, so nothing was deleted"))
    match reportedUidvalidity knew.untagged with
    | some now => if now = expected then .pass else refuse (toString now.toNat)
    | none => refuse "unreported"
  | .uidStoreFound what =>
    match foundBefore commands knew.untagged index with
    | some uids => .send (.uidStore (setText uids) what false)
    | none => .pass
  | .uidExpungeFound =>
    match foundBefore commands knew.untagged index with
    | some uids =>
      if hasCapability knew.capabilities "UIDPLUS" ||
          hasCapability knew.capabilities "IMAP4rev2" then
        .send (.uidExpunge (setText uids))
      else .pass
    | none => .pass
  | .requireCapability any =>
    if any.any fun atom => hasCapability knew.capabilities atom then .pass
    else .stop (.unsupported (notOffered any))
  | .compress =>
    if hasCapability knew.capabilities "COMPRESS=DEFLATE" then .send command else .pass
  | command => .send command

section Machine

variable [TextTables] [ImapDates] [ResponseParser]

/-- Where a command leaves the session, and what is written for it. -/
def written (index : Nat) (tag : String) (command : ImapCommand) :
    Except ProtoError (Phase × Bytes) :=
  let capabilities := session.transcript.capabilities
  match command with
  | .search keys =>
    (Search.command tag keys capabilities).map fun cut =>
      match cut.2 with
      | [] => (.running index tag, cut.1)
      | part :: rest => (.literalPending index tag part rest, cut.1)
  | command =>
    (render session.auth capabilities command tag).map fun line =>
      match command with
      | .idle | .idleAfter _ => (.idlePending index tag, line)
      | .append _ _ _ raw =>
        if nonSynchronizing capabilities raw.length then
          (.running index tag, line ++ raw ++ [13, 10])
        else (.appendPending index tag raw, line)
      | _ => (.running index tag, line)

def send (index : Nat) (command : ImapCommand) : Session × Progress Transcript :=
  let tag := tagText (session.counter + 1)
  let tagged := { session with counter := session.counter + 1, held := 0 }
  match session.written index tag command with
  | .error error => tagged.fail error
  | .ok (phase, bytes) =>
    ({ tagged with phase, trail := session.trail ++ [⟨some command, session.transcript⟩] },
      .need [.write bytes, .read])

def issueFrom (session : Session) (index : Nat) :
    List ImapCommand → Session × Progress Transcript
  | [] => ({ session with phase := .finished, transcript := .empty }, .done session.transcript)
  | command :: rest =>
    match decision session.commands session.transcript index command with
    | .pass =>
      issueFrom
        { session with trail := session.trail ++ [⟨none, session.transcript⟩] } (index + 1) rest
    | .stop error => session.fail error
    | .send command => session.send index command

def issue (index : Nat) : Session × Progress Transcript :=
  session.issueFrom index (session.commands.drop index)

def greeted (preauth : Bool) : Session × Progress Transcript :=
  match session.starttls with
  | none => session.issue 0
  | some _ =>
    if preauth then
      session.fail (.unsupported
        "the server signed in before STARTTLS, so the connection cannot be secured")
    else session.ask "STARTTLS" .startingTls

/-! ## Hearing -/

def readMore : Session × Progress Transcript :=
  if session.buf.length > session.maxResponse then
    session.fail (.malformed ("a response grew past " ++ toString session.maxResponse ++
      " bytes without ending"))
  else (session, .need [.read])

/-- Keep an untagged response, unless the answers to one command would then hold too much. -/
def keep (untagged : Untagged) : Session × Option (Progress Transcript) :=
  let held := session.held + (untagged.raw.length + (Utf8.encode untagged.text).length)
  if held > session.maxTranscript then
    let failed := fail { session with held } (.malformed
      ("the answers to one command grew past " ++ toString session.maxTranscript ++ " bytes"))
    (failed.1, some failed.2)
  else
    ({ session with
      held
      transcript := { session.transcript with
        untagged := session.transcript.untagged ++ [untagged] } }, none)

def tolerates : Option ImapCommand → Bool
  | some (.uidStore _ _ tolerate) => tolerate
  | some .compress | some .notifyNone => true
  | _ => false

def isCompress : Option ImapCommand → Bool
  | some .compress => true
  | _ => false

/-- Once the server has accepted `COMPRESS`, the transport is switched before anything else. -/
def switching (next : Session × Progress Transcript) : Session × Progress Transcript :=
  match next.2 with
  | .need needs => ({ next.1 with compressing := true }, .need (.deflate [] :: needs))
  | .done transcript =>
    ({ next.1 with transcript, compressing := true }, .need [.deflate []])
  | .failed error => (next.1, .failed error)

/-- The command at `index` got its `OK`. -/
def completed (index : Nat) (text : List Char) : Session × Progress Transcript :=
  let after := { session with
    selected := match session.commands[index]? with
      | some (.select _ access _) => some access
      | _ => session.selected
    transcript := { session.transcript with
      completed := session.transcript.completed ++ [Completed.mk index text] } }
  let refusal := match session.commands[index]? with
    | some (.requireEmpty mailbox) => notEmpty after.transcript.untagged index mailbox
    | _ => none
  match refusal with
  | some error => after.fail error
  | none =>
    let next := after.issue (index + 1)
    if isCompress session.commands[index]? then switching next else next

def absorbDone (tag : List Char) (status : Status) (text : List Char) :
    Session × Progress Transcript :=
  let said := String.ofList text
  if String.ofList tag ≠ session.phase.tag then
    session.fail (.malformed ("tagged " ++ String.ofList tag ++ " while waiting for " ++
      session.phase.tag))
  else
    match session.phase with
    | .startingTls _ =>
      if status = .ok then
        match session.starttls with
        | none => session.fail (.malformed "STARTTLS without a server")
        | some (host, port) =>
          ({ session with phase := .awaitingTls },
            .need [.openTls host port .startTlsRequired])
      else session.fail (.unsupported ("STARTTLS: " ++ said))
    | .recapping _ =>
      if status = .ok then session.issue 0
      else session.fail (.malformed ("CAPABILITY: " ++ said))
    | .deselecting _ =>
      if status = .ok then issue { session with selected := none } 0
      else session.fail (.malformed ("the mailbox could not be left: " ++ said))
    | phase =>
      let index := phase.index
      if status = .ok then session.completed index text
      else if tolerates session.commands[index]? then session.issue (index + 1)
      else if status = .no then session.fail (classify text session.commands[index]?)
      else session.fail (.malformed ("BAD: " ++ said))

/-- An untagged response. News ends an idle in protocol. -/
def absorbUntagged (raw : Bytes) (text : List Char) : Session × Option (Progress Transcript) :=
  if session.phase.deaf then (session, none)
  else
    let kept := session.keep ⟨session.phase.during, text, raw⟩
    match kept.2 with
    | some failed => (kept.1, some failed)
    | none =>
      match kept.1.phase with
      | .idling index tag =>
        if isNews text then
          ({ kept.1 with phase := .idleEnding index tag },
            some (.need [.write (wire "DONE\r\n"), .read]))
        else (kept.1, none)
      | _ => (kept.1, none)

/-- One response, and what it makes the session do, if it makes it do anything. -/
def absorb (response : Response) (raw : Bytes) : Session × Option (Progress Transcript) :=
  let text := Text.trimEnd (Utf8.decodeLossy raw)
  let told := match capabilitiesSaid response text with
    | some atoms => { session with
        transcript := { session.transcript with capabilities := atoms } }
    | none => session
  match response with
  | .done tag status _ =>
    let next := told.absorbDone tag status text
    (next.1, some next.2)
  | _ => told.absorbUntagged raw text

def handOver (next : Session × Progress Transcript) : Session × Progress Transcript :=
  if next.1.compressing then
    match next.2 with
    | .need (.deflate _ :: needs) =>
      ({ next.1 with compressing := false, buf := [] },
        .need (.deflate next.1.buf :: needs))
    | progress => ({ next.1 with compressing := false }, progress)
  else next

/-- Nothing may follow the agreement to upgrade. -/
def secured (next : Session × Option (Progress Transcript)) :
    Session × Option (Progress Transcript) :=
  if next.1.phase = .awaitingTls ∧ next.1.buf ≠ [] then
    let failed := next.1.fail (.malformed "the server sent more after agreeing to STARTTLS")
    (failed.1, some failed.2)
  else
    match next.2 with
    | some progress =>
      let handed := handOver (next.1, progress)
      (handed.1, some handed.2)
    | none => next

/-- A `+`: the server asks for what waits to be sent. `none` where the session reads on. -/
def continued : Session × Option (Progress Transcript) :=
  match session.phase with
  | .idlePending index tag =>
    let idling := { session with phase := .idling index tag }
    (idling, if session.buf.isEmpty then some (.need [.read]) else none)
  | .appendPending index tag body =>
    ({ session with phase := .running index tag },
      some (.need [.write (body ++ [13, 10]), .read]))
  | .literalPending index tag part rest =>
    ({ session with
      phase := match rest with
        | [] => .running index tag
        | next :: rest => .literalPending index tag next rest },
      some (.need [.write part, .read]))
  | _ =>
    let failed := session.fail (.malformed "unexpected continuation request")
    (failed.1, some failed.2)

/-- One response taken from the front of a buffer that holds something. `none` where the session
reads on. -/
def drainOne : Session × Option (Progress Transcript) :=
  let more := (session.readMore.1, some session.readMore.2)
  if session.buf.head? = some 43 then
    match Crlf.split session.buf with
    | none => more
    | some (_, rest) => continued { session with buf := rest }
  else if session.buf.length < 9 ∧
      startsWithIgnoreCase session.buf (String.ofList ("* ESEARCH".toList.take session.buf.length))
      then (session, some (.need [.read]))
  else if startsWithIgnoreCase session.buf "* ESEARCH" then
    match Crlf.split session.buf with
    | none => more
    | some (line, rest) =>
      let raw := line ++ [13, 10]
      let after := { session with buf := rest }
      if session.phase.isDeselecting then (after, none)
      else
        let during := match session.phase with
          | .running index _ => index
          | _ => 0
        after.keep ⟨during, Text.trimEnd (Utf8.decodeLossy raw), raw⟩
  else
    match ResponseParser.parse session.buf with
    | .ok used response =>
      let absorbed := absorb { session with buf := [] } response (session.buf.take used)
      secured ({ absorbed.1 with buf := session.buf.drop used }, absorbed.2)
    | .incomplete => more
    | .error =>
      if startsWithIgnoreCase session.buf "* CAPABILITY " then
        match Crlf.split session.buf with
        | none => more
        | some (line, rest) =>
          let said := Text.trimEnd (Utf8.decodeLossy (line ++ [13, 10]))
          secured ({ session with
            buf := rest
            transcript := { session.transcript with
              capabilities := capabilityAtoms (said.drop 13) } }, none)
      else
        let failed := session.fail
          (.malformed ("could not parse a response: " ++ excerpt session.buf))
        (failed.1, some failed.2)

def drainFrom : Nat → Session → Session × Progress Transcript
  | 0, session => (session, .need [.read])
  | fuel + 1, session =>
    if session.buf.isEmpty then (session, .need [.read])
    else
      let next := session.drainOne
      match next.2 with
      | some progress => (next.1, progress)
      | none => drainFrom fuel next.1

def drain : Session × Progress Transcript := drainFrom session.buf.length session

def start : Session × Progress Transcript :=
  if session.resumed then
    match session.selected with
    | some _ => session.deselect
    | none => session.issue 0
  else (session, .need [.read])

/-- The greeting is an untagged response, and the first thing said. -/
def greet : Session × Progress Transcript :=
  match ResponseParser.parse session.buf with
  | .ok used response =>
    let raw := session.buf.take used
    let text := Text.trimEnd (Utf8.decodeLossy raw)
    let preauth := match response with
      | .data .preAuth _ => true
      | _ => false
    greeted { session with
      buf := session.buf.drop used
      transcript := { session.transcript with
        capabilities := (capabilitiesSaid response text).getD session.transcript.capabilities
        untagged := session.transcript.untagged ++ [⟨0, text, raw⟩] } } preauth
  | .incomplete => session.readMore
  | .error =>
    session.fail (.malformed ("could not parse the greeting: " ++ excerpt session.buf))

def finish : Session × Progress Transcript :=
  ({ session with phase := .finished, transcript := .empty }, .done session.transcript)

def feed (ready : IoReady) : Session × Progress Transcript :=
  match ready with
  | .eof => session.fail .unexpectedEof
  | .tlsOpen => if session.phase = .awaitingTls then session.upgraded else (session, .need [.read])
  | .woke => if session.phase = .finished then session.finish else (session, .need [.read])
  | .interrupt =>
    match session.phase with
    | .idling index tag =>
      ({ session with phase := .idleEnding index tag },
        .need [.write (wire "DONE\r\n"), .read])
    | _ => session.finish
  | .bytes fed =>
    let session := { session with buf := session.buf ++ fed }
    if session.phase = .greeting then session.greet else session.drain

end Machine

end Session

end Mailo.Proto.Imap
