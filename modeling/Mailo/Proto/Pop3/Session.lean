import Mailo.Library.Utf8
import Mailo.Library.Crlf
import Mailo.Proto.Machine

/-!
# A POP3 session

The commands are queued beforehand: the session sequences them and reads the replies, and chooses
nothing. A line that has not ended stays in the buffer, and a reply of several lines ends at a line
that is a single dot.
-/

namespace Mailo.Proto.Pop3

open Domain Library

def maxLineBytes : Nat := 1024 * 1024

def maxReplyBytes : Nat := 256 * 1024 * 1024

inductive Pop3Command where
  | capa | user | pass | authPlain | stat | uidl | list
  | retr (number : UInt32)
  | top (number lines : UInt32)
  /-- `UIDL` of one number, answered with the id the caller says it must have. -/
  | check (number : UInt32) (uidl : String)
  | dele (number : UInt32)
  | quit
deriving DecidableEq

structure UidlEntry where
  number : UInt32
  uidl : String
deriving DecidableEq

structure ListEntry where
  number : UInt32
  octets : UInt64
deriving DecidableEq

inductive Pop3Reply where
  | greeting (text : String)
  | capabilities (lines : List String)
  | capaUnsupported (text : String)
  | userAccepted (text : String)
  | authenticated (text : String)
  | stat (messages : UInt32) (octets : UInt64)
  | uidl (rows : List UidlEntry)
  | list (rows : List ListEntry)
  | retrieved (bytes : Bytes)
  | headers (bytes : Bytes)
  | deleted (text : String)
  | quit (text : String)
deriving DecidableEq

structure Auth where
  username : String
  password : String
deriving DecidableEq

inductive Phase where
  | greeting
  | stls
  | awaitTls
  /-- Waiting for a one-line answer. -/
  | single (cmd : Pop3Command)
  /-- Waiting for the status line of a dot-terminated reply. -/
  | multiStatus (cmd : Pop3Command)
  | multiBody (cmd : Pop3Command) (lines : List Bytes) (held : Nat)
  | closed
deriving DecidableEq

inductive WindDown where
  | run | quitNext
deriving DecidableEq

inductive ResponseShape where
  | single | multi
deriving DecidableEq

/-- What survives from one event to the next. -/
structure State where
  commands : List Pop3Command
  phase : Phase
  buf : Bytes
  replies : List Pop3Reply
  windDown : WindDown
  starttls : Option (String × Nat)
deriving DecidableEq

/-- What one complete line did to the phase. -/
inductive Action where
  | continue
  | next (reply : Pop3Reply)
  | done (reply : Pop3Reply)
  | startTls
  | fail (error : ProtoError)
deriving DecidableEq

/-- The next line without its CRLF and the bytes after it, `none` when it has not ended. -/
def takeLine (buf : Bytes) : Except ProtoError (Option (Bytes × Bytes)) :=
  match Crlf.split buf with
  | some (line, rest) =>
    if line.length > maxLineBytes then .error (.malformed "response line exceeds 1 MiB")
    else .ok (some (line, rest))
  | none =>
    if buf.length > maxLineBytes then .error (.malformed "response line exceeds 1 MiB")
    else .ok none

/-- At most `max` characters, and a mark when there were more. -/
def clip (text : List Char) (max : Nat) : String :=
  String.ofList (if text.length > max then text.take max ++ "...".toList else text)

def snippet (bytes : Bytes) : String := clip (Utf8.decodeLossy bytes) 80

def bounded (text : String) : String := clip text.toList 200

def utf8 (bytes : Bytes) : Except ProtoError String :=
  match Utf8.decode bytes with
  | some text => .ok (String.ofList text)
  | none => .error (.malformed ("response line is not utf-8: " ++ snippet bytes))

inductive Status where
  | ok (text : String)
  | err (text : String)
deriving DecidableEq

def stripPrefix : (lead line : Bytes) → Option Bytes
  | [], line => some line
  | _ :: _, [] => none
  | a :: lead, b :: line => if a = b then stripPrefix lead line else none

def statusTail (rest : Bytes) : Except ProtoError String :=
  match rest with
  | [] => .ok ""
  | byte :: text =>
    if byte = 32 then utf8 text
    else .error (.malformed ("status keyword is not followed by a space: " ++ snippet rest))

def statusOf (line : Bytes) : Except ProtoError Status :=
  match stripPrefix (wire "+OK") line with
  | some rest => (statusTail rest).map Status.ok
  | none =>
    match stripPrefix (wire "-ERR") line with
    | some rest => (statusTail rest).map Status.err
    | none => .error (.malformed ("response is neither +OK nor -ERR: " ++ snippet line))

def parseInt (bound : Nat) (token : Option (List Char)) (what : String) :
    Except ProtoError Nat :=
  match token with
  | none => .error (.malformed ("missing " ++ what))
  | some token =>
    match Text.parseUnsigned bound token with
    | some value => .ok value
    | none =>
      .error (.malformed ("bad " ++ what ++ ": " ++ snippet (Utf8.encode token)))

def parseU32 (token : Option (List Char)) (what : String) : Except ProtoError UInt32 :=
  (parseInt (2 ^ 32) token what).map UInt32.ofNat

def parseU64 (token : Option (List Char)) (what : String) : Except ProtoError UInt64 :=
  (parseInt (2 ^ 64) token what).map UInt64.ofNat

def twoTokens (line : Bytes) : Except ProtoError (List Char × List Char) :=
  match Utf8.decode line with
  | none => .error (.malformed ("response line is not utf-8: " ++ snippet line))
  | some text =>
    match Text.splitWhitespace text with
    | [first, second] => .ok (first, second)
    | _ => .error (.malformed ("expected two fields: " ++ snippet line))

def isGraphic (c : Char) : Bool := 0x21 ≤ c.toNat && c.toNat ≤ 0x7E

def uidlEntry (line : Bytes) : Except ProtoError UidlEntry :=
  match twoTokens line with
  | .error error => .error error
  | .ok (number, uidl) =>
    if uidl.all isGraphic then
      (parseU32 (some number) "UIDL message number").map fun number =>
        ⟨number, String.ofList uidl⟩
    else .error (.malformed ("UIDL is not printable ASCII: " ++ snippet line))

def listEntry (line : Bytes) : Except ProtoError ListEntry :=
  match twoTokens line with
  | .error error => .error error
  | .ok (number, octets) =>
    match parseU32 (some number) "LIST message number" with
    | .error error => .error error
    | .ok number =>
      (parseU64 (some octets) "LIST octet count").map fun octets => ⟨number, octets⟩

def shape : Pop3Command → ResponseShape
  | .capa | .uidl | .list | .retr _ | .top _ _ => .multi
  | .user | .pass | .authPlain | .stat | .check _ _ | .dele _ | .quit => .single

/-- Drop one leading dot; a line that is a dot alone ends the reply and is not seen here. -/
def unstuff (line : Bytes) : Bytes := (stripPrefix (wire ".") line).getD line

def joinLines (lines : List Bytes) : Bytes := lines.flatMap fun line => line ++ [13, 10]

def interpretStat (text : String) : Except ProtoError Pop3Reply :=
  let parts := Text.splitWhitespace text.toList
  match parseU32 parts[0]? "STAT message count" with
  | .error error => .error error
  | .ok messages =>
    (parseU64 parts[1]? "STAT octet count").map fun octets => .stat messages octets

def checked (number : UInt32) (uidl : String) (text : String) : Except ProtoError Pop3Reply :=
  match uidlEntry (wire text) with
  | .error error => .error error
  | .ok entry =>
    if entry.number ≠ number ∨ entry.uidl ≠ uidl then
      .error (.refused .transient
        ("message " ++ toString number.toNat ++ " is no longer the one this client listed"))
    else .ok (.uidl [entry])

def interpretSingle (cmd : Pop3Command) (text : String) : Except ProtoError Pop3Reply :=
  match cmd with
  | .stat => interpretStat text
  | .user => .ok (.userAccepted text)
  | .pass | .authPlain => .ok (.authenticated text)
  | .check number uidl => checked number uidl text
  | .dele _ => .ok (.deleted text)
  | .quit => .ok (.quit text)
  | .capa | .uidl | .list | .retr _ | .top _ _ =>
    .error (.malformed "multi-line command reached the single-line parser")

def interpretMulti (cmd : Pop3Command) (lines : List Bytes) : Except ProtoError Pop3Reply :=
  match cmd with
  | .capa => (lines.mapM utf8).map Pop3Reply.capabilities
  | .uidl => (lines.mapM uidlEntry).map Pop3Reply.uidl
  | .list => (lines.mapM listEntry).map Pop3Reply.list
  | .retr _ => .ok (.retrieved (joinLines lines))
  | .top _ _ => .ok (.headers (joinLines lines))
  | .user | .pass | .authPlain | .stat | .check _ _ | .dele _ | .quit =>
    .error (.malformed "single-line command reached the multi-line parser")

def refused (cmd : Pop3Command) (text : String) : ProtoError :=
  let text := bounded text
  match cmd with
  | .user | .pass | .authPlain => .authRejected text
  -- No message at that number now: the next survey numbers the maildrop afresh.
  | .check _ _ => .refused .transient text
  | _ => .refused .permanent text

def decideGreeting (line : Bytes) : Phase × Action :=
  match statusOf line with
  | .ok (.ok text) => (.closed, .next (.greeting text))
  | .ok (.err text) => (.closed, .fail (.refused .permanent (bounded text)))
  | .error error => (.closed, .fail error)

def decideStls (line : Bytes) : Phase × Action :=
  match statusOf line with
  | .ok (.ok _) => (.closed, .startTls)
  | .ok (.err text) => (.closed, .fail (.unsupported ("STLS: " ++ bounded text)))
  | .error error => (.closed, .fail error)

def decideSingle (cmd : Pop3Command) (line : Bytes) : Phase × Action :=
  match statusOf line with
  | .ok (.ok text) =>
    match interpretSingle cmd text with
    | .ok reply => (.closed, if cmd = .quit then .done reply else .next reply)
    | .error error => (.closed, .fail error)
  | .ok (.err text) => (.closed, .fail (refused cmd text))
  | .error error => (.closed, .fail error)

def decideMultiStatus (cmd : Pop3Command) (line : Bytes) : Phase × Action :=
  match statusOf line with
  | .ok (.ok _) => (.multiBody cmd [] 0, .continue)
  | .ok (.err text) =>
    if cmd = .capa then (.closed, .next (.capaUnsupported (bounded text)))
    else (.closed, .fail (refused cmd text))
  | .error error => (.closed, .fail error)

def decideMultiBody (cmd : Pop3Command) (lines : List Bytes) (held : Nat) (line : Bytes) :
    Phase × Action :=
  if line ≠ wire "." then
    let held := held + line.length
    if held > maxReplyBytes then
      (.closed, .fail (.malformed
        ("a reply grew past " ++ toString maxReplyBytes ++ " bytes without ending")))
    else (.multiBody cmd (lines ++ [unstuff line]) held, .continue)
  else
    match interpretMulti cmd lines with
    | .ok reply => (.closed, .next reply)
    | .error error => (.closed, .fail error)

/-- One complete line in, the next phase and action out. -/
def decide (phase : Phase) (line : Bytes) : Phase × Action :=
  match phase with
  | .greeting => decideGreeting line
  | .stls => decideStls line
  | .awaitTls =>
    (.closed, .fail (.malformed "the server spoke while the connection was being secured"))
  | .single cmd => decideSingle cmd line
  | .multiStatus cmd => decideMultiStatus cmd line
  | .multiBody cmd lines held => decideMultiBody cmd lines held line
  | .closed => (.closed, .fail (.malformed "session is already finished"))

def plainRaw (user pass : String) : Bytes := 0 :: wire user ++ 0 :: wire pass

def command : Pop3Command → Auth → Bytes
  | .capa, _ => wire "CAPA"
  | .user, auth => wire "USER " ++ wire auth.username
  | .pass, auth => wire "PASS " ++ wire auth.password
  | .authPlain, auth =>
    wire "AUTH PLAIN " ++ Utf8.encode (Base64.encode (plainRaw auth.username auth.password))
  | .stat, _ => wire "STAT"
  | .uidl, _ => wire "UIDL"
  | .list, _ => wire "LIST"
  | .retr number, _ => wire "RETR " ++ wire (toString number.toNat)
  | .top number lines, _ =>
    wire "TOP " ++ wire (toString number.toNat) ++ wire " " ++ wire (toString lines.toNat)
  | .check number _, _ => wire "UIDL " ++ wire (toString number.toNat)
  | .dele number, _ => wire "DELE " ++ wire (toString number.toNat)
  | .quit, _ => wire "QUIT"

def encode (cmd : Pop3Command) (auth : Auth) : Bytes := command cmd auth ++ [13, 10]

/-! ## The session -/

def awaiting (cmd : Pop3Command) : Phase :=
  match shape cmd with
  | .single => .single cmd
  | .multi => .multiStatus cmd

abbrev Step := State × Progress (List Pop3Reply)

namespace State

def fail (state : State) (error : ProtoError) : Step :=
  ({ state with phase := .closed }, .failed error)

/-- The next command of the queue, or the end; an interrupt leaves `QUIT` alone in it. -/
def dispatchNext (state : State) (auth : Auth) : Step :=
  let queued : State :=
    if state.windDown = .quitNext then { state with commands := [.quit], windDown := .run }
    else state
  match queued.commands with
  | [] => ({ queued with phase := .closed, replies := [] }, .done queued.replies)
  | cmd :: rest =>
    ({ queued with commands := rest, phase := awaiting cmd },
      .need [.write (encode cmd auth), .read])

/-- What a line's action does once the phase is set, unless the reply goes on. -/
def act (state : State) (auth : Auth) : Action → Step
  | .continue => (state, .need [.read])
  | .next reply =>
    let heard : State := { state with replies := state.replies ++ [reply] }
    let greeted : Bool := match reply with
      | .greeting _ => true
      | _ => false
    if greeted && heard.starttls.isSome then
      ({ heard with phase := .stls }, .need [.write (wire "STLS\r\n"), .read])
    else heard.dispatchNext auth
  | .startTls =>
    -- Anything sent after the agreement came before TLS.
    if !state.buf.isEmpty then
      state.fail (.malformed "the server sent more after agreeing to STLS")
    else
      match state.starttls with
      | none => state.fail (.malformed "STLS without a server")
      | some (host, port) =>
        ({ state with phase := .awaitTls }, .need [.openTls host port .startTlsRequired])
  | .done reply => ({ state with phase := .closed, replies := [] }, .done (state.replies ++ [reply]))
  | .fail error => state.fail error

/-- Every complete line of the buffer, until a command is to be written or the session ends; a
line takes two bytes at least, so `fuel` above the buffer's length is enough. -/
def pumpLines (auth : Auth) : Nat → State → Step
  | 0, state => (state, .need [.read])
  | fuel + 1, state =>
    match takeLine state.buf with
    | .ok none => (state, .need [.read])
    | .error error => state.fail error
    | .ok (some (line, rest)) =>
      let decided := decide state.phase line
      let heard : State := { state with buf := rest, phase := decided.1 }
      match decided.2 with
      | .continue => pumpLines auth fuel heard
      | action => heard.act auth action

def pump (state : State) (auth : Auth) : Step :=
  if state.phase = .closed then
    (state, .failed (.malformed "session is already finished"))
  else pumpLines auth (state.buf.length + 1) state

def onEof (state : State) (auth : Auth) : Step :=
  match state.pump auth with
  | (after, .need needs) =>
    if needs.contains .read then ({ after with phase := .closed }, .failed .unexpectedEof)
    else (after, .need needs)
  | other => other

/-- Advance by one event. -/
def step (state : State) (auth : Auth) : IoReady → Step
  | .bytes fed => { state with buf := state.buf ++ fed }.pump auth
  | .eof => state.onEof auth
  -- The reply in flight is read first.
  | .interrupt => { state with windDown := .quitNext }.pump auth
  | .tlsOpen =>
    if state.phase = .awaitTls then { state with starttls := none }.dispatchNext auth
    else state.pump auth
  | .woke => state.pump auth

end State

structure Session where
  auth : Auth
  state : State
deriving DecidableEq

namespace Session

def hasForbidden (value : String) : Bool :=
  (wire value).any fun byte => byte = 10 || byte = 13 || byte = 0

def new (username password : String) (commands : List Pop3Command) :
    Except ProtoError Session :=
  if hasForbidden username then .error (.malformed "username contains CR, LF, or NUL")
  else if hasForbidden password then .error (.malformed "password contains CR, LF, or NUL")
  else .ok ⟨⟨username, password⟩, ⟨commands, .greeting, [], [], .run, none⟩⟩

def withStarttls (session : Session) (host : String) (port : Nat) : Session :=
  { session with state := { session.state with starttls := some (host, port) } }

def start (session : Session) : Session × Progress (List Pop3Reply) := (session, .need [.read])

def feed (session : Session) (ready : IoReady) : Session × Progress (List Pop3Reply) :=
  let after := session.state.step session.auth ready
  ({ session with state := after.1 }, after.2)

def machine : Machine Session (List Pop3Reply) := ⟨feed, fun session => session.state.buf⟩

end Session

end Mailo.Proto.Pop3
