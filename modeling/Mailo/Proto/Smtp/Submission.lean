import Mailo.Library.Utf8
import Mailo.Library.Crlf
import Mailo.Proto.Machine

/-!
# A message to submit, and what is written of it

The envelope is decided once, on the extensions the server offers where it counts, and both
envelope commands and the way the message goes are read from that decision.
-/

namespace Mailo.Proto.Smtp

open Domain Library

/-- Domain names as ASCII, by the rules of IDNA; `none` where they reject one. -/
class Idna where
  domainToAscii : String → Option String

inductive Advertised where
  | absent | offered
deriving DecidableEq

inductive SizeLimit where
  | absent
  | unlimited
  | limited (octets : Nat)
deriving DecidableEq

/-- What the server advertised in the most recent `EHLO`. -/
structure EhloExtensions where
  auth : List SaslMech
  starttls : Advertised
  size : SizeLimit
  eightBitMime : Advertised
  smtputf8 : Advertised
  dsn : Advertised
  chunking : Advertised
deriving DecidableEq

def EhloExtensions.none : EhloExtensions := ⟨[], .absent, .absent, .absent, .absent, .absent, .absent⟩

inductive Notify where
  | never
  | on (success failure delay : Bool)
deriving DecidableEq

inductive Return where
  | headers | full
deriving DecidableEq

/-- A request for a delivery status notification. -/
structure Receipt where
  notify : Notify
  ret : Return
  envid : Option String
deriving DecidableEq

inductive Credential where
  | password (secret : String)
  | oAuth (access refresh : String)
  | apiKey (key : String)
  | keyPair (secret : String)
  | bearer (token : String)
  | other
deriving DecidableEq

structure SignIn where
  username : String
  credential : Credential
  /-- Mechanisms this account will use, most preferred first. -/
  sasl : List SaslMech
deriving DecidableEq

inductive Authentication where
  | signIn (signIn : SignIn)
  /-- The connection is a relay's, signed in before the session began. -/
  | relayed
deriving DecidableEq

def Authentication.isRelayed : Authentication → Bool
  | .relayed => true
  | .signIn _ => false

structure Submission where
  ehlo : String
  host : String
  port : Nat
  tls : Tls
  auth : Authentication
  mailFrom : String
  recipients : List String
  receipt : Option Receipt
  message : Bytes
deriving DecidableEq

/-- Every line break as CRLF. -/
def crlf : Bytes → Bytes
  | [] => []
  | [byte] => if byte = 13 ∨ byte = 10 then [13, 10] else [byte]
  | a :: b :: rest =>
    if a = 13 ∧ b = 10 then 13 :: 10 :: crlf rest
    else if a = 13 ∨ a = 10 then 13 :: 10 :: crlf (b :: rest)
    else a :: crlf (b :: rest)

/-- The lines of a message, `line` the one being read; a break at the very end begins no line. -/
def messageLinesFrom (line : Bytes) : Bytes → List Bytes
  | [] => [line]
  | [byte] => if byte = 13 ∨ byte = 10 then [line] else [line ++ [byte]]
  | a :: b :: rest =>
    if a = 13 ∧ b = 10 then line :: if rest.isEmpty then [] else messageLinesFrom [] rest
    else if a = 13 ∨ a = 10 then line :: messageLinesFrom [] (b :: rest)
    else messageLinesFrom (line ++ [a]) (b :: rest)

def messageLines (message : Bytes) : List Bytes := messageLinesFrom [] message

def stuffLine (line : Bytes) : Bytes :=
  (if line.head? = some 46 then [46] else []) ++ line ++ [13, 10]

def dataLines (message : Bytes) : List Bytes :=
  (messageLines message).map stuffLine ++ [[46, 13, 10]]

def transmittedOctets (message : Bytes) : Nat :=
  ((messageLines message).map fun line =>
    (if line.head? = some 46 then 1 else 0) + line.length + 2).sum

def transferOctets (ext : EhloExtensions) (message : Bytes) : Nat :=
  if ext.chunking = .offered then (crlf message).length else transmittedOctets message

def cmd (text : String) : Bytes := wire text ++ [13, 10]

def ehloCmd (name : String) : Bytes := cmd ("EHLO " ++ name)

def bdatWrites (message : Bytes) : List Bytes :=
  [cmd ("BDAT " ++ toString (crlf message).length ++ " LAST"), crlf message]

def hasHighBit (message : Bytes) : Bool := message.any fun byte => 0x80 ≤ byte

/-- The longest line `DATA` carries, its CRLF aside. -/
def maxLine : Nat := 998

def stripCr (line : Bytes) : Bytes :=
  if line.getLast? = some 13 then line.dropLast else line

def longestLine (message : Bytes) : Nat :=
  ((message.splitOn 10).map fun line => (stripCr line).length).foldl max 0

def checkTransfer (ext : EhloExtensions) (message : Bytes) : Except ProtoError Unit :=
  if longestLine message > maxLine then
    .error (.refused .permanent ("message has a line of " ++ toString (longestLine message) ++
      " octets, above the " ++ toString maxLine ++ " SMTP carries"))
  else
    let high : Except ProtoError Unit :=
      if hasHighBit message && ext.eightBitMime ≠ .offered then .error (.unsupported "8BITMIME")
      else .ok ()
    match ext.size with
    | .limited max =>
      if transferOctets ext message > max then
        .error (.refused .permanent ("message is " ++ toString (transferOctets ext message) ++
          " octets, above SIZE " ++ toString max))
      else high
    | .absent | .unlimited => high

inductive Utf8Parameter where
  | omit | send
deriving DecidableEq

/-- The envelope in the form it will be written. -/
structure PreparedEnvelope where
  mailFrom : String
  recipients : List String
  utf8 : Utf8Parameter
  receipt : Option Receipt
  chunking : Advertised
deriving DecidableEq

def isAscii (text : String) : Bool := text.toList.all fun c => c.toNat < 0x80

/-- Names that are ASCII already, which IDNA only puts in lower case. -/
abbrev Idna.ascii : Idna :=
  ⟨fun domain =>
    if isAscii domain then some (String.ofList (domain.toList.map Char.toLower)) else none⟩

def splitMailbox (addr : String) : Option (String × String) :=
  let reversed := addr.toList.reverse
  if '@' ∈ addr.toList then
    some (String.ofList ((reversed.dropWhile (· ≠ '@')).drop 1).reverse,
      String.ofList (reversed.takeWhile (· ≠ '@')).reverse)
  else none

def localPartNeedsSmtputf8 (addr : String) : ProtoError :=
  .unsupported ("SMTPUTF8, which " ++ addr ++ " needs: its local part is not ASCII")

def domainNotIdna (addr : String) : ProtoError :=
  .unsupported ("the address " ++ addr ++ ", whose domain is not valid IDNA")

section Envelope

variable [Idna]

def encodeWithoutSmtputf8 (addr : String) : Except ProtoError String :=
  match splitMailbox addr with
  | none => if isAscii addr then .ok addr else .error (localPartNeedsSmtputf8 addr)
  | some (before, domain) =>
    if !isAscii before then .error (localPartNeedsSmtputf8 addr)
    else
      match Idna.domainToAscii domain with
      | some ascii => .ok (before ++ "@" ++ ascii)
      | none => .error (domainNotIdna addr)

def dsnToSend (ext : EhloExtensions) (receipt : Option Receipt) : Option Receipt :=
  if ext.dsn = .offered then receipt else none

def envelopeIsAscii (mailFrom : String) (recipients : List String) : Bool :=
  isAscii mailFrom && recipients.all isAscii

def prepareEnvelope (ext : EhloExtensions) (mailFrom : String) (recipients : List String)
    (receipt : Option Receipt) : Except ProtoError PreparedEnvelope :=
  let receipt := dsnToSend ext receipt
  let chunking := ext.chunking
  if !envelopeIsAscii mailFrom recipients && ext.smtputf8 ≠ .offered then
    match encodeWithoutSmtputf8 mailFrom with
    | .error error => .error error
    | .ok mailFrom =>
      (recipients.mapM encodeWithoutSmtputf8).map fun recipients =>
        ⟨mailFrom, recipients, .omit, receipt, chunking⟩
  else
    let utf8 := if envelopeIsAscii mailFrom recipients then Utf8Parameter.omit else .send
    .ok ⟨mailFrom, recipients, utf8, receipt, chunking⟩

end Envelope

def isXchar (byte : UInt8) : Bool :=
  0x21 ≤ byte && byte ≤ 0x7E && byte ≠ 43 && byte ≠ 61

def hexDigit (value : Nat) : Char := ("0123456789ABCDEF".toList[value % 16]?).getD '0'

/-- The bytes that may stand in a parameter pass; every other is a plus sign and two digits. -/
def xtext (bytes : Bytes) : List Char :=
  bytes.flatMap fun byte =>
    if isXchar byte then [Char.ofNat byte.toNat]
    else ['+', hexDigit (byte.toNat / 16), hexDigit (byte.toNat % 16)]

def retParameter : Return → String
  | .headers => "RET=HDRS"
  | .full => "RET=FULL"

def notifyParameter (notify : Notify) : String :=
  match notify with
  | .never => "NOTIFY=NEVER"
  | .on success failure delay =>
    let events := (if success then ["SUCCESS"] else []) ++
      (if failure then ["FAILURE"] else []) ++ (if delay then ["DELAY"] else [])
    if events.isEmpty then "NOTIFY=NEVER" else "NOTIFY=" ++ String.intercalate "," events

def mailFromCommand (envelope : PreparedEnvelope) (message : Bytes) : String :=
  "MAIL FROM:<" ++ envelope.mailFrom ++ ">" ++
    (if hasHighBit message then " BODY=8BITMIME" else "") ++
    (if envelope.utf8 = .send then " SMTPUTF8" else "") ++
    match envelope.receipt with
    | none => ""
    | some receipt => " " ++ retParameter receipt.ret ++
        match receipt.envid with
        | none => ""
        | some envid => " ENVID=" ++ String.ofList (xtext (wire envid))

def rcptCommand (envelope : PreparedEnvelope) (addr : String) : String :=
  "RCPT TO:<" ++ addr ++ ">" ++
    match envelope.receipt with
    | none => ""
    | some receipt => " " ++ notifyParameter receipt.notify ++
        if isAscii addr then " ORCPT=rfc822;" ++ String.ofList (xtext (wire addr)) else ""

def compatible (mech : SaslMech) (cred : Credential) : Bool :=
  match mech, cred with
  | .plain, .password _ | .login, .password _ | .xOauth2, .oAuth _ _ => true
  | _, _ => false

def mechLabel : SaslMech → String
  | .plain => "PLAIN"
  | .login => "LOGIN"
  | .xOauth2 => "XOAUTH2"

def chooseMech (offered wanted : List SaslMech) (cred : Credential) : Except ProtoError SaslMech :=
  let acceptable := wanted.filter fun mech => compatible mech cred
  if acceptable.isEmpty then
    .error (.unsupported "AUTH PLAIN, AUTH LOGIN, or AUTH XOAUTH2 for this credential")
  else
    match acceptable.find? fun mech => offered.contains mech with
    | some mech => .ok mech
    | none =>
      let list :=
        if offered.isEmpty then "nothing" else String.intercalate ", " (offered.map mechLabel)
      .error (.unsupported ("a compatible AUTH mechanism (server offered " ++ list ++ ")"))

def password : Credential → Except ProtoError String
  | .password pass => .ok pass
  | .oAuth _ _ => .error (.unsupported "a password mechanism with an OAuth credential")
  | .apiKey _ | .keyPair _ => .error (.unsupported "an API key is not a sign-in credential")
  | .bearer _ => .error (.unsupported "a bearer token signs in to JMAP only, not SMTP")
  | .other => .error (.unsupported "a credential of a kind this build does not know")

def accessToken : Credential → Except ProtoError String
  | .oAuth access _ => .ok access
  | .password _ => .error (.unsupported "XOAUTH2 with a password credential")
  | .apiKey _ | .keyPair _ => .error (.unsupported "an API key is not a sign-in credential")
  | .bearer _ => .error (.unsupported "a bearer token signs in to JMAP only, not SMTP")
  | .other => .error (.unsupported "a credential of a kind this build does not know")

def b64 (bytes : Bytes) : String := String.ofList (Base64.encode bytes)

def plainRaw (user pass : String) : Bytes := 0 :: wire user ++ 0 :: wire pass

def xoauth2Raw (user token : String) : Bytes :=
  wire "user=" ++ wire user ++ 1 :: wire "auth=Bearer " ++ wire token ++ [1, 1]

def isAsciiControl (byte : UInt8) : Bool := byte < 32 || byte = 127

def isToken (value : String) : Bool :=
  value ≠ "" && !(wire value).any fun byte => Utf8.isAsciiWhitespace byte || isAsciiControl byte

def isMailbox (value : String) : Bool :=
  value ≠ "" && !(wire value).any fun byte =>
    byte = 13 || byte = 10 || byte = 0 || byte = 60 || byte = 62 || byte = 32

def hasBreak (value : String) : Bool :=
  (wire value).any fun byte => byte = 13 || byte = 10 || byte = 0

def invalid (why : String) : Except ProtoError Unit := .error (.refused .permanent why)

def validate (sub : Submission) : Except ProtoError Unit :=
  if !isToken sub.ehlo then invalid "EHLO name is empty or contains whitespace"
  else if !isToken sub.host then invalid "SMTP host is empty or contains whitespace"
  else if !isMailbox sub.mailFrom then invalid "mail from is empty or contains a line break"
  else if sub.recipients.isEmpty then invalid "no recipients"
  else if sub.recipients.any fun addr => !isMailbox addr then
    invalid "a recipient is empty or contains a line break"
  else
    match sub.auth with
    | .relayed => .ok ()
    | .signIn signIn =>
      if signIn.username = "" || hasBreak signIn.username then
        invalid "username is empty or contains a line break"
      else
        match signIn.credential with
        | .password pass =>
          if (wire pass).contains 0 then invalid "password contains NUL" else .ok ()
        | .oAuth access _ =>
          if access = "" || (wire access).contains 0 then
            invalid "access token is empty or contains NUL"
          else .ok ()
        | _ => .ok ()

/-- Every secret a server could echo, in each form it is sent in. -/
def secretStrings (sub : Submission) : List String :=
  match sub.auth with
  | .relayed => []
  | .signIn signIn =>
    match signIn.credential with
    | .password pass =>
      if pass = "" then []
      else [pass, b64 (plainRaw signIn.username pass), b64 (wire pass)]
    | .oAuth access refresh =>
      (if access = "" then [] else [access]) ++ (if refresh = "" then [] else [refresh]) ++
        (if access = "" then []
          else [b64 (xoauth2Raw signIn.username access), b64 (wire access)]) ++
        if refresh = "" then [] else [b64 (wire refresh)]
    | .apiKey key => if key = "" then [] else [key]
    | .bearer token => if token = "" then [] else [token]
    | .keyPair secret => if secret = "" then [] else [secret]
    | .other => []

def replaceFrom (pattern replacement : List Char) : Nat → List Char → List Char
  | 0, text => text
  | _ + 1, [] => []
  | fuel + 1, c :: text =>
    match Text.stripPrefix pattern (c :: text) with
    | some rest => replacement ++ replaceFrom pattern replacement fuel rest
    | none => c :: replaceFrom pattern replacement fuel text

def redact (text secret : String) : String :=
  if secret = "" then text
  else String.ofList
    (replaceFrom secret.toList "<redacted>".toList text.toList.length text.toList)

def scrubText (text : String) (sub : Submission) : String :=
  let secrets := (secretStrings sub).insertionSort fun a b =>
    b.utf8ByteSize ≤ a.utf8ByteSize
  (secrets.destutter (· ≠ ·)).foldl redact text

def scrubError (error : ProtoError) (sub : Submission) : ProtoError :=
  match error with
  | .malformed text => .malformed (scrubText text sub)
  | .refused kind text => .refused kind (scrubText text sub)
  | .authRejected text => .authRejected (scrubText text sub)
  | .unsupported text => .unsupported (scrubText text sub)
  | .throttled reason retryAfter => .throttled (scrubText reason sub) retryAfter
  | .unexpectedEof => .unexpectedEof

end Mailo.Proto.Smtp
