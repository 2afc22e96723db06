import Mailo.Proto.Smtp.Submission

/-!
# An SMTP session

One message, then `QUIT`, or a connection left open for the next. A reply goes in, and the next
command or the end comes out: the session takes one reply at a time, and commands are not
pipelined.
-/

namespace Mailo.Proto.Smtp

open Domain Library

def maxReply : Nat := 64 * 1024

/-- A complete reply, reduced to its code and text. -/
structure ReplyText where
  code : Nat
  text : String
deriving DecidableEq

/-- The server accepted the message. -/
structure SmtpReply where
  extensions : EhloExtensions
  mechanism : Option SaslMech
  accepted : ReplyText
  /-- The reply to `QUIT`; none when the connection closed, or stays open. -/
  closing : Option ReplyText
deriving DecidableEq

/-- One wait: for the reply to what was just sent, or for TLS. -/
inductive Phase where
  | greeting
  | ehlo
  | startTls
  | awaitTls
  | ehloAfterTls
  | authPlain
  | authPlainSent
  | authLoginUser
  | authLoginPass
  | authLoginSent
  | authXoauth2
  | authXoauth2Sent
  | mailFrom
  /-- For the reply to the recipient at `index`. -/
  | rcpt (index : Nat)
  | data
  | body
  | bdat
  /-- For the reply to `QUIT`; the acceptance must survive a rude close. -/
  | quit (accepted : ReplyText)
  /-- On a connection an earlier session left open. -/
  | resumed
  | finished
deriving DecidableEq

/-- What a session that left its connection open knows of the server. -/
structure Open where
  extensions : EhloExtensions
  mechanism : Option SaslMech
deriving DecidableEq

structure SmtpSession where
  submission : Submission
  phase : Phase
  buf : Bytes
  extensions : EhloExtensions
  mechanism : Option SaslMech
  /-- Whether the connection stays open once the message is accepted. -/
  stays : Bool
  /-- Decided at the `EHLO` that precedes signing in. -/
  envelope : Option PreparedEnvelope
deriving DecidableEq

/-! ## Replies -/

structure ServerReply where
  code : Nat
  lines : List String
deriving DecidableEq

structure ParsedLine where
  code : Nat
  last : Bool
  text : String
deriving DecidableEq

inductive ReplyClass where
  | success | intermediate | transient | permanent
deriving DecidableEq

def classify (code : Nat) : Option ReplyClass :=
  if code / 100 = 2 then some .success
  else if code / 100 = 3 then some .intermediate
  else if code / 100 = 4 then some .transient
  else if code / 100 = 5 then some .permanent
  else none

def isSuccess (code : Nat) : Bool := classify code = some .success

/-- The first sixty characters of a line, its control characters as spaces. -/
def preview (line : Bytes) : String :=
  let shown := Utf8.decodeLossy line
  String.ofList (((shown.take 60).map fun c => if Text.isControl c then ' ' else c) ++
    if shown.length > 60 then ['…'] else [])

def statusCode : Bytes → Option Nat
  | a :: b :: c :: _ =>
    if Utf8.isAsciiDigit a && Utf8.isAsciiDigit b && Utf8.isAsciiDigit c then
      some ((a.toNat - 48) * 100 + (b.toNat - 48) * 10 + (c.toNat - 48))
    else none
  | _ => none

def parseLine (line : Bytes) : Except ProtoError ParsedLine :=
  match statusCode line with
  | none => .error (.malformed ("not a reply line: " ++ preview line))
  | some code =>
    match line.drop 3 with
    | [] => .ok ⟨code, true, ""⟩
    | separator :: rest =>
      match Utf8.decode rest with
      | none => .error (.malformed "reply line is not utf-8")
      | some text =>
        if separator = 32 then .ok ⟨code, true, String.ofList text⟩
        else if separator = 45 then .ok ⟨code, false, String.ofList text⟩
        else .error (.malformed ("bad reply separator: " ++ preview line))

/-- The lines of one reply, up to the one that ends it, and the bytes after it; `fuel` above the
number of bytes is enough. -/
def takeLines (expected : Option Nat) (lines : List String) :
    Nat → Bytes → Except ProtoError (Option (ServerReply × Bytes))
  | 0, _ => .ok none
  | fuel + 1, buf =>
    match Crlf.split buf with
    | none => .ok none
    | some (line, rest) =>
      match parseLine line with
      | .error error => .error error
      | .ok parsed =>
        if expected.any (· ≠ parsed.code) then
          .error (.malformed ("reply code changed from " ++ toString (expected.getD 0) ++
            " to " ++ toString parsed.code))
        else if parsed.last then .ok (some (⟨parsed.code, lines ++ [parsed.text]⟩, rest))
        else takeLines (some parsed.code) (lines ++ [parsed.text]) fuel rest

def takeReply (buf : Bytes) : Except ProtoError (Option (ServerReply × Bytes)) :=
  takeLines none [] (buf.length + 1) buf

def showReply (reply : ServerReply) : String :=
  let text := String.intercalate " | " (reply.lines.filter (· ≠ ""))
  if text = "" then toString reply.code else toString reply.code ++ " " ++ text

def replyText (reply : ServerReply) : ReplyText :=
  ⟨reply.code, String.intercalate "\n" reply.lines⟩

def refusal (reply : ServerReply) : ProtoError :=
  if reply.code = 421 then .throttled (showReply reply) none
  else
    match classify reply.code with
    | some .transient => .refused .transient (showReply reply)
    | _ => .refused .permanent (showReply reply)

def expectSuccess (reply : ServerReply) : Except ProtoError Unit :=
  match classify reply.code with
  | some .success => .ok ()
  | some .transient | some .permanent => .error (refusal reply)
  | _ => .error (.malformed ("expected a completion reply, got " ++ showReply reply))

def expectIntermediate (reply : ServerReply) : Except ProtoError Unit :=
  match classify reply.code with
  | some .intermediate => .ok ()
  | some .transient | some .permanent => .error (refusal reply)
  | _ => .error (.malformed ("expected an intermediate reply, got " ++ showReply reply))

def authNegative (reply : ServerReply) : ProtoError :=
  match classify reply.code with
  | some .transient => refusal reply
  | some .permanent => .authRejected (showReply reply)
  | _ => .authRejected ("rejected challenge " ++ showReply reply)

def toAsciiUppercase (text : List Char) : List Char := text.map Char.toUpper

def parseMech (raw : List Char) : Option SaslMech :=
  let upper := toAsciiUppercase raw
  if upper = "PLAIN".toList then some .plain
  else if upper = "LOGIN".toList then some .login
  else if upper = "XOAUTH2".toList then some .xOauth2
  else none

def pushMech (auth : List SaslMech) (raw : List Char) : List SaslMech :=
  match parseMech raw with
  | some mech => if auth.contains mech then auth else auth ++ [mech]
  | none => auth

def sizeLimit (parts : List (List Char)) : SizeLimit :=
  match parts with
  | [] => .unlimited
  | number :: _ =>
    match Text.parseUnsigned (2 ^ 64) number with
    | some limit => .limited limit
    | none => .unlimited

def applyEhloLine (ext : EhloExtensions) (line : String) : EhloExtensions :=
  match Text.splitWhitespace line.toList with
  | [] => ext
  | raw :: parts =>
    let keyword := toAsciiUppercase raw
    match Text.stripPrefix "AUTH=".toList keyword with
    | some mech => { ext with auth := parts.foldl pushMech (pushMech ext.auth mech) }
    | none =>
      if keyword = "AUTH".toList then { ext with auth := parts.foldl pushMech ext.auth }
      else if keyword = "STARTTLS".toList then { ext with starttls := .offered }
      else if keyword = "8BITMIME".toList then { ext with eightBitMime := .offered }
      else if keyword = "SMTPUTF8".toList then { ext with smtputf8 := .offered }
      else if keyword = "DSN".toList then { ext with dsn := .offered }
      else if keyword = "CHUNKING".toList then { ext with chunking := .offered }
      else if keyword = "SIZE".toList then { ext with size := sizeLimit parts }
      else ext

def parseEhlo (reply : ServerReply) : EhloExtensions :=
  reply.lines.foldl applyEhloLine .none

/-! ## The step -/

inductive Outcome where
  | continue (next : Phase) (mechanism : Option SaslMech) (needs : List IoNeed)
      (envelope : Option PreparedEnvelope)
  | done (reply : SmtpReply)
deriving DecidableEq

def continueWithEnvelope (next : Phase) (commands : List Bytes) (mechanism : Option SaslMech)
    (envelope : Option PreparedEnvelope) : Outcome :=
  .continue next mechanism (commands.map IoNeed.write ++ [.read]) envelope

def continueWith (next : Phase) (commands : List Bytes) (mechanism : Option SaslMech) : Outcome :=
  continueWithEnvelope next commands mechanism none

def requireEnvelope (envelope : Option PreparedEnvelope) : Except ProtoError PreparedEnvelope :=
  match envelope with
  | some envelope => .ok envelope
  | none => .error (.malformed "envelope was not prepared before MAIL FROM")

def sendMailFrom (sub : Submission) (envelope : Option PreparedEnvelope) :
    Except ProtoError Outcome :=
  (requireEnvelope envelope).map fun envelope =>
    continueWith .mailFrom [cmd (mailFromCommand envelope sub.message)] none

def sendRcpt (envelope : PreparedEnvelope) (index : Nat) : Except ProtoError Outcome :=
  match envelope.recipients[index]? with
  | none => .error (.refused .permanent "no recipients")
  | some addr => .ok (continueWith (.rcpt index) [cmd (rcptCommand envelope addr)] none)

def sendBody (envelope : PreparedEnvelope) (message : Bytes) : Outcome :=
  if envelope.chunking = .offered then continueWith .bdat (bdatWrites message) none
  else continueWith .data [cmd "DATA"] none

def authCommand (mech : SaslMech) (signIn : SignIn) : Except ProtoError (Phase × Bytes) :=
  match mech with
  | .plain =>
    (password signIn.credential).map fun pass =>
      (.authPlain, cmd ("AUTH PLAIN " ++ b64 (plainRaw signIn.username pass)))
  | .login => .ok (.authLoginUser, cmd "AUTH LOGIN")
  | .xOauth2 =>
    (accessToken signIn.credential).map fun token =>
      (.authXoauth2, cmd ("AUTH XOAUTH2 " ++ b64 (xoauth2Raw signIn.username token)))

def onGreeting (reply : ServerReply) (sub : Submission) : Except ProtoError Outcome :=
  (expectSuccess reply).map fun _ => continueWith .ehlo [ehloCmd sub.ehlo] none

def upgrades (phase : Phase) (sub : Submission) : Bool :=
  sub.tls = .startTlsRequired && phase ≠ .ehloAfterTls && !sub.auth.isRelayed

section Step

variable [Idna]

/-- The submitting `EHLO`: the message and the envelope are checked before anything is sent. -/
def submits (sub : Submission) (ext : EhloExtensions) : Except ProtoError Outcome :=
  match checkTransfer ext sub.message with
  | .error error => .error error
  | .ok () =>
    match prepareEnvelope ext sub.mailFrom sub.recipients sub.receipt with
    | .error error => .error error
    | .ok envelope =>
      match sub.auth with
      | .relayed =>
        .ok (continueWithEnvelope .mailFrom [cmd (mailFromCommand envelope sub.message)]
          none (some envelope))
      | .signIn signIn =>
        match chooseMech ext.auth signIn.sasl signIn.credential with
        | .error error => .error error
        | .ok mech =>
          (authCommand mech signIn).map fun command =>
            continueWithEnvelope command.1 [command.2] (some mech) (some envelope)

def onEhlo (phase : Phase) (reply : ServerReply) (sub : Submission) (ext : EhloExtensions) :
    Except ProtoError Outcome :=
  match expectSuccess reply with
  | .error error => .error error
  | .ok () =>
    if upgrades phase sub then
      if ext.starttls ≠ .offered then .error (.unsupported "STARTTLS")
      else .ok (continueWith .startTls [cmd "STARTTLS"] none)
    else submits sub ext

def onStartTls (reply : ServerReply) (sub : Submission) : Except ProtoError Outcome :=
  (expectSuccess reply).map fun _ =>
    .continue .awaitTls none [.openTls sub.host sub.port sub.tls] none

def finishAuth (reply : ServerReply) (sub : Submission) (envelope : Option PreparedEnvelope) :
    Except ProtoError Outcome :=
  if isSuccess reply.code then sendMailFrom sub envelope else .error (authNegative reply)

/-- The next message of an exchange that signs in, and the reply it is the answer to. -/
def challenge (reply : ServerReply) (next : Phase) (text : Except ProtoError String) :
    Except ProtoError Outcome :=
  if reply.code ≠ 334 then .error (authNegative reply)
  else text.map fun text => continueWith next [cmd text] none

def onAuth (phase : Phase) (reply : ServerReply) (sub : Submission)
    (envelope : Option PreparedEnvelope) : Except ProtoError Outcome :=
  match sub.auth with
  | .relayed => .error (.malformed "authentication reply on a relayed session")
  | .signIn signIn =>
    match phase with
    | .authPlain =>
      if reply.code = 334 then
        (password signIn.credential).map fun pass =>
          continueWith .authPlainSent [cmd (b64 (plainRaw signIn.username pass))] none
      else finishAuth reply sub envelope
    | .authPlainSent => finishAuth reply sub envelope
    | .authXoauth2 =>
      -- The token was rejected: an empty line, and the refusal follows.
      if reply.code = 334 then .ok (continueWith .authXoauth2Sent [cmd ""] none)
      else finishAuth reply sub envelope
    | .authXoauth2Sent => finishAuth reply sub envelope
    | .authLoginUser => challenge reply .authLoginPass (.ok (b64 (wire signIn.username)))
    | .authLoginPass =>
      challenge reply .authLoginSent
        ((password signIn.credential).map fun pass => b64 (wire pass))
    | .authLoginSent => finishAuth reply sub envelope
    | _ => .error (.malformed "authentication reply in a non-auth state")

def onMailFrom (reply : ServerReply) (envelope : Option PreparedEnvelope) :
    Except ProtoError Outcome :=
  match expectSuccess reply with
  | .error error => .error error
  | .ok () =>
    match requireEnvelope envelope with
    | .error error => .error error
    | .ok envelope => sendRcpt envelope 0

def onRcpt (index : Nat) (reply : ServerReply) (sub : Submission)
    (envelope : Option PreparedEnvelope) : Except ProtoError Outcome :=
  match expectSuccess reply with
  | .error error => .error error
  | .ok () =>
    match requireEnvelope envelope with
    | .error error => .error error
    | .ok envelope =>
      if index + 1 < envelope.recipients.length then sendRcpt envelope (index + 1)
      else .ok (sendBody envelope sub.message)

def onData (reply : ServerReply) (sub : Submission) : Except ProtoError Outcome :=
  (expectIntermediate reply).map fun _ => continueWith .body (dataLines sub.message) none

def onBody (reply : ServerReply) : Except ProtoError Outcome :=
  (expectSuccess reply).map fun _ => continueWith (.quit (replyText reply)) [cmd "QUIT"] none

/-- The reply to `BDAT LAST` is the acceptance, as the reply to the dot is. -/
def onBdat (reply : ServerReply) : Except ProtoError Outcome := onBody reply

/-- Any reply to `QUIT` ends the session. -/
def onQuit (accepted : ReplyText) (reply : ServerReply) (ext : EhloExtensions)
    (mech : Option SaslMech) (auth : Authentication) : Except ProtoError Outcome :=
  if mech.isNone && !auth.isRelayed then .error (.malformed "finished without authenticating")
  else .ok (.done ⟨ext, mech, accepted, some (replyText reply)⟩)

def decide (phase : Phase) (reply : ServerReply) (sub : Submission) (ext : EhloExtensions)
    (mech : Option SaslMech) (envelope : Option PreparedEnvelope) : Except ProtoError Outcome :=
  match phase with
  | .greeting => onGreeting reply sub
  | .ehlo | .ehloAfterTls => onEhlo phase reply sub ext
  | .startTls => onStartTls reply sub
  | .awaitTls => .error (.malformed "server bytes arrived while TLS was starting")
  | .authPlain | .authPlainSent | .authLoginUser | .authLoginPass | .authLoginSent
  | .authXoauth2 | .authXoauth2Sent => onAuth phase reply sub envelope
  | .mailFrom => onMailFrom reply envelope
  | .rcpt index => onRcpt index reply sub envelope
  | .data => onData reply sub
  | .body => onBody reply
  | .bdat => onBdat reply
  | .quit accepted => onQuit accepted reply ext mech sub.auth
  | .resumed => .error (.malformed "a reply before anything was sent on a resumed connection")
  | .finished => .error (.malformed "reply after the session finished")

/-! ## The session -/

abbrev Step := SmtpSession × Progress SmtpReply

namespace SmtpSession

def new (submission : Submission) : SmtpSession :=
  ⟨submission, .greeting, [], .none, none, false, none⟩

/-- A session that leaves the connection open once the server accepts the message. With `on`, the
connection is one an earlier session left so, and this one begins at `MAIL FROM`. -/
def «open» (submission : Submission) (on : Option Open) : SmtpSession :=
  let session : SmtpSession := { new submission with stays := true }
  match on with
  | none => session
  | some on =>
    { session with extensions := on.extensions, mechanism := on.mechanism, phase := .resumed }

def fail (session : SmtpSession) (error : ProtoError) : Step :=
  (session, .failed (scrubError error session.submission))

def apply (session : SmtpSession) : Outcome → Step
  | .continue next mechanism needs envelope =>
    ({ session with
        mechanism := mechanism.orElse fun _ => session.mechanism
        envelope := envelope.orElse fun _ => session.envelope
        phase := next }, .need needs)
  | .done reply => ({ session with phase := .finished }, .done reply)

def finishOk (session : SmtpSession) (accepted : ReplyText) (closing : Option ReplyText) : Step :=
  if session.mechanism.isNone && !session.submission.auth.isRelayed then
    session.fail (.malformed "finished without authenticating")
  else
    ({ session with phase := .finished },
      .done ⟨session.extensions, session.mechanism, accepted, closing⟩)

/-- What one reply does, once it is taken from the buffer. -/
def onReply (session : SmtpSession) (reply : ServerReply) : Step :=
  -- Accepted, and the connection is kept for another message: no `QUIT`.
  if session.stays && (session.phase = .body || session.phase = .bdat) then
    match expectSuccess reply with
    | .ok () => session.finishOk (replyText reply) none
    | .error error => session.fail error
  else
    let heard : SmtpSession :=
      if (session.phase = .ehlo || session.phase = .ehloAfterTls) && isSuccess reply.code then
        { session with extensions := parseEhlo reply }
      else session
    match decide heard.phase reply heard.submission heard.extensions heard.mechanism
        heard.envelope with
    | .ok outcome => heard.apply outcome
    | .error error => heard.fail error

def onBytes (session : SmtpSession) (fed : Bytes) : Step :=
  if session.phase = .awaitTls then
    session.fail (.malformed "server bytes arrived while TLS was starting")
  else if session.phase = .finished then
    session.fail (.malformed "bytes after the session finished")
  else if session.buf.length + fed.length > maxReply then
    session.fail (.malformed "reply exceeded 65536 bytes")
  else
    let held : SmtpSession := { session with buf := session.buf ++ fed }
    match takeReply held.buf with
    | .ok none => (held, .need [.read])
    | .error error => held.fail error
    | .ok (some (reply, rest)) => { held with buf := rest }.onReply reply

def onTlsOpen (session : SmtpSession) : Step :=
  if session.phase ≠ .awaitTls then session.fail (.malformed "unexpected TLS open")
  else
    -- Anything buffered was said before the upgrade.
    ({ session with buf := [], phase := .ehloAfterTls },
      .need [.write (ehloCmd session.submission.ehlo), .read])

/-- Begin on a connection an earlier session left open. -/
def resume (session : SmtpSession) : Step :=
  let sub := session.submission
  match checkTransfer session.extensions sub.message with
  | .error error => session.fail error
  | .ok () =>
    match prepareEnvelope session.extensions sub.mailFrom sub.recipients sub.receipt with
    | .error error => session.fail error
    | .ok envelope =>
      ({ session with envelope := some envelope, phase := .mailFrom },
        .need [.write (cmd (mailFromCommand envelope sub.message)), .read])

/-- The end of the connection, or of the caller's patience: an accepted message stands. -/
def onEnd (session : SmtpSession) (error : ProtoError) : Step :=
  match session.phase with
  | .quit accepted => session.finishOk accepted none
  | _ => session.fail error

def onEof (session : SmtpSession) : Step := session.onEnd .unexpectedEof

def onInterrupt (session : SmtpSession) : Step :=
  session.onEnd (.refused .permanent "submission interrupted")

def start (session : SmtpSession) : Step :=
  match validate session.submission with
  | .error error => session.fail error
  | .ok () => if session.phase = .resumed then session.resume else (session, .need [.read])

def feed (session : SmtpSession) : IoReady → Step
  | .bytes fed => session.onBytes fed
  | .eof => session.onEof
  | .tlsOpen => session.onTlsOpen
  | .woke => session.fail (.malformed "unexpected wake")
  | .interrupt => session.onInterrupt

def machine : Machine SmtpSession SmtpReply := ⟨feed, fun session => session.buf⟩

end SmtpSession

end Step

end Mailo.Proto.Smtp
