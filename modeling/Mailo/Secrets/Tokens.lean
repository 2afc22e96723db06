import Mailo.Domain.State

/-!
# Keeping an account signed in

One account's OAuth tokens, renewed in process over the secrets kept for it. The issuer's schedule
of expiry is a parameter; what the issuer answers and which reads and writes of the keyring fail
come with each operation. What was asked of the issuer and what sessions were given is recorded
beside the source.
-/

namespace Mailo.Secrets

open Domain

inductive Credential where
  | oauth (access refresh : String) (expiresAt : Option DateTime)
  | password (secret : String)
  /-- A pasted bearer, an API key, a key pair: nothing this source renews. -/
  | other (secret : String)
deriving DecidableEq, Repr

namespace Credential

def refresh? : Credential → Option String
  | .oauth _ refresh _ => some refresh
  | _ => none

def accessOf : Credential → Option String
  | .oauth access _ _ => some access
  | _ => none

end Credential

inductive SecretPurpose where
  | incomingPassword | outgoingPassword | oauthRefresh
deriving DecidableEq, Repr

structure Keyring where
  incomingPassword : Option Credential
  outgoingPassword : Option Credential
  oauthRefresh : Option Credential
deriving DecidableEq, Repr

namespace Keyring

def entry (keyring : Keyring) : SecretPurpose → Option Credential
  | .incomingPassword => keyring.incomingPassword
  | .outgoingPassword => keyring.outgoingPassword
  | .oauthRefresh => keyring.oauthRefresh

def keep (keyring : Keyring) (credential : Credential) : SecretPurpose → Keyring
  | .incomingPassword => { keyring with incomingPassword := some credential }
  | .outgoingPassword => { keyring with outgoingPassword := some credential }
  | .oauthRefresh => { keyring with oauthRefresh := some credential }

end Keyring

inductive SecretsFault where
  | missing | unreadable | locked | unavailable | unknown
deriving DecidableEq, Repr

/-- Why the store does not answer a read of what it holds. -/
inductive Silence where
  | locked | unavailable | unknown
deriving DecidableEq, Repr

def Silence.fault : Silence → SecretsFault
  | .locked => .locked
  | .unavailable => .unavailable
  | .unknown => .unknown

inductive CredentialError where
  | secrets (fault : SecretsFault)
  /-- A refusal in words: the issuer's, or this source's. -/
  | said (text : String)
  /-- The issuer, or the way to it, did not answer. -/
  | connect (text : String)
deriving DecidableEq, Repr

inductive SecretTrouble where
  | absent
  | unreachable (why : String)
deriving DecidableEq, Repr

/-- What a failure to read a secret asks of the person. -/
def SecretTrouble.of : CredentialError → SecretTrouble
  | .secrets .locked => .unreachable "the keyring is locked"
  | .secrets .unavailable => .unreachable "the keyring is not reachable"
  | .secrets .unknown => .unreachable "the keyring gave an answer this build does not know"
  | _ => .absent

/-- What an error says; a fault of the store's own says which it is. -/
def CredentialError.text : CredentialError → String
  | .secrets fault => "secret store: " ++ reprStr fault
  | .said text => "secret store: " ++ text
  | .connect text => "cannot connect: " ++ text

def CredentialError.needsReauth : CredentialError → Bool
  | .connect _ => false
  | error => SecretTrouble.of error = .absent

inductive Token where
  | incoming | sending
deriving DecidableEq, Repr

inductive AfterRefusal where
  | tryAgain | stillRefused | notRenewable
deriving DecidableEq, Repr

/-- Whether an account reads, or sends, through Graph. -/
inductive Through where
  | graph | otherwise
deriving DecidableEq, Repr

inductive GraphReach where
  | send | readAndSend
deriving DecidableEq, Repr

def GraphReach.scopes : GraphReach → List String
  | .send => ["https://graph.microsoft.com/Mail.Send", "offline_access"]
  | .readAndSend => ["https://graph.microsoft.com/Mail.ReadWrite",
      "https://graph.microsoft.com/Mail.Send", "offline_access"]

structure Account where
  address : String
  incomingScopes : List String
  outgoing : Through
  incoming : Through
  /-- Whether a token that expires then is due now. -/
  isDue : Option DateTime → DateTime → Bool

namespace Account

/-- The token an account actually has: Graph's own only where Graph is used. -/
def which (account : Account) (token : Token) : Token :=
  match token, account.incoming, account.outgoing with
  | _, .graph, _ => .sending
  | .sending, _, .graph => .sending
  | _, _, _ => .incoming

def reach (account : Account) : GraphReach :=
  match account.incoming with
  | .graph => .readAndSend
  | .otherwise => .send

def dueRefresh (account : Account) (now : DateTime) : Credential → Option String
  | .oauth _ refresh expiresAt => if account.isDue expiresAt now then some refresh else none
  | _ => none

end Account

inductive Issued where
  | tokens (access : String) (refresh : Option String) (expiresAt : Option DateTime)
  | refused (text : String)
  | unreachable (text : String)
deriving DecidableEq, Repr

structure Ask where
  token : Token
  presented : String
  scopes : List String
  answer : Issued
deriving DecidableEq, Repr

/-- What was already spent, so that nothing becomes a loop. -/
structure Spent where
  incoming : Option String
  sending : Option String
  refusedIncoming : Option String
  refusedSending : Option String
deriving DecidableEq, Repr

namespace Spent

def on (spent : Spent) : Token → Option String
  | .incoming => spent.incoming
  | .sending => spent.sending

def refusal (spent : Spent) : Token → Option String
  | .incoming => spent.refusedIncoming
  | .sending => spent.refusedSending

def spend (spent : Spent) (access : Option String) : Token → Spent
  | .incoming => { spent with incoming := access }
  | .sending => { spent with sending := access }

def refuse (spent : Spent) (why : String) : Token → Spent
  | .incoming => { spent with refusedIncoming := some why }
  | .sending => { spent with refusedSending := some why }

end Spent

structure OAuthTokens where
  keyring : Keyring
  held : Credential
  spent : Spent
  /-- What was asked of the issuer, the latest first. -/
  asks : List Ask
  /-- The access tokens sessions were given. -/
  given : List (Token × String)
  /-- The access tokens minted because one was refused. -/
  minted : List (Token × String)
  /-- The refused access tokens answered with `stillRefused`. -/
  stillRefused : List (Token × String)
deriving DecidableEq, Repr

structure Weather where
  now : DateTime
  answer : Issued
  /-- The store does not answer for the outgoing entry, for it again, or for the sign-in. -/
  kept : Option Silence
  keptAgain : Option Silence
  signIn : Option Silence
  writes : SecretPurpose → Option SecretsFault

/-- What an operation comes to, and the source after it. -/
abbrev Outcome (α : Type) := Except CredentialError α × OAuthTokens

/-- One operation after another, the first error ending both. -/
def Outcome.andThen {α β : Type} (outcome : Outcome α) (next : α → OAuthTokens → Outcome β) :
    Outcome β :=
  match outcome with
  | (.ok value, source) => next value source
  | (.error error, source) => (.error error, source)

@[simp] theorem Outcome.andThen_ok {α β : Type} (value : α) (source : OAuthTokens)
    (next : α → OAuthTokens → Outcome β) :
    Outcome.andThen (.ok value, source) next = next value source := rfl

@[simp] theorem Outcome.andThen_error {α β : Type} (error : CredentialError)
    (source : OAuthTokens) (next : α → OAuthTokens → Outcome β) :
    Outcome.andThen (.error error, source) next = (.error error, source) := rfl

namespace OAuthTokens

def get (source : OAuthTokens) (silence : Option Silence) (purpose : SecretPurpose) :
    Except CredentialError Credential :=
  match silence with
  | some silence => .error (.secrets silence.fault)
  | none =>
    match source.keyring.entry purpose with
    | some credential => .ok credential
    | none => .error (.secrets .missing)

def put (source : OAuthTokens) (weather : Weather) (credential : Credential)
    (purpose : SecretPurpose) : Outcome Unit :=
  match weather.writes purpose with
  | some fault => (.error (.secrets fault), source)
  | none => (.ok (), { source with keyring := source.keyring.keep credential purpose })

/-- A credential kept under some entries, in order; the first that fails ends it. -/
def putAll (weather : Weather) (credential : Credential) :
    List SecretPurpose → OAuthTokens → Outcome Credential
  | [], source => (.ok credential, source)
  | purpose :: rest, source =>
    (source.put weather credential purpose).andThen fun _ => putAll weather credential rest

/-- Spend a refresh token on a new access token. The refresh token is carried through when the
issuer does not rotate it. -/
def refresh (source : OAuthTokens) (weather : Weather) (token : Token) (presented : String)
    (scopes : List String) : Outcome Credential :=
  let asked := { source with asks := ⟨token, presented, scopes, weather.answer⟩ :: source.asks }
  match weather.answer with
  | .tokens access rotated expiresAt =>
    (.ok (.oauth access (rotated.getD presented) expiresAt), asked)
  | .refused text =>
    (.error (.said ("the issuer could not renew the sign-in: the issuer refused it" ++ text)),
      asked)
  | .unreachable text =>
    (.error (.connect ("the issuer could not renew the sign-in: " ++ text)), asked)

/-- The entries a renewed token is kept under: both the sign-in was stored under, or Graph's. -/
def entries : Token → List SecretPurpose
  | .incoming => [.incomingPassword, .oauthRefresh]
  | .sending => [.outgoingPassword]

def renewIncoming (source : OAuthTokens) (account : Account) (weather : Weather)
    (presented : String) : Outcome Credential :=
  (source.refresh weather .incoming presented account.incomingScopes).andThen fun renewed =>
    putAll weather renewed (entries .incoming)

def mintGraph (source : OAuthTokens) (account : Account) (weather : Weather)
    (presented : String) : Outcome Credential :=
  (source.refresh weather .sending presented account.reach.scopes).andThen fun minted =>
    putAll weather minted (entries .sending)

def keptGraph (source : OAuthTokens) (silence : Option Silence) :
    Except CredentialError (Option Credential) :=
  match source.get silence .outgoingPassword with
  | .ok held => .ok (some held)
  | .error why =>
    match SecretTrouble.of why with
    | .absent => .ok none
    | .unreachable _ => .error why

def signInRefresh (source : OAuthTokens) (weather : Weather) : Except CredentialError String :=
  match source.get weather.signIn .oauthRefresh with
  | .error error => .error error
  | .ok (.oauth _ refresh _) => .ok refresh
  | .ok _ => .error (.said "sending through Graph needs a Microsoft sign-in")

/-- The refresh token a new Graph token is minted from: the Graph token's own, or the sign-in's. -/
def graphRefresh (source : OAuthTokens) (weather : Weather) (silence : Option Silence) :
    Except CredentialError String :=
  match source.keptGraph silence with
  | .error error => .error error
  | .ok (some (.oauth _ refresh _)) => .ok refresh
  | .ok _ => source.signInRefresh weather

def graphToken (source : OAuthTokens) (account : Account) (weather : Weather) :
    Outcome Credential :=
  match source.keptGraph weather.kept with
  | .error error => (.error error, source)
  | .ok (some (.oauth access refresh expiresAt)) =>
    match account.dueRefresh weather.now (.oauth access refresh expiresAt) with
    | none => (.ok (.oauth access refresh expiresAt), source)
    | some presented => source.mintGraph account weather presented
  | .ok _ =>
    match source.signInRefresh weather with
    | .error error => (.error error, source)
    | .ok presented => source.mintGraph account weather presented

/-- Remember an issuer's refusal, and say it the way the user can act on. -/
def judge (account : Account) (token : Token) (outcome : Outcome Credential) :
    Outcome Credential :=
  match outcome with
  | (.ok credential, source) => (.ok credential, source)
  | (.error error, source) =>
    if error.needsReauth then
      let why := error.text ++ ". Sign in again with: mailo account add " ++ account.address
      (.error (.said why), { source with spent := source.spent.refuse why token })
    else (.error error, source)

/-- The refusal already heard for a token, if there was one, so it is not asked again. -/
def refused (source : OAuthTokens) (token : Token) : Except CredentialError Unit :=
  match source.spent.refusal token with
  | some why => .error (.said why)
  | none => .ok ()

def incoming (source : OAuthTokens) (account : Account) (weather : Weather)
    (presented : String) : Outcome Credential :=
  (judge account .incoming (source.renewIncoming account weather presented)).andThen
    fun renewed source => (.ok renewed, { source with held := renewed })

def aheadOf (source : OAuthTokens) (account : Account) (weather : Weather) (token : Token) :
    Outcome Unit :=
  let token := account.which token
  match source.refused token with
  | .error error => (.error error, source)
  | .ok () =>
    match token with
    | .incoming =>
      match account.dueRefresh weather.now source.held with
      | none => (.ok (), source)
      | some presented =>
        (source.incoming account weather presented).andThen fun _ source => (.ok (), source)
    | .sending =>
      (judge account .sending (source.graphToken account weather)).andThen
        fun _ source => (.ok (), source)

def mintedFor (source : OAuthTokens) (token : Token) (credential : Credential) : OAuthTokens :=
  { source with
    spent := source.spent.spend credential.accessOf token
    minted := source.minted ++ (credential.accessOf.map fun access => (token, access)).toList }

/-- A server refused a token: renew it once, unless this source already has. -/
def afterRefused (source : OAuthTokens) (account : Account) (weather : Weather) (token : Token) :
    Outcome AfterRefusal :=
  let token := account.which token
  match source.refused token with
  | .error error => (.error error, source)
  | .ok () =>
    match token with
    | .incoming =>
      match source.held with
      | .oauth access presented _ =>
        if source.spent.incoming = some access then (.ok .stillRefused, source)
        else
          (source.incoming account weather presented).andThen fun renewed source =>
            (.ok .tryAgain, source.mintedFor .incoming renewed)
      | _ => (.ok .notRenewable, source)
    | .sending =>
      match source.keptGraph weather.kept with
      | .error error => (.error error, source)
      | .ok held =>
        if (held.bind Credential.accessOf).any fun access =>
            source.spent.sending = some access then
          (.ok .stillRefused, source)
        else
          match source.graphRefresh weather weather.keptAgain with
          | .error error => (.error error, source)
          | .ok presented =>
            (judge account .sending (source.mintGraph account weather presented)).andThen
              fun minted source => (.ok .tryAgain, source.mintedFor .sending minted)

def current (source : OAuthTokens) (account : Account) (token : Token) : Option Credential :=
  match account.which token with
  | .incoming => some source.held
  | .sending => source.keyring.outgoingPassword

end OAuthTokens

/-- What one session does; renewals take turns. -/
inductive Event where
  | current (token : Token)
  | ahead (token : Token) (weather : Weather)
  /-- A server refused the token a session was given. -/
  | afterRefusal (token : Token) (access : String) (weather : Weather)

def step (account : Account) (source : OAuthTokens) : Event → Option OAuthTokens
  | .current token =>
    (source.current account token).map fun credential =>
      { source with
        given := source.given ++
          (credential.accessOf.map fun access => (account.which token, access)).toList }
  | .ahead token weather => some (source.aheadOf account weather token).2
  | .afterRefusal token access weather =>
    if source.given.contains (account.which token, access) then
      match source.afterRefused account weather token with
      | (.ok .stillRefused, next) =>
        some { next with
          stillRefused := next.stillRefused ++ [(account.which token, access)] }
      | (_, next) => some next
    else none

def run (account : Account) (source : OAuthTokens) : List Event → Option OAuthTokens
  | [] => some source
  | event :: rest => (step account source event).bind fun next => run account next rest

/-- A source over a sign-in kept under both its entries, with what is kept of Graph. -/
def OAuthTokens.start (signIn : Credential) (graph : Option Credential) : OAuthTokens where
  keyring := ⟨some signIn, graph, some signIn⟩
  held := signIn
  spent := ⟨none, none, none, none⟩
  asks := []
  given := []
  minted := []
  stillRefused := []

end Mailo.Secrets
