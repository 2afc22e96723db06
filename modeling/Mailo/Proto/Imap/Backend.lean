import Mailo.Domain.Keyword
import Mailo.Proto.Imap.Session
import Mailo.Proto.Pop3.Backend

/-!
# IMAP as a backend

An operation becomes a walk of commands on one connection. A UID means something only in the
mailbox it came from, so every walk that names UIDs selects a mailbox first.
-/

namespace Mailo.Proto.Imap

open Domain Proto.Search
open Proto.Pop3 (Authenticate)

inductive Condstore where
  | absent | supported | qresync
deriving DecidableEq

def Condstore.changedsince : Condstore → Bool
  | .absent => false
  | _ => true

inductive MoveExt where
  | supported | absent
deriving DecidableEq

inductive ServerThreads where
  | providerId | jwz
deriving DecidableEq

/-- What this backend reads and learns of the capabilities. -/
structure Caps extends AccountCaps where
  condstore : Condstore
  moveExt : MoveExt
  threads : ServerThreads
deriving DecidableEq

/-- Builds a session for a walk: the credential, the mechanisms and whether to upgrade. -/
structure Factory where
  signIn : Smtp.SignIn
  starttls : Option (String × Nat)
deriving DecidableEq

namespace Factory

def mechanism (factory : Factory) : ImapCommand :=
  match factory.signIn.credential with
  | .oAuth _ _ => .authenticateXoauth2
  | _ => .login

def build (factory : Factory) (auth : Authenticate) (commands : List ImapCommand) :
    Except ProtoError Session :=
  let all :=
    match auth with
    | .first => factory.mechanism :: commands
    | .no => commands
  (Session.new factory.signIn all).map fun session =>
    match factory.starttls with
    | some (host, port) => session.withStarttls host port
    | none => session

end Factory

/-- What the backend is in the middle of. -/
inductive Job where
  | idle
  | caps
  | folders
  | envelopes (mailbox : MailboxRef)
  | flags (mailbox : MailboxRef)
  | listing (mailbox : MailboxRef)
  | resyncing (mailbox : MailboxRef) (since : Resync)
  | fetch (remotes : List RemoteRef)
  | structure (remotes : List RemoteRef)
  | sections (remote : RemoteRef)
  | applied
  | moving (remotes : List RemoteRef) (target : String)
  | copying (remotes : List RemoteRef) (target : String)
  | appending (mailbox : String)
  | watching
  | folder (work : FolderWork)
deriving DecidableEq

structure Backend where
  account : AccountId
  caps : Caps
  build : Factory
  session : Option Session
  /-- Bytes for the next upload. -/
  staged : Option Bytes
  job : Job
  /-- What the last session left its connection with. -/
  left : Option Resume
  /-- Whether the next operation goes on that connection. -/
  resuming : Bool
  goingOn : Option Resume

/-- The UIDs among some addresses, in their order. -/
def uidsOf (remotes : List RemoteRef) : List UInt32 :=
  remotes.filterMap fun remote =>
    match remote with
    | .imap _ _ uid => some uid
    | _ => none

/-- A UID set, `none` when no address is an IMAP one. -/
def uidSet (remotes : List RemoteRef) : Option String :=
  let uids := uidsOf remotes
  if uids.isEmpty then none else some (setText uids)

def mailboxPath (remotes : List RemoteRef) : String :=
  (remotes.findSome? fun remote =>
    match remote with
    | .imap mailbox _ _ => some mailbox
    | _ => none).getD "INBOX"

def sameFolder (a b : String) : Bool :=
  a = b || (Text.eqIgnoreAsciiCase a.toList "INBOX".toList &&
    Text.eqIgnoreAsciiCase b.toList "INBOX".toList)

def isIn (mailbox : String) : RemoteRef → Bool
  | .imap path _ _ => path = mailbox
  | _ => false

def selecting (mailbox : String) (access : Access) : ImapCommand := .select mailbox access none

def flagStore (set sign : String) (words : List String) : ImapCommand :=
  .uidStore set (sign ++ " (" ++ " ".intercalate words ++ ")") false

def storeSome (set sign : String) (words : List String) : List ImapCommand :=
  if words.isEmpty then [] else [flagStore set sign words]

def gmailLabel : MailboxRole → Option String
  | .inbox => some "\\Inbox"
  | .archive => none
  | .sent => some "\\Sent"
  | .drafts => some "\\Draft"
  | .trash => some "\\Trash"
  | .spam => some "\\Spam"

def roleName : MailboxRole → String
  | .inbox => "Inbox"
  | .archive => "Archive"
  | .sent => "Sent"
  | .drafts => "Drafts"
  | .trash => "Trash"
  | .spam => "Spam"

def quotedLabel (label : String) : String :=
  if label.toList.head? = some '\\' then label else String.ofList (quoted label.toList)

def labelStore (set sign : String) (labels : List String) : ImapCommand :=
  flagStore set (sign ++ "X-GM-LABELS") (labels.map quotedLabel)

def wireFlag : SystemFlag → String
  | .seen => "\\Seen"
  | .answered => "\\Answered"
  | .flagged => "\\Flagged"
  | .draft => "\\Draft"

def keywordAtom : Keyword → String
  | .mdnSent => "$MDNSent"

/-- Whether a section may be asked for: `HEADER`, or part numbers with an optional `.MIME`. -/
def isSection (section_ : Section) : Bool :=
  let text := section_.asStr.toList
  if text = "HEADER".toList then true
  else
    let numbers := if text.drop (text.length - 5) = ".MIME".toList then text.take (text.length - 5)
      else text
    !numbers.isEmpty && (numbers.splitOn '.').all isPartNumber

/-- The search that finds a draft's copies, `none` for an id no draft is given here. -/
def draftSearch (messageId : String) : Option String :=
  let id := messageId.toList
  if !id.isEmpty && id.count '@' = 1 &&
      id.all (fun c => isGraphic c && !(['"', '\\', '<', '>'].contains c))
  then some ("DRAFT HEADER Message-ID \"<" ++ messageId ++ ">\"")
  else none

def roleFolder (caps : Caps) (archive : String) (role : MailboxRole) : Option String :=
  match role with
  | .archive => some archive
  | .inbox => some ((caps.folders.path .inbox).getD "INBOX")
  | other => caps.folders.path other

def junkMarks (caps : Caps) (source : String) (role : MailboxRole) (set : String) :
    List ImapCommand :=
  let fromJunk := ((caps.folders.path .spam).map fun junk => sameFolder junk source).getD false
  let marks := fun (on off : String) =>
    [ImapCommand.uidStore set ("+FLAGS (" ++ on ++ ")") true,
      ImapCommand.uidStore set ("-FLAGS (" ++ off ++ ")") true]
  match role with
  | .spam => marks "$Junk" "$NotJunk"
  | .inbox => if fromJunk then marks "$NotJunk" "$Junk" else []
  | _ => []

def folderCommands : FolderWork → List ImapCommand
  | .create path => [.create path, .subscribe path]
  | .rename origin target => [.rename origin target]
  | .delete path .refuse => [.requireEmpty path, .delete path]
  | .delete path .allow => [.delete path]
  | .subscribe path .subscribed => [.subscribe path]
  | .subscribe path .unsubscribed => [.unsubscribe path]

def markDeleted : String := "+FLAGS.SILENT (\\Deleted)"

/-! ## Walks -/

/-- What an operation begins as. -/
inductive Begun where
  | failed (job : Option Job) (error : ProtoError)
  | applied
  | walk (job : Job) (commands : List ImapCommand)

namespace Backend

variable (backend : Backend)

def keepsKeywords : Bool := backend.caps.labels = .keywords

/-- A walk over messages that are not all addressed elsewhere. -/
def «over» (remotes : List RemoteRef) (walk : String → Begun) : Begun :=
  match uidSet remotes with
  | none => .applied
  | some set => walk set

def storeLabelKeywords (remotes : List RemoteRef) (add remove : List String) : Begun :=
  let add := add.filterMap labelKeyword
  let remove := remove.filterMap labelKeyword
  «over» remotes fun set =>
    if add.isEmpty ∧ remove.isEmpty then .applied
    else .walk .applied
      (selecting (mailboxPath remotes) .readWrite ::
        storeSome set "+FLAGS" add ++ storeSome set "-FLAGS" remove)

/-- Move a set out of a mailbox: `MOVE` where the server has it, else a copy is made. -/
def moveInto (source : String) (remotes : List RemoteRef) (set target : String)
    (marks : List ImapCommand) : Begun :=
  if sameFolder source target then .applied
  else .walk (.moving (remotes.filter (isIn source)) target)
    (selecting source .readWrite :: marks ++
      [match backend.caps.moveExt with
        | .supported => .uidMove set target
        | .absent => .uidCopy set target])

def copyInto (source : String) (remotes : List RemoteRef) (set target : String) : Begun :=
  if sameFolder source target then .applied
  else .walk (.copying (remotes.filter (isIn source)) target)
    [selecting source .readOnly, .uidCopy set target]

def imapOnly : List RemoteRef → Except RemoteRef (List (String × UInt32 × UInt32))
  | [] => .ok []
  | .imap mailbox uidvalidity uid :: remotes =>
    (imapOnly remotes).map fun held => (mailbox, uidvalidity, uid) :: held
  | remote :: _ => .error remote

/-- Delete messages for good, from Trash or Spam. -/
def destroy (describe : RemoteRef → String) (remotes : List RemoteRef) : Begun :=
  match imapOnly remotes with
  | .error remote => .failed none (.malformed (describe remote ++ " is not an IMAP address"))
  | .ok held =>
    match held with
    | [] => .applied
    | (path, uidvalidity, _) :: _ =>
      if held.any fun one => !sameFolder one.1 path || one.2.1 != uidvalidity then
        .failed none (.malformed "one deletion named UIDs from more than one mailbox")
      else
        match backend.caps.folders.role path with
        | some .trash | some .spam =>
          let set := setText (held.map fun one => one.2.2)
          .walk .applied
            [.capability, selecting path .readWrite, .requireUidValidity uidvalidity,
              .requireCapability ["UIDPLUS", "IMAP4rev2"],
              .uidStore set markDeleted false, .uidExpunge set]
        | _ =>
          .failed none (.unsupported ("deleting forever outside Trash and Spam: " ++ path ++
            " is neither, so nothing was deleted"))

section Draft

variable [TextTables]

/-- Put a draft's copy in Drafts in place of those already there, or only remove them. -/
def draftCopy (mailbox : MailboxRef) (messageId : String)
    (raw : Option Bytes) : Begun :=
  if backend.caps.folders.role mailbox.path ≠ some .drafts then
    .failed none (.unsupported ("keeping a draft outside the Drafts folder: the server does not " ++
      "list " ++ mailbox.path ++ " as Drafts, so nothing was sent"))
  else
    match draftSearch messageId with
    | none =>
      .failed none (.malformed (String.ofList (TextTables.quoted messageId.toList ++
        " is not a Message-ID this client gives a draft".toList)))
    | some criteria =>
      .walk .applied
        ([.capability, selecting mailbox.path .readWrite, .uidSearch criteria] ++
          (raw.map fun raw => ImapCommand.append mailbox.path
            ([SystemFlag.draft, .seen].map wireFlag) none raw).toList ++
          [.uidStoreFound markDeleted, .uidExpungeFound])

end Draft

/-- One `UID FETCH` over a batch. -/
def fetch (job : Job) (failing : Option Job) (remotes : List RemoteRef) (items : String) : Begun :=
  match uidSet remotes with
  | none => .failed failing (.unsupported "a POP reference cannot be fetched over IMAP")
  | some set =>
    .walk job [selecting (mailboxPath remotes) .readOnly, .uidFetch set items]

def setFlags (remotes : List RemoteRef) (read : Option ReadState) (star : Option Star) : Begun :=
  let add := (match read with | some .read => ["\\Seen"] | _ => []) ++
    (match star with | some .starred => ["\\Flagged"] | _ => [])
  let remove := (match read with | some .unread => ["\\Seen"] | _ => []) ++
    match star with
    | some .unstarred =>
      "\\Flagged" :: if backend.keepsKeywords then flagBitKeywords else []
    | _ => []
  «over» remotes fun set =>
    .walk .applied (selecting (mailboxPath remotes) .readWrite ::
      storeSome set "+FLAGS" add ++ storeSome set "-FLAGS" remove)

def setFlag (remotes : List RemoteRef) (hue : Hue) : Begun :=
  let (bits, clear) := if backend.keepsKeywords then hue.flagKeywords else ([], [])
  «over» remotes fun set =>
    .walk .applied (selecting (mailboxPath remotes) .readWrite ::
      flagStore set "+FLAGS" ("\\Flagged" :: bits) :: storeSome set "-FLAGS" clear)

def setLabels (remotes : List RemoteRef) (add remove : List String) : Begun :=
  match backend.caps.labels with
  | .keywords => storeLabelKeywords remotes add remove
  | .localOnly => .applied
  | .supported =>
    «over» remotes fun set =>
      .walk .applied (selecting (mailboxPath remotes) .readWrite ::
        (if add.isEmpty then [] else [labelStore set "+" add]) ++
        (if remove.isEmpty then [] else [labelStore set "-" remove]))

def leaveInbox (set : String) : ImapCommand := .uidStore set "-X-GM-LABELS (\\Inbox)" false

def setMailbox (remotes : List RemoteRef) (role : MailboxRole) : Begun :=
  let source := mailboxPath remotes
  «over» remotes fun set =>
    match backend.caps.archive with
    | .localOnly => .applied
    | .dropInbox =>
      .walk .applied (selecting source .readWrite ::
        (match gmailLabel role with
          | some label => [.uidStore set ("+X-GM-LABELS (" ++ label ++ ")") false]
          | none => []) ++
        (if role = .inbox then [] else [leaveInbox set]))
    | .moveToFolder archive =>
      match roleFolder backend.caps archive role with
      | none =>
        .failed none (.unsupported
          ("filing into " ++ roleName role ++ ": this server named no folder for it"))
      | some target =>
        backend.moveInto source remotes set target (junkMarks backend.caps source role set)

def file (remotes : List RemoteRef) (folder : String) : Begun :=
  let source := mailboxPath remotes
  «over» remotes fun set =>
    match backend.caps.archive with
    | .localOnly => .applied
    | .dropInbox =>
      .walk .applied [selecting source .readWrite, labelStore set "+" [folder], leaveInbox set]
    | .moveToFolder _ => backend.moveInto source remotes set folder []

def copy (remotes : List RemoteRef) (folder : String) : Begun :=
  let source := mailboxPath remotes
  «over» remotes fun set =>
    match backend.caps.archive with
    | .localOnly => .applied
    | .dropInbox => .walk .applied [selecting source .readWrite, labelStore set "+" [folder]]
    | .moveToFolder _ => copyInto source remotes set folder

def envelopeItems : String :=
  "(UID FLAGS RFC822.SIZE" ++ (if backend.caps.labels = .supported then " X-GM-LABELS" else "") ++
    (if backend.caps.threads = .providerId then " X-GM-THRID" else "") ++ ")"

def fetchEnvelopes (mailbox : MailboxRef) (since : FetchSince) : Begun :=
  let walk := fun (set : String) => Begun.walk (.envelopes mailbox)
    [selecting mailbox.path .readOnly, .uidFetch set backend.envelopeItems]
  match since with
  | .beginning => walk "1:*"
  | .after (.imap _ uidnext _) => walk (toString uidnext.toNat ++ ":*")
  | .after _ => .failed none (.malformed "only an IMAP cursor can resume an IMAP mailbox")

def fetchFlags (mailbox : MailboxRef) (sinceModseq : Option Nat) : Begun :=
  let items := match sinceModseq with
    | some modseq =>
      if backend.caps.condstore.changedsince then
        "(UID FLAGS) (CHANGEDSINCE " ++ toString modseq ++ ")"
      else "(UID FLAGS)"
    | none => "(UID FLAGS)"
  .walk (.flags mailbox) [selecting mailbox.path .readOnly, .uidFetch "1:*" items]

def listRemote (mailbox : MailboxRef) (since : Option Resync) : Begun :=
  let listing := Begun.walk (.listing mailbox)
    [selecting mailbox.path .readOnly, .uidSearch "ALL"]
  match since with
  | some since =>
    if backend.caps.condstore = .qresync then
      .walk (.resyncing mailbox since)
        [.enable "QRESYNC", .select mailbox.path .readOnly (some since)]
    else listing
  | none => listing

def watch (mailbox : MailboxRef) (uidnext : Option UInt32) (also : List String) : Begun :=
  let parked := match uidnext with
    | some uidnext => ImapCommand.idleAfter uidnext
    | none => .idle
  .walk .watching
    ((if also.isEmpty then [] else [.requireCapability ["NOTIFY"]]) ++
      [selecting mailbox.path .readOnly] ++
      (if also.isEmpty then [] else [.notify also]) ++ [parked] ++
      (if also.isEmpty then [] else [.notifyNone]))

/-- How addresses and sections are printed for a program's own eyes. -/
structure Describe where
  remote : RemoteRef → String
  sections : List Section → String

def fetchSections (describe : Describe) (remote : RemoteRef) (sections : List Section) : Begun :=
  if sections.isEmpty || !sections.all isSection then
    .failed none (.malformed ("not a section list: " ++ describe.sections sections))
  else
    fetch (.sections remote) (some (.sections remote)) [remote]
      ("(UID " ++ " ".intercalate (sections.map fun s => "BODY.PEEK[" ++ s.asStr ++ "]") ++ ")")

section Begin

variable [TextTables]

def begun (describe : Describe) : ProtoOp → Begun
  | .fetchCaps =>
    .walk .caps [.capability, .capability, selecting "INBOX" .readWrite]
  | .listFolders => .walk .folders [.list, .lsub]
  | .folder work => .walk (.folder work) (folderCommands work)
  | .fetchEnvelopes mailbox since => backend.fetchEnvelopes mailbox since
  | .fetchHeaders remotes =>
    fetch (.fetch remotes) none remotes "(UID FLAGS BODY.PEEK[HEADER])"
  | .fetchBody remotes => fetch (.fetch remotes) none remotes "(UID BODY.PEEK[])"
  | .fetchStructure remotes =>
    fetch (.structure remotes) (some (.structure remotes)) remotes "(UID BODYSTRUCTURE)"
  | .fetchSections remote sections => fetchSections describe remote sections
  | .setFlags remotes read star => backend.setFlags remotes read star
  | .setFlag remotes hue => backend.setFlag remotes hue
  | .addKeyword remotes keyword =>
    «over» remotes fun set => .walk .applied
      [selecting (mailboxPath remotes) .readWrite,
        flagStore set "+FLAGS" [keywordAtom keyword]]
  | .setLabels remotes add remove => backend.setLabels remotes add remove
  | .setMailbox remotes role => backend.setMailbox remotes role
  | .file remotes folder => backend.file remotes folder
  | .copy remotes folder => backend.copy remotes folder
  | .fetchFlags mailbox sinceModseq => backend.fetchFlags mailbox sinceModseq
  | .listRemote mailbox since => backend.listRemote mailbox since
  | .watch mailbox uidnext also => watch mailbox uidnext also
  | .expunge _ =>
    .failed none (.unsupported ("expunging is forbidden: Gmail may be configured to delete " ++
      "permanently, and that setting cannot be read over IMAP"))
  | .destroy remotes => backend.destroy describe.remote remotes
  | .append mailbox flags date _ =>
    match backend.staged with
    | none =>
      .failed none (.malformed
        "append was not staged: call stage() with the message bytes")
    | some body =>
      .walk (.appending mailbox.path)
        [.capability, .append mailbox.path (flags.map wireFlag) date body]
  | .submit _ _ _ _ _ => .failed none (.unsupported "submission is a separate backend")
  | .keepDraft _ mailbox messageId =>
    match backend.staged with
    | none =>
      .failed none (.malformed "a draft was not staged: call stage() with its bytes")
    | some body => backend.draftCopy mailbox messageId (some body)
  | .dropDraft _ mailbox messageId => backend.draftCopy mailbox messageId none

variable [ImapDates] [ResponseParser]

/-- What an operation came to: a success, with the transcript its answer is read from. -/
structure Answer where
  job : Job
  transcript : Transcript

def queue (commands : List ImapCommand) : Backend × Progress Answer :=
  let auth := if backend.goingOn.isSome then Authenticate.no else .first
  -- Compressed where this operation signs in, when the server offers it.
  let commands := if backend.goingOn.isSome then commands else .compress :: commands
  let taken := { backend with goingOn := none }
  match backend.build.build auth commands with
  | .error error => (taken, .failed error)
  | .ok session =>
    let session := match backend.goingOn with
      | some earlier => session.resuming earlier
      | none => session
    let started := session.start
    ({ taken with session := some started.1 },
      match started.2 with
      | .need needs => .need needs
      | .done _ => .failed (.malformed "session finished before doing anything")
      | .failed error => .failed error)

def takesStaged : ProtoOp → Bool
  | .append _ _ _ _ | .keepDraft _ _ _ => true
  | _ => false

def begin (describe : Describe) (op : ProtoOp) : Backend × Progress Answer :=
  let left := backend.left.orElse fun _ => backend.goingOn
  let ready := { backend with
    resuming := false
    left := none
    goingOn := if backend.resuming then left else none
    staged := if takesStaged op then none else backend.staged }
  match backend.begun describe op with
  | .failed job error => ({ ready with job := job.getD ready.job }, .failed error)
  | .applied => (ready, .done ⟨.applied, .empty⟩)
  | .walk job commands => queue { ready with job } commands

def replyCode (text : List Char) : Option (List Char) :=
  match Text.splitOnce ' ' text with
  | none => none
  | some (_, rest) =>
    match Text.splitOnce ' ' rest with
    | some (_, '[' :: inside) =>
      let code := inside.takeWhile fun c => c != ']' && c != ' '
      if code.length < inside.length then some code else none
    | _ => none

def alreadySo (work : FolderWork) (error : ProtoError) : Bool :=
  match error with
  | .refused _ text =>
    match replyCode text.toList, work with
    | some code, .create _ => Text.eqIgnoreAsciiCase code "ALREADYEXISTS".toList
    | some code, .delete _ _ | some code, .subscribe _ .unsubscribed =>
      Text.eqIgnoreAsciiCase code "NONEXISTENT".toList
    | _, _ => false
  | _ => false

/-- One event. A session that finished leaves its connection for the next operation. -/
def feed (ready : IoReady) : Backend × Progress Answer :=
  match backend.session with
  | none => (backend, .failed (.malformed "bytes arrived with no session in flight"))
  | some session =>
    let fed := session.feed ready
    match fed.2 with
    | .need needs => ({ backend with session := some fed.1 }, .need needs)
    | .failed error =>
      let after := { backend with session := some fed.1, left := none }
      match backend.job with
      | .folder work =>
        if alreadySo work error then
          ({ after with job := .idle }, .done ⟨.folder work, .empty⟩)
        else (after, .failed error)
      | _ => (after, .failed error)
    | .done transcript =>
      let after := { backend with
        session := some { fed.1 with buf := [] }
        left := some ⟨transcript.capabilities, fed.1.counter, fed.1.selected,
          fed.1.takeUnread⟩
        job := .idle }
      match backend.job with
      | .idle =>
        (after, .failed
          (.malformed "a transcript arrived with no operation in flight"))
      | job => (after, .done ⟨job, transcript⟩)

end Begin

end Backend

end Mailo.Proto.Imap
