import Mailo.Domain.Message

/-!
# The server's side of the vocabulary

Server addresses, what an account's server was seen to be capable of, and the operations a
queue entry carries. These are the types the store keeps in its outbox and its map of remote
addresses.
-/

namespace Mailo.Domain

inductive SystemFlag where
  | seen | answered | flagged | draft
deriving DecidableEq

structure MailboxRef where
  account : AccountId
  path : String
deriving DecidableEq

/-- The inbox's name in any case, which is one name. -/
def isInbox (path : String) : Bool := Text.eqIgnoreAsciiCase path.toList "INBOX".toList

/-- How a server addresses one message in one mailbox. -/
inductive RemoteRef where
  | imap (mailbox : String) (uidvalidity uid : UInt32)
  | pop (uidl : String)
  | graph (mailbox id : String)
  | jmap (emailId : String)
deriving DecidableEq

/-- The one mailbox every JMAP email is held under. -/
def jmapAll : String := "*"

inductive SyncCursor where
  | imap (uidvalidity uidnext : UInt32) (modseq : Option Nat)
  | pop
  | graph (deltaLink : String)
  | jmap (emailState mailboxState : String)
deriving DecidableEq

inductive UidValidity where
  | same | reset
deriving DecidableEq

/-- What the client may say about delivery of what it submits. -/
inductive DeliveryReport where
  | unrequested | requested
deriving DecidableEq

inductive Keyword where
  | mdnSent
deriving DecidableEq

inductive Subscription where
  | subscribed | unsubscribed
deriving DecidableEq

inductive NonEmpty where
  | refuse | allow
deriving DecidableEq

inductive FolderWork where
  | create (path : String)
  | rename (origin target : String)
  | delete (path : String) (nonEmpty : NonEmpty)
  | subscribe (path : String) (subscription : Subscription)
deriving DecidableEq

inductive ServerLabels where
  | supported | localOnly | keywords
deriving DecidableEq

inductive ArchiveMeans where
  | dropInbox
  | moveToFolder (path : String)
  | localOnly
deriving DecidableEq

/-- The roles the server reported for its folders, in its order. -/
structure FolderRoles where
  entries : List (String × MailboxRole)
deriving DecidableEq

namespace FolderRoles

def role (roles : FolderRoles) (path : String) : Option MailboxRole :=
  (roles.entries.find? fun entry => entry.1 == path).map Prod.snd

/-- `INBOX` in any case is one name, and a folder without a role is filed as the archive. -/
def filedAs (roles : FolderRoles) (path : String) : MailboxRole :=
  if Text.eqIgnoreAsciiCase path.toList "INBOX".toList then .inbox
  else (roles.role path).getD .archive

end FolderRoles

/-- The discovered capabilities the local rules read. -/
structure AccountCaps where
  labels : ServerLabels
  archive : ArchiveMeans
  folders : FolderRoles
deriving DecidableEq

structure Resync where
  uidvalidity : UInt32
  modseq : Nat
deriving DecidableEq

inductive FetchSince where
  | beginning
  | after (cursor : SyncCursor)
deriving DecidableEq

def isPartNumber (text : List Char) : Bool :=
  !text.isEmpty && text.length ≤ 9 && text.all Text.isAsciiDigit && text != ['0']

def beforeWord (text : List Char) : Option (List Char) :=
  ["MIME", "HEADER", "TEXT"].findSome? fun word =>
    if text.drop (text.length - (word.length + 1)) = '.' :: word.toList then
      some (text.take (text.length - (word.length + 1)))
    else none

def isSectionText (text : List Char) : Bool :=
  text.isEmpty || text = "HEADER".toList || text = "TEXT".toList ||
    (((beforeWord text).getD text).splitOn '.').all isPartNumber

/-- A body section specifier, checked where it enters. -/
structure Section where
  asStr : String
  valid : isSectionText asStr.toList = true
deriving DecidableEq

inductive ProtoOp where
  | fetchCaps
  | listFolders
  | fetchEnvelopes (mailbox : MailboxRef) (since : FetchSince)
  | fetchHeaders (remotes : List RemoteRef)
  | fetchBody (remotes : List RemoteRef)
  | setFlags (remotes : List RemoteRef) (read : Option ReadState) (star : Option Star)
  | setMailbox (remotes : List RemoteRef) (role : MailboxRole)
  | setLabels (remotes : List RemoteRef) (add remove : List String)
  | file (remotes : List RemoteRef) (folder : String)
  | addKeyword (remotes : List RemoteRef) (keyword : Keyword)
  | append (mailbox : MailboxRef) (flags : List SystemFlag) (date : Option DateTime)
      (raw : BlobId)
  | submit (draft : DraftId) (raw : BlobId) (mailFrom : String) (rcptTo : List String)
      (delivery : DeliveryReport)
  | fetchFlags (mailbox : MailboxRef) (sinceModseq : Option Nat)
  | listRemote (mailbox : MailboxRef) (since : Option Resync)
  | expunge (remotes : List RemoteRef)
  | destroy (remotes : List RemoteRef)
  | fetchStructure (remotes : List RemoteRef)
  | fetchSections (remote : RemoteRef) (sections : List Section)
  | watch (mailbox : MailboxRef) (uidnext : Option UInt32) (also : List String)
  | folder (work : FolderWork)
  | keepDraft (draft : DraftId) (mailbox : MailboxRef) (messageId : String)
  | dropDraft (draft : DraftId) (mailbox : MailboxRef) (messageId : String)
  | copy (remotes : List RemoteRef) (folder : String)
  | setFlag (remotes : List RemoteRef) (hue : Hue)
deriving DecidableEq

def ProtoOp.messages : ProtoOp → Option (List RemoteRef)
  | .fetchHeaders remotes | .fetchBody remotes | .setFlags remotes _ _ | .setMailbox remotes _
  | .setLabels remotes _ _ | .file remotes _ | .addKeyword remotes _ | .expunge remotes
  | .destroy remotes | .fetchStructure remotes | .copy remotes _ | .setFlag remotes _ =>
    some remotes
  | .fetchSections remote _ => some [remote]
  | _ => none

/-- Why an attempt was refused, and what may be done about it. -/
inductive Retry where
  | now
  | after (floor : Int)
  | needsReauth
  | needsGrant
  | fatal (text : String)
deriving DecidableEq

/-! ## Labels and drafts -/

inductive LabelOrigin where
  | user | provider
deriving DecidableEq

structure Label where
  id : LabelId
  account : AccountId
  name : String
  color : Option String
  origin : LabelOrigin
deriving DecidableEq

inductive SendState where
  | editing
  | queued
  | scheduled (due : DateTime)
  | sending
  | failed (reason : String) (retry : Retry)
  | sent (sentAt : DateTime) (message : Option MessageId)
deriving DecidableEq

/-- A draft, by what tells one saving of it from another. -/
structure Draft where
  id : DraftId
  account : AccountId
  state : SendState
  updated : DateTime
deriving DecidableEq

/-! ## Folders

What a server says its mailboxes are for.
-/

inductive SpecialUse where
  | inbox | all | archive | drafts | flagged | important | junk | sent | trash
deriving DecidableEq

/-- The role mail in such a mailbox is filed under; a view files nothing. -/
def SpecialUse.role : SpecialUse → Option MailboxRole
  | inbox => some .inbox
  | archive => some .archive
  | drafts => some .drafts
  | sent => some .sent
  | trash => some .trash
  | junk => some .spam
  | all | flagged | important => none

structure Folder where
  path : String
  special : Option SpecialUse
deriving DecidableEq

def FolderRoles.path (roles : FolderRoles) (role : MailboxRole) : Option String :=
  (roles.entries.find? fun entry => entry.2 == role).map Prod.fst

/-! ## What a sync pass over one mailbox brings

An ingest is the server's truth, in bulk and not invertible: messages, then flags, colours, label
lists and thread ids by address, then the addresses that are gone.
-/

/-- One message as fetched, with the address it was fetched from. -/
structure Fetched where
  remote : RemoteRef
  key : MessageKey
  message : Message
deriving DecidableEq

/-- The result of one sync pass over one mailbox; no cursor says nothing of where it got to. -/
structure Ingest where
  mailbox : MailboxRef
  validity : UidValidity
  cursor : Option SyncCursor
  messages : List Fetched
  flags : List (RemoteRef × ReadState × Star)
  labels : List Label
  labelNames : List (RemoteRef × List String)
  flagColors : List (RemoteRef × Hue)
  providerThreads : List (RemoteRef × String)
  gone : List RemoteRef
deriving DecidableEq

/-- An ingest that says nothing of a mailbox. -/
def Ingest.silent (mailbox : MailboxRef) : Ingest :=
  ⟨mailbox, .same, none, [], [], [], [], [], [], []⟩

end Mailo.Domain
