import Mailo.Domain.Remote

/-!
# What the user does, and the local mutations it produces

`Op.apply` gives the changes an operation writes, the changes that undo it, and what the server
must be told. `Op.preview` says what it makes of a whole conversation from its summary alone.
-/

namespace Mailo.Domain

inductive Target where
  | threads (ids : List ThreadId)
  | messages (ids : List MessageId)
deriving DecidableEq

inductive Op where
  | archive
  | trash
  | restore
  | spam
  | setRead (state : ReadState)
  | setStar (star : Star)
  | label (label : LabelId) (membership : Membership)
  | setSnooze (snooze : Snooze)
  | setPin (pin : Pin)
  | setMute (mute : Mute)
  | setFollowUp (followUp : FollowUp)
  | file (label : LabelId)
  | destroy
  | copy (label : LabelId)
  | flag (hue : Hue)
deriving DecidableEq

/-- One local mutation; the changes of folder management are not among them. -/
inductive Change where
  | messageRead (id : MessageId) (state : ReadState)
  | messageStar (id : MessageId) (star : Star)
  | messageMailbox (id : MessageId) (role : MailboxRole)
  | messageLabel (id : MessageId) (label : LabelId) (membership : Membership)
  | threadSnooze (id : ThreadId) (snooze : Snooze)
  | threadPin (id : ThreadId) (pin : Pin)
  | threadMute (id : ThreadId) (mute : Mute)
  | threadFollowUp (id : ThreadId) (followUp : FollowUp)
  | messageUpsert (message : Message)
  | messageDelete (id : MessageId)
  | labelUpsert (label : Label)
  | draftUpsert (draft : Draft)
  | draftDelete (id : DraftId)
  | messageFlag (id : MessageId) (hue : Hue)
deriving DecidableEq

structure Patch where
  id : ChangeId
  changes : List Change
deriving DecidableEq

/-- Remote work an operation implies, addressed in local ids. -/
inductive RemoteIntent where
  | setFlags (messages : List MessageId) (read : Option ReadState) (star : Option Star)
  | setMailbox (messages : List MessageId) (role : MailboxRole)
  | setLabels (messages : List MessageId) (add remove : List LabelId)
  | addKeyword (messages : List MessageId) (keyword : Keyword)
  | send (draft : DraftId) (raw : BlobId) (mailFrom : String) (rcptTo : List String)
      (delivery : DeliveryReport)
  | folder (work : FolderWork)
  | file (messages : List MessageId) (label : LabelId)
  | destroy (messages : List MessageId)
  | append (mailbox : MailboxRef) (flags : List SystemFlag) (date : Option DateTime)
      (raw : BlobId)
  | keepDraft (draft : DraftId) (mailbox : MailboxRef) (messageId : String)
  | dropDraft (draft : DraftId) (mailbox : MailboxRef) (messageId : String)
  | copy (messages : List MessageId) (label : LabelId)
  | setFlag (messages : List MessageId) (hue : Hue)
deriving DecidableEq

/-- What a preview says an operation makes of a conversation. -/
inductive OpPreview where
  | gone
  | becomes (summary : ThreadSummary)
  | unknown
deriving DecidableEq

structure Applied where
  forward : Patch
  inverse : Patch
  remote : Option RemoteIntent
deriving DecidableEq

/-- The changes of one message and what puts them back, both in one order. -/
abbrev Halves := List Change × List Change

namespace Halves

/-- Each message's halves, one message after another. -/
def forEach (selected : List Message) (halves : Message → Halves) : Halves :=
  (selected.flatMap fun m => (halves m).1, selected.flatMap fun m => (halves m).2)

end Halves

def select (target : Target) (messages : List Message) : List Message :=
  match target with
  | .threads ids => messages.filter fun m => ids.contains m.thread
  | .messages ids => messages.filter fun m => ids.contains m.id

def moveInto (selected : List Message) (role : MailboxRole) : Halves :=
  Halves.forEach selected fun m =>
    if m.mailbox ≠ role then ([.messageMailbox m.id role], [.messageMailbox m.id m.mailbox])
    else ([], [])

/-- Move `label` in or out; a message already on the wanted side has no change and no undo. -/
def setLabel (selected : List Message) (label : LabelId) (membership : Membership) : Halves :=
  Halves.forEach selected fun m =>
    let present := m.labels.contains label
    let wanted := decide (membership = .in)
    if present ≠ wanted then
      ([.messageLabel m.id label membership], [.messageLabel m.id label membership.flip])
    else ([], [])

def fileInto (selected : List Message) (label : LabelId) : Halves :=
  let moved := moveInto selected .archive
  let labelled := setLabel selected label .in
  (moved.1 ++ labelled.1, moved.2 ++ labelled.2)

/-- Only what is in Trash or Spam is destroyed, and nothing puts it back. -/
def destroy (selected : List Message) : Halves :=
  ((selected.filter fun m => m.mailbox = .trash ∨ m.mailbox = .spam).map
    fun m => .messageDelete m.id, [])

/-- Bring back what was filed away; Sent and Drafts stay where they are. -/
def restore (selected : List Message) : Halves :=
  Halves.forEach selected fun m =>
    if m.mailbox = .trash ∨ m.mailbox = .archive ∨ m.mailbox = .spam then
      ([.messageMailbox m.id .inbox], [.messageMailbox m.id m.mailbox])
    else ([], [])

def setRead (selected : List Message) (state : ReadState) : Halves :=
  Halves.forEach selected fun m =>
    if m.read ≠ state then ([.messageRead m.id state], [.messageRead m.id m.read])
    else ([], [])

/-- Unstarring also puts a coloured flag back to red. -/
def setStar (selected : List Message) (star : Star) : Halves :=
  Halves.forEach selected fun m =>
    let starred : Halves :=
      if m.star ≠ star then ([.messageStar m.id star], [.messageStar m.id m.star])
      else ([], [])
    let flagged : Halves :=
      if star = .unstarred ∧ m.flag ≠ .red then
        ([.messageFlag m.id .red], [.messageFlag m.id m.flag])
      else ([], [])
    (starred.1 ++ flagged.1, starred.2 ++ flagged.2)

def setFlag (selected : List Message) (hue : Hue) : Halves :=
  Halves.forEach selected fun m =>
    let starred : Halves :=
      if m.star ≠ .starred then ([.messageStar m.id .starred], [.messageStar m.id m.star])
      else ([], [])
    let flagged : Halves :=
      if m.flag ≠ hue then ([.messageFlag m.id hue], [.messageFlag m.id m.flag])
      else ([], [])
    (starred.1 ++ flagged.1, starred.2 ++ flagged.2)

namespace Change

/-- The message a change names, of the kinds that touch one. -/
def touches : Change → Option MessageId
  | .messageRead id _ | .messageStar id _ | .messageFlag id _ | .messageMailbox id _
  | .messageLabel id _ _ | .messageDelete id => some id
  | _ => none

end Change

def touchedBy (forward : List Change) : List MessageId :=
  forward.foldl (fun touched change =>
    match change.touches with
    | some id => if touched.contains id then touched else touched ++ [id]
    | none => touched) []

namespace Op

/-- The halves of a thread-level change, made only when it is in scope and changes something. -/
def threadHalves {α : Type} [DecidableEq α] (targeted : Bool) (change : α → Change)
    (prior next : α) : Halves :=
  if targeted = true ∧ prior ≠ next then ([change next], [change prior]) else ([], [])

def threadTargeted (target : Target) (thread : Thread) (messages : List Message) : Bool :=
  match target with
  | .threads ids => ids.contains thread.summary.id
  | .messages _ => !(select target messages).isEmpty

def halves (op : Op) (target : Target) (thread : Thread) (messages : List Message) : Halves :=
  let selected := select target messages
  let id := thread.summary.id
  let targeted := threadTargeted target thread messages
  match op with
  | .archive => moveInto selected .archive
  | .trash => moveInto selected .trash
  | .spam => moveInto selected .spam
  | .restore => Domain.restore selected
  | .setRead state => Domain.setRead selected state
  | .setStar star => Domain.setStar selected star
  | .flag hue => setFlag selected hue
  | .label held membership => setLabel selected held membership
  | .file held => fileInto selected held
  | .copy held => setLabel selected held .in
  | .destroy => Domain.destroy selected
  | .setSnooze snooze => threadHalves targeted (.threadSnooze id) thread.summary.snooze snooze
  | .setPin pin => threadHalves targeted (.threadPin id) thread.summary.pin pin
  | .setMute mute => threadHalves targeted (.threadMute id) thread.summary.mute mute
  | .setFollowUp followUp =>
    threadHalves targeted (.threadFollowUp id) thread.summary.followUp followUp

/-- The operations that set fields of messages, rather than destroy them or set the thread's own
state. -/
def setsFields : Op → Bool
  | .destroy | .setSnooze _ | .setPin _ | .setMute _ | .setFollowUp _ => false
  | _ => true

def unlessLocal (archive : ArchiveMeans) (intent : RemoteIntent) : Option RemoteIntent :=
  match archive with
  | .localOnly => none
  | .dropInbox | .moveToFolder _ => some intent

/-- What the server must be told, given what it is capable of. -/
def remoteIntent (op : Op) (messages : List MessageId) (caps : AccountCaps) :
    Option RemoteIntent :=
  match op with
  | .archive => unlessLocal caps.archive (.setMailbox messages .archive)
  | .trash => unlessLocal caps.archive (.setMailbox messages .trash)
  | .spam => unlessLocal caps.archive (.setMailbox messages .spam)
  | .restore => unlessLocal caps.archive (.setMailbox messages .inbox)
  | .setRead state => some (.setFlags messages (some state) none)
  | .setStar star => some (.setFlags messages none (some star))
  | .flag hue => some (.setFlag messages hue)
  | .label held membership =>
    match caps.labels with
    | .localOnly => none
    | .supported | .keywords =>
      match membership with
      | .in => some (.setLabels messages [held] [])
      | .out => some (.setLabels messages [] [held])
  | .file held => unlessLocal caps.archive (.file messages held)
  | .copy held => unlessLocal caps.archive (.copy messages held)
  | .destroy => some (.destroy messages)
  | .setSnooze _ | .setPin _ | .setMute _ | .setFollowUp _ => none

/-- `forwardId` and `inverseId` are the two fresh ids the source generates. -/
def apply (op : Op) (target : Target) (thread : Thread) (messages : List Message)
    (caps : AccountCaps) (forwardId inverseId : ChangeId) : Applied :=
  let halves := op.halves target thread messages
  let touched := touchedBy halves.1
  { forward := ⟨forwardId, halves.1⟩
    inverse := ⟨inverseId, halves.2⟩
    remote := if touched.isEmpty then none else op.remoteIntent touched caps }

/-! ## Previewing an operation -/

/-- The roles a message is filed into, which restoring brings back from. -/
def away : List MailboxRole := [.trash, .archive, .spam]

def goes (role : MailboxRole) : Bool := role = .trash || role = .spam

/-- What the operation makes of a whole conversation, from its summary alone. -/
def preview (op : Op) (summary : ThreadSummary) : OpPreview :=
  match op with
  | .archive => .becomes { summary with mailboxes := MailboxSet.only .archive }
  | .trash => .becomes { summary with mailboxes := MailboxSet.only .trash }
  | .spam => .becomes { summary with mailboxes := MailboxSet.only .spam }
  | .restore =>
    if away.any summary.mailboxes.contains then
      .becomes
        { summary with mailboxes := (away.foldl MailboxSet.without summary.mailboxes).insert .inbox }
    else .becomes summary
  | .file held =>
    .becomes
      { summary with
        mailboxes := MailboxSet.only .archive
        labels := addLabel summary.labels held }
  | .setRead state => .becomes { summary with read := state }
  | .setStar .starred => .unknown
  | .setStar .unstarred => .becomes { summary with star := .unstarred, flag := .red }
  | .flag hue => .becomes { summary with star := .starred, flag := hue }
  | .copy held | .label held .in =>
    .becomes { summary with labels := addLabel summary.labels held }
  | .label held .out =>
    .becomes { summary with labels := summary.labels.filter fun other => other ≠ held }
  | .setSnooze snooze => .becomes { summary with snooze := snooze }
  | .setPin pin => .becomes { summary with pin := pin }
  | .setMute mute => .becomes { summary with mute := mute }
  | .setFollowUp followUp => .becomes { summary with followUp := followUp }
  | .destroy =>
    if summary.mailboxes.roles.all goes then .gone
    else if !summary.mailboxes.roles.any goes then .becomes summary
    else .unknown

end Op

/-! ## What one decision asks the store to write

A decision ends in a commit, written in one transaction: the local change, the work it queues for
the server, and the other rows.
-/

namespace Commit

/-- Where in a commit work is addressed to the server's messages. A deletion is addressed before
the change, which takes its messages' addresses with it. -/
inductive Resolve where
  | beforeForward | afterForward
deriving DecidableEq

/-- What to do with work that names nothing the server holds. -/
inductive Unplaced where
  | skip | rollback
deriving DecidableEq

structure Queue where
  intent : RemoteIntent
  undo : Patch
  id : Option ChangeId
  resolve : Resolve
  unplaced : Unplaced
deriving DecidableEq

/-- A write other than a patch or queued work; the rows of the junk filter, of held reminders and
of keys are not among them. -/
inductive Row where
  | withdrawn (forward : ChangeId) (inverse : Patch)
  | sendState (draft : DraftId) (state : SendState) (now : DateTime)
  | expect (draft : DraftId) (updated : DateTime) (state : SendState)
deriving DecidableEq

end Commit

structure Commit where
  account : AccountId
  now : DateTime
  forward : Patch
  queue : List Commit.Queue
  rows : List Commit.Row
deriving DecidableEq

/-- The commit of an operation: its patch, and its server half when the account has a server. -/
def Applied.intoCommit (applied : Applied) (account : AccountId) (now : DateTime)
    (tellsServer : Bool) : Commit :=
  let queued := (applied.remote.filter fun _ => tellsServer).map fun intent =>
    { intent := intent
      undo := applied.inverse
      id := some applied.forward.id
      resolve :=
        match intent with
        | .destroy _ => .beforeForward
        | _ => .afterForward
      unplaced := .skip : Commit.Queue }
  ⟨account, now, applied.forward, queued.toList, []⟩

end Mailo.Domain
