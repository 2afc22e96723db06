import Mailo.Domain.Summary
import Mailo.Library.Series
import Mailo.Store.Dispatch

/-!
# The tables of the SQLite store

A row of the pending changes stands with the outbox entry that put it there, so it goes with its
entry; what goes with a message is taken out where a message is deleted. The labels of a message
stand with the message.
-/

namespace Mailo.Store

open Domain Library

/-- One queued unit of remote work. No `messages` is the empty list, and work on a draft has
nothing pending. -/
structure Entry where
  account : AccountId
  op : ProtoOp
  undo : Patch
  forward : Option ChangeId
  attempts : Nat
  nextAttempt : DateTime
  messages : List MessageId
  pending : Table MessageId (List Setting)
  quiet : draftOf op ≠ none → pending.rows = []

/-- An address kept for a message destroyed here; no entry once the server has answered. -/
structure Destroyed where
  message : MessageId
  outbox : Option OutboxId
deriving DecidableEq

structure Sqlite where
  messages : Table MessageId Message
  threads : Table ThreadId ThreadState
  summaries : Table ThreadId ThreadSummary
  labels : Table LabelId Label
  drafts : Table DraftId Draft
  outbox : Series Entry
  /-- Uploads of a draft that a later one took out of the outbox. -/
  replaced : List OutboxId
  remoteMap : Table (AccountId × RemoteRef) MessageId
  unplaced : Table (AccountId × MessageId) Unplaced
  destroyed : Table (AccountId × RemoteRef) Destroyed
  providerThreads : Table (AccountId × RemoteRef) String
  syncState : Table (AccountId × String) SyncCursor
  caps : Table AccountId AccountCaps

namespace Entry

/-- What the entry still asks for of one message. -/
def asks (entry : Entry) (message : MessageId) : List Setting :=
  (entry.pending.get message).getD []

/-- The entry without what it asks for of one message. -/
def forget (entry : Entry) (message : MessageId) : Entry :=
  { entry with
    pending := entry.pending.erase message
    quiet := fun h => by
      change entry.pending.rows.filter _ = []
      rw [entry.quiet h, List.filter_nil] }

end Entry

namespace Sqlite

def empty : Sqlite :=
  ⟨.empty, .empty, .empty, .empty, .empty, .empty, [], .empty, .empty, .empty, .empty, .empty,
    .empty⟩

def pendingOn (store : Sqlite) (message : MessageId) : List Setting :=
  store.outbox.values.flatMap fun entry => entry.asks message

/-- The local changes on a thread's messages that the server has not confirmed, in queue order. -/
def pendingForThread (store : Sqlite) (thread : ThreadId) : List Change :=
  store.outbox.values.flatMap fun entry =>
    entry.pending.rows.flatMap fun row =>
      if (store.messages.get row.1).any fun m => m.thread = thread then
        row.2.map (Change.ofSetting row.1)
      else []

def threadOf (store : Sqlite) (message : MessageId) : Option ThreadId :=
  (store.messages.get message).map Message.thread

def roleOf (store : Sqlite) (message : MessageId) : Option MailboxRole :=
  (store.messages.get message).map Message.mailbox

def messageByKey (store : Sqlite) (account : AccountId) (key : MessageKey) : Option MessageId :=
  (store.messages.rows.find? fun row => row.2.account = account && row.2.key = key).map Prod.fst

def messageByRemote (store : Sqlite) (account : AccountId) (remote : RemoteRef) :
    Option MessageId :=
  store.remoteMap.get (account, remote)

def addressesOf (store : Sqlite) (account : AccountId) (message : MessageId) : List RemoteRef :=
  (store.remoteMap.rows.filter fun row => row.1.1 = account && row.2 = message).map
    fun row => row.1.2

/-- Every way the server can address these messages. -/
def refsFor (store : Sqlite) (account : AccountId) (messages : List MessageId) : List RemoteRef :=
  messages.flatMap (store.addressesOf account)

def remaining (store : Sqlite) (message : MessageId) : Nat :=
  (store.remoteMap.rows.filter fun row => row.2 = message).length

def mailboxesOf (store : Sqlite) (message : MessageId) : List String :=
  ((store.remoteMap.rows.filter fun row => row.2 = message).map
    fun row => (columns row.1.2).mailbox).eraseDups

def folderRoles (store : Sqlite) (account : AccountId) : FolderRoles :=
  ((store.caps.get account).map AccountCaps.folders).getD ⟨[]⟩

def labelNames (store : Sqlite) (labels : List LabelId) : List String :=
  labels.filterMap fun label => (store.labels.get label).map Label.name

def isUnplaced (store : Sqlite) (account : AccountId) (message : MessageId) : Bool :=
  (store.unplaced.get (account, message)).isSome

def destroyedOf (store : Sqlite) (account : AccountId) (message : MessageId) : List RemoteRef :=
  (store.destroyed.rows.filter fun row => row.1.1 = account && row.2.message = message).map
    fun row => row.1.2

def messagesOf (store : Sqlite) (thread : ThreadId) : List Message :=
  (store.messages.values.filter fun m => m.thread = thread).insertionSort
    fun a b => a.date < b.date ∨ (a.date = b.date ∧ a.id.raw ≤ b.id.raw)

theorem mem_messagesOf {store : Sqlite} {thread : ThreadId} {m : Message} :
    m ∈ store.messagesOf thread ↔ m ∈ store.messages.values ∧ m.thread = thread := by
  rw [messagesOf, List.mem_insertionSort, List.mem_filter, decide_eq_true_eq]

end Sqlite

/-! ## Writing local changes

`Sqlite.writeChange` is the one writer of a change, and says which thread it disturbed; the
summaries of the threads a patch disturbed are rewritten after all of its changes.
-/

/-- Threads disturbed, each once and in the order of their ids. -/
def touch (touched : List ThreadId) (thread : ThreadId) : List ThreadId :=
  if touched.contains thread then touched
  else touched.orderedInsert (fun a b => a.raw ≤ b.raw) thread

@[simp] theorem mem_touch {touched : List ThreadId} {thread other : ThreadId} :
    other ∈ touch touched thread ↔ other = thread ∨ other ∈ touched := by
  unfold touch
  split
  · rename_i h
    constructor
    · exact Or.inr
    · intro hor
      rcases hor with heq | hmem
      · rw [heq]
        simpa using h
      · exact hmem
  · rw [List.mem_orderedInsert]

def touchSome (touched : List ThreadId) : Option ThreadId → List ThreadId
  | some thread => touch touched thread
  | none => touched

/-- What is kept of a change, leaving out what is about a message the server did act on. -/
def undoRest (patch : Patch) (done : List MessageId) : List Change :=
  patch.changes.filter fun change =>
    match change.messageOf with
    | some message => !done.contains message
    | none => true

namespace Sqlite

/-- Write one setting of a message held. -/
def put (store : Sqlite) (id : MessageId) (s : Setting) : Sqlite :=
  { store with messages := store.messages.modify id fun m => m.put s }

def inserted (m : Message) : Message := { m with labels := m.labels.foldl addLabel [] }

/-- A message stored again under its id: the columns the update names, and labels only added. The
bytes it was read from stay, and text without them is not shown. -/
def merged (held m : Message) : Message :=
  { held with
    thread := m.thread
    subject := m.subject
    sender := m.sender
    replyTo := m.replyTo
    «to» := m.«to»
    cc := m.cc
    bcc := m.bcc
    read := m.read
    star := m.star
    flag := m.flag
    mailbox := m.mailbox
    body :=
      match held.body with
      | .absent => .absent
      | .present _ raw => .present m.body.text raw
    attachments := m.attachments
    labels := m.labels.foldl addLabel held.labels }

def upsertMessage (store : Sqlite) (m : Message) : Except StoreError Sqlite :=
  match (store.messageByKey m.account m.key).filter (· ≠ m.id) with
  | some other => .error (.keyTaken other)
  | none =>
    if m.labels.all store.labels.contains then
      let stored :=
        match store.messages.get m.id with
        | some held => merged held m
        | none => inserted m
      .ok { store with
        threads := store.threads.insertNew m.thread .fresh
        messages := store.messages.set m.id stored }
    else .error .foreignKey

def deleteMessage (store : Sqlite) (id : MessageId) : Sqlite :=
  { store with
    messages := store.messages.erase id
    outbox := store.outbox.mapRows fun _ entry => entry.forget id
    remoteMap := store.remoteMap.filter fun _ message => message ≠ id
    unplaced := store.unplaced.filter fun key _ => key.2 ≠ id }

def writeLabel (store : Sqlite) (label : Label) : Except StoreError Sqlite :=
  let account := ((store.labels.get label.id).map Label.account).getD label.account
  let clash := fun (row : LabelId × Label) =>
    row.1 ≠ label.id && row.2.account = account && row.2.name = label.name
  match store.labels.rows.find? clash with
  | some row => .error (.nameTaken row.1)
  | none => .ok { store with labels := store.labels.set label.id { label with account := account } }

def isSubmitOf (draft : DraftId) : ProtoOp → Bool
  | .submit other _ _ _ _ => other = draft
  | _ => false

def deleteDraft (store : Sqlite) (id : DraftId) : Sqlite :=
  { store with
    drafts := store.drafts.erase id
    outbox := store.outbox.filter fun _ entry => !isSubmitOf id entry.op }

/-- Apply one change, and say which thread it disturbed; summaries are the caller's. -/
def writeChange (store : Sqlite) : Change → Except StoreError (Sqlite × Option ThreadId)
  | .messageRead id state => .ok (store.put id (.read state), store.threadOf id)
  | .messageStar id star => .ok (store.put id (.star star), store.threadOf id)
  | .messageFlag id hue => .ok (store.put id (.flag hue), store.threadOf id)
  | .messageMailbox id role => .ok (store.put id (.mailbox role), store.threadOf id)
  | .messageLabel id label .in =>
    -- A row of the labels of a message names a message and a label that are held.
    if store.messages.contains id && store.labels.contains label then
      .ok (store.put id (.label label .in), store.threadOf id)
    else .error .foreignKey
  | .messageLabel id label .out => .ok (store.put id (.label label .out), store.threadOf id)
  | .threadSnooze id snooze =>
    .ok ({ store with
      threads := store.threads.modify id fun held => { held with snooze := snooze } }, some id)
  | .threadPin id pin =>
    .ok ({ store with
      threads := store.threads.modify id fun held => { held with pin := pin } }, some id)
  | .threadMute id mute =>
    .ok ({ store with
      threads := store.threads.modify id fun held => { held with mute := mute } }, some id)
  | .threadFollowUp id followUp =>
    .ok ({ store with
      threads := store.threads.modify id fun held => { held with followUp := followUp } },
      some id)
  | .messageUpsert m => (store.upsertMessage m).map fun written => (written, some m.thread)
  | .messageDelete id => .ok (store.deleteMessage id, store.threadOf id)
  | .labelUpsert label => (store.writeLabel label).map fun written => (written, none)
  | .draftUpsert draft =>
    .ok ({ store with drafts := store.drafts.set draft.id draft }, none)
  | .draftDelete id => .ok (store.deleteDraft id, none)

/-- A patch's changes in order, with the threads they disturbed; the first failure stops them. -/
def writeChanges (store : Sqlite) (touched : List ThreadId) :
    List Change → Except StoreError (Sqlite × List ThreadId)
  | [] => .ok (store, touched)
  | change :: rest =>
    match store.writeChange change with
    | .error error => .error error
    | .ok (written, thread) => written.writeChanges (touchSome touched thread) rest

section Summaries

variable [Unicode]

/-- Rewrite a thread's summary from its messages, or drop the thread when it is empty. -/
def refreshSummary (store : Sqlite) (thread : ThreadId) : Except StoreError Sqlite :=
  let messages := store.messagesOf thread
  if messages.isEmpty then
    .ok { store with
      threads := store.threads.erase thread
      summaries := store.summaries.erase thread }
  else
    match store.threads.get thread with
    | none => .error (.noThread thread)
    | some state =>
      match ThreadSummary.derive thread messages state.snooze state.pin state.mute
        state.followUp with
      | none => .ok store
      | some summary =>
        -- The update of a summary held leaves its account.
        let account :=
          ((store.summaries.get thread).map ThreadSummary.account).getD summary.account
        .ok { store with
          summaries := store.summaries.set thread { summary with account := account } }

def refreshAll (store : Sqlite) : List ThreadId → Except StoreError Sqlite
  | [] => .ok store
  | thread :: rest =>
    match store.refreshSummary thread with
    | .error error => .error error
    | .ok written => written.refreshAll rest

def writePatch (store : Sqlite) (patch : Patch) : Except StoreError Sqlite :=
  match store.writeChanges [] patch.changes with
  | .error error => .error error
  | .ok (written, touched) => written.refreshAll touched

def writeEach (store : Sqlite) : List Change → Except StoreError Sqlite
  | [] => .ok store
  | change :: rest =>
    match store.writeChange change with
    | .error error => .error error
    | .ok (written, none) => written.writeEach rest
    | .ok (written, some thread) =>
      match written.refreshSummary thread with
      | .error error => .error error
      | .ok refreshed => refreshed.writeEach rest

end Summaries

end Sqlite

end Mailo.Store
