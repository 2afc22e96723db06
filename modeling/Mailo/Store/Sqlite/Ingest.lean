import Mailo.Domain.Keyword
import Mailo.Domain.Remote
import Mailo.Store.Sqlite.Outbox

/-!
# Writing server truth

An ingest is written a chunk at a time: messages, then flags, colours, label lists, thread ids and
what is gone, each in a pass of its own. Last, what is still pending on the threads a chunk
touched goes back on top.

A message the server holds in more than one mailbox has one role, chosen as it first arrives. Two
rules keep it following the server, and neither overrides the user.
-/

namespace Mailo.Store

open Domain Library

def afterArrival (held arrivedAs : MailboxRole) : Option MailboxRole :=
  if held = .archive ∧ arrivedAs = .inbox then some .inbox else none

/-- A message still filed in the inbox whose last address there has gone is filed where it went:
the role of the first remaining folder. -/
def afterLeaving (held : MailboxRole) (left : String) (remaining : List String)
    (roles : FolderRoles) : Option MailboxRole :=
  if held ≠ .inbox ∨ isInbox left = false ∨ remaining.any isInbox then none
  else (remaining.insertionSort (· ≤ ·)).head?.map roles.filedAs

def ingestChunk : Nat := 200

/-- The entries of one list that go in chunk `index`, the first of them the `n`-th of the batch:
the `n`-th entry goes in chunk `n / size`. -/
def dealt {α : Type} (size index n : Nat) : List α → List α
  | [] => []
  | entry :: rest =>
    if n / size = index then entry :: dealt size index (n + 1) rest
    else dealt size index (n + 1) rest

namespace Ingest

open Domain (Ingest)

def entryCount (ingest : Ingest) : Nat :=
  ingest.messages.length + ingest.flags.length + ingest.labelNames.length +
    ingest.flagColors.length + ingest.providerThreads.length + ingest.gone.length

/-- One chunk of `count`: what is about the mailbox goes in the first, and the cursor in the last. -/
def chunk (ingest : Ingest) (size count index : Nat) : Ingest :=
  let flags := ingest.messages.length
  let labelNames := flags + ingest.flags.length
  let flagColors := labelNames + ingest.labelNames.length
  let providerThreads := flagColors + ingest.flagColors.length
  let gone := providerThreads + ingest.providerThreads.length
  { mailbox := ingest.mailbox
    validity := if index = 0 then ingest.validity else .same
    cursor := if index = count - 1 then ingest.cursor else none
    messages := dealt size index 0 ingest.messages
    flags := dealt size index flags ingest.flags
    labels := if index = 0 then ingest.labels else []
    labelNames := dealt size index labelNames ingest.labelNames
    flagColors := dealt size index flagColors ingest.flagColors
    providerThreads := dealt size index providerThreads ingest.providerThreads
    gone := dealt size index gone ingest.gone }

/-- An ingest as a run of ingests of at most `size` entries, in order. -/
def chunks (ingest : Ingest) (size : Nat) : List Ingest :=
  let size := max size 1
  let count := max ((entryCount ingest + size - 1) / size) 1
  (List.range count).map (chunk ingest size count)

end Ingest

namespace Sqlite

def freshLabel (store : Sqlite) : LabelId :=
  ⟨(store.labels.keys.map LabelId.raw).foldl max 0 + 1⟩

def labelNamed (store : Sqlite) (account : AccountId) (name : String) (origin : LabelOrigin) :
    Except StoreError (Sqlite × LabelId) :=
  match store.labels.rows.find? fun row => row.2.account = account && row.2.name = name with
  | some row => .ok (store, row.1)
  | none =>
    let label : Label := ⟨store.freshLabel, account, name, none, origin⟩
    (store.writeLabel label).map fun written => (written, label.id)

def labelsAsKeywords (store : Sqlite) (account : AccountId) : Bool :=
  (store.caps.get account).any fun caps => caps.labels = .keywords

/-- Labels with the keyword each makes. -/
abbrev Keyed := List (LabelId × String)

def keyedLabels (store : Sqlite) (account : AccountId) : Keyed :=
  store.labels.rows.filterMap fun row =>
    if row.2.account = account then (labelKeyword row.2.name).map fun keyword => (row.1, keyword)
    else none

/-- The label a keyword-born name stands for, or a new one of the person's own; `none` for a name
that makes no keyword. -/
def labelByKeyword (store : Sqlite) (account : AccountId) (name : String) (keyed : Keyed) :
    Except StoreError (Sqlite × Keyed × Option LabelId) :=
  match labelKeyword name with
  | none => .ok (store, keyed, none)
  | some keyword =>
    match keyed.find? fun held => Text.eqIgnoreAsciiCase held.2.toList keyword.toList with
    | some held => .ok (store, keyed, some held.1)
    | none =>
      let color := (thunderbirdTags.find? fun tag => tag.2.1 = name).map fun tag => tag.2.2.asStr
      let label : Label := ⟨store.freshLabel, account, name, color, .user⟩
      (store.writeLabel label).map fun written =>
        (written, keyed ++ [(label.id, keyword)], some label.id)

def wantedLabels (store : Sqlite) (account : AccountId) (keyed : Option Keyed)
    (wanted : List LabelId) :
    List String → Except StoreError (Sqlite × Option Keyed × List LabelId)
  | [] => .ok (store, keyed, wanted)
  | name :: rest =>
    match keyed with
    | some held =>
      match store.labelByKeyword account name held with
      | .error error => .error error
      | .ok (written, held, label) =>
        written.wantedLabels account (some held) (wanted ++ label.toList) rest
    | none =>
      match store.labelNamed account name .provider with
      | .error error => .error error
      | .ok (written, label) => written.wantedLabels account none (wanted ++ [label]) rest

end Sqlite

/-- A chunk being written: the store, the changes made and the threads touched. -/
structure Pass where
  store : Sqlite
  changes : List Change
  touched : List ThreadId

namespace Pass

def touching (pass : Pass) (thread : Option ThreadId) : Pass :=
  { pass with touched := touchSome pass.touched thread }

/-- Write a setting of a message that no constraint refuses. -/
def set (pass : Pass) (id : MessageId) (s : Setting) : Pass :=
  { pass with
    store := pass.store.put id s
    changes := pass.changes ++ [Change.ofSetting id s] }

def write (pass : Pass) : List Change → Except StoreError Pass
  | [] => .ok pass
  | change :: rest =>
    match pass.store.writeChange change with
    | .error error => .error error
    | .ok (written, _) =>
      { pass with store := written, changes := pass.changes ++ [change] }.write rest

def fillBody (pass : Pass) (id : MessageId) (m : Message) : Pass :=
  match m.body, (pass.store.messages.get id).map Message.body with
  | .present text raw, some .absent =>
    let filled := { m with id := id }
    { pass with
      store :=
        { pass.store with
          messages := pass.store.messages.modify id fun held =>
            { held with body := .present text raw, attachments := m.attachments } }
      changes := pass.changes ++ [Change.messageUpsert filled] }.touching (pass.store.threadOf id)
  | _, _ => pass

def fileArrival (pass : Pass) (id : MessageId) (arrivedAs : MailboxRole) : Pass :=
  match (pass.store.roleOf id).bind fun held => afterArrival held arrivedAs with
  | some role => pass.set id (.mailbox role)
  | none => pass

def mapRemote (pass : Pass) (account : AccountId) (remote : RemoteRef) (id : MessageId) : Pass :=
  { pass with
    store :=
      { pass.store with
        remoteMap := pass.store.remoteMap.set (account, remote) id
        unplaced := pass.store.unplaced.erase (account, id) } }

/-- One message fetched: a message is found by its key, never by its address. -/
def arrive (account : AccountId) (pass : Pass) (fetched : Fetched) : Except StoreError Pass :=
  match pass.store.messageByKey account fetched.key with
  | some id =>
    let filed := (pass.fillBody id fetched.message).fileArrival id fetched.message.mailbox
    let mapped := filed.mapRemote account fetched.remote id
    .ok (mapped.touching (mapped.store.threadOf id))
  | none =>
    match pass.store.upsertMessage fetched.message with
    | .error error => .error error
    | .ok written =>
      let stored : Pass :=
        { store := written
          changes := pass.changes ++ [.messageUpsert fetched.message]
          touched := touch pass.touched fetched.message.thread }
      let mapped := stored.mapRemote account fetched.remote fetched.message.id
      .ok (mapped.touching (mapped.store.threadOf fetched.message.id))

/-- The message at an address, as it is held. -/
def heldAt (pass : Pass) (account : AccountId) (remote : RemoteRef) : Option (MessageId × Message) :=
  (pass.store.messageByRemote account remote).bind fun id =>
    (pass.store.messages.get id).map fun m => (id, m)

/-- The flags the server reports at one address; only what differs is written. -/
def flag (account : AccountId) (pass : Pass) (entry : RemoteRef × ReadState × Star) : Pass :=
  match pass.heldAt account entry.1 with
  | none => pass
  | some (id, held) =>
    let read := if held.read ≠ entry.2.1 then pass.set id (.read entry.2.1) else pass
    let starred := if held.star ≠ entry.2.2 then read.set id (.star entry.2.2) else read
    if held.read ≠ entry.2.1 ∨ held.star ≠ entry.2.2 then starred.touching (some held.thread)
    else starred

/-- The flag colour the server reports at one address. -/
def color (account : AccountId) (pass : Pass) (entry : RemoteRef × Hue) : Pass :=
  match pass.heldAt account entry.1 with
  | none => pass
  | some (id, held) =>
    if held.flag ≠ entry.2 then (pass.set id (.flag entry.2)).touching (some held.thread)
    else pass

def labelChanges (id : MessageId) (held wanted : List LabelId) : List Change :=
  ((wanted.filter fun label => !held.contains label).map fun label => .messageLabel id label .in) ++
    (held.filter fun label => !wanted.contains label).map fun label => .messageLabel id label .out

/-- Of the labels held, those the server can have taken away: as keywords, the ones with one. -/
def keyedOnly (keyed : Option Sqlite.Keyed) (labels : List LabelId) : List LabelId :=
  match keyed with
  | some keyed => labels.filter fun label => keyed.any fun row => row.1 = label
  | none => labels

/-- The labels the server lists at one address, complete: a label it no longer lists is taken
off. As keywords, a label without one is this computer's alone and stays. -/
def label (account : AccountId) (pass : Pass) (keyed : Option Sqlite.Keyed)
    (entry : RemoteRef × List String) : Except StoreError (Pass × Option Sqlite.Keyed) :=
  match pass.store.messageByRemote account entry.1 with
  | none => .ok (pass, keyed)
  | some id =>
    match pass.store.wantedLabels account keyed [] entry.2 with
    | .error error => .error error
    | .ok (written, keyed, wanted) =>
      let labels := ((written.messages.get id).map Message.labels).getD []
      let changes := labelChanges id (keyedOnly keyed labels) wanted
      match { pass with store := written }.write changes with
      | .error error => .error error
      | .ok after =>
        if changes.isEmpty then .ok (after, keyed)
        else .ok (after.touching (after.store.threadOf id), keyed)

def labelAll (account : AccountId) (pass : Pass) (keyed : Option Sqlite.Keyed) :
    List (RemoteRef × List String) → Except StoreError Pass
  | [] => .ok pass
  | entry :: rest =>
    match pass.label account keyed entry with
    | .error error => .error error
    | .ok (after, keyed) => after.labelAll account keyed rest

/-- The label lists of a chunk, matched by keyword where the account's labels are keywords. -/
def labelNames (account : AccountId) (pass : Pass) (names : List (RemoteRef × List String)) :
    Except StoreError Pass :=
  let keyed :=
    if names.isEmpty || !pass.store.labelsAsKeywords account then none
    else some (pass.store.keyedLabels account)
  pass.labelAll account keyed names

def providerThread (account : AccountId) (pass : Pass) (entry : RemoteRef × String) : Pass :=
  match entry.1 with
  | .imap _ _ _ =>
    { pass with
      store :=
        { pass.store with
          providerThreads := pass.store.providerThreads.set (account, entry.1) entry.2 } }
  | _ => pass

def forgetAt (pass : Pass) (account : AccountId) (remote : RemoteRef) : Pass :=
  { pass with
    store :=
      { pass.store with
        destroyed := pass.store.destroyed.erase (account, remote)
        providerThreads := pass.store.providerThreads.erase (account, remote) } }

def unmapped (pass : Pass) (account : AccountId) (remote : RemoteRef) : Pass :=
  { pass with
    store := { pass.store with remoteMap := pass.store.remoteMap.erase (account, remote) } }

/-- An address the server no longer lists: a message with none left goes, and one that left the
inbox is filed where it went. -/
def leave (account : AccountId) (pass : Pass) (remote : RemoteRef) : Pass :=
  let forgot := pass.forgetAt account remote
  match forgot.store.messageByRemote account remote with
  | none => forgot
  | some id =>
    let left := forgot.unmapped account remote
    if left.store.remaining id = 0 then
      { left with
        store := left.store.deleteMessage id
        changes := left.changes ++ [Change.messageDelete id] }.touching (left.store.threadOf id)
    else
      let filed := (left.store.roleOf id).bind fun held =>
        afterLeaving held (columns remote).mailbox (left.store.mailboxesOf id)
          (left.store.folderRoles account)
      match filed with
      | some role => (left.set id (.mailbox role)).touching (left.store.threadOf id)
      | none => left

/-- What is pending on the touched threads goes back on top. -/
def layer (pass : Pass) : List ThreadId → Except StoreError Pass
  | [] => .ok pass
  | thread :: rest =>
    match pass.write (pass.store.pendingForThread thread) with
    | .error error => .error error
    | .ok after => after.layer rest

def arriveAll (account : AccountId) (pass : Pass) : List Fetched → Except StoreError Pass
  | [] => .ok pass
  | fetched :: rest =>
    match pass.arrive account fetched with
    | .error error => .error error
    | .ok after => after.arriveAll account rest

end Pass

namespace Sqlite

def resetMailbox (store : Sqlite) (account : AccountId) (path : String) : Sqlite :=
  let unmapped := (store.forgetRemotesIn account path).forgetDestroyedIn account path
  { unmapped with
    providerThreads := unmapped.providerThreads.filter fun key _ =>
      !(key.1 = account && (columns key.2).mailbox = path) }

/-- What a chunk says about its mailbox, before anything addressed there. -/
def opening (store : Sqlite) (account : AccountId) (ingest : Ingest) : Except StoreError Pass :=
  let reset :=
    match ingest.validity with
    | .reset => store.resetMailbox account ingest.mailbox.path
    | .same => store
  Pass.write ⟨reset, [], []⟩ (ingest.labels.map Change.labelUpsert)

/-- The passes of a chunk over what is about one message. -/
def passes (account : AccountId) (pass : Pass) (ingest : Ingest) : Except StoreError Pass :=
  match pass.arriveAll account ingest.messages with
  | .error error => .error error
  | .ok arrived =>
    let flagged := ingest.flags.foldl (Pass.flag account) arrived
    let colored := ingest.flagColors.foldl (Pass.color account) flagged
    match colored.labelNames account ingest.labelNames with
    | .error error => .error error
    | .ok labelled =>
      let threaded := ingest.providerThreads.foldl (Pass.providerThread account) labelled
      .ok (ingest.gone.foldl (Pass.leave account) threaded)

def setCursor (store : Sqlite) (account : AccountId) (path : String)
    (cursor : Option SyncCursor) : Sqlite :=
  match cursor with
  | none => store
  | some cursor => { store with syncState := store.syncState.set (account, path) cursor }

section Write

variable [Unicode]

/-- The end of a chunk: the layering, the cursor and the summaries. -/
def closing (account : AccountId) (pass : Pass) (ingest : Ingest) :
    Except StoreError (Sqlite × List Change) :=
  match pass.layer pass.touched with
  | .error error => .error error
  | .ok layered =>
    let placed := layered.store.setCursor account ingest.mailbox.path ingest.cursor
    (placed.refreshAll layered.touched).map fun written => (written, layered.changes)

def writeIngestChunk (store : Sqlite) (account : AccountId) (ingest : Ingest) :
    Except StoreError (Sqlite × List Change) :=
  match store.opening account ingest with
  | .error error => .error error
  | .ok opened =>
    match passes account opened ingest with
    | .error error => .error error
    | .ok pass => closing account pass ingest

def writeChunks (store : Sqlite) (account : AccountId) (changes : List Change) :
    List Ingest → Sqlite × Except StoreError (List Change)
  | [] => (store, .ok changes)
  | ingest :: rest =>
    match store.writeIngestChunk account ingest with
    | .ok (written, more) => written.writeChunks account (changes ++ more) rest
    | .error cause =>
      (store, .error (if changes.isEmpty then cause else .inPart changes cause))

/-- A renumbered mailbox is written as one, so that no reader sees it without addresses. -/
def pieces (ingest : Ingest) : List Ingest :=
  match ingest.validity with
  | .reset => [ingest]
  | .same => Ingest.chunks ingest ingestChunk

def writeIngest (store : Sqlite) (account : AccountId) (ingest : Ingest) :
    Sqlite × Except StoreError (List Change) :=
  store.writeChunks account [] (pieces ingest)

def refileOne (account : AccountId) (pass : Pass) (filed : RemoteRef × MailboxRole) : Pass :=
  match pass.store.messageByRemote account filed.1 with
  | none => pass
  | some id =>
    if pass.store.roleOf id = some filed.2 then pass
    else (pass.set id (.mailbox filed.2)).touching (pass.store.threadOf id)

def writeRefile (store : Sqlite) (account : AccountId) (filed : List (RemoteRef × MailboxRole)) :
    Except StoreError (Sqlite × List Change) :=
  let pass := filed.foldl (refileOne account) ⟨store, [], []⟩
  match pass.layer pass.touched with
  | .error error => .error error
  | .ok layered =>
    (layered.store.refreshAll layered.touched).map fun written => (written, layered.changes)

end Write

end Sqlite

end Mailo.Store
