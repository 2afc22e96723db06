import Mailo.Store.Sqlite.Tables

/-!
# The outbox: queueing remote work, asking for it, and settling it

An intent names local messages. It is resolved into a wire operation as it is queued, and its
changes are pending until its entry leaves the queue.
-/

namespace Mailo.Store

open Domain Library

/-- Nanoseconds in a number of seconds. -/
def seconds (count : Int) : Int := count * 1000000000

/-- Backoff for a retryable failure: 1s, 2s, 4s and on, capped at an hour. -/
def backoff (attempts : Nat) : Int := seconds (Nat.min (2 ^ Nat.min attempts 12) 3600)

/-- Far enough out that a missing credential is not retried in a loop. -/
def parked : Int := seconds (24 * 3600)

def isKeepOf (draft : DraftId) : ProtoOp → Bool
  | .keepDraft other _ _ => other = draft
  | _ => false

def isKeepDraft : RemoteIntent → Bool
  | .keepDraft _ _ _ => true
  | _ => false

namespace Sqlite

def addressesNow (store : Sqlite) (account : AccountId) : Lookup := fun message =>
  if store.messages.contains message then
    let found := store.addressesOf account message
    match found, store.unplaced.get (account, message) with
    | [], some row => .ok (.unplaced row)
    | _, _ => .ok (.at found)
  else
    -- Destroyed here and not yet on the server: still at the addresses kept for it.
    let kept := store.destroyedOf account message
    .ok (if kept.isEmpty then .gone else .at kept)

def operationOn (store : Sqlite) (remotes : List RemoteRef) : RemoteIntent → Option ProtoOp
  | .setFlags _ read star => some (.setFlags remotes read star)
  | .setFlag _ hue => some (.setFlag remotes hue)
  | .setMailbox _ role => some (.setMailbox remotes role)
  | .setLabels _ add remove =>
    some (.setLabels remotes (store.labelNames add) (store.labelNames remove))
  | .addKeyword _ keyword => some (.addKeyword remotes keyword)
  -- The label's name is the folder's path; a label deleted since leaves nothing to file into.
  | .file _ label => (store.labelNames [label]).getLast?.map fun folder => .file remotes folder
  | .copy _ label => (store.labelNames [label]).getLast?.map fun folder => .copy remotes folder
  | .destroy _ => some (.destroy remotes)
  | .send _ _ _ _ _ | .folder _ | .append _ _ _ _ | .keepDraft _ _ _ | .dropDraft _ _ _ => none

def resolveIntent (store : Sqlite) (account : AccountId) (intent : RemoteIntent) :
    Option ProtoOp :=
  match unaddressed intent with
  | some op => some op
  | none =>
    let messages := Store.messagesOf intent
    let remotes := store.refsFor account messages
    -- A message the server moved without saying where waits to be found.
    if remotes.isEmpty && !messages.any (store.isUnplaced account) then none
    else store.operationOn remotes intent

theorem quiet_of_resolveIntent {store : Sqlite} {account : AccountId} {intent : RemoteIntent}
    {op : ProtoOp} (h : store.resolveIntent account intent = some op) (drafted : draftOf op ≠ none) :
    pendingOf intent = [] := by
  unfold resolveIntent at h
  cases intent <;> simp only [unaddressed, operationOn] at h <;> try rfl
  all_goals
    split at h
    · cases h
    · first
        | (cases h; exact absurd rfl drafted)
        | (obtain ⟨_, _, rfl⟩ := Option.map_eq_some_iff.mp h; exact absurd rfl drafted)

/-- The rows of pending changes an intent leaves, one a message it names, none of them empty. -/
def pendingRows (intent : RemoteIntent) : Table MessageId (List Setting) :=
  (pendingOf intent).foldl (fun rows row =>
    if row.2.isEmpty then rows else rows.set row.1 row.2) .empty

def staleCopies (store : Sqlite) (account : AccountId) (intent : RemoteIntent) :
    List (Nat × Entry) :=
  match draftCopyOf intent with
  | none => []
  | some draft =>
    store.outbox.rows.filter fun row => row.2.account = account && isKeepOf draft row.2.op

def keepDestroyed (store : Sqlite) (account : AccountId) (intent : RemoteIntent)
    (outbox : OutboxId) : Table (AccountId × RemoteRef) Destroyed :=
  match intent with
  | .destroy messages =>
    messages.foldl (fun rows message =>
      (store.addressesOf account message).foldl (fun rows remote =>
        rows.set (account, remote) ⟨message, some outbox⟩) rows) store.destroyed
  | _ => store.destroyed

/-- The entry queued for an intent that resolves to `op`. -/
def entryFor (store : Sqlite) (account : AccountId) (intent : RemoteIntent) (op : ProtoOp)
    (resolved : store.resolveIntent account intent = some op) (undo : Patch)
    (forward : Option ChangeId) (now : DateTime) : Entry :=
  -- A new upload takes over the place of the ones it replaces in the backoff too.
  let replaces := if isKeepDraft intent then store.staleCopies account intent else []
  { account := account
    op := op
    undo := undo
    forward := forward
    attempts := replaces.foldl (fun attempts row => max attempts row.2.attempts) 0
    nextAttempt := replaces.foldl (fun due row => max due row.2.nextAttempt) now
    messages := addressed intent fun message =>
      !(store.addressesOf account message).isEmpty || store.isUnplaced account message
    pending := pendingRows intent
    quiet := fun h => by
      rw [pendingRows, quiet_of_resolveIntent resolved h]
      rfl }

/-- Queue an intent, `none` when it names nothing the server holds. -/
def queueIn (store : Sqlite) (account : AccountId) (intent : RemoteIntent) (undo : Patch)
    (forward : Option ChangeId) (now : DateTime) :
    Except StoreError (Sqlite × Option OutboxId) :=
  match resolved : store.resolveIntent account intent with
  | none => .ok (store, none)
  | some op =>
    let entry := store.entryFor account intent op resolved undo forward now
    let stale := (store.staleCopies account intent).map Prod.fst
    let id : OutboxId := ⟨store.outbox.next⟩
    -- A pending row names a message that is held.
    if entry.pending.keys.all store.messages.contains then
      .ok ({ store with
        outbox := (store.outbox.filter fun held _ => !stale.contains held).push entry
        replaced := store.replaced ++ stale.map OutboxId.mk
        destroyed := store.keepDestroyed account intent id }, some id)
    else .error .foreignKey

/-- An account's queued entries that are due, in the order they were queued. -/
def due (store : Sqlite) (account : AccountId) (now : DateTime) : List (OutboxId × Entry) :=
  (store.outbox.rows.filter fun row => row.2.account = account && row.2.nextAttempt ≤ now).map
    fun row => (⟨row.1⟩, row.2)

/-- The messages of the entries of an account queued before `id`, of those that name any. -/
def earlier (store : Sqlite) (account : AccountId) (id : OutboxId) : List (List MessageId) :=
  ((store.outbox.before id.raw).filter fun entry =>
    entry.account = account && !entry.messages.isEmpty).map Entry.messages

def dispatch (store : Sqlite) (id : OutboxId) : Except StoreError Dispatch :=
  match store.outbox.get id.raw with
  | none => .ok .wait
  | some entry =>
    inQueue (store.earlier entry.account id) entry.op entry.messages
      (store.addressesNow entry.account)

/-! ## Settling -/

def settleDestroyed (store : Sqlite) (id : OutboxId) : Answered → Sqlite
  | .done =>
    { store with
      destroyed := store.destroyed.mapRows fun _ row =>
        if row.outbox = some id then { row with outbox := none } else row }
  | .refused =>
    { store with destroyed := store.destroyed.filter fun _ row => row.outbox ≠ some id }

def dropEntry (store : Sqlite) (id : OutboxId) : Sqlite :=
  { store with outbox := store.outbox.erase id.raw }

def forgetDestroyedIn (store : Sqlite) (account : AccountId) (path : String) : Sqlite :=
  { store with
    destroyed := store.destroyed.filter fun key _ =>
      !(key.1 = account && (columns key.2).mailbox = path) }

def mappedIn (store : Sqlite) (account : AccountId) (path : String) : List MessageId :=
  (((store.remoteMap.rows.filter fun row =>
    row.1.1 = account && (columns row.1.2).mailbox = path).map Prod.snd).eraseDups).insertionSort
      fun a b => a.raw ≤ b.raw

def forgetRemotesIn (store : Sqlite) (account : AccountId) (path : String) : Sqlite :=
  { store with
    remoteMap := store.remoteMap.filter fun key _ =>
      !(key.1 = account && (columns key.2).mailbox = path) }

section Settle

variable [Unicode]

def deleteUnaddressed (store : Sqlite) : List MessageId → Except StoreError Sqlite
  | [] => .ok store
  | message :: rest =>
    if store.remaining message = 0 then
      match store.threadOf message with
      | none => (store.deleteMessage message).deleteUnaddressed rest
      | some thread =>
        match (store.deleteMessage message).refreshSummary thread with
        | .error error => .error error
        | .ok refreshed => refreshed.deleteUnaddressed rest
    else store.deleteUnaddressed rest

/-- The server confirmed a mailbox is gone: let go of its addresses and cursor, and of any message
that was nowhere else. -/
def forgetMailbox (store : Sqlite) (account : AccountId) (path : String) :
    Except StoreError Sqlite :=
  let mapped := store.mappedIn account path
  let unmapped := store.forgetRemotesIn account path
  let uncursored :=
    { unmapped with syncState := unmapped.syncState.filter fun key _ => key ≠ (account, path) }
  (uncursored.forgetDestroyedIn account path).deleteUnaddressed mapped

def undoEntry (store : Sqlite) (id : OutboxId) (done : List MessageId) :
    Except StoreError Sqlite :=
  match store.outbox.get id.raw with
  | none => .error (.noEntry id)
  | some entry => (store.dropEntry id).writeEach (undoRest entry.undo done)

def deletedFolder : ProtoOp → Option String
  | .folder (.delete path _) => some path
  | _ => none

/-- Record how an attempt ended. -/
def settleIn (store : Sqlite) (id : OutboxId) (settle : Settle) (now : DateTime) :
    Except StoreError Sqlite :=
  match store.outbox.get id.raw with
  | none =>
    -- Only an upload of a draft that a later one replaced while it ran has no row.
    if store.replaced.contains id then .ok store else .error (.noEntry id)
  | some entry =>
    match settle with
    | .ok =>
      let answered := store.settleDestroyed id .done
      match deletedFolder entry.op with
      | none => .ok (answered.dropEntry id)
      | some path => (answered.forgetMailbox entry.account path).map fun s => s.dropEntry id
    | .failed _ .now =>
      .ok { store with
        outbox := store.outbox.modify id.raw fun held =>
          { held with
            attempts := held.attempts + 1
            nextAttempt := now + backoff entry.attempts } }
    | .failed _ (.after floor) =>
      .ok { store with
        outbox := store.outbox.modify id.raw fun held =>
          { held with
            attempts := held.attempts + 1
            nextAttempt := now + max (backoff entry.attempts) floor } }
    | .failed _ .needsReauth | .failed _ .needsGrant =>
      .ok { store with
        outbox := store.outbox.modify id.raw fun held =>
          { held with nextAttempt := now + parked } }
    | .failed _ (.fatal _) => (store.settleDestroyed id .refused).undoEntry id []
    | .inPart done => (store.settleDestroyed id .refused).undoEntry id done

/-- The entry an act queued, while the server has not been tried with it: named by the act's patch,
or, queued before acts were named, by its undo. -/
def untried (store : Sqlite) (forward : ChangeId) (inverse : Patch) : Option OutboxId :=
  (store.outbox.rows.find? fun row =>
    row.2.attempts = 0 && (row.2.forward = some forward ||
      (row.2.forward = none && row.2.undo = inverse))).map fun row => ⟨row.1⟩

def withdrawIn (store : Sqlite) (forward : ChangeId) (inverse : Patch) (now : DateTime) :
    Except StoreError Sqlite :=
  match store.untried forward inverse with
  | none => .ok store
  | some id => store.settleIn id (.failed "taken back before it was sent" (.fatal "taken back")) now

end Settle

/-! ## A commit, written whole

The expectations are checked before anything is written; then the work addressed before the
change, the change, the work addressed after it, and the other rows.
-/

def expecting (store : Sqlite) : Commit.Row → Except StoreError Unit
  | .expect draft updated state =>
    match store.drafts.get draft with
    | some now => if now.updated = updated ∧ now.state = state then .ok () else .error .stale
    | none => .error .stale
  | _ => .ok ()

def expectingAll (store : Sqlite) : List Commit.Row → Except StoreError Unit
  | [] => .ok ()
  | row :: rest =>
    match store.expecting row with
    | .error error => .error error
    | .ok () => store.expectingAll rest

/-- Queue the work of a commit that is addressed at `when`, each with the entry made for it. -/
def queueAll (store : Sqlite) (account : AccountId) (now : DateTime) (when : Commit.Resolve) :
    List Commit.Queue → Except StoreError (Sqlite × List (Option OutboxId))
  | [] => .ok (store, [])
  | queue :: rest =>
    if queue.resolve = when then
      match store.queueIn account queue.intent queue.undo queue.id now with
      | .error error => .error error
      | .ok (_, none) =>
        if queue.unplaced = .rollback then .error .notQueued
        else
          match store.queueAll account now when rest with
          | .error error => .error error
          | .ok (after, queued) => .ok (after, none :: queued)
      | .ok (written, some id) =>
        match written.queueAll account now when rest with
        | .error error => .error error
        | .ok (after, queued) => .ok (after, some id :: queued)
    else
      match store.queueAll account now when rest with
      | .error error => .error error
      | .ok (after, queued) => .ok (after, none :: queued)

def setSendState (store : Sqlite) (id : DraftId) (state : SendState) (now : DateTime) :
    Except StoreError Sqlite :=
  if store.drafts.contains id then
    .ok { store with
      drafts := store.drafts.modify id fun draft => { draft with state := state, updated := now } }
  else .error (.noDraft id)

section Steps

variable [Unicode]

def writeRow (store : Sqlite) (now : DateTime) : Commit.Row → Except StoreError Sqlite
  | .withdrawn forward inverse => store.withdrawIn forward inverse now
  | .sendState draft state stamp => store.setSendState draft state stamp
  | .expect _ _ _ => .ok store

def writeRows (store : Sqlite) (now : DateTime) : List Commit.Row → Except StoreError Sqlite
  | [] => .ok store
  | row :: rest =>
    match store.writeRow now row with
    | .error error => .error error
    | .ok written => written.writeRows now rest

/-- Write a commit: what it leaves, and the entry queued for each piece of its work. -/
def commitSteps (store : Sqlite) (commit : Commit) :
    Except StoreError (Sqlite × List (Option OutboxId)) :=
  match store.expectingAll commit.rows with
  | .error error => .error error
  | .ok () =>
    match store.queueAll commit.account commit.now .beforeForward commit.queue with
    | .error error => .error error
    | .ok (addressed, before) =>
      match addressed.writePatch commit.forward with
      | .error error => .error error
      | .ok written =>
        match written.queueAll commit.account commit.now .afterForward commit.queue with
        | .error error => .error error
        | .ok (queued, after) =>
          match queued.writeRows commit.now commit.rows with
          | .error error => .error error
          | .ok done => .ok (done, before.zipWith Option.or after)

end Steps

end Sqlite

end Mailo.Store
