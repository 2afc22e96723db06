import Mailo.Store.Sqlite.Taking
import Mailo.Runtime.Sending.Settle
import Mailo.Engine.Reach

/-!
# Queueing a send, and taking one back

What is written to send a draft, to send a message that is no draft's, and to take back a send that
has not left. Each is one commit, decided over the draft as it was read.
-/

namespace Mailo.Core

open Domain Library Store

inductive Leaves where
  | now | «at» (due : DateTime)
deriving DecidableEq

/-- The envelope, and the blob of the bytes. -/
structure Posting where
  raw : BlobId
  mailFrom : String
  rcptTo : List String
  delivery : DeliveryReport
deriving DecidableEq

structure SendIds where
  pulledBack : ChangeId
  queued : ChangeId
deriving DecidableEq

/-- Why a draft is not sent, or not taken back. -/
inductive SendError where
  | draftSentAt (sent : DateTime)
  | alreadySending
  | alreadySent
  | noServer
deriving DecidableEq

/-- Whether a draft in this state may be sent at all. -/
def admits (draft : Draft) (hasServer : Bool) : Except SendError Unit :=
  match draft.state with
  | .sent sent _ => .error (.draftSentAt sent)
  | .sending => .error .alreadySending
  | .queued | .scheduled _ | .failed _ _ | .editing =>
    if hasServer then .ok () else .error .noServer

/-- The draft as it comes back when an earlier submission of it is taken back first. -/
def pulledBack (read : Draft) (now : DateTime) : Option Draft :=
  match read.state with
  | .queued | .scheduled _ | .failed _ _ => some { read with state := .editing, updated := now }
  | .editing | .sending | .sent _ _ => none

def Leaves.state : Leaves → SendState
  | .now => .queued
  | .at due => .scheduled due

def Leaves.time (now : DateTime) : Leaves → DateTime
  | .now => now
  | .at due => due

/-- The work that queues a submission: nothing to undo, and refused whole when it names nothing. -/
def submission (draft : DraftId) (post : Posting) (queued : ChangeId) : Commit.Queue where
  intent := .send draft post.raw post.mailFrom post.rcptTo post.delivery
  undo := ⟨queued, []⟩
  id := none
  resolve := .afterForward
  unplaced := .rollback

/-- What to write to send a draft. An earlier submission goes with the draft that queued it, and
the same draft comes back as it was written. -/
def frozen (read : Draft) (post : Posting) (leaves : Leaves) (now : DateTime) (ids : SendIds) :
    Commit where
  account := read.account
  now := leaves.time now
  forward :=
    ⟨ids.pulledBack, (pulledBack read now).toList.flatMap fun back =>
      [.draftDelete read.id, .draftUpsert back]⟩
  queue := [submission read.id post ids.queued]
  rows := [.expect read.id read.updated read.state, .sendState read.id leaves.state now]

def unattached (account : AccountId) (id : DraftId) (post : Posting) (leaves : DateTime)
    (ids : SendIds) : Commit :=
  ⟨account, leaves, ⟨ids.pulledBack, []⟩, [submission id post ids.queued], []⟩

/-- What to write to take back a send that has not left. -/
def unsend (stored : Draft) (now : DateTime) (id : ChangeId) : Except SendError Commit :=
  match stored.state with
  | .sending => .error .alreadySending
  | .sent _ _ => .error .alreadySent
  | .editing | .queued | .scheduled _ | .failed _ _ =>
    .ok
      { account := stored.account
        now := now
        forward :=
          ⟨id, [.draftDelete stored.id,
            .draftUpsert { stored with state := .editing, updated := now }]⟩
        queue := []
        rows := [.expect stored.id stored.updated stored.state] }

/-! ## What is on its way out

The drain of an account's outbox, with what it records of the drafts it submits. It looks at what is
due, attempts each entry as it is reached, asks how the attempt settles and carries the steps out
one transaction after another; the process may stop between any two of them. Between drains a
person queues a send or takes one back.
-/

open Runtime.Sending Engine

/-- Where a drain is; `rest` is what it saw due and has not reached. -/
inductive Phase where
  | idle
  | walking (rest : List OutboxId)
  | attempting (id : OutboxId) (op : ProtoOp) (rest : List OutboxId)
  | carrying (id : OutboxId) (steps : List Then) (kept : Option MessageId) (halt : Bool)
      (rest : List OutboxId)
deriving DecidableEq

structure Outgoing where
  account : AccountId
  login : Login
  store : Sqlite
  /-- The time the drain goes by. -/
  now : DateTime
  phase : Phase
  /-- Every attempt, the latest first. -/
  attempts : List OutboxId
  /-- What was heard of each attempt, the latest first. -/
  answers : List (OutboxId × Outcome)
  /-- The entries whose rows were settled as accepted. -/
  sent : List OutboxId
  /-- The submissions whose rows were settled as accepted when the process stopped before it
  recorded that in the draft. -/
  cut : List (OutboxId × DraftId)

def Outgoing.start (account : AccountId) (login : Login) (store : Sqlite) : Outgoing :=
  ⟨account, login, store, 0, .idle, [], [], [], []⟩

/-- What a step puts beside the row and the draft: the upload of the sent copy, the copy kept here,
and the mailbox and the name of the draft's copies on the server. -/
structure Beside where
  upload : Option (MailboxRef × BlobId)
  kept : Option MessageId
  drop : Option (MailboxRef × String)
deriving DecidableEq

inductive Event where
  | look (now : DateTime)
  | reach (there : List MessageId)
  | answer (outcome : Outcome)
  | carry (beside : Beside)
  | stop
  /-- What a move, a copy or a pass says of where messages are. -/
  | place (remoteMap : Table (AccountId × RemoteRef) MessageId)
      (unplaced : Table (AccountId × MessageId) Unplaced)
  | send (draft : DraftId) (post : Posting) (hasServer : Bool) (leaves : Leaves) (now : DateTime)
      (ids : SendIds)
  | post (id : DraftId) (post : Posting) (leaves : DateTime) (ids : SendIds)
  | unsend (draft : DraftId) (now : DateTime) (id : ChangeId)

/-- Whether an event is the drain's own, and not a person's. -/
def Event.drains : Event → Bool
  | .send _ _ _ _ _ _ | .post _ _ _ _ | .unsend _ _ _ => false
  | _ => true

/-- The outcome as the drain hears it: only an operation sent in parts was done in part. -/
def heardOf (op : ProtoOp) : Outcome → Outcome
  | .accepted => .accepted
  | .refused error done told =>
    .refused error (if 1 < (Split.perMailbox op).length then done else []) told

def markDraft (store : Sqlite) (draft : DraftId) (state : SendState) (now : DateTime) : Sqlite :=
  (store.setSendState draft state now).toOption.getD store

def queueBeside (store : Sqlite) (account : AccountId) (now : DateTime) (intent : RemoteIntent) :
    Sqlite :=
  match store.queueIn account intent ⟨⟨0⟩, []⟩ none now with
  | .ok (queued, _) => queued
  | .error _ => store

def keepSentCopy (store : Sqlite) (account : AccountId) (now : DateTime) (beside : Beside) :
    Sqlite :=
  match beside.upload with
  | some (mailbox, raw) => queueBeside store account now (.append mailbox [.seen] (some now) raw)
  | none => store

def dropDraftCopies (store : Sqlite) (now : DateTime) (beside : Beside) (id : DraftId) :
    Sqlite :=
  match store.drafts.get id, beside.drop with
  | some draft, some (mailbox, messageId) =>
    queueBeside store draft.account now (.dropDraft id mailbox messageId)
  | _, _ => store

def isSettleRow : Then → Bool
  | .settleRow _ => true
  | _ => false

def sentMark : Then → Option DraftId
  | .mark draft (.sent _) => some draft
  | _ => none

def unmarked (steps : List Then) : List DraftId :=
  if steps.any isSettleRow then [] else steps.filterMap sentMark

def Phase.unrecorded : Phase → List (OutboxId × DraftId)
  | .carrying id steps _ _ _ => (unmarked steps).map fun draft => (id, draft)
  | _ => []

section Run

variable [Unicode]

/-- Settle an entry and go on, or end the drain where that fails. -/
def Outgoing.settled (s : Outgoing) (id : OutboxId) (how : Settle) (next : Phase) : Outgoing :=
  match s.store.settleIn id how s.now with
  | .ok after => { s with store := after, phase := next }
  | .error _ => { s with phase := .idle }

/-- Address the next entry, and attempt it where it has something to say. -/
def Outgoing.reach (s : Outgoing) (there : List MessageId) (id : OutboxId)
    (rest : List OutboxId) : Outgoing :=
  match s.store.dispatch id with
  | .error _ => { s with phase := .idle }
  | .ok .wait => { s with phase := .walking rest }
  | .ok .moot => s.settled id .ok (.walking rest)
  | .ok (.lost reason) =>
    s.settled id (if there.isEmpty then .failed reason (.fatal reason) else .inPart there)
      (.walking rest)
  | .ok (.send op) =>
    { s with
      -- From here it is on its way and can no longer be taken back.
      store :=
        match submitted op with
        | some draft => markDraft s.store draft .sending s.now
        | none => s.store
      phase := .attempting id op rest
      attempts := id :: s.attempts }

/-- Carry out one step of a settlement, `next` being where that leaves the drain. -/
def Outgoing.carry (s : Outgoing) (beside : Beside) (id : OutboxId) (next : Option MessageId → Phase)
    (kept : Option MessageId) : Then → Outgoing
  | .settleRow how =>
    match s.store.settleIn id how s.now with
    | .ok after =>
      { s with
        store := after
        phase := next kept
        sent := if how = .ok then id :: s.sent else s.sent }
    | .error _ => { s with phase := .idle }
  | .keepUpload => { s with phase := next kept }
  | .keepSentCopy =>
    { s with
      store := keepSentCopy s.store s.account s.now beside
      phase := next beside.kept }
  | .mark draft mark =>
    { s with store := markDraft s.store draft (mark.state kept) s.now, phase := next kept }
  | .dropDraftCopies draft =>
    { s with store := dropDraftCopies s.store s.now beside draft, phase := next kept }

/-- Write a commit; one that fails writes nothing. -/
def Outgoing.commit (s : Outgoing) (commit : Commit) : Outgoing :=
  match s.store.commitSteps commit with
  | .ok (done, _) => { s with store := done }
  | .error _ => s

/-- One step, `none` for one that cannot be taken there. -/
def step (s : Outgoing) : Event → Option Outgoing
  | .look now =>
    match s.phase with
    | .idle =>
      some { s with now := now, phase := .walking ((s.store.due s.account now).map Prod.fst) }
    | _ => none
  | .reach there =>
    match s.phase with
    | .walking [] => some { s with phase := .idle }
    | .walking (id :: rest) => some (s.reach there id rest)
    | _ => none
  | .answer outcome =>
    match s.phase with
    | .attempting id op rest =>
      let heard := heardOf op outcome
      let settled := settle op s.login heard s.now
      some { s with
        phase := .carrying id settled.steps none settled.halt rest
        answers := (id, heard) :: s.answers }
    | _ => none
  | .carry beside =>
    match s.phase with
    | .carrying _ [] _ halt rest =>
      some { s with phase := if halt then .idle else .walking rest }
    | .carrying id (step :: steps) kept halt rest =>
      some (s.carry beside id (fun kept => .carrying id steps kept halt rest) kept step)
    | _ => none
  | .stop => some { s with phase := .idle, cut := s.cut ++ s.phase.unrecorded }
  | .place remoteMap unplaced =>
    some { s with store := { s.store with remoteMap := remoteMap, unplaced := unplaced } }
  | .send draft post hasServer leaves now ids =>
    match s.phase, s.store.drafts.get draft with
    | .idle, some read =>
      match admits read hasServer with
      | .ok () => some (s.commit (frozen read post leaves now ids))
      | .error _ => some s
    | _, _ => none
  | .post id post leaves ids =>
    match s.phase with
    | .idle => some (s.commit (unattached s.account id post leaves ids))
    | _ => none
  | .unsend draft now id =>
    match s.phase, s.store.drafts.get draft with
    | .idle, some stored =>
      match unsend stored now id with
      | .ok commit => some (s.commit commit)
      | .error _ => some s
    | _, _ => none

def run (s : Outgoing) : List Event → Option Outgoing
  | [] => some s
  | event :: rest => (step s event).bind fun next => run next rest

end Run

end Mailo.Core
