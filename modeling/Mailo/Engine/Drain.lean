import Mailo.Logic.Reversal
import Mailo.Store.Sqlite.Taking

/-!
# The drain of an account's outbox, and what is written beside it

A drain looks at what is due, addresses each entry as it is reached, attempts it and settles it.
The attempt stands between two transactions, and the window, or another process, may write at any
point. What the drain has sent, what the server has taken of it and what was put back with nothing
queued to tell the server are kept beside the run.
-/

namespace Mailo.Engine

open Domain Library Logic Store

/-- What the server did of an operation: all of it, or what it asks for of some messages. -/
inductive Took where
  | whole
  | part (messages : List MessageId)
deriving DecidableEq

/-- Whether the server has the change that an undo puts back. -/
def Took.covers : Took → Change → Prop
  | .whole, _ => True
  | .part messages, change => ∃ message ∈ messages, change.messageOf = some message

/-- How an attempt ended, as the drain hears it: refused with what the server did of it by the
answers, or cut off. -/
inductive Outcome where
  | accepted
  | refused (reason : String) (retry : Retry) (done : List MessageId)
  | cancelled
deriving DecidableEq

/-- How the row is settled, `none` for an attempt cut off; refused for good after part of it was
done, only the rest is undone. -/
def Outcome.settles : Outcome → Option Settle
  | .accepted => some .ok
  | .refused reason (.fatal text) done =>
    if done.isEmpty then some (.failed reason (.fatal text)) else some (.inPart done)
  | .refused reason retry _ => some (.failed reason retry)
  | .cancelled => none

def Outcome.halts : Outcome → Bool
  | .accepted => false
  | .refused _ _ _ | .cancelled => true

def leftDone : Settle → Option (List MessageId)
  | .failed _ (.fatal _) => some []
  | .inPart done => some done
  | _ => none

inductive Write where
  | commit (commit : Commit)
  | patch (patch : Patch)
  | queue (account : AccountId) (intent : RemoteIntent) (undo : Patch) (now : DateTime)
  | takeBack (entry : Undo) (hasServer : Bool) (now : DateTime)
  | place (remoteMap : Table (AccountId × RemoteRef) MessageId)
      (unplaced : Table (AccountId × MessageId) Unplaced)

def queueHorizon : DateTime := Store.seconds 253402300799

def waitingOf (row : OutboxId × Entry) : Waiting :=
  ⟨row.1, row.2.op, row.2.undo, row.2.forward, row.2.attempts⟩

def waitingIn (store : Sqlite) (account : AccountId) : List Waiting :=
  (store.due account queueHorizon).map waitingOf

/-- The commit a write makes, where it makes one; what taking an act back commits is decided over
the queue as it then is. -/
def Write.decides (store : Sqlite) : Write → Option Commit
  | .commit made => some made
  | .takeBack entry hasServer now =>
    Logic.takeBack (waitingIn store entry.account) hasServer entry now
  | .patch _ | .queue _ _ _ _ | .place _ _ => none

def Write.changes (store : Sqlite) (write : Write) : List Change :=
  match write, write.decides store with
  | .patch made, _ => made.changes
  | _, some made => made.forward.changes
  | _, none => []

def Write.intents (store : Sqlite) (write : Write) : List (AccountId × RemoteIntent) :=
  match write, write.decides store with
  | .queue account intent _ _, _ => [(account, intent)]
  | _, some made => made.queue.map fun work => (made.account, work.intent)
  | _, none => []

/-- What the queue asks the server of a message: of the entries that address it. -/
def told (store : Sqlite) (message : MessageId) : List Setting :=
  store.outbox.values.flatMap fun entry =>
    if message ∈ entry.messages then entry.asks message else []

/-- Whether a change put back stands here with nothing queued to tell the server of it. -/
def oneSided (store : Sqlite) (change : Change) : Bool :=
  match change.setting with
  | none => true
  | some (message, setting) =>
    (store.messages.get message).any (fun held => held.setting setting.field = setting) &&
      !decide (Tells (told store message) setting)

section Run

variable [Unicode]

/-- What a write leaves; one that fails, or is refused, writes nothing. -/
def Write.apply (store : Sqlite) (write : Write) : Sqlite :=
  match write with
  | .commit _ | .takeBack _ _ _ =>
    match (write.decides store).map store.commitSteps with
    | some (.ok (written, _)) => written
    | _ => store
  | .patch made => (store.writePatch made).toOption.getD store
  | .queue account intent undo now =>
    match store.queueIn account intent undo none now with
    | .ok (written, _) => written
    | .error _ => store
  | .place remoteMap unplaced => { store with remoteMap := remoteMap, unplaced := unplaced }

/-- The entries a write takes back before they were sent, with what that puts back. -/
def Write.takes (store : Sqlite) (write : Write) : List (OutboxId × List Change) :=
  match write.decides store with
  | none => []
  | some made =>
    match store.commitSteps made with
    | .ok _ => store.withdrawnBy made
    | .error _ => []

/-! ## The drain -/

/-- Where a drain is; `rest` is what it saw due and has not reached. -/
inductive Phase where
  | idle
  | walking (rest : List (OutboxId × Entry))
  | sending (id : OutboxId) (rest : List (OutboxId × Entry))
  | settling (id : OutboxId) (settle : Settle) (halts : Bool) (rest : List (OutboxId × Entry))

structure Drain where
  account : AccountId
  store : Sqlite
  phase : Phase
  /-- Every attempt that has begun, with its entry as it stood. -/
  begun : List (OutboxId × Entry)
  /-- The entries an attempt of which has begun that no settlement has counted or ended. -/
  uncounted : List OutboxId
  /-- What the server did, an attempt at a time. -/
  took : List (OutboxId × Took)
  /-- The entries taken out as taken back before they were sent. -/
  withdrawn : List OutboxId
  /-- The changes put back with nothing queued to tell the server, with the entry that asked. -/
  putBack : List (OutboxId × Change)
  /-- The attempts that could not be settled because the row was gone. -/
  lost : List OutboxId

def Drain.start (account : AccountId) (store : Sqlite) : Drain :=
  ⟨account, store, .idle, [], [], [], [], [], []⟩

/-- Every entry an attempt of which has begun. -/
def Drain.sent (drain : Drain) : List OutboxId := drain.begun.map Prod.fst

/-- What taking an act back puts back of its entries: of those sent, and of those that it leaves in
the queue. -/
def Drain.undoes (drain : Drain) (write : Write) : List (OutboxId × Change) :=
  match write, (write.decides drain.store).map drain.store.commitSteps with
  | .takeBack entry _ _, some (.ok (written, _)) =>
    let queued := (drain.store.outbox.rows.map fun row => (OutboxId.mk row.1, row.2)).filter
      fun row => (written.outbox.get row.1.raw).isSome
    ((drain.begun ++ queued).filter fun row => queuedBy (waitingOf row) entry).flatMap fun row =>
      entry.inverse.changes.map fun change => (row.1, change)
  | _, _ => []

/-- Who makes a write: what another process queues is not remembered as replaced here. -/
inductive Writer where
  | here | elsewhere
deriving DecidableEq

inductive Event where
  | look (now : DateTime)
  /-- Address the next entry; `there` is what is already where a move given up would put it. -/
  | reach (there : List MessageId)
  /-- The attempt ends; `took` is what the server did of it. -/
  | answer (outcome : Outcome) (took : Took)
  | settle (now : DateTime)
  | write (writer : Writer) (write : Write)

/-- One step, `none` for one that cannot be taken there. -/
def step (drain : Drain) : Event → Option Drain
  | .look now =>
    match drain.phase with
    | .idle => some { drain with phase := .walking (drain.store.due drain.account now) }
    | _ => none
  | .reach there =>
    match drain.phase with
    | .walking [] => some { drain with phase := .idle }
    | .walking ((id, entry) :: rest) =>
      match drain.store.dispatch id with
      | .error _ => some { drain with phase := .idle }
      | .ok .wait => some { drain with phase := .walking rest }
      | .ok .moot => some { drain with phase := .settling id .ok false rest }
      | .ok (.lost reason) =>
        let settle : Settle :=
          if there.isEmpty then .failed reason (.fatal reason) else .inPart there
        some { drain with phase := .settling id settle false rest }
      | .ok (.send _) =>
        some { drain with
          phase := .sending id rest
          begun := drain.begun ++ [(id, entry)]
          uncounted := drain.uncounted ++ [id] }
    | _ => none
  | .answer outcome took =>
    match drain.phase with
    | .sending id rest =>
      let phase : Phase :=
        match outcome.settles with
        | none => .idle
        | some settle => .settling id settle outcome.halts rest
      some { drain with phase := phase, took := drain.took ++ [(id, took)] }
    | _ => none
  | .settle now =>
    match drain.phase with
    | .settling id settle halts rest =>
      match drain.store.settleIn id settle now with
      | .ok after =>
        some { drain with
          store := after
          phase := if halts then .idle else .walking rest
          uncounted :=
            if Sqlite.leavesQueue settle || Sqlite.countsTry settle then
              drain.uncounted.filter (· ≠ id)
            else drain.uncounted
          putBack := drain.putBack ++ ((drain.store.writesBack id settle).filter
            (oneSided after)).map fun change => (id, change) }
      | .error (.noEntry _) =>
        some { drain with phase := .idle, lost := drain.lost ++ [id] }
      | .error _ => some { drain with phase := .idle }
    | _ => none
  | .write writer write =>
    let written := write.apply drain.store
    let taken := write.takes drain.store
    some { drain with
      store :=
        match writer with
        | .here => written
        | .elsewhere => { written with replaced := drain.store.replaced }
      withdrawn := drain.withdrawn ++ taken.map Prod.fst
      putBack := drain.putBack ++
        ((taken.flatMap fun row => row.2.map fun change => (row.1, change)) ++
          drain.undoes write).filter fun row => oneSided written row.2 }

def run (drain : Drain) : List Event → Option Drain
  | [] => some drain
  | event :: rest => (step drain event).bind fun next => run next rest

end Run

end Mailo.Engine
