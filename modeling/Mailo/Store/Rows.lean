import Mailo.Domain.Field
import Mailo.Library.Table

/-!
# What both stores keep and answer

The failures of a store, the state a thread keeps of its own, and the words a drain and the
outbox exchange.
-/

namespace Mailo.Store

open Domain

/-- The failures the modelled writes can end in. -/
inductive StoreError where
  /-- Another message is already held under this account and key. -/
  | keyTaken (other : MessageId)
  | nameTaken (other : LabelId)
  /-- A row names another that is not held. -/
  | foreignKey
  | noThread (thread : ThreadId)
  | noEntry (id : OutboxId)
  | notQueued
  | stale
  | noDraft (id : DraftId)
  /-- What earlier commits wrote stays; `cause` stopped the rest. -/
  | inPart (written : List Change) (cause : StoreError)
deriving DecidableEq

/-- The state of a thread the user sets, which no message says. -/
structure ThreadState where
  snooze : Snooze
  pin : Pin
  mute : Mute
  followUp : FollowUp
deriving DecidableEq

namespace ThreadState

def fresh : ThreadState := ⟨.inactive, .unpinned, .unmuted, .inactive⟩

/-- The state a summary shows. -/
def shown (summary : ThreadSummary) : ThreadState :=
  ⟨summary.snooze, summary.pin, summary.mute, summary.followUp⟩

end ThreadState

/-- The addressing columns of one row of the map of remote addresses. -/
structure Columns where
  mailbox : String
  uidvalidity : Option Int
  uid : Option Int
  uidl : Option String
deriving DecidableEq

def graphMark : Int := -2

def jmapMark : Int := -3

/-- Where an address is written. -/
def columns : RemoteRef → Columns
  | .imap mailbox uidvalidity uid => ⟨mailbox, some uidvalidity.toNat, some uid.toNat, none⟩
  | .pop uidl => ⟨"INBOX", none, none, some uidl⟩
  | .graph mailbox id => ⟨mailbox, some graphMark, none, some id⟩
  | .jmap emailId => ⟨jmapAll, some jmapMark, none, some emailId⟩

/-- What a queued entry asks of the server at its turn. -/
inductive Dispatch where
  | send (op : ProtoOp)
  | wait
  | moot
  | lost (why : String)
deriving DecidableEq

/-- How an attempt at a queued entry ended. -/
inductive Settle where
  | ok
  | failed (reason : String) (retry : Retry)
  | inPart (done : List MessageId)
deriving DecidableEq

end Mailo.Store

namespace Mailo.Domain.Change

open Store

def messageOf : Change → Option MessageId
  | .messageRead id _ | .messageStar id _ | .messageFlag id _ | .messageMailbox id _
  | .messageLabel id _ _ | .messageDelete id => some id
  | .messageUpsert message => some message.id
  | .threadSnooze _ _ | .threadPin _ _ | .threadMute _ _ | .threadFollowUp _ _
  | .labelUpsert _ | .draftUpsert _ | .draftDelete _ => none

def threadState : Change → Option (ThreadId × (ThreadState → ThreadState))
  | .threadSnooze id snooze => some (id, fun held => { held with snooze := snooze })
  | .threadPin id pin => some (id, fun held => { held with pin := pin })
  | .threadMute id mute => some (id, fun held => { held with mute := mute })
  | .threadFollowUp id followUp => some (id, fun held => { held with followUp := followUp })
  | _ => none

end Mailo.Domain.Change
