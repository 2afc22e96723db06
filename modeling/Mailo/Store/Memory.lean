import Mailo.Store.Rows

/-!
# The in-memory store's local writes

`Memory.writeChange` is the one writer of a patch's changes. A list of changes that only sets
message fields writes each message's registers in the list's order and touches nothing else.
-/

namespace Mailo.Store

open Domain Library

/-- The tables a local change reads or writes. -/
structure Memory where
  accounts : List AccountId
  messages : Table MessageId Message
  byKey : Table (AccountId × MessageKey) MessageId
  threads : Table ThreadId ThreadState
  labels : Table LabelId Label
  drafts : Table DraftId Draft
  outbox : Table OutboxId ProtoOp

namespace Memory

def empty : Memory := ⟨[], .empty, .empty, .empty, .empty, .empty, .empty⟩

def insertAccount (store : Memory) (account : AccountId) : Memory :=
  { store with
    accounts := if store.accounts.contains account then store.accounts
      else store.accounts ++ [account] }

def hasMessages (store : Memory) (thread : ThreadId) : Bool :=
  store.messages.values.any fun m => m.thread = thread

def dropEmptyThread (store : Memory) (thread : ThreadId) : Memory :=
  if store.hasMessages thread then store
  else { store with threads := store.threads.erase thread }

def upsertMessage (store : Memory) (message : Message) : Except StoreError Memory :=
  match (store.byKey.get (message.account, message.key)).filter (· ≠ message.id) with
  | some other => .error (.keyTaken other)
  | none =>
    let previous := store.messages.get message.id
    let unkeyed := match previous with
      | some prev => store.byKey.erase (prev.account, prev.key)
      | none => store.byKey
    let written : Memory :=
      { store with
        threads := store.threads.insertNew message.thread .fresh
        byKey := unkeyed.set (message.account, message.key) message.id
        messages := store.messages.set message.id message }.insertAccount message.account
    match previous with
    | some prev =>
      if prev.thread ≠ message.thread then .ok (written.dropEmptyThread prev.thread)
      else .ok written
    | none => .ok written

def deleteMessage (store : Memory) (id : MessageId) : Memory :=
  match store.messages.get id with
  | none => store
  | some prev =>
    { store with
      messages := store.messages.erase id
      byKey := store.byKey.erase (prev.account, prev.key) }.dropEmptyThread prev.thread

def isSubmitOf (draft : DraftId) : ProtoOp → Bool
  | .submit other _ _ _ _ => other = draft
  | _ => false

def writeChange (store : Memory) : Change → Except StoreError Memory
  | .messageRead id state =>
    .ok { store with messages := store.messages.modify id fun m => { m with read := state } }
  | .messageStar id star =>
    .ok { store with messages := store.messages.modify id fun m => { m with star := star } }
  | .messageFlag id hue =>
    .ok { store with messages := store.messages.modify id fun m => { m with flag := hue } }
  | .messageMailbox id role =>
    .ok { store with messages := store.messages.modify id fun m => { m with mailbox := role } }
  | .messageLabel id label .in =>
    .ok { store with
      messages := store.messages.modify id fun m =>
        { m with labels := addLabel m.labels label } }
  | .messageLabel id label .out =>
    .ok { store with
      messages := store.messages.modify id fun m =>
        { m with labels := m.labels.filter fun held => held ≠ label } }
  | .threadSnooze id snooze =>
    .ok { store with
      threads := store.threads.modify id fun held => { held with snooze := snooze } }
  | .threadPin id pin =>
    .ok { store with threads := store.threads.modify id fun held => { held with pin := pin } }
  | .threadMute id mute =>
    .ok { store with threads := store.threads.modify id fun held => { held with mute := mute } }
  | .threadFollowUp id followUp =>
    .ok { store with
      threads := store.threads.modify id fun held => { held with followUp := followUp } }
  | .messageUpsert message => store.upsertMessage message
  | .messageDelete id => .ok (store.deleteMessage id)
  | .labelUpsert label =>
    let written : Memory := { store with labels := store.labels.set label.id label }
    .ok (written.insertAccount label.account)
  | .draftUpsert draft =>
    let written : Memory := { store with drafts := store.drafts.set draft.id draft }
    .ok (written.insertAccount draft.account)
  | .draftDelete id =>
    -- A discarded draft's queued submission goes with it.
    .ok { store with
      drafts := store.drafts.erase id
      outbox := store.outbox.filter fun _ op => !isSubmitOf id op }

def writeChanges (store : Memory) (changes : List Change) : Except StoreError Memory :=
  changes.foldlM writeChange store

variable (store : Memory)

@[simp] theorem writeChanges_nil : store.writeChanges [] = .ok store := rfl

@[simp] theorem writeChanges_cons (change : Change) (rest : List Change) :
    store.writeChanges (change :: rest) =
      (store.writeChange change).bind fun next => next.writeChanges rest := rfl

theorem writeChange_setting {change : Change} {id : MessageId} {s : Setting}
    (h : change.setting = some (id, s)) :
    store.writeChange change =
      .ok { store with messages := store.messages.modify id fun m => m.put s } := by
  rw [Change.eq_ofSetting h]
  cases s with
  | label label membership => cases membership <;> rfl
  | _ => rfl

theorem writeChange_threadState {change : Change} {id : ThreadId} {f : ThreadState → ThreadState}
    (h : change.threadState = some (id, f)) :
    store.writeChange change = .ok { store with threads := store.threads.modify id f } := by
  cases change <;> simp_all [Change.threadState, writeChange]

/-- Every change sets a field of a message. -/
def Sets (changes : List Change) : Prop := ∀ change ∈ changes, change.setting ≠ none

/-- The writes reach each message's registers in order, and nothing but messages. -/
theorem writeChanges_sets {changes : List Change} (h : Sets changes) :
    ∃ after, store.writeChanges changes = .ok after ∧ after.threads = store.threads ∧
      ∀ id, after.messages.get id =
        (store.messages.get id).map fun m => Registers.putAll m (settingsOf id changes) := by
  induction changes generalizing store with
  | nil => exact ⟨store, rfl, rfl, fun id => by simp⟩
  | cons change rest ih =>
    obtain ⟨⟨id, s⟩, hs⟩ := Option.ne_none_iff_exists'.mp (h change (.head _))
    have hrest : Sets rest := fun c hc => h c (.tail _ hc)
    obtain ⟨after, hok, hthreads, hget⟩ :=
      ih { store with messages := store.messages.modify id fun m => m.put s } hrest
    refine ⟨after, ?_, hthreads, ?_⟩
    · rw [writeChanges_cons, writeChange_setting store hs]
      exact hok
    · intro other
      rw [hget, Table.get_modify]
      by_cases heq : other = id
      · subst heq
        have hcons : settingsOf other (change :: rest) = s :: settingsOf other rest := by
          simp [settingsOf, hs]
        rw [if_pos rfl, Option.map_map, hcons]
        rfl
      · have hcons : settingsOf other (change :: rest) = settingsOf other rest := by
          have hne : ¬ id = other := fun h => heq h.symm
          simp [settingsOf, hs, hne]
        rw [if_neg heq, hcons]

end Memory

end Mailo.Store
