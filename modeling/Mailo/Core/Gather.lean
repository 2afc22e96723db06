import Mailo.Store.Sqlite.Framing

/-!
# Reading what a decision is made over

What an arrival is decided over, read from the store: the account's labels, the conversations the
messages are in, and what is known of each message. What the junk filter knows of a message from
contacts, the server's verdict and its own counts is a parameter.
-/

namespace Mailo.Core

open Domain Logic Store

def threadView (store : Sqlite) (id : ThreadId) : Option ThreadView :=
  (store.thread id).map fun loaded => ⟨loaded, loaded.messages.filterMap store.message⟩

/-- The conversations and the evidence read for the messages before. -/
structure ArrivalInput where
  threads : List ThreadView
  evidence : List Evidence

/-- One message more; one that is gone, or on another account, is left out. -/
def gatherOne (store : Sqlite) (account : AccountId) (standing : Message → Standing)
    (input : ArrivalInput) (id : MessageId) : ArrivalInput :=
  match store.message id, store.placing id with
  | some message, some places =>
    if message.account ≠ account then input
    else
      let known := fun threads : List ThreadView =>
        (⟨threads, input.evidence ++ [⟨message.id, standing message, places⟩]⟩ : ArrivalInput)
      if input.threads.any fun view => view.thread.summary.id = message.thread then
        known input.threads
      else
        match threadView store message.thread with
        | some view => known (input.threads ++ [view])
        | none => input
  | _, _ => input

def arrivalInput (store : Sqlite) (account : AccountId) (standing : Message → Standing)
    (messages : List MessageId) : ArrivalInput :=
  messages.foldl (gatherOne store account standing) ⟨[], []⟩

/-- What does not come from the mail: the account's server and rules, and the user's own. -/
structure Circumstances where
  account : AccountId
  hasServer : Bool
  caps : AccountCaps
  rules : List Rule
  vips : List String
  names : List String
  policy : Policy
  standing : Message → Standing

def snapshot (store : Sqlite) (given : Circumstances) (messages : List MessageId) :
    ArrivalSnapshot :=
  let input := arrivalInput store given.account given.standing messages
  { account := given.account
    hasServer := given.hasServer
    caps := given.caps
    rules := given.rules
    labels := store.labelsOf given.account
    vips := given.vips
    names := given.names
    policy := given.policy
    threads := input.threads
    evidence := input.evidence }

/-- The ledger in the store itself: every operation is a commit of its own, and conversations,
labels and places are read again before the next is decided. -/
def eachInItsOwn [Unicode] (account : AccountId) (now : DateTime) (threads : List ThreadId) :
    Ledger (Except StoreError Sqlite) where
  views
    | .ok store => threads.filterMap (threadView store)
    | .error _ => []
  labels
    | .ok store => store.labelsOf account
    | .error _ => []
  places result id :=
    match result with
    | .ok store => store.placing id
    | .error _ => none
  make result id label := do
    let store ← result
    let (written, _) ← store.commitSteps ⟨account, now, ⟨id, [.labelUpsert label]⟩, [], []⟩
    return written
  write result _ commit := do
    let store ← result
    let (written, _) ← store.commitSteps { commit with account := account }
    return written

inductive Asked where
  | arrived
  | picked (speaking : Speaking)
deriving DecidableEq

section Asked

variable [Unicode] [FoldTable] [Judging] {σ : Type}

def Asked.over (asked : Asked) (snapshot : ArrivalSnapshot) (ledger : Ledger σ) (now : DateTime)
    (fresh : Fresh) (fold : ArrivalFold σ) (messages : List MessageId) : ArrivalFold σ :=
  match asked with
  | .arrived => fold.onArrival snapshot ledger now fresh messages
  | .picked speaking => fold.applyRules snapshot ledger now fresh messages speaking

/-- The one commit, and what it has to tell. -/
def Asked.inOne (asked : Asked) (snapshot : ArrivalSnapshot) (messages : List MessageId)
    (now : DateTime) (fresh : Fresh) : Arrival :=
  match asked with
  | .arrived => Logic.onArrival snapshot messages now fresh
  | .picked speaking => Logic.applyRules snapshot messages speaking now fresh

end Asked

end Mailo.Core
