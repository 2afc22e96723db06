import Mailo.Domain.Field
import Mailo.Domain.Rule
import Mailo.Logic.Junk

/-!
# What arrived mail is made to do

The user's rules, muted conversations and the junk filter, decided as one fold over the arrived
messages. The fold reads conversations, labels and places from a ledger, and each operation it
decides is written to the ledger before the next is decided. `Drafted` is the ledger in memory, from
which one commit is made.
-/

namespace Mailo.Domain

/-- Where a message is held on the server, and what is queued to move or copy it. -/
structure Placing where
  addresses : List MailboxRef
  moving : List String
  copying : List MailboxRef
  unplaced : Bool
deriving DecidableEq

def Placed.ofMessageCopied (role : MailboxRole) (addresses : List MailboxRef) (roles : FolderRoles)
    (moving : List String) (copying : List MailboxRef) : List Placed :=
  let filed := if addresses.any fun held => roles.filedAs held.path = role then Filed.asHeld else .away
  (addresses ++ copying.filter fun target => !addresses.contains target).map fun mailbox =>
    ⟨mailbox, filed,
      if moving.any fun target => target ≠ mailbox.path then .elsewhere else .staying⟩

def Placing.placed (placing : Placing) (role : MailboxRole) (roles : FolderRoles) : List Placed :=
  Placed.ofMessageCopied role placing.addresses roles placing.moving placing.copying

end Mailo.Domain

namespace Mailo.Logic

open Domain

structure ThreadView where
  thread : Thread
  messages : List Message
deriving DecidableEq

def putFirst (id : MessageId) (s : Setting) : List Message → List Message
  | [] => []
  | m :: rest => if m.id = id then m.put s :: rest else m :: putFirst id s rest

namespace ThreadView

def holds (view : ThreadView) (id : MessageId) : Bool := view.messages.any fun m => m.id = id

/-- One change made to the conversation, when it is about a message of it or its own state. -/
def write (view : ThreadView) (change : Change) : ThreadView :=
  let summary := view.thread.summary
  let kept := fun summary : ThreadSummary =>
    { view with thread := { view.thread with summary := summary } }
  match change.setting with
  | some (id, s) => { view with messages := putFirst id s view.messages }
  | none =>
    match change with
    | .threadSnooze id snooze => if id = summary.id then kept { summary with snooze } else view
    | .threadPin id pin => if id = summary.id then kept { summary with pin } else view
    | .threadMute id mute => if id = summary.id then kept { summary with mute } else view
    | .threadFollowUp id followUp =>
      if id = summary.id then kept { summary with followUp } else view
    | _ => view

/-- The conversation as it stands once a patch is written, its summary derived again. -/
def apply [Unicode] (view : ThreadView) (patch : Patch) : ThreadView :=
  let written := patch.changes.foldl write view
  let kept := written.thread.summary
  match ThreadSummary.derive view.thread.summary.id written.messages kept.snooze kept.pin kept.mute
    kept.followUp with
  | some summary => { written with thread := { written.thread with summary := summary } }
  | none => written

end ThreadView

structure Act where
  thread : ThreadId
  target : Target
  op : Op

/-- What an act is written as, `none` for a conversation that holds no message. -/
def applied (view : ThreadView) (act : Act) (caps : AccountCaps) (hasServer : Bool)
    (now : DateTime) (forwardId inverseId : ChangeId) : Option Commit :=
  view.messages.head?.map fun first =>
    (act.op.apply act.target view.thread view.messages caps forwardId inverseId).intoCommit
      first.account now hasServer

/-- What the junk filter needs to know of one arrived message besides the message. -/
structure Standing where
  acquaintance : Acquaintance
  serverSpam : Bool
  counts : JunkCounts
deriving DecidableEq

structure Evidence where
  message : MessageId
  standing : Standing
  places : Placing
deriving DecidableEq

structure ArrivalSnapshot where
  account : AccountId
  hasServer : Bool
  caps : AccountCaps
  rules : List Rule
  labels : List Label
  vips : List String
  names : List String
  policy : Policy
  threads : List ThreadView
  evidence : List Evidence

/-- The fresh identifiers a decision draws, one after another. -/
structure Fresh where
  label : Nat → LabelId
  change : Nat → ChangeId

/-- Whether rules carry out the actions that send mail or raise a notification. -/
inductive Speaking where
  | yes | no
deriving DecidableEq

/-- A forward or a reply a rule asks for. -/
structure DraftRequest where
  message : MessageId
  action : RuleAction
  rule : RuleId
  made : DateTime
  replyDays : Nat
deriving DecidableEq

/-- What an arrival asks of the caller once it is written. -/
inductive ArrivalEffect where
  | notice (message : MessageId)
  | ruleSend (request : DraftRequest)
deriving DecidableEq

structure Taught where
  account : AccountId
  message : MessageId
  words : List String
deriving DecidableEq

def speaks : RuleAction → Bool
  | .notify | .forward _ | .reply _ => true
  | _ => false

/-- What the fold decides over, and writes each operation to. -/
structure Ledger (σ : Type) where
  views : σ → List ThreadView
  labels : σ → List Label
  places : σ → MessageId → Option Placing
  make : σ → ChangeId → Label → σ
  write : σ → MessageId → Commit → σ

/-- What the fold has come to: its ledger, the ids drawn, and what it has to tell. -/
structure ArrivalFold (σ : Type) where
  held : σ
  labelsDrawn : Nat
  changesDrawn : Nat
  rows : List Taught
  taught : List (List String)
  effects : List ArrivalEffect
  acted : List (MessageId × List String)
  examined : Nat
  muted : List MessageId
  junk : List MessageId

namespace ArrivalFold

variable {σ : Type}

def begin (held : σ) : ArrivalFold σ := ⟨held, 0, 0, [], [], [], [], 0, [], []⟩

section Fold

variable (snapshot : ArrivalSnapshot) (ledger : Ledger σ) (now : DateTime) (fresh : Fresh)

def message (fold : ArrivalFold σ) (id : MessageId) : Option Message :=
  ((ledger.views fold.held).flatMap ThreadView.messages).find? fun m => m.id = id

def viewOf (fold : ArrivalFold σ) (id : MessageId) : Option ThreadView :=
  (ledger.views fold.held).find? fun view => view.holds id

/-- The label of a name among the account's, the exact name before the same in another case. -/
def labelFound (labels : List Label) (name : String) : Option LabelId :=
  ((labels.find? fun label => label.name = name).or
    (labels.find? fun label => Text.eqIgnoreAsciiCase label.name.toList name.toList)).map Label.id

def labelNamed (fold : ArrivalFold σ) (name : String) (origin : LabelOrigin) :
    ArrivalFold σ × LabelId :=
  match labelFound (ledger.labels fold.held) name with
  | some label => (fold, label)
  | none =>
    let label : Label := ⟨fresh.label fold.labelsDrawn, snapshot.account, name, none, origin⟩
    ({ fold with
      held := ledger.make fold.held (fresh.change fold.changesDrawn) label
      labelsDrawn := fold.labelsDrawn + 1
      changesDrawn := fold.changesDrawn + 1 }, label.id)

/-- Apply an operation to one message, here and to the server when there is a server to tell. -/
def perform (fold : ArrivalFold σ) (op : Op) (id : MessageId) : ArrivalFold σ :=
  match fold.viewOf ledger id with
  | none => fold
  | some view =>
    match applied view ⟨view.thread.summary.id, .messages [id], op⟩ snapshot.caps
      snapshot.hasServer now (fresh.change fold.changesDrawn)
      (fresh.change (fold.changesDrawn + 1)) with
    | none => fold
    | some acted =>
      -- Nothing changed, so there is nothing to tell the server either.
      if acted.forward.changes.isEmpty then
        { fold with changesDrawn := fold.changesDrawn + 2 }
      else
        { fold with
          held := ledger.write fold.held id acted
          changesDrawn := fold.changesDrawn + 2 }

def foldersOf (copying : List MailboxRef) : List MailboxRef :=
  (copying.insertionSort fun a b => a.path ≤ b.path).destutter (· ≠ ·)

/-- Where a message is listed, as a rule about a folder weighs it. -/
def placed (fold : ArrivalFold σ) (message : Message) : List Placed :=
  match ledger.places fold.held message.id with
  | none => []
  | some places =>
    Placing.placed { places with copying := foldersOf places.copying } message.mailbox
      snapshot.caps.folders

def say (fold : ArrivalFold σ) (message : MessageId) (action : RuleAction) (rule : Rule) :
    ArrivalFold σ :=
  match action with
  | .notify =>
    if fold.effects.contains (.notice message) then fold
    else { fold with effects := fold.effects ++ [.notice message] }
  | .forward _ | .reply _ =>
    { fold with
      effects := fold.effects ++ [.ruleSend ⟨message, action, rule.id, rule.made, rule.replyDays⟩] }
  | _ => fold

/-- The operation an action means, with any label it names found or made. -/
def opFor (fold : ArrivalFold σ) : RuleAction → ArrivalFold σ × Option Op
  | .label name =>
    ((fold.labelNamed snapshot ledger fresh name .user).1,
      some (.label (fold.labelNamed snapshot ledger fresh name .user).2 .in))
  | .file path =>
    ((fold.labelNamed snapshot ledger fresh path .provider).1,
      some (.file (fold.labelNamed snapshot ledger fresh path .provider).2))
  | .archive => (fold, some .archive)
  | .trash => (fold, some .trash)
  | .spam => (fold, some .spam)
  | .markRead => (fold, some (.setRead .read))
  | .star => (fold, some (.setStar .starred))
  | .markUnread => (fold, some (.setRead .unread))
  | .notify | .forward _ | .reply _ => (fold, none)

def carryOut (id : MessageId) (speaking : Speaking) (rule : Rule) (fold : ArrivalFold σ)
    (action : RuleAction) : ArrivalFold σ :=
  if speaks action then if speaking = .yes then fold.say id action rule else fold
  else
    match fold.opFor snapshot ledger fresh action with
    | (found, some op) => found.perform snapshot ledger now fresh op id
    | (found, none) => found

end Fold

section Rules

variable [Unicode] [FoldTable] (snapshot : ArrivalSnapshot) (ledger : Ledger σ) (now : DateTime)
  (fresh : Fresh)

/-- What a rule is asked of: the message as the rules before it left it. -/
def ctxOf (fold : ArrivalFold σ) (message : Message) : MatchCtx where
  summary := oneMessage message
  corpus := message.body.text
  folders := fold.placed snapshot ledger message
  sizes := [messageSize message]
  cc := message.cc
  vips := snapshot.vips
  now := now

/-- Rules in order over one message, with the names of those that acted. -/
def rulesFrom (id : MessageId) (speaking : Speaking) :
    ArrivalFold σ → List Rule → ArrivalFold σ × List String
  | fold, [] => (fold, [])
  | fold, rule :: rest =>
    match fold.message ledger id with
    | none => (fold, [])
    | some message =>
      if rule.fits (fold.ctxOf snapshot ledger now message) then
        let acted := rule.actions.foldl (carryOut snapshot ledger now fresh id speaking rule) fold
        if rule.after = .stop then (acted, [rule.name])
        else
          let (left, fired) := rulesFrom id speaking acted rest
          (left, rule.name :: fired)
      else rulesFrom id speaking fold rest

def rulesOver (fold : ArrivalFold σ) (id : MessageId) (rules : List Rule) (speaking : Speaking) :
    ArrivalFold σ :=
  let (left, fired) :=
    rulesFrom snapshot ledger now fresh id speaking { fold with examined := fold.examined + 1 } rules
  if fired.isEmpty then left else { left with acted := left.acted ++ [(id, fired)] }

end Rules

section Sift

variable (snapshot : ArrivalSnapshot) (ledger : Ledger σ) (now : DateTime) (fresh : Fresh)

/-- A message that arrived in a muted conversation is read, and archived from the inbox. -/
def mute (fold : ArrivalFold σ) (id : MessageId) : ArrivalFold σ :=
  match fold.viewOf ledger id with
  | none => fold
  | some view =>
    if view.thread.summary.mute ≠ .muted then fold
    else
      let read := fold.perform snapshot ledger now fresh (.setRead .read) id
      let kept :=
        if (read.message ledger id).any fun m => m.mailbox = .inbox then
          read.perform snapshot ledger now fresh .archive id
        else read
      { kept with muted := kept.muted ++ [id] }

variable [Unicode] [Judging]

def judgedJunk (fold : ArrivalFold σ) (message : Message) : Bool :=
  match snapshot.evidence.find? fun e => e.message = message.id with
  | none => false
  | some evidence =>
    message.body ≠ .absent &&
      !spared evidence.standing.acquaintance message snapshot.policy snapshot.names &&
      ((snapshot.policy.serverSays = .yes && evidence.standing.serverSpam) ||
        Judging.sure (countsFor evidence.standing.counts fold.taught message))

/-- One message judged, or learned from when the server called it spam. -/
def siftOne (fold : ArrivalFold σ) (id : MessageId) : ArrivalFold σ :=
  match fold.message ledger id with
  | none => fold
  | some message =>
    if message.account ≠ snapshot.account then fold
    else if message.mailbox = .spam then
      { fold with
        rows := fold.rows ++ [⟨message.account, id, words message⟩]
        taught := fold.taught ++ [words message] }
    else if message.mailbox ≠ .inbox then fold
    else if fold.judgedJunk snapshot message then
      let (found, op) :=
        match snapshot.policy.treat with
        | .move => (fold, Op.spam)
        | .mark =>
          let (found, label) := fold.labelNamed snapshot ledger fresh junkLabel .user
          (found, Op.label label .in)
      let acted := found.perform snapshot ledger now fresh op id
      { acted with junk := acted.junk ++ [id] }
    else fold

def sift (fold : ArrivalFold σ) (arrived : List MessageId) : ArrivalFold σ :=
  if snapshot.policy.filtering = .off then fold
  else arrived.foldl (siftOne snapshot ledger now fresh) fold

end Sift

section Arrivals

variable [Unicode] [FoldTable] [Judging] (snapshot : ArrivalSnapshot) (ledger : Ledger σ)
  (now : DateTime) (fresh : Fresh)

def deliver (rules : List Rule) (fold : ArrivalFold σ) (id : MessageId) : ArrivalFold σ :=
  match fold.message ledger id with
  | none => fold
  | some message =>
    if message.account ≠ snapshot.account ∨ message.mailbox ≠ .inbox then fold
    else
      let ruled :=
        if rules.isEmpty then fold
        else fold.rulesOver snapshot ledger now fresh id rules .yes
      ruled.mute snapshot ledger now fresh id

def onArrival (fold : ArrivalFold σ) (arrived : List MessageId) : ArrivalFold σ :=
  let sifted :=
    if snapshot.policy.order = .beforeRules then fold.sift snapshot ledger now fresh arrived
    else fold
  let delivered :=
    arrived.foldl (deliver snapshot ledger now fresh (ordered snapshot.rules)) sifted
  if snapshot.policy.order = .afterRules then delivered.sift snapshot ledger now fresh arrived
  else delivered

def pick (rules : List Rule) (speaking : Speaking) (fold : ArrivalFold σ) (id : MessageId) :
    ArrivalFold σ :=
  match fold.message ledger id with
  | none => fold
  | some message =>
    if message.account ≠ snapshot.account then fold
    else fold.rulesOver snapshot ledger now fresh id rules speaking

def applyRules (fold : ArrivalFold σ) (picked : List MessageId) (speaking : Speaking) :
    ArrivalFold σ :=
  let rules := ordered snapshot.rules
  if rules.isEmpty then fold
  else picked.foldl (pick snapshot ledger now fresh rules speaking) fold

end Arrivals

end ArrivalFold

/-! ## One commit -/

/-- The ledger in memory: the conversations as the operations leave them, and what is to be
written. -/
structure Drafted where
  views : List ThreadView
  labels : List Label
  places : List (MessageId × Placing)
  forward : List Change
  queue : List Commit.Queue

namespace Drafted

def begin (snapshot : ArrivalSnapshot) : Drafted :=
  ⟨snapshot.threads, snapshot.labels, snapshot.evidence.map fun e => (e.message, e.places), [], []⟩

def modifyFirst (id : MessageId) (f : Placing → Placing) :
    List (MessageId × Placing) → List (MessageId × Placing)
  | [] => []
  | row :: rest => if row.1 = id then (row.1, f row.2) :: rest else row :: modifyFirst id f rest

/-- A folder a message is now on its way to. Queued only for a message the server holds, or will
find. -/
def sendTo (account : AccountId) (folder : String) (copied : Bool) (places : Placing) : Placing :=
  if places.addresses.isEmpty && !places.unplaced then places
  else if copied then { places with copying := places.copying ++ [⟨account, folder⟩] }
  else { places with moving := places.moving ++ [folder] }

def noteQueued (account : AccountId) (labels : List Label) (places : List (MessageId × Placing))
    (intent : RemoteIntent) : List (MessageId × Placing) :=
  let noted := fun (messages : List MessageId) (label : LabelId) (copied : Bool) =>
    match labels.find? fun held => held.id = label with
    | none => places
    | some held => messages.foldl (fun places message =>
      modifyFirst message (sendTo account held.name copied) places) places
  match intent with
  | .file messages label => noted messages label false
  | .copy messages label => noted messages label true
  | _ => places

def modifyHolding (id : MessageId) (f : ThreadView → ThreadView) :
    List ThreadView → List ThreadView
  | [] => []
  | view :: rest => if view.holds id then f view :: rest else view :: modifyHolding id f rest

def ledger [Unicode] (snapshot : ArrivalSnapshot) : Ledger Drafted where
  views drafted := drafted.views
  labels drafted := drafted.labels
  places drafted id := (drafted.places.find? fun row => row.1 = id).map Prod.snd
  make drafted _ label :=
    { drafted with
      forward := drafted.forward ++ [.labelUpsert label]
      labels := drafted.labels ++ [label] }
  write drafted id commit :=
    { drafted with
      views := modifyHolding id (fun view => view.apply commit.forward) drafted.views
      forward := drafted.forward ++ commit.forward.changes
      places := (commit.queue.map Commit.Queue.intent).foldl
        (noteQueued snapshot.account drafted.labels) drafted.places
      queue := drafted.queue ++ commit.queue }

end Drafted

/-- What an arrival came to: the rows of what the junk filter learns stand beside the commit. -/
structure Arrival where
  commit : Commit
  rows : List Taught
  effects : List ArrivalEffect
  acted : List (MessageId × List String)
  examined : Nat
  muted : List MessageId
  junk : List MessageId

namespace ArrivalFold

def finish (snapshot : ArrivalSnapshot) (now : DateTime) (fresh : Fresh)
    (fold : ArrivalFold Drafted) : Arrival where
  commit :=
    { account := snapshot.account
      now := now
      forward := ⟨fresh.change fold.changesDrawn, fold.held.forward⟩
      queue := fold.held.queue
      rows := [] }
  rows := fold.rows
  effects := fold.effects
  acted := fold.acted
  examined := fold.examined
  muted := fold.muted
  junk := fold.junk

end ArrivalFold

section Arrivals

variable [Unicode] [FoldTable] [Judging]

def onArrival (snapshot : ArrivalSnapshot) (arrived : List MessageId) (now : DateTime)
    (fresh : Fresh) : Arrival :=
  ((ArrivalFold.begin (Drafted.begin snapshot)).onArrival snapshot (Drafted.ledger snapshot) now
    fresh arrived).finish snapshot now fresh

def applyRules (snapshot : ArrivalSnapshot) (picked : List MessageId) (speaking : Speaking)
    (now : DateTime) (fresh : Fresh) : Arrival :=
  ((ArrivalFold.begin (Drafted.begin snapshot)).applyRules snapshot (Drafted.ledger snapshot) now
    fresh picked speaking).finish snapshot now fresh

end Arrivals

end Mailo.Logic
