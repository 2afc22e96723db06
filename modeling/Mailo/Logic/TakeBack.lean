import Mailo.Logic.Arrival
import Mailo.Store.Junk
import Mathlib.Data.List.Destutter

/-!
# Taking an act back

What puts an act back is its inverse written like any other patch, the reverse queued for the
server where there is one, and a move or copy not yet sent taken out of the outbox. What the act
taught the junk filter is to be forgotten with it.
-/

namespace Mailo.Logic

open Domain

/-- A send held for a time, taken back: how large its pictures were to be is left out. -/
structure Resend where
  draft : DraftId
  due : DateTime
deriving DecidableEq

structure Undo where
  thread : Option ThreadId
  account : AccountId
  forward : Patch
  inverse : Patch
  remote : Option RemoteIntent
  resend : Option Resend
deriving DecidableEq

/-! ## What the server must be told -/

def maxByKey {α : Type} (key : α → Nat) (rows : List α) : Option α :=
  rows.foldl (fun best row =>
    match best with
    | none => some row
    | some held => if key held ≤ key row then some row else some held) none

/-- Messages under what each of them was, in the order of `states`, none of them empty. -/
def groupBy {κ : Type} [DecidableEq κ] (states : List κ) (rows : List (κ × MessageId)) :
    List (κ × List MessageId) :=
  (states.map fun state => (state, (rows.filter fun row => row.1 = state).map Prod.snd)).filter
    fun group => !group.2.isEmpty

def allRoles : List MailboxRole := [.inbox, .archive, .sent, .drafts, .trash, .spam]

def allHues : List Hue := [.red, .orange, .yellow, .green, .blue, .purple, .gray]

def reverseMailbox (inverse : Patch) : Option RemoteIntent :=
  let moved := inverse.changes.filterMap fun change =>
    match change with
    | .messageMailbox id role => some (role, id)
    | _ => none
  (maxByKey (fun group => group.2.length) (groupBy allRoles moved)).map fun group =>
    .setMailbox group.2 group.1

/-- What a flag in `hue` was before, said to the server. -/
def reverseFlag (messages : List MessageId) (hue : Hue) (inverse : Patch) : Option RemoteIntent :=
  let state := fun message : MessageId =>
    let unflagged := inverse.changes.any fun change =>
      match change with
      | .messageStar id .unstarred => id = message
      | _ => false
    let was := inverse.changes.findSome? fun change =>
      match change with
      | .messageFlag id before => if id = message then some before else none
      | _ => none
    if unflagged then none else some (was.getD hue)
  let states := none :: allHues.map some
  (maxByKey (fun group => group.2.length)
    (groupBy states (messages.map fun message => (state message, message)))).map fun group =>
      match group.1 with
      | some before => .setFlag group.2 before
      | none => .setFlags group.2 none (some .unstarred)

/-- An unflagging undone where a flag had a colour: most of them, red winning a tie. -/
def recolour (inverse : Patch) : Option RemoteIntent :=
  let coloured := inverse.changes.filterMap fun change =>
    match change with
    | .messageFlag id hue => some (id, hue)
    | _ => none
  let wore := fun id : MessageId => (coloured.reverse.find? fun row => row.1 = id).map Prod.snd
  let flagged := inverse.changes.filterMap fun change =>
    match change with
    | .messageStar id .starred => some id
    | _ => none
  let keys := ((coloured.map Prod.fst).eraseDups).insertionSort fun a b => a.raw ≤ b.raw
  let starred := keys.foldl (fun held id => if held.contains id then held else held ++ [id]) flagged
  let groups := groupBy allHues (starred.map fun id => ((wore id).getD .red, id))
  match maxByKey (fun group => 2 * group.2.length + if group.1 = .red then 1 else 0) groups with
  | none => none
  | some (hue, messages) => if hue = .red then none else some (.setFlag messages hue)

def reverseFlags (inverse : Patch) : Option RemoteIntent :=
  match recolour inverse with
  | some coloured => some coloured
  | none =>
    let messages := inverse.changes.filterMap fun change =>
      match change with
      | .messageRead id _ | .messageStar id _ => some id
      | _ => none
    let read := (inverse.changes.filterMap fun change =>
      match change with
      | .messageRead _ state => some state
      | _ => none).getLast?
    let star := (inverse.changes.filterMap fun change =>
      match change with
      | .messageStar _ state => some state
      | _ => none).getLast?
    let named := messages.destutter (· ≠ ·)
    if named.isEmpty then none else some (.setFlags named read star)

def reverseLabels (inverse : Patch) : Option RemoteIntent :=
  let rows := inverse.changes.filterMap fun change =>
    match change with
    | .messageLabel id label membership => some (id, label, membership)
    | _ => none
  let side := fun membership : Membership =>
    ((rows.filter fun row => row.2.2 = membership).map fun row => row.2.1).eraseDups
  let named := (rows.map Prod.fst).destutter (· ≠ ·)
  if named.isEmpty then none else some (.setLabels named (side .in) (side .out))

/-- The folder work that takes `work` back; a deletion that took mail with it has none. -/
def reverseFolder : FolderWork → Option FolderWork
  | .create path => some (.delete path .refuse)
  | .rename origin target => some (.rename target origin)
  | .delete path .refuse => some (.create path)
  | .delete _ .allow => none
  | .subscribe path .subscribed => some (.subscribe path .unsubscribed)
  | .subscribe path .unsubscribed => some (.subscribe path .subscribed)

/-- What the server must be told to undo `remote`: only the kind of change the operation sent. A
filing has no reverse, since the address it has in the folder comes with that folder's next sync,
and one the server has been sent stays filed. -/
def reverseIntent (remote : RemoteIntent) (inverse : Patch) : Option RemoteIntent :=
  match remote with
  | .setMailbox _ _ => reverseMailbox inverse
  | .setFlag messages hue => reverseFlag messages hue inverse
  | .setFlags _ _ _ => reverseFlags inverse
  | .setLabels _ _ _ => reverseLabels inverse
  | .folder work => (reverseFolder work).map .folder
  | .send _ _ _ _ _ | .addKeyword _ _ | .append _ _ _ _ | .file _ _ | .copy _ _ | .destroy _
  | .keepDraft _ _ _ | .dropDraft _ _ _ => none

structure Waiting where
  id : OutboxId
  op : ProtoOp
  undo : Patch
  forward : Option ChangeId
  attempts : Nat
deriving DecidableEq

/-- Whether `waiting` is the work the act queued: named by the act's patch or, queued before acts
were named, by its undo. -/
def queuedBy (waiting : Waiting) (entry : Undo) : Bool :=
  match waiting.forward with
  | some named => named = entry.forward.id
  | none => waiting.undo = entry.inverse

/-- The queued move or copy an act made, while the server has not been tried with it. -/
def queuedFiling (waiting : List Waiting) (entry : Undo) : Option Waiting :=
  let queuedAs : Option (ProtoOp → Bool) :=
    match entry.remote with
    | some (.file _ _) => some fun op =>
      match op with
      | .file _ _ => true
      | _ => false
    | some (.copy _ _) => some fun op =>
      match op with
      | .copy _ _ => true
      | _ => false
    | _ => none
  queuedAs.bind fun asked =>
    waiting.find? fun work => asked work.op && work.attempts = 0 && queuedBy work entry

def messagesIn (patch : Patch) : List MessageId :=
  patch.changes.filterMap fun change =>
    match change with
    | .messageRead id _ | .messageStar id _ | .messageMailbox id _ | .messageLabel id _ _
    | .messageDelete id => some id
    | .messageUpsert message => some message.id
    | _ => none

/-- Whether a queued entry acts on any of `messages`, or on any server message `filing` names; an
operation that cannot be read counts as touching them. -/
def touches (later : Waiting) (messages : List MessageId) (filing : ProtoOp) : Bool :=
  (messagesIn later.undo).any messages.contains ||
    match filing with
    | .file ours _ | .copy ours _ =>
      match later.op with
      | .setFlags remotes _ _ | .setMailbox remotes _ | .setLabels remotes _ _ | .file remotes _
      | .copy remotes _ | .addKeyword remotes _ | .expunge remotes | .destroy remotes =>
        remotes.any ours.contains
      | .append _ _ _ _ | .submit _ _ _ _ _ | .folder _ | .keepDraft _ _ _ | .dropDraft _ _ _ =>
        false
      | _ => true
    | _ => true

/-- Whether a move or a copy, taken back before the server heard of it, is taken out of the outbox
too: not when anything queued after it acts on the same messages. -/
def withdrawable (waiting : List Waiting) (entry : Undo) : Bool :=
  match entry.remote with
  | some (.file messages _) | some (.copy messages _) =>
    match queuedFiling waiting entry with
    | none => false
    | some filing =>
      let ours := messages ++ messagesIn filing.undo
      !(waiting.any fun later =>
        decide (filing.id.raw < later.id.raw) && touches later ours filing.op)
  | _ => false

/-- What puts an act back, `none` when it cannot be taken back; `hasServer` says so of its
account, and what the junk filter forgets is left out. -/
def takeBack (waiting : List Waiting) (hasServer : Bool) (entry : Undo) (now : DateTime) :
    Option Commit :=
  if entry.resend.isSome then none
  else
    let copied :=
      match entry.remote with
      | some (.copy _ _) => true
      | _ => false
    -- A copy the server has made stays made.
    if copied && hasServer && (queuedFiling waiting entry).isNone then none
    else
      let reverse := (entry.remote.filter fun _ => hasServer).bind fun remote =>
        reverseIntent remote entry.inverse
      some
        { account := entry.account
          now := now
          forward := entry.inverse
          queue := reverse.toList.map fun intent =>
            ⟨intent, entry.forward, none, .afterForward, .skip⟩
          rows :=
            if withdrawable waiting entry then [.withdrawn entry.forward.id entry.inverse]
            else [] }

/-! ## What an act teaches the junk filter, and what taking it back forgets -/

open Store (Judged)

structure ActSnapshot where
  threads : List ThreadView
  caps : AccountId → AccountCaps
  hasServer : AccountId → Bool
  junkLabels : List (AccountId × LabelId)

def ActSnapshot.thread (snapshot : ActSnapshot) (id : ThreadId) : Option ThreadView :=
  snapshot.threads.find? fun view => view.thread.summary.id = id

def ActSnapshot.junkLabel (snapshot : ActSnapshot) (account : AccountId) : Option LabelId :=
  (snapshot.junkLabels.find? fun row => row.1 = account).map Prod.snd

structure JunkTaught where
  account : AccountId
  message : MessageId
  words : List String
  judged : Judged
deriving DecidableEq

structure JunkForgotten where
  account : AccountId
  message : MessageId
  judged : Judged
deriving DecidableEq

/-- What an act came to: what to write, what the filter learns, and what takes it back. -/
structure Acted where
  commit : Commit
  taught : List JunkTaught
  undo : Undo

def taughtBy (op : Op) (messages : List Message) (junkLabel : Option LabelId) :
    Option (Judged × List Message) :=
  let ham := fun picked : List Message => if picked.isEmpty then none else some (Judged.ham, picked)
  match op with
  | .spam => some (.spam, messages)
  | .restore => ham (messages.filter fun m => m.mailbox = .spam)
  | .label label .out =>
    if junkLabel = some label then ham (messages.filter fun m => m.labels.contains label) else none
  | _ => none

def undoOf (view : ThreadView) (act : Act) (caps : AccountCaps) (forwardId inverseId : ChangeId) :
    Option Undo :=
  view.messages.head?.map fun first =>
    let applied := act.op.apply act.target view.thread view.messages caps forwardId inverseId
    ⟨some act.thread, first.account, applied.forward, applied.inverse, applied.remote, none⟩

/-- One act decided, `none` on a conversation that is not there or holds no message. -/
def ActSnapshot.decide [Unicode] [Judging] (snapshot : ActSnapshot) (act : Act) (now : DateTime)
    (forwardId inverseId : ChangeId) : Option Acted := do
  let view ← snapshot.thread act.thread
  let first ← view.messages.head?
  let caps := snapshot.caps first.account
  let commit ← applied view act caps (snapshot.hasServer first.account) now forwardId inverseId
  let undo ← undoOf view act caps forwardId inverseId
  let taught := (taughtBy act.op view.messages (snapshot.junkLabel first.account)).toList.flatMap
    fun lesson => lesson.2.map fun message =>
      (⟨message.account, message.id, words message, lesson.1⟩ : JunkTaught)
  some ⟨commit, taught, undo⟩

/-- What a gesture taught the filter, from the patch it applied. -/
def forgottenBy (entry : Undo) (junkLabel : Option LabelId) : List (Judged × MessageId) :=
  let wasSpam := entry.inverse.changes.filterMap fun change =>
    match change with
    | .messageMailbox id .spam => some id
    | _ => none
  entry.forward.changes.filterMap fun change =>
    match change with
    | .messageMailbox id .spam => some (.spam, id)
    | .messageMailbox id _ => if wasSpam.contains id then some (.ham, id) else none
    | .messageLabel id label .out => if some label = junkLabel then some (.ham, id) else none
    | _ => none

def takeBackAll (waiting : List Waiting) (hasServer : Bool) (junkLabel : Option LabelId)
    (entry : Undo) (now : DateTime) : Option (Commit × List JunkForgotten) :=
  (takeBack waiting hasServer entry now).map fun commit =>
    (commit, (forgottenBy entry junkLabel).map fun lesson =>
      ⟨entry.account, lesson.2, lesson.1⟩)

def JunkTaught.lesson (row : JunkTaught) : Judged × MessageId := (row.judged, row.message)

def JunkForgotten.lesson (row : JunkForgotten) : Judged × MessageId := (row.judged, row.message)

/-- Whether an operation teaches of the messages it changes, all of them and no other. -/
def TeachesWhatItChanges (op : Op) (selected messages : List Message) (junkLabel : Option LabelId) :
    Prop :=
  match op with
  | .spam => ∀ m ∈ messages, ∃ moved ∈ selected, moved.mailbox ≠ .spam ∧ moved.id = m.id
  | .restore =>
    ∀ m ∈ messages, m.mailbox = .spam → ∃ moved ∈ selected, moved.mailbox = .spam ∧ moved.id = m.id
  | .label label .out =>
    junkLabel = some label → ∀ m ∈ messages, label ∈ m.labels →
      ∃ moved ∈ selected, label ∈ moved.labels ∧ moved.id = m.id
  | .archive | .trash | .file _ => ∀ m ∈ selected, m.mailbox ≠ .spam
  | _ => True

section Lessons

variable {entry : Undo} {junkLabel : Option LabelId} {judged : Judged} {id : MessageId}

/-- Forgotten as spam is what was moved into Spam; as no spam, what was moved out of it, and what
lost the label. -/
theorem mem_forgottenBy :
    (judged, id) ∈ forgottenBy entry junkLabel ↔
      judged = .spam ∧ .messageMailbox id .spam ∈ entry.forward.changes ∨
      judged = .ham ∧ ((∃ role, role ≠ .spam ∧ .messageMailbox id role ∈ entry.forward.changes ∧
          .messageMailbox id .spam ∈ entry.inverse.changes) ∨
        ∃ label, junkLabel = some label ∧ .messageLabel id label .out ∈ entry.forward.changes) := by
  have hwas : ∀ id, id ∈ (entry.inverse.changes.filterMap fun change =>
      match change with
      | .messageMailbox id .spam => some id
      | _ => none) ↔ Change.messageMailbox id .spam ∈ entry.inverse.changes := by
    intro id
    rw [List.mem_filterMap]
    constructor
    · rintro ⟨change, hmem, hsome⟩
      split at hsome <;> cases hsome
      exact hmem
    · exact fun hmem => ⟨_, hmem, rfl⟩
  unfold forgottenBy
  simp only [List.mem_filterMap, List.contains_iff_mem, hwas]
  constructor
  · rintro ⟨change, hmem, hsome⟩
    split at hsome
    · cases hsome
      exact .inl ⟨rfl, hmem⟩
    · rename_i moved role hrole
      split at hsome <;> cases hsome
      rename_i hspam
      exact .inr ⟨rfl, .inl ⟨role, hrole, hmem, hspam⟩⟩
    · rename_i labelled label
      split at hsome <;> cases hsome
      rename_i hjunk
      exact .inr ⟨rfl, .inr ⟨label, hjunk.symm, hmem⟩⟩
    · cases hsome
  · rintro (⟨rfl, hmem⟩ | ⟨rfl, ⟨role, hrole, hmem, hspam⟩ | ⟨label, rfl, hmem⟩⟩)
    · exact ⟨_, hmem, rfl⟩
    · refine ⟨_, hmem, ?_⟩
      cases role <;> simp_all
    · exact ⟨_, hmem, by simp⟩

end Lessons

def Learned (op : Op) (messages : List Message) (junkLabel : Option LabelId) (judged : Judged)
    (id : MessageId) : Prop :=
  match op with
  | .spam => judged = .spam ∧ ∃ m ∈ messages, m.id = id
  | .restore => judged = .ham ∧ ∃ m ∈ messages, m.mailbox = .spam ∧ m.id = id
  | .label label .out =>
    judged = .ham ∧ junkLabel = some label ∧ ∃ m ∈ messages, label ∈ m.labels ∧ m.id = id
  | _ => False

def Unlearned (op : Op) (selected : List Message) (junkLabel : Option LabelId) (judged : Judged)
    (id : MessageId) : Prop :=
  match op with
  | .spam => judged = .spam ∧ ∃ m ∈ selected, m.mailbox ≠ .spam ∧ m.id = id
  | .restore | .archive | .trash | .file _ =>
    judged = .ham ∧ ∃ m ∈ selected, m.mailbox = .spam ∧ m.id = id
  | .label label .out =>
    judged = .ham ∧ junkLabel = some label ∧ ∃ m ∈ selected, label ∈ m.labels ∧ m.id = id
  | _ => False

section Changes

variable {selected : List Message} {change : Change} {condition : Prop} [Decidable condition]

@[simp] theorem mem_forEach_fst {halves : Message → Halves} :
    change ∈ (Halves.forEach selected halves).1 ↔ ∃ m ∈ selected, change ∈ (halves m).1 := by
  simp [Halves.forEach]

@[simp] theorem mem_forEach_snd {halves : Message → Halves} :
    change ∈ (Halves.forEach selected halves).2 ↔ ∃ m ∈ selected, change ∈ (halves m).2 := by
  simp [Halves.forEach]

@[simp] theorem mem_ite_fst {forward back : Change} :
    change ∈ (if condition then ([forward], [back]) else ([], []) : Halves).1 ↔
      condition ∧ change = forward := by
  split <;> simp [*]

@[simp] theorem mem_ite_snd {forward back : Change} :
    change ∈ (if condition then ([forward], [back]) else ([], []) : Halves).2 ↔
      condition ∧ change = back := by
  split <;> simp [*]

@[simp] theorem mem_ite_not_fst {forward back : Change} :
    change ∈ (if condition then ([], []) else ([forward], [back]) : Halves).1 ↔
      ¬ condition ∧ change = forward := by
  split <;> simp [*]

@[simp] theorem mem_ite_not_snd {forward back : Change} :
    change ∈ (if condition then ([], []) else ([forward], [back]) : Halves).2 ↔
      ¬ condition ∧ change = back := by
  split <;> simp [*]

end Changes

section Lessons

variable {op : Op} {target : Target} {thread : Thread} {messages : List Message}
  {junkLabel : Option LabelId} {judged : Judged} {id : MessageId} {entry : Undo}

/-- What was moved, and from Spam, is what lay in Spam where everything there is moved. -/
theorem moved_from_spam_iff (id : MessageId) (selected : List Message) (moved : Message → Prop)
    (hmoved : ∀ m : Message, m.mailbox = .spam → moved m) :
    ((∃ m ∈ selected, moved m ∧ id = m.id) ∧
      ∃ m ∈ selected, moved m ∧ id = m.id ∧ .spam = m.mailbox) ↔
      ∃ m ∈ selected, m.mailbox = .spam ∧ m.id = id := by
  constructor
  · rintro ⟨-, m, hm, -, hid, hspam⟩
    exact ⟨m, hm, hspam.symm, hid.symm⟩
  · rintro ⟨m, hm, hspam, hid⟩
    exact ⟨⟨m, hm, hmoved m hspam, hid.symm⟩, m, hm, hmoved m hspam, hid.symm, hspam.symm⟩

theorem mem_forgottenBy_iff
    (hforward : entry.forward.changes = (op.halves target thread messages).1)
    (hinverse : entry.inverse.changes = (op.halves target thread messages).2) :
    (judged, id) ∈ forgottenBy entry junkLabel ↔
      Unlearned op (select target messages) junkLabel judged id := by
  rw [mem_forgottenBy, hforward, hinverse]
  cases op with
  | spam => simp [Op.halves, moveInto, Unlearned, @eq_comm _ id]
  | archive =>
    have hmoved := moved_from_spam_iff id (select target messages)
      (fun m => ¬ m.mailbox = .archive) (by simp +contextual)
    simpa [Op.halves, moveInto, Unlearned] using fun _ => hmoved
  | trash =>
    have hmoved := moved_from_spam_iff id (select target messages)
      (fun m => ¬ m.mailbox = .trash) (by simp +contextual)
    simpa [Op.halves, moveInto, Unlearned] using fun _ => hmoved
  | restore =>
    have hmoved := moved_from_spam_iff id (select target messages)
      (fun m => m.mailbox = .trash ∨ m.mailbox = .archive ∨ m.mailbox = .spam)
      fun _ hspam => .inr (.inr hspam)
    simpa [Op.halves, Domain.restore, Unlearned] using fun _ => hmoved
  | file label =>
    have hmoved := moved_from_spam_iff id (select target messages)
      (fun m => ¬ m.mailbox = .archive) (by simp +contextual)
    simpa [Op.halves, fileInto, moveInto, setLabel, Unlearned] using fun _ => hmoved
  | label label membership =>
    cases membership <;> simp [Op.halves, setLabel, Unlearned, @eq_comm _ id]
  | copy label => simp [Op.halves, setLabel, Unlearned]
  | destroy => simp [Op.halves, Domain.destroy, Unlearned]
  | setRead state => simp [Op.halves, Domain.setRead, Unlearned]
  | setStar star => simp [Op.halves, Domain.setStar, Unlearned]
  | flag hue => simp [Op.halves, setFlag, Unlearned]
  | setSnooze snooze => simp [Op.halves, Op.threadHalves, Unlearned]
  | setPin pin => simp [Op.halves, Op.threadHalves, Unlearned]
  | setMute mute => simp [Op.halves, Op.threadHalves, Unlearned]
  | setFollowUp followUp => simp [Op.halves, Op.threadHalves, Unlearned]

theorem mem_taughtBy_iff :
    (∃ lesson ∈ taughtBy op messages junkLabel, judged = lesson.1 ∧ ∃ m ∈ lesson.2, m.id = id) ↔
      Learned op messages junkLabel judged id := by
  have hham : ∀ picked : List Message,
      (∃ lesson ∈ (if picked.isEmpty then none else some (Judged.ham, picked)),
        judged = lesson.1 ∧ ∃ m ∈ lesson.2, m.id = id) ↔
        judged = .ham ∧ ∃ m ∈ picked, m.id = id := by
    intro picked
    cases picked <;> simp
  cases op with
  | spam => simp [taughtBy, Learned]
  | restore =>
    rw [taughtBy, hham]
    simp [Learned, and_assoc]
  | label label membership =>
    cases membership with
    | «in» => simp [taughtBy, Learned]
    | out =>
      rw [taughtBy]
      split
      · rename_i hjunk
        rw [hham]
        simp [Learned, hjunk, and_assoc]
      · rename_i hjunk
        simp [Learned, hjunk]
  | _ => simp [taughtBy, Learned]

theorem mem_of_mem_select {m : Message} (h : m ∈ select target messages) : m ∈ messages := by
  unfold select at h
  split at h <;> exact (List.mem_filter.mp h).1

/-- Both say the same of every message exactly when the operation teaches of what it changes. -/
theorem learned_iff_unlearned :
    (∀ judged id, Learned op messages junkLabel judged id ↔
      Unlearned op (select target messages) junkLabel judged id) ↔
      TeachesWhatItChanges op (select target messages) messages junkLabel := by
  -- What holds of the messages changed holds of all, so only the other direction is in question.
  have hsubset : ∀ {p : Message → Prop} {id : MessageId},
      (∃ m ∈ select target messages, p m ∧ m.id = id) → ∃ m ∈ messages, p m ∧ m.id = id :=
    fun ⟨m, hm, hp⟩ => ⟨m, mem_of_mem_select hm, hp⟩
  have hsame : ∀ {judged : Judged} {p q : Message → Prop},
      (∀ {id : MessageId}, (∃ m ∈ select target messages, q m ∧ m.id = id) →
        ∃ m ∈ messages, p m ∧ m.id = id) →
      ((∀ learned id, (learned = judged ∧ ∃ m ∈ messages, p m ∧ m.id = id) ↔
        (learned = judged ∧ ∃ m ∈ select target messages, q m ∧ m.id = id)) ↔
        ∀ m ∈ messages, p m → ∃ moved ∈ select target messages, q moved ∧ moved.id = m.id) := by
    intro judged p q hback
    constructor
    · intro h m hm hp
      exact ((h judged m.id).mp ⟨rfl, m, hm, hp, rfl⟩).2
    · intro h learned id
      refine and_congr_right fun _ => ⟨?_, hback⟩
      rintro ⟨m, hm, hp, rfl⟩
      exact h m hm hp
  have hnone : (∀ learned id, False ↔ (learned = Judged.ham ∧
      ∃ m ∈ select target messages, m.mailbox = .spam ∧ m.id = id)) ↔
      ∀ m ∈ select target messages, m.mailbox ≠ .spam := by
    constructor
    · intro h m hm hspam
      exact (h .ham m.id).mpr ⟨rfl, m, hm, hspam, rfl⟩
    · rintro h learned id
      refine ⟨False.elim, ?_⟩
      rintro ⟨-, m, hm, hspam, -⟩
      exact h m hm hspam
  cases op with
  | spam =>
    simpa [Learned, Unlearned, TeachesWhatItChanges] using
      @hsame .spam (fun _ => True) (fun m => m.mailbox ≠ .spam)
        fun ⟨m, hm, _, hid⟩ => ⟨m, mem_of_mem_select hm, trivial, hid⟩
  | restore => exact hsame (p := fun m => m.mailbox = .spam) hsubset
  | label label membership =>
    cases membership with
    | «in» => simp [Learned, Unlearned, TeachesWhatItChanges]
    | out =>
      by_cases hjunk : junkLabel = some label
      · simpa only [Learned, Unlearned, TeachesWhatItChanges, hjunk, true_and, true_implies] using
          @hsame .ham (fun m => label ∈ m.labels) _ hsubset
      · simp [Learned, Unlearned, TeachesWhatItChanges, hjunk]
  | archive => exact hnone
  | trash => exact hnone
  | file label => exact hnone
  | _ => simp [Learned, Unlearned, TeachesWhatItChanges]

end Lessons

theorem decide_spec [Unicode] [Judging] {snapshot : ActSnapshot} {act : Act} {view : ThreadView}
    {first : Message} {now : DateTime} {forwardId inverseId : ChangeId} {acted : Acted}
    (hview : snapshot.thread act.thread = some view) (hfirst : view.messages.head? = some first)
    (hacted : snapshot.decide act now forwardId inverseId = some acted) :
    (∀ judged id, (judged, id) ∈ acted.taught.map JunkTaught.lesson ↔
      Learned act.op view.messages (snapshot.junkLabel first.account) judged id) ∧
      acted.undo.forward.changes = (act.op.halves act.target view.thread view.messages).1 ∧
      acted.undo.inverse.changes = (act.op.halves act.target view.thread view.messages).2 := by
  unfold ActSnapshot.decide at hacted
  simp only [hview, hfirst, Option.bind_eq_bind, Option.bind_some, applied, undoOf,
    Option.map_some, Option.some.injEq] at hacted
  subst hacted
  refine ⟨fun judged id => ?_, rfl, rfl⟩
  rw [← mem_taughtBy_iff]
  simp [JunkTaught.lesson, eq_comm, and_assoc]

/-- What taking an act back has the filter forget is what the act taught it, message for message,
exactly when the act teaches of the messages it changes. -/
theorem forgotten_is_taught_iff [Unicode] [Judging] {snapshot : ActSnapshot} {act : Act}
    {view : ThreadView} {first : Message} {now later : DateTime} {forwardId inverseId : ChangeId}
    {acted : Acted} {waiting : List Waiting} {hasServer : Bool}
    {taken : Commit × List JunkForgotten} (hview : snapshot.thread act.thread = some view)
    (hfirst : view.messages.head? = some first)
    (hacted : snapshot.decide act now forwardId inverseId = some acted)
    (htaken : takeBackAll waiting hasServer (snapshot.junkLabel first.account) acted.undo later =
      some taken) :
    (∀ lesson, lesson ∈ acted.taught.map JunkTaught.lesson ↔
      lesson ∈ taken.2.map JunkForgotten.lesson) ↔
      TeachesWhatItChanges act.op (select act.target view.messages) view.messages
        (snapshot.junkLabel first.account) := by
  obtain ⟨hlearned, hforward, hinverse⟩ := decide_spec hview hfirst hacted
  have hforgotten : ∀ judged id, (judged, id) ∈ taken.2.map JunkForgotten.lesson ↔
      Unlearned act.op (select act.target view.messages) (snapshot.junkLabel first.account) judged
        id := by
    intro judged id
    rw [← mem_forgottenBy_iff hforward hinverse]
    rw [takeBackAll, Option.map_eq_some_iff] at htaken
    obtain ⟨commit, -, rfl⟩ := htaken
    simp [JunkForgotten.lesson]
  rw [← learned_iff_unlearned, Prod.forall]
  simp only [hlearned, hforgotten]

section Example

local instance asciiLesson : Unicode := .ascii

local instance neverSure : Judging := .never

/-- A conversation of three messages, the newest in the role given. -/
def conversation (role : MailboxRole) : ThreadView :=
  let letter : Nat → MailboxRole → Message := fun id => .plain ⟨id⟩ ⟨1⟩
  let letters := [letter 3 .archive, letter 2 .inbox, letter 1 role]
  ⟨⟨ThreadSummary.deriveFrom ⟨1⟩ (letter 3 .archive) (letter 1 role) letters .inactive .unpinned
    .unmuted .inactive, letters.map Message.id⟩, letters⟩

def decidedOver (role : MailboxRole) : ActSnapshot :=
  ⟨[conversation role], fun _ => ⟨.localOnly, .dropInbox, ⟨[]⟩⟩, fun _ => true, []⟩

def acting (op : Op) : Act := ⟨⟨1⟩, .threads [⟨1⟩], op⟩

/-- A conversation in several folders, none of them Spam, is called spam and taken back. -/
theorem forgotten_is_taught_of_three :
    ∃ acted taken, (decidedOver .inbox).decide (acting .spam) 0 ⟨1⟩ ⟨2⟩ = some acted ∧
      takeBackAll [] true none acted.undo 1 = some taken ∧ acted.taught.length = 3 ∧
      ∀ lesson, lesson ∈ acted.taught.map JunkTaught.lesson ↔
        lesson ∈ taken.2.map JunkForgotten.lesson := by
  refine ⟨_, _, rfl, rfl, rfl, ?_⟩
  have hview : (decidedOver .inbox).thread (acting .spam).thread = some (conversation .inbox) := rfl
  refine (forgotten_is_taught_iff hview rfl rfl rfl).mpr ?_
  intro m hm
  refine ⟨m, hm, ?_, rfl⟩
  have hroles : ∀ letter ∈ (conversation .inbox).messages, letter.mailbox ≠ .spam := by decide
  exact hroles m hm

/-- A message archived from Spam teaches nothing, and taken back is forgotten as no spam. -/
theorem archived_from_spam_is_forgotten :
    ∃ acted taken, (decidedOver .spam).decide (acting .archive) 0 ⟨1⟩ ⟨2⟩ = some acted ∧
      takeBackAll [] true none acted.undo 1 = some taken ∧
      acted.taught = [] ∧ taken.2.map JunkForgotten.lesson = [(.ham, ⟨1⟩)] :=
  ⟨_, _, rfl, rfl, rfl, rfl⟩

end Example

end Mailo.Logic
