import Mailo.Logic.Arrival
import Mailo.Store.Sqlite.Queueing

/-!
# What the store shows, and what queueing reads of it

The store shows a message, its conversation, an account's labels, and where the server holds a
message and what is queued to move it.

Queueing reads which messages are held, their addresses and the names of the labels an intent
mentions; whatever else a store holds goes through it unchanged. Settings and summaries are such.
-/

namespace Mailo.Store

open Domain Library

def labelsIn : RemoteIntent → List LabelId
  | .setLabels _ add remove => add ++ remove
  | .file _ label | .copy _ label => [label]
  | _ => []

namespace Sqlite

/-! ## Queueing -/

/-- Two stores that queueing tells apart by nothing but what it writes. -/
structure QueuesAlike (a b : Sqlite) : Prop where
  held : ∀ id, b.messages.contains id = a.messages.contains id
  remoteMap : b.remoteMap = a.remoteMap
  unplaced : b.unplaced = a.unplaced
  outbox : b.outbox = a.outbox
  replaced : b.replaced = a.replaced
  destroyed : b.destroyed = a.destroyed

def withQueue (store queued : Sqlite) : Sqlite :=
  { store with outbox := queued.outbox, replaced := queued.replaced, destroyed := queued.destroyed }

variable {a b : Sqlite}

theorem QueuesAlike.withQueue (h : QueuesAlike a b) (queued : Sqlite) :
    QueuesAlike (a.withQueue queued) (b.withQueue queued) :=
  ⟨h.held, h.remoteMap, h.unplaced, rfl, rfl, rfl⟩

theorem labelNames_congr {labels : List LabelId}
    (h : ∀ l ∈ labels, b.labels.get l = a.labels.get l) :
    b.labelNames labels = a.labelNames labels :=
  List.filterMap_congr fun l hl => by rw [h l hl]

variable {intent : RemoteIntent} {account : AccountId} {after store : Sqlite} {now : DateTime}

theorem operationOn_congr (h : ∀ l ∈ labelsIn intent, b.labels.get l = a.labels.get l)
    (remotes : List RemoteRef) :
    b.operationOn remotes intent = a.operationOn remotes intent := by
  cases intent with
  | setLabels messages add remove =>
    have hadd := labelNames_congr fun l hl => h l (List.mem_append_left _ hl)
    have hremove := labelNames_congr fun l hl => h l (List.mem_append_right _ hl)
    simp only [operationOn, hadd, hremove]
  | file messages label | copy messages label =>
    have hlabel : b.labelNames [label] = a.labelNames [label] := labelNames_congr h
    simp only [operationOn, hlabel]
  | _ => rfl

theorem addressesOf_congr (alike : QueuesAlike a b) (account : AccountId) :
    b.addressesOf account = a.addressesOf account := by
  funext message
  simp only [addressesOf, alike.remoteMap]

theorem isUnplaced_congr (alike : QueuesAlike a b) (account : AccountId) :
    b.isUnplaced account = a.isUnplaced account := by
  funext message
  simp only [isUnplaced, alike.unplaced]

theorem resolveIntent_congr (alike : QueuesAlike a b)
    (h : ∀ l ∈ labelsIn intent, b.labels.get l = a.labels.get l) (account : AccountId) :
    b.resolveIntent account intent = a.resolveIntent account intent := by
  unfold resolveIntent refsFor
  simp only [addressesOf_congr alike, isUnplaced_congr alike, operationOn_congr h]

theorem staleCopies_congr (alike : QueuesAlike a b) (account : AccountId) (intent : RemoteIntent) :
    b.staleCopies account intent = a.staleCopies account intent := by
  simp only [staleCopies, alike.outbox]

theorem entryFor_congr (alike : QueuesAlike a b) {op : ProtoOp}
    (ha : a.resolveIntent account intent = some op) (hb : b.resolveIntent account intent = some op)
    (undo : Patch) (forward : Option ChangeId) (now : DateTime) :
    b.entryFor account intent op hb undo forward now =
      a.entryFor account intent op ha undo forward now := by
  simp only [entryFor, staleCopies_congr alike, addressesOf_congr alike, isUnplaced_congr alike]

theorem keepDestroyed_congr (alike : QueuesAlike a b) (account : AccountId) (intent : RemoteIntent)
    (outbox : OutboxId) :
    b.keepDestroyed account intent outbox = a.keepDestroyed account intent outbox := by
  simp only [keepDestroyed, addressesOf_congr alike, alike.destroyed]

theorem queueIn_congr (alike : QueuesAlike a b)
    (h : ∀ l ∈ labelsIn intent, b.labels.get l = a.labels.get l) (account : AccountId)
    (undo : Patch) (forward : Option ChangeId) (now : DateTime) :
    b.queueIn account intent undo forward now =
      (a.queueIn account intent undo forward now).map fun done =>
        (b.withQueue done.1, done.2) := by
  have hresolve := resolveIntent_congr alike h account
  unfold queueIn
  split
  · rename_i hb
    split
    · have hsame : b.withQueue a = b := by
        unfold Sqlite.withQueue
        rw [← alike.outbox, ← alike.replaced, ← alike.destroyed]
      rw [Except.map, hsame]
    · rename_i op ha
      rw [hresolve, ha] at hb
      cases hb
  · rename_i op hb
    split
    · rename_i ha
      rw [hresolve, ha] at hb
      cases hb
    · rename_i other ha
      have hop : other = op := by
        rw [hresolve, ha] at hb
        exact Option.some.inj hb
      subst hop
      dsimp only
      rw [entryFor_congr alike ha hb, funext alike.held]
      split
      · simp only [Except.map, withQueue, staleCopies_congr alike, keepDestroyed_congr alike,
          alike.outbox, alike.replaced]
      · rfl

theorem queueIn_frame {undo : Patch} {forward : Option ChangeId} {queued : Option OutboxId}
    (h : store.queueIn account intent undo forward now = .ok (after, queued)) :
    after = store.withQueue after := (queueIn_queues h).1.frame

theorem queueAll_congr (queue : List Commit.Queue) (alike : QueuesAlike a b)
    (h : ∀ work ∈ queue, ∀ l ∈ labelsIn work.intent, b.labels.get l = a.labels.get l)
    (account : AccountId) (now : DateTime) (when : Commit.Resolve) :
    b.queueAll account now when queue =
      (a.queueAll account now when queue).map fun done => (b.withQueue done.1, done.2) := by
  induction queue generalizing a b with
  | nil =>
    have hsame : b.withQueue a = b := by
      unfold Sqlite.withQueue
      rw [← alike.outbox, ← alike.replaced, ← alike.destroyed]
    rw [queueAll, queueAll, Except.map, hsame]
  | cons work rest ih =>
    have hwork := h work (.head _)
    have hrest := fun other hmem => h other (List.mem_cons_of_mem work hmem)
    rw [queueAll, queueAll]
    by_cases hwhen : work.resolve = when
    · rw [if_pos hwhen, if_pos hwhen, queueIn_congr alike hwork]
      cases hone : a.queueIn account work.intent work.undo work.id now with
      | error error => rfl
      | ok pair =>
        obtain ⟨next, made⟩ := pair
        have hframe := queueIn_frame hone
        cases made with
        | none =>
          simp only [Except.map, ih alike hrest]
          split
          · rfl
          · cases a.queueAll account now when rest with
            | error | ok => rfl
        | some made =>
          have hnext : QueuesAlike next (b.withQueue next) := by
            rw [hframe]
            exact alike.withQueue next
          have hlabels : next.labels = a.labels := by
            rw [hframe]
            rfl
          have hagree : ∀ other ∈ rest, ∀ l ∈ labelsIn other.intent,
              (b.withQueue next).labels.get l = next.labels.get l := fun other hmem l hl => by
            rw [hlabels]
            exact hrest other hmem l hl
          simp only [Except.map, ih hnext hagree]
          cases next.queueAll account now when rest with
          | error | ok => rfl
    · rw [if_neg hwhen, if_neg hwhen, ih alike hrest]
      cases a.queueAll account now when rest with
      | error | ok => rfl

variable {queue : List Commit.Queue} {when : Commit.Resolve} {id : MessageId} {m : Message}

theorem queueAll_frame {queued : List (Option OutboxId)}
    (h : store.queueAll account now when queue = .ok (after, queued)) :
    after = store.withQueue after := (queueAll_queues h).frame

/-- One more piece of work, queued behind the rest. -/
theorem queueAll_append {middle : Sqlite} {more : List Commit.Queue}
    {made last : List (Option OutboxId)}
    (h : store.queueAll account now when queue = .ok (middle, made))
    (hmore : middle.queueAll account now when more = .ok (after, last)) :
    store.queueAll account now when (queue ++ more) = .ok (after, made ++ last) := by
  induction queue generalizing store made with
  | nil =>
    cases h
    exact hmore
  | cons work rest ih =>
    rw [queueAll] at h
    rw [List.cons_append, queueAll]
    by_cases hwhen : work.resolve = when
    · rw [if_pos hwhen] at h ⊢
      cases hone : store.queueIn account work.intent work.undo work.id now with
      | error error => simp [hone] at h
      | ok pair =>
        obtain ⟨next, queued⟩ := pair
        cases queued with
        | none =>
          simp only [hone] at h ⊢
          by_cases hunplaced : work.unplaced = .rollback
          · simp [hunplaced] at h
          · rw [if_neg hunplaced] at h ⊢
            cases hrest : store.queueAll account now when rest with
            | error error => simp [hrest] at h
            | ok done =>
              obtain ⟨left, others⟩ := done
              simp only [hrest] at h
              cases h
              rw [ih hrest]
              rfl
        | some queued =>
          simp only [hone] at h ⊢
          cases hrest : next.queueAll account now when rest with
          | error error => simp [hrest] at h
          | ok done =>
            obtain ⟨left, others⟩ := done
            simp only [hrest] at h
            cases h
            rw [ih hrest]
            rfl
    · rw [if_neg hwhen] at h ⊢
      cases hrest : store.queueAll account now when rest with
      | error error => simp [hrest] at h
      | ok done =>
        obtain ⟨left, others⟩ := done
        simp only [hrest] at h
        cases h
        rw [ih hrest]
        rfl

theorem writeChanges_append {touched : List ThreadId} {changes more : List Change} :
    store.writeChanges touched (changes ++ more) =
      match store.writeChanges touched changes with
      | .error error => .error error
      | .ok (written, threads) => written.writeChanges threads more := by
  induction changes generalizing store touched with
  | nil => rfl
  | cons change rest ih =>
    rw [List.cons_append, writeChanges, writeChanges]
    cases store.writeChange change with
    | error error => rfl
    | ok pair => exact ih

/-- A message with a list of settings, the rest of the store as it was. -/
def settle (store : Sqlite) (id : MessageId) (settings : List Setting) : Sqlite :=
  { store with messages := store.messages.modify id fun m => Registers.putAll m settings }

theorem get_settle (store : Sqlite) (id other : MessageId) (settings : List Setting) :
    (store.settle id settings).messages.get other =
      if other = id then (store.messages.get other).map fun m => Registers.putAll m settings
      else store.messages.get other := Table.get_modify _ _ _ _

theorem contains_settle (store : Sqlite) (id other : MessageId) (settings : List Setting) :
    (store.settle id settings).messages.contains other = store.messages.contains other := by
  unfold Table.contains
  rw [get_settle]
  split <;> simp

theorem settle_cons (store : Sqlite) (id : MessageId) (s : Setting) (settings : List Setting) :
    (store.put id s).settle id settings = store.settle id (s :: settings) := by
  unfold settle put
  rw [Table.modify_modify]
  rfl

theorem touch_touch (touched : List ThreadId) (thread : ThreadId) :
    touch (touch touched thread) thread = touch touched thread := by
  have h : (touch touched thread).contains thread = true :=
    List.contains_iff_mem.mpr (mem_touch.mpr (.inl rfl))
  rw [touch, if_pos h]

theorem writeChange_ofSetting {s : Setting} (hm : store.messages.get id = some m)
    (hlabel : ∀ l, s = .label l .in → store.labels.contains l = true) :
    store.writeChange (Change.ofSetting id s) = .ok (store.put id s, some m.thread) := by
  have hthread : store.threadOf id = some m.thread := by rw [threadOf, hm]; rfl
  cases s with
  | label l membership =>
    cases membership with
    | «in» =>
      have hheld : store.messages.contains id = true := Table.contains_iff.mpr ⟨m, hm⟩
      simp only [Change.ofSetting, writeChange, hheld, hlabel l rfl, Bool.and_self, if_true,
        hthread]
    | out => simp only [Change.ofSetting, writeChange, hthread]
  | _ => simp only [Change.ofSetting, writeChange, hthread]

/-- Settings of a message held are written, and its thread touched. -/
theorem writeChanges_ofSetting {settings : List Setting} (hm : store.messages.get id = some m)
    (hlabel : ∀ l, Setting.label l .in ∈ settings → store.labels.contains l = true)
    (touched : List ThreadId) :
    store.writeChanges touched (settings.map (Change.ofSetting id)) =
      .ok (store.settle id settings,
        if settings.isEmpty then touched else touch touched m.thread) := by
  induction settings generalizing store m touched with
  | nil =>
    have hsame : store.settle id [] = store := by
      unfold settle
      have hid := Table.modify_id store.messages id
      exact congrArg (fun messages => { store with messages := messages }) hid
    rw [hsame]
    rfl
  | cons s rest ih =>
    have hone := writeChange_ofSetting hm fun l hl => hlabel l (hl ▸ (.head _))
    have hput : (store.put id s).messages.get id = some (m.put s) := by
      change (store.messages.modify id _).get id = _
      rw [Table.get_modify, if_pos rfl, hm]
      rfl
    have hthread : (m.put s).thread = m.thread := by
      have hrest := congrArg Message.thread (Message.rest_put m s)
      exact hrest
    have hrest := ih hput (fun l hl => hlabel l (.tail _ hl))
      (touch touched m.thread)
    rw [List.map_cons, writeChanges, hone]
    dsimp only [touchSome]
    rw [hrest, settle_cons, hthread]
    cases rest with
    | nil => rfl
    | cons next more =>
      simp only [List.isEmpty_cons, Bool.false_eq_true, if_false, touch_touch]

section Summaries

variable [Unicode]

/-- The summary of a thread that holds a message is written, and nothing else is. -/
theorem refreshSummary_held {id : MessageId} {m : Message} {state : ThreadState}
    (hm : store.messages.get id = some m) (hstate : store.threads.get m.thread = some state) :
    ∃ summary : ThreadSummary, summary.id = m.thread ∧ summary.mute = state.mute ∧
      store.refreshSummary m.thread =
        .ok { store with summaries := store.summaries.set m.thread summary } := by
  have hmem : m ∈ store.messagesOf m.thread := by
    rw [mem_messagesOf]
    exact ⟨List.mem_map_of_mem (f := Prod.snd) (Table.mem_rows.mpr hm), rfl⟩
  have hne : store.messagesOf m.thread ≠ [] := List.ne_nil_of_mem hmem
  have hordered := ThreadSummary.ordered_ne_nil hne
  have holdest := List.head?_eq_some_head hordered
  have hnewest := List.getLast?_eq_some_getLast hordered
  have hempty : (store.messagesOf m.thread).isEmpty = false := by simpa using hne
  unfold refreshSummary
  simp only [hempty, Bool.false_eq_true, if_false, hstate, ThreadSummary.derive, holdest, hnewest]
  exact ⟨_, rfl, rfl, rfl⟩

theorem refreshAll_held {threads : List ThreadId}
    (h : ∀ thread ∈ threads, ∃ id m state, store.messages.get id = some m ∧ m.thread = thread ∧
      store.threads.get thread = some state) :
    ∃ summaries, store.refreshAll threads = .ok { store with summaries := summaries } := by
  induction threads generalizing store with
  | nil => exact ⟨store.summaries, rfl⟩
  | cons thread rest ih =>
    obtain ⟨id, m, state, hm, rfl, hstate⟩ := h thread (.head _)
    obtain ⟨summary, -, -, hone⟩ := refreshSummary_held hm hstate
    obtain ⟨summaries, hrest⟩ : ∃ summaries,
        ({ store with summaries := store.summaries.set m.thread summary } : Sqlite).refreshAll
          rest = .ok { store with summaries := summaries } :=
      ih fun other hmem => h other (.tail _ hmem)
    refine ⟨summaries, ?_⟩
    rw [refreshAll, hone]
    exact hrest

end Summaries

/-! ## What is shown -/

/-- A message, its labels in the order of their ids. -/
def shown (m : Message) : Message :=
  { m with labels := m.labels.insertionSort fun a b => a.raw ≤ b.raw }

def message (store : Sqlite) (id : MessageId) : Option Message :=
  (store.messages.get id).map shown

def thread (store : Sqlite) (id : ThreadId) : Option Thread :=
  (store.summaries.get id).map fun summary => ⟨summary, (store.messagesOf id).map Message.id⟩

def labelsOf (store : Sqlite) (account : AccountId) : List Label :=
  (store.labels.values.filter fun label => label.account = account).insertionSort
    fun a b => a.name ≤ b.name

/-- The folders of the entries queued for a message that `folder` picks, in queue order. -/
def foldersQueued (store : Sqlite) (folder : ProtoOp → Option String) (id : MessageId) :
    List String :=
  store.outbox.values.filterMap fun entry =>
    if entry.pending.contains id then folder entry.op else none

def movedTo : ProtoOp → Option String
  | .file _ folder => some folder
  | _ => none

def copiedTo : ProtoOp → Option String
  | .copy _ folder => some folder
  | _ => none

/-- Where a message is held on the server and what is queued for it, `none` for one not held. -/
def placing (store : Sqlite) (id : MessageId) : Option Placing :=
  (store.messages.get id).map fun held =>
    let folder := fun path => (⟨held.account, path⟩ : MailboxRef)
    { addresses := ((store.mailboxesOf id).insertionSort (· ≤ ·)).map folder
      moving := store.foldersQueued movedTo id
      copying := (((store.foldersQueued copiedTo id).eraseDups).insertionSort (· ≤ ·)).map folder
      unplaced := store.isUnplaced held.account id }

theorem shown_same (m : Message) : (shown m).Same m := by
  refine ⟨rfl, fun f => ?_⟩
  cases f with
  | label label =>
    have hmem : label ∈ (shown m).labels ↔ label ∈ m.labels := List.mem_insertionSort _
    change Setting.label label _ = Setting.label label _
    rw [Message.membership_eq_iff.mpr hmem]
  | _ => rfl

@[simp] theorem shown_id (m : Message) : (shown m).id = m.id := rfl

/-- What the keys of the tables promise: rows stand under their own ids, an account's labels have
different names, a message's conversation is held with its state and summary, and a message's
addresses are on its account. -/
structure Coherent (store : Sqlite) : Prop where
  keyed : ∀ id m, store.messages.get id = some m → m.id = id
  labelled : ∀ id label, store.labels.get id = some label → label.id = id
  named : ∀ a b, a ∈ store.labels.values → b ∈ store.labels.values → a.account = b.account →
    a.name = b.name → a = b
  threaded : ∀ id m, store.messages.get id = some m → ∃ state summary,
    store.threads.get m.thread = some state ∧ store.summaries.get m.thread = some summary ∧
      summary.id = m.thread ∧ summary.mute = state.mute
  addressed : ∀ account remote id m, store.remoteMap.get (account, remote) = some id →
    store.messages.get id = some m → m.account = account

end Sqlite

end Mailo.Store
