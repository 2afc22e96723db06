import Mailo.Store.Sqlite.Effect

/-!
# What queueing and settling leave queued

Queueing an intent puts what it asks for behind everything queued before; an entry settled for
good takes what it asked for with it, and only a refusal writes anything.
-/

namespace Mailo.Store

open Domain Library

/-- What an intent asks for of one message. -/
def asked (intent : RemoteIntent) (id : MessageId) : List Setting :=
  if id ∈ messagesOf intent then asksFor intent else []

theorem get_pendingRows (intent : RemoteIntent) (id : MessageId) :
    ((Sqlite.pendingRows intent).get id).getD [] = asked intent id := by
  have hfold : ∀ (ids : List MessageId) (rows : Table MessageId (List Setting)),
      ((ids.map fun id => (id, asksFor intent)).foldl (fun rows row =>
        if row.2.isEmpty then rows else rows.set row.1 row.2) rows).get id =
      if id ∈ ids ∧ asksFor intent ≠ [] then some (asksFor intent) else rows.get id := by
    intro ids
    induction ids with
    | nil => intro rows; simp
    | cons head rest ih =>
      intro rows
      rw [List.map_cons, List.foldl_cons, ih]
      by_cases hnil : asksFor intent = []
      · simp [hnil]
      · have hempty : (asksFor intent).isEmpty = false := by simpa using hnil
        by_cases hrest : id ∈ rest
        · simp [hrest, hnil]
        · by_cases hhead : id = head <;> simp [hrest, hnil, hempty, hhead]
  unfold Sqlite.pendingRows pendingOf asked
  rw [hfold]
  by_cases hin : id ∈ messagesOf intent <;> by_cases hnil : asksFor intent = [] <;>
    simp [hin, hnil]

theorem isKeepOf_draftOf {draft : DraftId} {op : ProtoOp} (h : isKeepOf draft op = true) :
    draftOf op ≠ none := by
  cases op <;> simp [isKeepOf, draftOf] at h ⊢

namespace Sqlite

variable {store after : Sqlite} {account : AccountId}

variable {intent : RemoteIntent} {before : Sqlite} {changes : List Change}

theorem staleCopies_quiet {row : Nat × Entry} (h : row ∈ store.staleCopies account intent) :
    draftOf row.2.op ≠ none := by
  unfold staleCopies at h
  split at h
  · cases h
  · have hkeep := (List.mem_filter.mp h).2
    rw [Bool.and_eq_true] at hkeep
    exact isKeepOf_draftOf hkeep.2

theorem pendingOn_withoutStale (store : Sqlite) (account : AccountId) (intent : RemoteIntent)
    (id : MessageId) :
    (store.outbox.filter fun held _ =>
      !((store.staleCopies account intent).map Prod.fst).contains held).values.flatMap
        (fun entry => entry.asks id) = store.pendingOn id := by
  refine store.pendingOn_filter id fun held entry hget hstale => ?_
  rw [Bool.not_eq_false', List.contains_iff_mem] at hstale
  obtain ⟨row, hrow, hkey⟩ := List.mem_map.mp hstale
  have hheld : (row.1, row.2) ∈ store.outbox.rows := by
    unfold staleCopies at hrow
    split at hrow
    · cases hrow
    · exact (List.mem_filter.mp hrow).1
  have hsame : row.2 = entry := by
    have hget' := Series.mem_rows.mp hheld
    rw [hkey, hget] at hget'
    exact (Option.some.inj hget').symm
  exact Entry.asks_of_quiet (hsame ▸ staleCopies_quiet hrow) id

/-- What queueing changes, and what is queued after it. -/
structure Queues (before after : Sqlite) (more : MessageId → List Setting) : Prop where
  frame : after = { before with
    outbox := after.outbox
    replaced := after.replaced
    destroyed := after.destroyed }
  pendingOn : ∀ id, after.pendingOn id = before.pendingOn id ++ more id
  held : ∀ id, more id ≠ [] → ∃ m, before.messages.get id = some m

namespace Queues

theorem refl (store : Sqlite) : Queues store store fun _ => [] :=
  ⟨rfl, fun _ => (List.append_nil _).symm, fun _ h => absurd rfl h⟩

variable {a b c : Sqlite} {more most : MessageId → List Setting}

theorem messages (h : Queues a b more) : b.messages = a.messages := by
  rw [h.frame]

theorem trans (hab : Queues a b more) (hbc : Queues b c most) :
    Queues a c fun id => more id ++ most id where
  frame := by
    rw [hbc.frame, hab.frame]
  pendingOn id := by
    rw [hbc.pendingOn, hab.pendingOn, List.append_assoc]
  held id hne := by
    by_cases hmore : more id = []
    · rw [hmore, List.nil_append] at hne
      rw [← hab.messages]
      exact hbc.held id hne
    · exact hab.held id hmore

theorem congr (h : Queues a b more) (same : ∀ id, more id = most id) : Queues a b most :=
  (funext same : more = most) ▸ h

theorem attached (h : Queues a b more) (attached : a.Attached) : b.Attached := by
  intro id hnone
  rw [h.messages] at hnone
  rw [h.pendingOn, attached id hnone, List.nil_append]
  by_contra hne
  obtain ⟨m, hm⟩ := h.held id hne
  rw [hnone] at hm
  cases hm

theorem resolveIntent (h : Queues a b more) (account : AccountId) (intent : RemoteIntent) :
    b.resolveIntent account intent = a.resolveIntent account intent := by
  rw [h.frame]
  rfl

end Queues

/-- What an intent asks for when it is queued in a store, nothing when it is not. -/
def queues (store : Sqlite) (account : AccountId) (intent : RemoteIntent) (id : MessageId) :
    List Setting :=
  if (store.resolveIntent account intent).isSome then asked intent id else []

variable {now : DateTime}

theorem queueIn_queues {undo : Patch} {forward : Option ChangeId} {queued : Option OutboxId}
    (h : store.queueIn account intent undo forward now = .ok (after, queued)) :
    Queues store after (store.queues account intent) ∧
      (queued.isSome ↔ (store.resolveIntent account intent).isSome) := by
  unfold queueIn at h
  split at h
  · rename_i hnone
    cases h
    refine ⟨(Queues.refl store).congr fun id => ?_, by simp [hnone]⟩
    rw [queues, hnone]
    rfl
  · rename_i op hop
    dsimp only at h
    split at h
    · rename_i hheld
      cases h
      have hqueues : ∀ id, store.queues account intent id = asked intent id := fun id => by
        rw [queues, hop]
        rfl
      refine ⟨⟨rfl, fun id => ?_, fun id hne => ?_⟩, by simp [hop]⟩
      · unfold pendingOn
        rw [Series.values_push, List.flatMap_append, pendingOn_withoutStale, List.flatMap_cons,
          List.flatMap_nil, List.append_nil, hqueues]
        exact congrArg _ (get_pendingRows intent id)
      · rw [hqueues, ← get_pendingRows] at hne
        have hkey : id ∈ (pendingRows intent).keys := by
          rw [Table.mem_keys]
          cases hget : (pendingRows intent).get id with
          | none => rw [hget] at hne; exact absurd rfl hne
          | some row => exact ⟨row, rfl⟩
        exact Table.contains_iff.mp (List.all_eq_true.mp hheld id hkey)
    · cases h

def queuesAll (store : Sqlite) (account : AccountId) (when : Commit.Resolve)
    (queue : List Commit.Queue) (id : MessageId) : List Setting :=
  queue.flatMap fun work =>
    if work.resolve = when then store.queues account work.intent id else []

theorem queueAll_queues
    {when : Commit.Resolve} {queue : List Commit.Queue} {queued : List (Option OutboxId)}
    (h : store.queueAll account now when queue = .ok (after, queued)) :
    Queues store after (store.queuesAll account when queue) := by
  induction queue generalizing store queued with
  | nil =>
    cases h
    exact Queues.refl _
  | cons work rest ih =>
    have hkeep : ∀ {next : Sqlite} {more : MessageId → List Setting},
        Queues store next more → ∀ id, next.queuesAll account when rest id =
          store.queuesAll account when rest id := by
      intro next more hnext id
      unfold queuesAll queues
      simp only [hnext.resolveIntent]
    rw [queueAll] at h
    by_cases hwhen : work.resolve = when
    · rw [if_pos hwhen] at h
      cases hone : store.queueIn account work.intent work.undo work.id now with
      | error error => simp [hone] at h
      | ok pair =>
        obtain ⟨next, made⟩ := pair
        obtain ⟨hqueues, hmade⟩ := queueIn_queues hone
        cases made with
        | none =>
          -- Nothing was queued, so the store is the one before.
          have hnone : store.resolveIntent account work.intent = none := by
            simpa using hmade
          simp only [hone] at h
          split at h
          · cases h
          · cases hrest : store.queueAll account now when rest with
            | error error => simp [hrest] at h
            | ok pair =>
              obtain ⟨last, more⟩ := pair
              simp only [hrest] at h
              cases h
              refine (ih hrest).congr fun id => ?_
              simp [queuesAll, queues, hnone]
        | some made =>
          simp only [hone] at h
          cases hrest : next.queueAll account now when rest with
          | error error => simp [hrest] at h
          | ok pair =>
            obtain ⟨last, more⟩ := pair
            simp only [hrest] at h
            cases h
            refine (hqueues.trans (ih hrest)).congr fun id => ?_
            rw [hkeep hqueues]
            simp [queuesAll, hwhen]
    · rw [if_neg hwhen] at h
      cases hrest : store.queueAll account now when rest with
      | error error => simp [hrest] at h
      | ok pair =>
        obtain ⟨last, more⟩ := pair
        simp only [hrest] at h
        cases h
        refine (ih hrest).congr fun id => ?_
        simp [queuesAll, hwhen]

/-! ## Settling -/

def pendingBut (store : Sqlite) (id : OutboxId) (message : MessageId) : List Setting :=
  (store.outbox.erase id.raw).values.flatMap fun entry => entry.asks message

theorem pendingOn_dropEntry (store : Sqlite) (id : OutboxId) (message : MessageId) :
    (store.dropEntry id).pendingOn message = store.pendingBut id message := rfl

theorem dropEntry_attached (attached : store.Attached) (id : OutboxId) :
    (store.dropEntry id).Attached := by
  intro message hnone
  rw [pendingOn_dropEntry, pendingBut, List.flatMap_eq_nil_iff]
  intro entry hentry
  obtain ⟨held, hget⟩ := Series.mem_values.mp hentry
  rw [Series.get_erase] at hget
  have hnone' := attached message hnone
  rw [pendingOn, List.flatMap_eq_nil_iff] at hnone'
  split at hget
  · cases hget
  · exact hnone' entry (Series.mem_values.mpr ⟨held, hget⟩)

theorem settleDestroyed_eq (store : Sqlite) (id : OutboxId) (answered : Answered) :
    store.settleDestroyed id answered =
      { store with destroyed := (store.settleDestroyed id answered).destroyed } := by
  cases answered <;> rfl

theorem Writes.silent (h : Writes before after changes) (silent : ∀ id, writesOf id changes = [])
    (stores : ∀ id, ¬ Stores changes id) : Writes before after [] where
  attached := h.attached
  held id m hm := by
    rcases h.held id m hm with ⟨old, hold, hpending, hset⟩ | ⟨hstored, _⟩
    · refine .inl ⟨old, hold, hpending, fun f => ?_⟩
      rw [hset, silent]
      rfl
    · exact absurd hstored (stores id)

def writesBack (store : Sqlite) (id : OutboxId) : Settle → List Change
  | .failed _ (.fatal _) =>
    ((store.outbox.get id.raw).map fun entry => undoRest entry.undo []).getD []
  | .inPart done =>
    ((store.outbox.get id.raw).map fun entry => undoRest entry.undo done).getD []
  | _ => []

def leavesQueue : Settle → Bool
  | .ok | .failed _ (.fatal _) | .inPart _ => true
  | .failed _ .now | .failed _ (.after _) | .failed _ .needsReauth | .failed _ .needsGrant => false

def staysQueued (store : Sqlite) (id : OutboxId) (settle : Settle) (message : MessageId) :
    List Setting :=
  if leavesQueue settle then store.pendingBut id message else store.pendingOn message

variable {id : OutboxId}

theorem pendingBut_of_none (h : store.outbox.get id.raw = none) (message : MessageId) :
    store.pendingBut id message = store.pendingOn message := by
  refine store.pendingOn_filter message fun held entry hget hid => ?_
  rw [bne_eq_false_iff_eq] at hid
  rw [hid, h] at hget
  cases hget

/-- A write by a list of changes after which the queue is `queue`. -/
structure Leaves (before after : Sqlite) (changes : List Change)
    (queue : MessageId → List Setting) : Prop where
  attached : after.Attached
  held : ∀ id m, after.messages.get id = some m →
    (∃ old, before.messages.get id = some old ∧ after.pendingOn id = queue id ∧
      ∀ f, m.setting f =
        (Registers.last Message f (writesOf id changes)).getD (old.setting f)) ∨
    after.pendingOn id = []

theorem Writes.leaves {middle : Sqlite} {queue : MessageId → List Setting}
    (h : Writes middle after changes) (messages : middle.messages = before.messages)
    (pending : ∀ id, middle.pendingOn id = queue id) : Leaves before after changes queue where
  attached := h.attached
  held id m hm := by
    rcases h.held id m hm with ⟨old, hold, hpending, hset⟩ | ⟨_, hnone⟩
    · exact .inl ⟨old, messages ▸ hold, hpending.trans (pending id), hset⟩
    · exact .inr hnone

theorem deleteMessage_dropEntry (store : Sqlite) (id : OutboxId) (message : MessageId) :
    (store.dropEntry id).deleteMessage message = (store.deleteMessage message).dropEntry id := by
  unfold deleteMessage dropEntry
  rw [Series.erase_mapRows]

section Settle

variable [Unicode]

theorem refreshSummary_dropEntry (store : Sqlite) (id : OutboxId) (thread : ThreadId) :
    (store.dropEntry id).refreshSummary thread =
      (store.refreshSummary thread).map fun written => written.dropEntry id := by
  have hmessages : (store.dropEntry id).messagesOf thread = store.messagesOf thread := rfl
  have hthreads : (store.dropEntry id).threads = store.threads := rfl
  unfold refreshSummary
  dsimp only
  rw [hmessages, hthreads]
  split
  · rfl
  · cases store.threads.get thread with
    | none => rfl
    | some state =>
      dsimp only
      split <;> rfl

theorem deleteUnaddressed_dropEntry (store : Sqlite) (id : OutboxId) (messages : List MessageId) :
    (store.dropEntry id).deleteUnaddressed messages =
      (store.deleteUnaddressed messages).map fun written => written.dropEntry id := by
  induction messages generalizing store with
  | nil => rfl
  | cons message rest ih =>
    have hremaining : (store.dropEntry id).remaining message = store.remaining message := rfl
    have hthread : (store.dropEntry id).threadOf message = store.threadOf message := rfl
    rw [deleteUnaddressed, deleteUnaddressed, hremaining, hthread, deleteMessage_dropEntry]
    split
    · cases store.threadOf message with
      | none => exact ih _
      | some thread =>
        dsimp only
        rw [refreshSummary_dropEntry]
        cases (store.deleteMessage message).refreshSummary thread with
        | error error => rfl
        | ok refreshed => exact ih refreshed
    · exact ih store

theorem forgetMailbox_dropEntry (store : Sqlite) (id : OutboxId) (account : AccountId)
    (path : String) :
    (store.dropEntry id).forgetMailbox account path =
      (store.forgetMailbox account path).map fun written => written.dropEntry id := by
  unfold forgetMailbox
  dsimp only
  rw [← deleteUnaddressed_dropEntry]
  rfl

theorem deleteUnaddressed_writes {messages : List MessageId}
    (attached : store.Attached) (h : store.deleteUnaddressed messages = .ok after) :
    Writes store after [] := by
  induction messages generalizing store with
  | nil =>
    cases h
    exact Writes.of_eq attached rfl rfl fun _ => rfl
  | cons message rest ih =>
    have hdelete := (store.deleteMessage_writes attached message).silent (fun _ => rfl)
      (fun id ⟨m, hm, _⟩ => by simp at hm)
    rw [deleteUnaddressed] at h
    split at h
    · split at h
      · exact hdelete.trans (ih hdelete.attached h)
      · split at h
        · cases h
        · rename_i refreshed hrefresh
          have heq := refreshSummary_eq hrefresh
          have hrefreshed : Writes store refreshed [] := by
            rw [heq]
            exact ⟨hdelete.attached, hdelete.held⟩
          exact hrefreshed.trans (ih hrefreshed.attached h)
    · exact ih attached h

theorem forgetMailbox_writes {path : String}
    (attached : store.Attached) (h : store.forgetMailbox account path = .ok after) :
    Writes store after [] := by
  unfold forgetMailbox at h
  dsimp only at h
  refine (deleteUnaddressed_writes ?_ h).from_eq rfl rfl
  exact attached

theorem undoEntry_writes {done : List MessageId}
    (attached : store.Attached) (h : store.undoEntry id done = .ok after) :
    ∃ entry, store.outbox.get id.raw = some entry ∧
      Writes (store.dropEntry id) after (undoRest entry.undo done) := by
  unfold undoEntry at h
  split at h
  · cases h
  · rename_i entry hentry
    exact ⟨entry, hentry, writeEach_writes (dropEntry_attached attached id) h⟩

/-- A settled entry writes back what it puts back, and leaves the others queued. -/
theorem settleIn_leaves {settle : Settle}
    (attached : store.Attached) (h : store.settleIn id settle now = .ok after) :
    Leaves store after (store.writesBack id settle) (store.staysQueued id settle) := by
  have hretried : ∀ f : Entry → Entry, (∀ entry message, (f entry).asks message =
      entry.asks message) → ∀ message,
      ({ store with outbox := store.outbox.modify id.raw f } : Sqlite).pendingOn message =
        store.pendingOn message := by
    intro f hf message
    refine Series.flatMap_values_mapRows _ fun held entry _ => ?_
    by_cases hid : held = id.raw
    · rw [if_pos hid]
      exact hf entry message
    · rw [if_neg hid]
  have hretry : ∀ (settle : Settle) (f : Entry → Entry), leavesQueue settle = false →
      store.writesBack id settle = [] → (∀ entry message, (f entry).asks message =
        entry.asks message) →
      Leaves store { store with outbox := store.outbox.modify id.raw f }
        (store.writesBack id settle) (store.staysQueued id settle) := by
    intro settle f hstays hnothing hf
    refine ⟨fun message hnone => (hretried f hf message).trans (attached message hnone),
      fun message m hm => .inl ⟨m, hm, ?_, fun _ => by rw [hnothing]; rfl⟩⟩
    rw [hretried f hf, staysQueued, hstays, if_neg Bool.false_ne_true]
  unfold settleIn at h
  split at h
  · rename_i hnone
    split at h
    · cases h
      have hback : store.writesBack id settle = [] := by
        unfold writesBack
        split <;> simp [hnone]
      refine ⟨attached, fun message m hm => .inl ⟨m, hm, ?_, fun _ => by rw [hback]; rfl⟩⟩
      rw [staysQueued, pendingBut_of_none hnone, ite_self]
    · cases h
  · rename_i entry hentry
    have hrefused : ∀ done, (store.settleDestroyed id .refused).undoEntry id done = .ok after →
        Leaves store after (undoRest entry.undo done) (store.pendingBut id) := by
      intro done hdone
      have hsame : (store.settleDestroyed id .refused).Attached := by
        rw [settleDestroyed_eq]
        exact attached
      obtain ⟨held, hheld, hwrites⟩ := undoEntry_writes hsame hdone
      have hentry' : held = entry := by
        rw [settleDestroyed_eq] at hheld
        exact Option.some.inj (hheld.symm.trans hentry)
      rw [hentry'] at hwrites
      refine hwrites.leaves ?_ fun message => ?_
      · rw [settleDestroyed_eq]
        rfl
      · rw [settleDestroyed_eq]
        rfl
    cases settle with
    | ok =>
      dsimp only at h
      split at h
      · cases h
        refine ⟨dropEntry_attached (by rw [settleDestroyed_eq]; exact attached) id,
          fun message m hm => .inl ⟨m, ?_, ?_, fun _ => rfl⟩⟩
        · rw [settleDestroyed_eq] at hm
          exact hm
        · rw [settleDestroyed_eq]
          rfl
      · rw [← forgetMailbox_dropEntry] at h
        have hanswered := store.settleDestroyed_eq id .done
        refine (forgetMailbox_writes ?_ h).leaves ?_ fun message => ?_
        · rw [hanswered]
          exact dropEntry_attached attached id
        · rw [hanswered]
          rfl
        · rw [hanswered]
          rfl
    | failed reason retry =>
      cases retry with
      | now | after | needsReauth | needsGrant =>
        cases h
        exact hretry _ _ rfl rfl fun _ _ => rfl
      | fatal text =>
        have hleaves := hrefused [] h
        have hback : store.writesBack id (.failed reason (.fatal text)) =
            undoRest entry.undo [] := by
          simp [writesBack, hentry]
        rw [hback]
        exact hleaves
    | inPart done =>
      have hleaves := hrefused done h
      have hback : store.writesBack id (.inPart done) = undoRest entry.undo done := by
        simp [writesBack, hentry]
      rw [hback]
      exact hleaves

end Settle

end Sqlite

end Mailo.Store
