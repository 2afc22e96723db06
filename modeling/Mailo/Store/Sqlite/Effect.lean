import Mailo.Store.Memory
import Mailo.Store.Sqlite.Outbox

/-!
# What a write leaves of the messages and their queue

A message and what is pending on it change together. Local writes put settings on messages, and
never leave anything pending on a message that is not held.
-/

namespace Mailo.Store

open Domain Library

theorem map_ok {α β : Type} {result : Except StoreError α} {f : α → β} {b : β}
    (h : result.map f = .ok b) : ∃ a, result = .ok a ∧ f a = b := by
  cases result with
  | error error => cases h
  | ok a => exact ⟨a, rfl, Except.ok.inj h⟩

def upsertSettings (m : Message) : List Setting :=
  [.read m.read, .star m.star, .flag m.flag, .mailbox m.mailbox] ++
    m.labels.map fun label => .label label .in

def writesOn (id : MessageId) : Change → List Setting
  | .messageUpsert m => if m.id = id then upsertSettings m else []
  | change =>
    match change.setting with
    | some (other, s) => if other = id then [s] else []
    | none => []

def writesOf (id : MessageId) (changes : List Change) : List Setting :=
  changes.flatMap (writesOn id)

@[simp] theorem writesOf_nil (id : MessageId) : writesOf id [] = [] := rfl

@[simp] theorem writesOf_cons (id : MessageId) (change : Change) (rest : List Change) :
    writesOf id (change :: rest) = writesOn id change ++ writesOf id rest := rfl

theorem writesOf_append (id : MessageId) (changes more : List Change) :
    writesOf id (changes ++ more) = writesOf id changes ++ writesOf id more :=
  List.flatMap_append

theorem writesOn_setting {change : Change} {id other : MessageId} {s : Setting}
    (h : change.setting = some (other, s)) :
    writesOn id change = if other = id then [s] else [] := by
  rw [Change.eq_ofSetting h]
  cases s <;> rfl

variable {labels : List LabelId}

theorem mem_foldl_addLabel {held : List LabelId} {label : LabelId} :
    label ∈ labels.foldl addLabel held ↔ label ∈ held ∨ label ∈ labels := by
  induction labels generalizing held with
  | nil => simp
  | cons head rest ih =>
    rw [List.foldl_cons, ih, mem_addLabel, List.mem_cons, or_assoc]

theorem last_labels_in {f : Field} :
    Registers.last Message f (labels.map fun label => Setting.label label .in) =
      match f with
      | .label label => if label ∈ labels then some (.label label .in) else none
      | _ => none := by
  induction labels with
  | nil => cases f <;> simp
  | cons head rest ih =>
    rw [List.map_cons, Registers.last, ih]
    have hkey : Registers.key Message (Setting.label head .in) = .label head := rfl
    rw [hkey]
    cases f with
    | label label =>
      by_cases hrest : label ∈ rest
      · simp [hrest]
      · by_cases heq : label = head
        · subst heq
          simp [hrest]
        · simp [hrest, heq]
    | _ => simp

/-- A message stored again holds what the new copy sets, and what it held where that is silent. -/
theorem merged_setting (held m : Message) (f : Field) :
    (Sqlite.merged held m).setting f =
      (Registers.last Message f (upsertSettings m)).getD (held.setting f) := by
  rw [upsertSettings, Registers.last_append, last_labels_in]
  have hkey : ∀ s : Setting, Registers.key Message s = s.field := fun _ => rfl
  cases f with
  | label label =>
    simp only [Registers.last, hkey, Setting.field, reduceCtorEq, if_false, Option.or_none]
    simp only [Message.setting, Message.membership, Sqlite.merged]
    by_cases hnew : label ∈ m.labels
    · have hin : label ∈ m.labels.foldl addLabel held.labels := mem_foldl_addLabel.mpr (.inr hnew)
      simp [hnew, hin]
    · have hiff : label ∈ m.labels.foldl addLabel held.labels ↔ label ∈ held.labels := by
        rw [mem_foldl_addLabel]
        simp [hnew]
      simp [hnew, hiff]
  | _ => simp [Registers.last, hkey, Setting.field, Message.setting, Sqlite.merged]

namespace Entry

@[simp] theorem asks_forget (entry : Entry) (id other : MessageId) :
    (entry.forget id).asks other = if other = id then [] else entry.asks other := by
  unfold asks forget
  by_cases h : other = id <;> simp [h]

theorem asks_of_quiet {entry : Entry} (h : draftOf entry.op ≠ none) (id : MessageId) :
    entry.asks id = [] := by
  have hrows := entry.quiet h
  unfold asks Table.get
  rw [hrows]
  rfl

end Entry

/-! ## Local writes -/

namespace Sqlite

def Attached (store : Sqlite) : Prop :=
  ∀ id, store.messages.get id = none → store.pendingOn id = []

/-- A list of changes stores a message under an id. -/
def Stores (changes : List Change) (id : MessageId) : Prop :=
  ∃ m, Change.messageUpsert m ∈ changes ∧ m.id = id

/-- From one store to another by a list of changes: a message held keeps what is pending on it,
and every setting the changes do not write, unless they stored it anew with nothing pending. -/
structure Writes (before after : Sqlite) (changes : List Change) : Prop where
  attached : after.Attached
  held : ∀ id m, after.messages.get id = some m →
    (∃ old, before.messages.get id = some old ∧ after.pendingOn id = before.pendingOn id ∧
      ∀ f, m.setting f =
        (Registers.last Message f (writesOf id changes)).getD (old.setting f)) ∨
    (Stores changes id ∧ after.pendingOn id = [])

variable {a b after before : Sqlite} {id : MessageId} {s : Setting} {m : Message}
  {thread : Option ThreadId}

theorem pendingOn_of_outbox (h : a.outbox = b.outbox) (id : MessageId) :
    a.pendingOn id = b.pendingOn id := by
  rw [pendingOn, pendingOn, h]

variable {changes : List Change} {change : Change} {store written : Sqlite}

/-- A change that leaves messages and outbox writes nothing. -/
theorem Writes.of_eq (attached : before.Attached) (messages : after.messages = before.messages)
    (outbox : after.outbox = before.outbox) (silent : ∀ id, writesOf id changes = []) :
    Writes before after changes where
  attached id h := by
    rw [pendingOn_of_outbox outbox]
    exact attached id (messages ▸ h)
  held id m h :=
    .inl ⟨m, messages ▸ h, pendingOn_of_outbox outbox id, fun _ => by rw [silent]; rfl⟩

theorem Writes.from_eq {start : Sqlite} (h : Writes start after changes)
    (messages : start.messages = before.messages) (outbox : start.outbox = before.outbox) :
    Writes before after changes where
  attached := h.attached
  held id m hm := by
    rcases h.held id m hm with ⟨old, hold, hpending, hset⟩ | hstored
    · exact .inl ⟨old, messages ▸ hold, hpending.trans (pendingOn_of_outbox outbox id), hset⟩
    · exact .inr hstored

theorem Writes.trans {c : Sqlite} {more : List Change} (hab : Writes a b changes)
    (hbc : Writes b c more) : Writes a c (changes ++ more) where
  attached := hbc.attached
  held id m hm := by
    have hstores : ∀ {l : List Change}, Stores l id → (∀ c ∈ l, c ∈ changes ++ more) →
        Stores (changes ++ more) id := fun ⟨m, hmem, hid⟩ hsub => ⟨m, hsub _ hmem, hid⟩
    rcases hbc.held id m hm with ⟨mid, hmid, hsame, hset⟩ | ⟨hstored, hnone⟩
    · rcases hab.held id mid hmid with ⟨old, hold, hsame', hset'⟩ | ⟨hstored, hnone⟩
      · refine .inl ⟨old, hold, hsame.trans hsame', fun f => ?_⟩
        rw [hset, hset', writesOf_append, Registers.last_append]
        cases Registers.last Message f (writesOf id more) <;> rfl
      · exact .inr ⟨hstores hstored fun c hc => List.mem_append_left _ hc, hsame.trans hnone⟩
    · exact .inr ⟨hstores hstored fun c hc => List.mem_append_right _ hc, hnone⟩

theorem put_writes (store : Sqlite) (attached : store.Attached) (hs : change.setting = some
    (id, s)) :
    Writes store (store.put id s) [change] where
  attached other h := by
    refine attached other ?_
    change (store.messages.modify id fun m => m.put s).get other = none at h
    rw [Table.get_modify] at h
    by_cases heq : other = id
    · rw [if_pos heq, Option.map_eq_none_iff] at h
      exact h
    · rwa [if_neg heq] at h
  held other m h := by
    left
    change (store.messages.modify id fun m => m.put s).get other = some m at h
    rw [Table.get_modify] at h
    rw [writesOf_cons, writesOf_nil, List.append_nil, writesOn_setting hs]
    by_cases heq : other = id
    · rw [if_pos heq] at h
      obtain ⟨old, hold, rfl⟩ := Option.map_eq_some_iff.mp h
      refine ⟨old, hold, rfl, fun f => ?_⟩
      rw [if_pos heq.symm, Message.setting_put, Registers.last_singleton]
      change _ = (if f = s.field then some s else none).getD (old.setting f)
      by_cases hf : f = s.field <;> simp [hf]
    · rw [if_neg heq] at h
      exact ⟨m, h, rfl, fun f => by rw [if_neg fun h => heq h.symm]; rfl⟩

/-- The pending changes of the entries that stay, when those that go ask for nothing. -/
theorem pendingOn_filter (store : Sqlite) {p : Nat → Entry → Bool} (id : MessageId)
    (h : ∀ held entry, store.outbox.get held = some entry → p held entry = false →
      entry.asks id = []) :
    (store.outbox.filter p).values.flatMap (fun entry => entry.asks id) = store.pendingOn id :=
  Series.flatMap_values_filter _ h

theorem pendingOn_forget (store : Sqlite) (id other : MessageId) :
    (store.outbox.mapRows fun _ entry => entry.forget id).values.flatMap
      (fun entry => entry.asks other) = if other = id then [] else store.pendingOn other := by
  by_cases heq : other = id
  · subst heq
    rw [if_pos rfl, List.flatMap_eq_nil_iff]
    intro entry hentry
    obtain ⟨at', hget⟩ := Series.mem_values.mp hentry
    rw [Series.get_mapRows] at hget
    obtain ⟨held, _, rfl⟩ := Option.map_eq_some_iff.mp hget
    simp
  · rw [if_neg heq]
    exact Series.flatMap_values_mapRows _ fun _ entry _ => by simp [heq]

theorem pendingOn_deleteMessage (store : Sqlite) (id other : MessageId) :
    (store.deleteMessage id).pendingOn other = if other = id then [] else store.pendingOn other :=
  store.pendingOn_forget id other

theorem deleteMessage_writes (store : Sqlite) (attached : store.Attached) (id : MessageId) :
    Writes store (store.deleteMessage id) [.messageDelete id] where
  attached other h := by
    rw [pendingOn_deleteMessage]
    change (store.messages.erase id).get other = none at h
    rw [Table.get_erase] at h
    by_cases heq : other = id
    · rw [if_pos heq]
    · rw [if_neg heq] at h ⊢
      exact attached other h
  held other m h := by
    change (store.messages.erase id).get other = some m at h
    rw [Table.get_erase] at h
    by_cases heq : other = id
    · rw [if_pos heq] at h
      cases h
    · rw [if_neg heq] at h
      rw [pendingOn_deleteMessage, if_neg heq]
      exact .inl ⟨m, h, rfl, fun _ => rfl⟩

theorem deleteDraft_writes (store : Sqlite) (attached : store.Attached) (id : DraftId) :
    Writes store (store.deleteDraft id) [.draftDelete id] := by
  have hpending : ∀ other, (store.deleteDraft id).pendingOn other = store.pendingOn other := by
    intro other
    refine store.pendingOn_filter other fun _ entry _ hsubmit => Entry.asks_of_quiet ?_ other
    have hop : isSubmitOf id entry.op = true := by simpa using hsubmit
    intro hnone
    cases hentry : entry.op <;> rw [hentry] at hop hnone <;>
      simp [isSubmitOf, draftOf] at hop hnone
  exact ⟨fun other h => (hpending other).trans (attached other h),
    fun other m h => .inl ⟨m, h, hpending other, fun _ => rfl⟩⟩

theorem upsertMessage_eq (h : store.upsertMessage m = .ok written) :
    written = { store with
      threads := store.threads.insertNew m.thread .fresh
      messages := store.messages.set m.id (match store.messages.get m.id with
        | some held => merged held m
        | none => inserted m) } := by
  unfold upsertMessage at h
  split at h
  · cases h
  · split at h
    · exact (Except.ok.inj h).symm
    · cases h

theorem upsertMessage_writes (attached : store.Attached) (h : store.upsertMessage m = .ok written) :
    Writes store written [.messageUpsert m] := by
  rw [upsertMessage_eq h]
  constructor
  · intro other hnone
    refine attached other ?_
    dsimp only at hnone
    rw [Table.get_set] at hnone
    by_cases heq : other = m.id
    · rw [if_pos heq] at hnone
      cases hnone
    · rwa [if_neg heq] at hnone
  · intro other stored hstored
    dsimp only at hstored
    rw [Table.get_set] at hstored
    rw [writesOf_cons, writesOf_nil, List.append_nil]
    by_cases heq : other = m.id
    · subst heq
      rw [if_pos rfl, Option.some.injEq] at hstored
      subst hstored
      cases hheld : store.messages.get m.id with
      | none => exact .inr ⟨⟨m, List.mem_singleton_self _, rfl⟩, attached m.id hheld⟩
      | some held =>
        refine .inl ⟨held, rfl, rfl, fun f => ?_⟩
        rw [writesOn, if_pos rfl]
        exact merged_setting held m f
    · rw [if_neg heq] at hstored
      refine .inl ⟨stored, hstored, rfl, fun f => ?_⟩
      rw [writesOn, if_neg fun h => heq h.symm]
      rfl

/-- Writing a setting, when it is written at all, is putting it. -/
theorem writeChange_setting (hs : change.setting = some (id, s))
    (h : store.writeChange change = .ok (written, thread)) :
    written = store.put id s ∧ thread = store.threadOf id := by
  rw [Change.eq_ofSetting hs] at h
  cases s with
  | label label membership =>
    cases membership with
    | «in» =>
      change (if _ then _ else _) = _ at h
      split at h
      · cases h
        exact ⟨rfl, rfl⟩
      · cases h
    | out =>
      cases h
      exact ⟨rfl, rfl⟩
  | _ =>
    cases h
    exact ⟨rfl, rfl⟩

theorem writeChange_writes (attached : store.Attached)
    (h : store.writeChange change = .ok (written, thread)) :
    Writes store written [change] := by
  cases hs : change.setting with
  | some pair =>
    obtain ⟨id, s⟩ := pair
    rw [(writeChange_setting hs h).1]
    exact store.put_writes attached hs
  | none =>
    cases change with
    | messageUpsert m =>
      obtain ⟨after, hafter, heq⟩ := map_ok h
      cases heq
      exact upsertMessage_writes attached hafter
    | messageDelete id =>
      cases h
      exact store.deleteMessage_writes attached id
    | labelUpsert label =>
      obtain ⟨after, hafter, heq⟩ := map_ok h
      cases heq
      unfold writeLabel at hafter
      dsimp only at hafter
      split at hafter
      · cases hafter
      · cases hafter
        exact Writes.of_eq attached rfl rfl fun _ => rfl
    | draftDelete id =>
      cases h
      exact store.deleteDraft_writes attached id
    | threadSnooze _ _ | threadPin _ _ | threadMute _ _ | threadFollowUp _ _ | draftUpsert _ =>
      cases h
      exact Writes.of_eq attached rfl rfl fun _ => rfl
    | messageRead _ _ | messageStar _ _ | messageFlag _ _ | messageMailbox _ _
    | messageLabel _ _ _ => cases hs

theorem writeChanges_cons {touched after : List ThreadId} {change : Change} {rest : List Change}
    (h : store.writeChanges touched (change :: rest) = .ok (written, after)) :
    ∃ next thread, store.writeChange change = .ok (next, thread) ∧
      next.writeChanges (touchSome touched thread) rest = .ok (written, after) := by
  rw [writeChanges] at h
  split at h
  · cases h
  · rename_i next thread hone
    exact ⟨next, thread, hone, h⟩

theorem writeChanges_writes {touched after : List ThreadId} (attached : store.Attached)
    (h : store.writeChanges touched changes = .ok (written, after)) :
    Writes store written changes := by
  induction changes generalizing store touched with
  | nil =>
    cases h
    exact Writes.of_eq attached rfl rfl fun _ => rfl
  | cons change rest ih =>
    obtain ⟨next, thread, hone, hrest⟩ := writeChanges_cons h
    have hwrites := writeChange_writes attached hone
    exact hwrites.trans (ih hwrites.attached hrest)

section Summaries

variable [Unicode]

variable {store written : Sqlite}

/-- Rewriting a summary touches the threads and the summaries only. -/
theorem refreshSummary_eq {thread : ThreadId} (h : store.refreshSummary thread = .ok written) :
    written = { store with threads := written.threads, summaries := written.summaries } := by
  unfold refreshSummary at h
  dsimp only at h
  split at h
  · cases h
    rfl
  · split at h
    · cases h
    · split at h
      · cases h
        rfl
      · cases h
        rfl

theorem refreshAll_eq {threads : List ThreadId} (h : store.refreshAll threads = .ok written) :
    written = { store with threads := written.threads, summaries := written.summaries } := by
  induction threads generalizing store with
  | nil =>
    cases h
    rfl
  | cons thread rest ih =>
    rw [refreshAll] at h
    cases hone : store.refreshSummary thread with
    | error error => simp [hone] at h
    | ok next =>
      rw [hone] at h
      rw [ih h, refreshSummary_eq hone]

theorem writePatch_writes {patch : Patch} (attached : store.Attached)
    (h : store.writePatch patch = .ok written) : Writes store written patch.changes := by
  unfold writePatch at h
  cases hchanges : store.writeChanges [] patch.changes with
  | error error => simp [hchanges] at h
  | ok pair =>
    obtain ⟨next, touched⟩ := pair
    simp only [hchanges] at h
    have hwrites := writeChanges_writes attached hchanges
    rw [refreshAll_eq h]
    exact ⟨hwrites.attached, hwrites.held⟩

theorem writeEach_writes (attached : store.Attached) (h : store.writeEach changes = .ok written) :
    Writes store written changes := by
  induction changes generalizing store with
  | nil =>
    cases h
    exact Writes.of_eq attached rfl rfl fun _ => rfl
  | cons change rest ih =>
    rw [writeEach] at h
    cases hone : store.writeChange change with
    | error error => simp [hone] at h
    | ok pair =>
      obtain ⟨next, thread⟩ := pair
      have hwrites := writeChange_writes attached hone
      cases thread with
      | none =>
        rw [hone] at h
        exact hwrites.trans (ih hwrites.attached h)
      | some thread =>
        rw [hone] at h
        dsimp only at h
        cases hrefresh : next.refreshSummary thread with
        | error error => simp [hrefresh] at h
        | ok refreshed =>
          rw [hrefresh] at h
          have heq := refreshSummary_eq hrefresh
          have hrefreshed : Writes store refreshed [change] := by
            rw [heq]
            exact ⟨hwrites.attached, hwrites.held⟩
          exact hrefreshed.trans (ih hrefreshed.attached h)

end Summaries

end Sqlite

end Mailo.Store
