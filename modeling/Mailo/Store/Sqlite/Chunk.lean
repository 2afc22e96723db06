import Mailo.Store.Sqlite.Layer

/-!
# What a chunk touches

Every pass of a chunk changes one message at a time and touches its thread. What is pending is
therefore in force after a chunk on every message: the layering sees to the threads touched, and
the others are as they were.
-/

namespace Mailo.Store

open Domain Library

namespace Sqlite

/-- Everything queued for a message, by entries still in the queue, is in force on it. -/
def InForce (store : Sqlite) : Prop :=
  ∀ id m, store.messages.get id = some m → Registers.InForce m (store.pendingOn id)

variable {store written : Sqlite} {account : AccountId}

theorem threadOf_of_get {id : MessageId} {m : Message} (h : store.messages.get id = some m) :
    store.threadOf id = some m.thread := by
  rw [threadOf, h]
  rfl

theorem writeLabel_eq {label : Label} (h : store.writeLabel label = .ok written) :
    written = { store with labels := written.labels } := by
  unfold writeLabel at h
  dsimp only at h
  split at h
  · cases h
  · cases h
    rfl

variable {name : String}

theorem labelNamed_eq {origin : LabelOrigin} {label : LabelId}
    (h : store.labelNamed account name origin = .ok (written, label)) :
    written = { store with labels := written.labels } := by
  unfold labelNamed at h
  split at h
  · cases h
    rfl
  · obtain ⟨after, hafter, heq⟩ := map_ok h
    cases heq
    exact writeLabel_eq hafter

theorem labelByKeyword_eq {keyed after : Keyed} {label : Option LabelId}
    (h : store.labelByKeyword account name keyed = .ok (written, after, label)) :
    written = { store with labels := written.labels } := by
  unfold labelByKeyword at h
  split at h
  · cases h
    rfl
  · split at h
    · cases h
      rfl
    · obtain ⟨next, hnext, heq⟩ := map_ok h
      cases heq
      exact writeLabel_eq hnext

theorem wantedLabels_eq {keyed after : Option Keyed} {wanted labels : List LabelId}
    {names : List String}
    (h : store.wantedLabels account keyed wanted names = .ok (written, after, labels)) :
    written = { store with labels := written.labels } := by
  induction names generalizing store keyed wanted with
  | nil =>
    cases h
    rfl
  | cons name rest ih =>
    cases keyed with
    | some held =>
      simp only [wantedLabels] at h
      cases hone : store.labelByKeyword account name held with
      | error error => simp [hone] at h
      | ok found =>
        obtain ⟨next, held, label⟩ := found
        rw [hone] at h
        rw [ih h, labelByKeyword_eq hone]
    | none =>
      simp only [wantedLabels] at h
      cases hone : store.labelNamed account name .provider with
      | error error => simp [hone] at h
      | ok found =>
        obtain ⟨next, label⟩ := found
        rw [hone] at h
        rw [ih h, labelNamed_eq hone]

end Sqlite

theorem mem_touchSome {touched : List ThreadId} {thread : Option ThreadId} {other : ThreadId} :
    other ∈ touchSome touched thread ↔ thread = some other ∨ other ∈ touched := by
  cases thread with
  | none => simp [touchSome]
  | some thread =>
    rw [touchSome, mem_touch, Option.some.injEq]
    exact or_congr_left eq_comm

namespace Pass

/-- What holds in the middle of a chunk: a message whose thread is not touched is as it was, and
so is what is pending on it. -/
structure Passing (start : Sqlite) (pass : Pass) : Prop where
  attached : pass.store.Attached
  held : ∀ id m, pass.store.messages.get id = some m → m.thread ∈ pass.touched ∨
    (start.messages.get id = some m ∧ pass.store.pendingOn id = start.pendingOn id)

variable {start : Sqlite} {pass after : Pass}

/-- A step that changes one message at most and touches the thread it is then in. -/
theorem Passing.step (h : Passing start pass) (id : MessageId)
    (apart : ∀ other, other ≠ id →
      after.store.messages.get other = pass.store.messages.get other ∧
      after.store.pendingOn other = pass.store.pendingOn other)
    (gone : after.store.messages.get id = none → after.store.pendingOn id = [])
    (here : ∀ m, after.store.messages.get id = some m → m.thread ∈ after.touched ∨
      (pass.store.messages.get id = some m ∧
        after.store.pendingOn id = pass.store.pendingOn id))
    (sub : ∀ thread ∈ pass.touched, thread ∈ after.touched) : Passing start after where
  attached other hnone := by
    by_cases heq : other = id
    · subst heq
      exact gone hnone
    · rw [(apart other heq).2]
      exact h.attached other ((apart other heq).1 ▸ hnone)
  held other m hm := by
    have hkept : pass.store.messages.get other = some m →
        after.store.pendingOn other = pass.store.pendingOn other →
        m.thread ∈ after.touched ∨ (start.messages.get other = some m ∧
          after.store.pendingOn other = start.pendingOn other) := by
      intro hget hpending
      rw [hpending]
      exact (h.held other m hget).imp_left (sub _)
    by_cases heq : other = id
    · subst heq
      rcases here m hm with htouched | ⟨hget, hpending⟩
      · exact .inl htouched
      · exact hkept hget hpending
    · exact hkept ((apart other heq).1 ▸ hm) (apart other heq).2

/-- Settings written to one message, whose thread is touched when any is. -/
theorem Passing.sets (h : Passing start pass) (id : MessageId)
    {log : MessageId → List Setting} (sets : Sets pass.store after.store log)
    (one : ∀ other, other ≠ id → log other = [])
    (here : ∀ thread, pass.store.threadOf id = some thread →
      log id = [] ∨ thread ∈ after.touched)
    (sub : ∀ thread ∈ pass.touched, thread ∈ after.touched) : Passing start after := by
  refine h.step id (fun other hne => ⟨?_, sets.pendingOn other⟩) (fun hnone => ?_)
    (fun m hm => ?_) sub
  · rw [sets.messages, one other hne]
    simp
  · rw [sets.pendingOn]
    rw [sets.messages, Option.map_eq_none_iff] at hnone
    exact h.attached id hnone
  · have hthread : pass.store.threadOf id = some m.thread := by
      rw [← sets.threadOf]
      exact Sqlite.threadOf_of_get hm
    rcases here m.thread hthread with hnil | htouched
    · rw [sets.messages, hnil] at hm
      exact .inr ⟨by simpa using hm, sets.pendingOn id⟩
    · exact .inl htouched

/-- A step that leaves messages and outbox. -/
theorem Passing.same (h : Passing start pass) (messages : after.store.messages = pass.store.messages)
    (outbox : after.store.outbox = pass.store.outbox)
    (sub : ∀ thread ∈ pass.touched, thread ∈ after.touched) : Passing start after where
  attached id hnone := by
    rw [Sqlite.pendingOn_of_outbox outbox]
    exact h.attached id (messages ▸ hnone)
  held id m hm := by
    rw [messages] at hm
    rw [Sqlite.pendingOn_of_outbox outbox]
    exact (h.held id m hm).imp_left (sub _)

@[simp] theorem store_touching (pass : Pass) (thread : Option ThreadId) :
    (pass.touching thread).store = pass.store := rfl

variable {other : ThreadId} {entry : RemoteRef × ReadState × Star} {left : Option Sqlite.Keyed}

theorem mem_touching {thread : Option ThreadId} :
    other ∈ (pass.touching thread).touched ↔ thread = some other ∨ other ∈ pass.touched :=
  mem_touchSome

/-! ## The passes -/

theorem set_sets (pass : Pass) (id : MessageId) (s : Setting) :
    Sets pass.store (pass.set id s).store fun other => if id = other then [s] else [] :=
  Sets.put pass.store id s

theorem fillBody_frame (pass : Pass) (id : MessageId) (m : Message) :
    (pass.fillBody id m).store =
      { pass.store with messages := (pass.fillBody id m).store.messages } ∧
    (∀ other, other ≠ id →
      (pass.fillBody id m).store.messages.get other = pass.store.messages.get other) ∧
    (∀ other, (pass.fillBody id m).store.threadOf other = pass.store.threadOf other) ∧
    ∀ thread ∈ pass.touched, thread ∈ (pass.fillBody id m).touched := by
  unfold fillBody
  split
  · rename_i text raw _ _
    refine ⟨rfl, fun other hne => ?_, fun other => ?_, fun thread h => mem_touching.mpr (.inr h)⟩
    · change (pass.store.messages.modify id _).get other = _
      rw [Table.get_modify, if_neg hne]
    · unfold Sqlite.threadOf
      change ((pass.store.messages.modify id _).get other).map _ = _
      rw [Table.get_modify]
      split
      · rw [Option.map_map]
        rfl
      · rfl
  · exact ⟨rfl, fun _ _ => rfl, fun _ => rfl, fun _ h => h⟩

theorem fileArrival_frame (pass : Pass) (id : MessageId) (arrivedAs : MailboxRole) :
    (∃ log, Sets pass.store (pass.fileArrival id arrivedAs).store log ∧
      ∀ other, other ≠ id → log other = []) ∧
    (pass.fileArrival id arrivedAs).touched = pass.touched := by
  unfold fileArrival
  split
  · rename_i role _
    exact ⟨⟨_, set_sets pass id (.mailbox role), fun other hne => if_neg fun h => hne h.symm⟩, rfl⟩
  · exact ⟨⟨_, Sets.refl _, fun _ _ => rfl⟩, rfl⟩

variable {account : AccountId} {held : Message} {id : MessageId} {keyed : Option Sqlite.Keyed}

theorem arrive_passing {fetched : Fetched} (h : Passing start pass)
    (hone : pass.arrive account fetched = .ok after) : Passing start after := by
  unfold arrive at hone
  split at hone
  · rename_i id _
    cases hone
    obtain ⟨hframe, hapart, hthread, hsub⟩ := pass.fillBody_frame id fetched.message
    obtain ⟨⟨log, hsets, hlog⟩, htouched⟩ :=
      (pass.fillBody id fetched.message).fileArrival_frame id fetched.message.mailbox
    have hmessages : ∀ other, other ≠ id →
        ((pass.fillBody id fetched.message).fileArrival id
          fetched.message.mailbox).store.messages.get other = pass.store.messages.get other := by
      intro other hne
      rw [hsets.messages, hlog other hne]
      simpa using hapart other hne
    have hpending : ∀ other,
        ((pass.fillBody id fetched.message).fileArrival id
          fetched.message.mailbox).store.pendingOn other = pass.store.pendingOn other := by
      intro other
      rw [hsets.pendingOn]
      exact Sqlite.pendingOn_of_outbox (by rw [hframe]) other
    refine h.step id (fun other hne => ⟨hmessages other hne, hpending other⟩) (fun hnone => ?_)
      (fun m hm => ?_) (fun thread hmem => ?_)
    · refine (hpending id).trans (h.attached id ?_)
      have hnone' : ((pass.fillBody id fetched.message).fileArrival id
          fetched.message.mailbox).store.threadOf id = none := Option.map_eq_none_iff.mpr hnone
      rw [hsets.threadOf, hthread] at hnone'
      exact Option.map_eq_none_iff.mp hnone'
    · exact .inl (mem_touching.mpr (.inl (Sqlite.threadOf_of_get hm)))
    · refine mem_touching.mpr (.inr ?_)
      change thread ∈ (fileArrival _ _ _).touched
      rw [htouched]
      exact hsub thread hmem
  · split at hone
    · cases hone
    · rename_i written hwritten
      cases hone
      have hwrites := Sqlite.upsertMessage_writes h.attached hwritten
      have heq := Sqlite.upsertMessage_eq hwritten
      refine h.step fetched.message.id (fun other hne => ⟨?_, ?_⟩) (fun hnone => ?_)
        (fun m hm => ?_) (fun thread hmem => ?_)
      · change written.messages.get other = _
        rw [heq]
        dsimp only
        rw [Table.get_set, if_neg hne]
      · change written.pendingOn other = _
        rw [heq]
        rfl
      · exact hwrites.attached _ hnone
      · exact .inl (mem_touching.mpr (.inl (Sqlite.threadOf_of_get hm)))
      · refine mem_touching.mpr (.inr ?_)
        exact mem_touch.mpr (.inr hmem)

theorem arriveAll_passing {messages : List Fetched} (h : Passing start pass)
    (hall : pass.arriveAll account messages = .ok after) :
    Passing start after := by
  induction messages generalizing pass with
  | nil =>
    cases hall
    exact h
  | cons fetched rest ih =>
    rw [arriveAll] at hall
    cases hone : pass.arrive account fetched with
    | error error => simp [hone] at hall
    | ok next =>
      rw [hone] at hall
      exact ih (arrive_passing h hone) hall

theorem heldAt_eq {remote : RemoteRef} (h : pass.heldAt account remote = some (id, held)) :
    pass.store.messageByRemote account remote = some id ∧
      pass.store.messages.get id = some held := by
  unfold heldAt at h
  obtain ⟨found, hfound, hmap⟩ := Option.bind_eq_some_iff.mp h
  obtain ⟨m, hm, heq⟩ := Option.map_eq_some_iff.mp hmap
  cases heq
  exact ⟨hfound, hm⟩

/-- What the flags reported at an address change of the message held there. -/
def flagLog (held : Message) (entry : RemoteRef × ReadState × Star) : List Setting :=
  (if held.read ≠ entry.2.1 then [.read entry.2.1] else []) ++
    if held.star ≠ entry.2.2 then [.star entry.2.2] else []

theorem flag_sets (h : pass.heldAt account entry.1 = some (id, held)) :
    Sets pass.store (pass.flag account entry).store
      (fun other => if id = other then flagLog held entry else []) ∧
    (pass.flag account entry).touched =
      if flagLog held entry = [] then pass.touched else touch pass.touched held.thread := by
  unfold flag flagLog
  rw [h]
  have hset : ∀ (pass : Pass) (s : Setting), Sets pass.store (pass.set id s).store
      fun other => if id = other then [s] else [] := fun pass => pass.set_sets id
  by_cases hr : held.read = entry.2.1 <;> by_cases hs : held.star = entry.2.2
  · simp only [hr, hs, ne_eq, not_true_eq_false, if_false, or_self, List.append_nil, ite_self,
      if_true, and_true]
    exact Sets.refl _
  · simp only [hr, hs, ne_eq, not_true_eq_false, not_false_eq_true, if_false, if_true, or_true,
      List.nil_append, store_touching]
    exact ⟨hset pass _, by simp [touching, touchSome, set]⟩
  · simp only [hr, hs, ne_eq, not_true_eq_false, not_false_eq_true, if_false, if_true, or_false,
      List.append_nil, store_touching]
    exact ⟨hset pass _, by simp [touching, touchSome, set]⟩
  · simp only [hr, hs, ne_eq, not_false_eq_true, if_true, or_self, store_touching]
    refine ⟨((hset pass _).trans (hset _ _)).congr fun other => ?_,
      by simp [touching, touchSome, set]⟩
    by_cases heq : id = other <;> simp [heq]

theorem color_sets {entry : RemoteRef × Hue} (h : pass.heldAt account entry.1 = some (id, held)) :
    Sets pass.store (pass.color account entry).store
      (fun other => if id = other ∧ held.flag ≠ entry.2 then [.flag entry.2] else []) ∧
    (pass.color account entry).touched =
      if held.flag = entry.2 then pass.touched else touch pass.touched held.thread := by
  unfold color
  rw [h]
  by_cases hf : held.flag = entry.2
  · simp only [hf, ne_eq, not_true_eq_false, if_false, and_false, if_true, and_true]
    exact Sets.refl _
  · simp only [hf, ne_eq, not_false_eq_true, if_true, and_true, if_false, store_touching]
    exact ⟨pass.set_sets id _, rfl⟩

theorem flag_unheld (h : pass.heldAt account entry.1 = none) : pass.flag account entry = pass := by
  rw [flag, h]

theorem color_unheld {entry : RemoteRef × Hue} (h : pass.heldAt account entry.1 = none) :
    pass.color account entry = pass := by
  rw [color, h]

theorem mem_touch_of_mem {touched : List ThreadId} {thread : ThreadId} (h : other ∈ touched) :
    other ∈ touch touched thread := mem_touch.mpr (.inr h)

theorem flag_passing (h : Passing start pass) (entry : RemoteRef × ReadState × Star) :
    Passing start (pass.flag account entry) := by
  cases hheld : pass.heldAt account entry.1 with
  | none => rwa [flag_unheld hheld]
  | some pair =>
    obtain ⟨id, held⟩ := pair
    obtain ⟨hsets, htouched⟩ := flag_sets hheld
    refine h.sets id hsets (fun other hne => if_neg fun heq => hne heq.symm)
      (fun thread hin => ?_) (fun thread hmem => ?_)
    · rw [Sqlite.threadOf_of_get (heldAt_eq hheld).2, Option.some.injEq] at hin
      rw [if_pos rfl, htouched]
      by_cases hlog : flagLog held entry = []
      · exact .inl hlog
      · rw [if_neg hlog]
        exact .inr (mem_touch.mpr (.inl hin.symm))
    · rw [htouched]
      split
      · exact hmem
      · exact mem_touch_of_mem hmem

theorem color_passing (h : Passing start pass) (entry : RemoteRef × Hue) :
    Passing start (pass.color account entry) := by
  cases hheld : pass.heldAt account entry.1 with
  | none => rwa [color_unheld hheld]
  | some pair =>
    obtain ⟨id, held⟩ := pair
    obtain ⟨hsets, htouched⟩ := color_sets hheld
    refine h.sets id hsets (fun other hne => if_neg fun heq => hne heq.1.symm)
      (fun thread hin => ?_) (fun thread hmem => ?_)
    · rw [Sqlite.threadOf_of_get (heldAt_eq hheld).2, Option.some.injEq] at hin
      rw [htouched]
      by_cases hf : held.flag = entry.2
      · exact .inl (if_neg fun h => h.2 hf)
      · rw [if_neg hf]
        exact .inr (mem_touch.mpr (.inl hin.symm))
    · rw [htouched]
      split
      · exact hmem
      · exact mem_touch_of_mem hmem

theorem sets_labelChanges (id : MessageId) (held wanted : List LabelId) :
    Memory.Sets (labelChanges id held wanted) := by
  intro change hchange
  rcases List.mem_append.mp hchange with hmem | hmem <;>
    obtain ⟨label, _, rfl⟩ := List.mem_map.mp hmem <;> simp [Change.setting]

theorem settingsOf_labelChanges_of_ne {other : MessageId} (held wanted : List LabelId)
    (h : other ≠ id) : settingsOf other (labelChanges id held wanted) = [] := by
  rw [List.eq_nil_iff_forall_not_mem]
  intro s hs
  have hmem := mem_settingsOf.mp hs
  rcases List.mem_append.mp hmem with hmem | hmem <;> obtain ⟨label, _, heq⟩ := List.mem_map.mp hmem
  · exact h (Change.ofSetting_inj (heq.symm.trans rfl :
      Change.ofSetting other s = Change.ofSetting id (.label label .in))).1
  · exact h (Change.ofSetting_inj (heq.symm.trans rfl :
      Change.ofSetting other s = Change.ofSetting id (.label label .out))).1

/-- The label pass at one address: the labels found are written, then the changes to the message
there, and its thread is touched when there are any. -/
theorem label_eq {entry : RemoteRef × List String}
    (h : pass.label account keyed entry = .ok (after, left)) :
    (pass.store.messageByRemote account entry.1 = none ∧ after = pass ∧ left = keyed) ∨
    ∃ id written wanted next,
      pass.store.messageByRemote account entry.1 = some id ∧
      pass.store.wantedLabels account keyed [] entry.2 = .ok (written, left, wanted) ∧
      let changes := labelChanges id
        (keyedOnly left (((written.messages.get id).map Message.labels).getD [])) wanted
      Pass.write { pass with store := written } changes = .ok next ∧
      after = if changes.isEmpty then next else next.touching (next.store.threadOf id) := by
  unfold label at h
  split at h
  · rename_i hnone
    cases h
    exact .inl ⟨hnone, rfl, rfl⟩
  · rename_i id hid
    split at h
    · cases h
    · rename_i written keyed' wanted hwanted
      dsimp only at h
      split at h
      · cases h
      · rename_i next hnext
        right
        split at h
        · rename_i hempty
          cases h
          exact ⟨id, written, wanted, _, hid, hwanted, hnext, by rw [if_pos hempty]⟩
        · rename_i hsome
          cases h
          exact ⟨id, written, wanted, _, hid, hwanted, hnext, by rw [if_neg hsome]⟩

theorem label_passing {entry : RemoteRef × List String} (h : Passing start pass)
    (hone : pass.label account keyed entry = .ok (after, left)) :
    Passing start after := by
  rcases label_eq hone with ⟨_, rfl, _⟩ | ⟨id, written, wanted, next, _, hwanted, hnext, rfl⟩
  · exact h
  · have hlabels := Sqlite.wantedLabels_eq hwanted
    have hwritten : Passing start { pass with store := written } :=
      h.same (by rw [hlabels]) (by rw [hlabels]) fun _ hmem => hmem
    obtain ⟨hsets, htouched, _⟩ := write_sets (sets_labelChanges id _ wanted) hnext
    have hone : ∀ other, other ≠ id → settingsOf other (labelChanges id (keyedOnly left
        (((written.messages.get id).map Message.labels).getD [])) wanted) = [] :=
      fun other hne => settingsOf_labelChanges_of_ne _ _ hne
    split
    · rename_i hempty
      refine hwritten.sets id hsets hone (fun thread _ => .inl ?_) (fun _ hmem => htouched ▸ hmem)
      rw [List.isEmpty_iff.mp hempty]
      rfl
    · refine hwritten.sets id hsets hone (fun thread hin => .inr ?_)
        (fun thread hmem => mem_touching.mpr (.inr (htouched ▸ hmem)))
      refine mem_touching.mpr (.inl ?_)
      rw [hsets.threadOf]
      exact hin

theorem labelAll_passing {names : List (RemoteRef × List String)} (h : Passing start pass)
    (hall : pass.labelAll account keyed names = .ok after) : Passing start after := by
  induction names generalizing pass keyed with
  | nil =>
    cases hall
    exact h
  | cons entry rest ih =>
    rw [labelAll] at hall
    cases hone : pass.label account keyed entry with
    | error error => simp [hone] at hall
    | ok pair =>
      obtain ⟨next, left⟩ := pair
      rw [hone] at hall
      exact ih (label_passing h hone) hall

theorem providerThread_eq (account : AccountId) (pass : Pass) (entry : RemoteRef × String) :
    pass.providerThread account entry =
      { pass with
        store :=
          { pass.store with
            providerThreads := (pass.providerThread account entry).store.providerThreads } } := by
  unfold providerThread
  split <;> rfl

theorem providerThread_passing (h : Passing start pass) (entry : RemoteRef × String) :
    Passing start (pass.providerThread account entry) := by
  rw [providerThread_eq]
  exact h.same rfl rfl fun _ hmem => hmem

theorem leave_passing (h : Passing start pass) (remote : RemoteRef) :
    Passing start (pass.leave account remote) := by
  have hforgot : Passing start (pass.forgetAt account remote) := h.same rfl rfl fun _ hmem => hmem
  unfold leave
  dsimp only
  split
  · exact hforgot
  · rename_i id _
    have hleft : Passing start ((pass.forgetAt account remote).unmapped account remote) :=
      hforgot.same rfl rfl fun _ hmem => hmem
    split
    · have hdeleted := Sqlite.deleteMessage_writes _ hleft.attached id
      refine hleft.step id (fun other hne => ⟨?_, ?_⟩) (hdeleted.attached id) (fun m hm => ?_)
        (fun thread hmem => mem_touching.mpr (.inr hmem))
      · change (Table.erase _ id).get other = _
        rw [Table.get_erase, if_neg hne]
      · exact (Sqlite.pendingOn_deleteMessage _ id other).trans (if_neg hne)
      · change (Table.erase _ id).get id = _ at hm
        rw [Table.get_erase, if_pos rfl] at hm
        cases hm
    · split
      · refine hleft.sets id (set_sets _ id _) (fun other hne => if_neg fun heq => hne heq.symm)
          (fun thread hin => .inr (mem_touching.mpr (.inl hin)))
          (fun thread hmem => mem_touching.mpr (.inr hmem))
      · exact hleft

theorem foldl_passing {α : Type} (step : Pass → α → Pass) (entries : List α)
    (one : ∀ pass a, Passing start pass → Passing start (step pass a))
    (h : Passing start pass) : Passing start (entries.foldl step pass) := by
  induction entries generalizing pass with
  | nil => exact h
  | cons a rest ih => exact ih (one pass a h)

end Pass

/-! ## A chunk -/

namespace Sqlite

open Pass (Passing)

variable {account : AccountId} {ingest : Ingest} {store : Sqlite}

variable {pass : Pass}

variable {after : Pass}

theorem passes_passing {start : Sqlite} (h : Passing start pass)
    (hall : passes account pass ingest = .ok after) :
    Passing start after := by
  unfold passes at hall
  split at hall
  · cases hall
  · rename_i arrived harrived
    dsimp only at hall
    split at hall
    · cases hall
    · rename_i labelled hlabelled
      cases hall
      have hflagged := Pass.foldl_passing (Pass.flag account) ingest.flags
        (fun _ entry h => Pass.flag_passing h entry) (Pass.arriveAll_passing h harrived)
      have hcolored := Pass.foldl_passing (Pass.color account) ingest.flagColors
        (fun _ entry h => Pass.color_passing h entry) hflagged
      have hthreaded := Pass.foldl_passing (Pass.providerThread account) ingest.providerThreads
        (fun _ entry h => Pass.providerThread_passing h entry)
        (Pass.labelAll_passing hcolored hlabelled)
      exact Pass.foldl_passing (Pass.leave account) ingest.gone
        (fun _ remote h => Pass.leave_passing h remote) hthreaded

theorem opening_eq (h : store.opening account ingest = .ok pass) :
    pass.store.messages = store.messages ∧ pass.store.outbox = store.outbox ∧
      pass.touched = [] := by
  have hlabels : ∀ (labels : List Label) (before after : Pass),
      before.write (labels.map Change.labelUpsert) = .ok after →
      after.store = { before.store with labels := after.store.labels } ∧
        after.touched = before.touched := by
    intro labels
    induction labels with
    | nil =>
      intro before after h
      cases h
      exact ⟨rfl, rfl⟩
    | cons label rest ih =>
      intro before after h
      rw [List.map_cons, Pass.write] at h
      cases hone : before.store.writeLabel label with
      | error error => simp [writeChange, hone, Except.map] at h
      | ok next =>
        simp only [writeChange, hone, Except.map] at h
        obtain ⟨hstore, htouched⟩ := ih _ _ h
        exact ⟨by rw [hstore]; dsimp only; rw [writeLabel_eq hone], htouched⟩
  unfold opening at h
  obtain ⟨hstore, htouched⟩ := hlabels _ _ _ h
  rw [hstore, htouched]
  dsimp only
  split <;> exact ⟨rfl, rfl, rfl⟩

theorem Passing.start (attached : store.Attached) {pass : Pass}
    (h : store.opening account ingest = .ok pass) :
    Passing store pass := by
  obtain ⟨hmessages, houtbox, _⟩ := opening_eq h
  exact ⟨fun id hnone => (pendingOn_of_outbox houtbox id).trans (attached id (hmessages ▸ hnone)),
    fun id m hm => .inr ⟨hmessages ▸ hm, pendingOn_of_outbox houtbox id⟩⟩

/-- Messages whose threads the layering reached are in force by it, and the others still are. -/
theorem layered_inForce (inForce : store.InForce) (h : Passing store pass)
    (layered : pass.layer pass.touched = .ok after) :
    after.store.Attached ∧ after.store.InForce := by
  obtain ⟨hlayered, _⟩ := Pass.layer_layered layered
  have hpending : ∀ id, after.store.pendingOn id = pass.store.pendingOn id := fun id =>
    pendingOn_of_outbox (by rw [hlayered.frame]) id
  constructor
  · intro id hnone
    rw [hpending]
    refine h.attached id ?_
    have hheld := hlayered.held id
    rw [hnone, Option.map_none, eq_comm, Option.map_eq_none_iff] at hheld
    exact hheld
  · intro id m hm
    rw [hpending]
    by_cases hin : m.thread ∈ pass.touched
    · exact hlayered.inForce id m hm hin
    · obtain ⟨hstart, hsame⟩ := (h.held id m (hlayered.apart id m hm hin)).resolve_left hin
      rw [hsame]
      exact inForce id m hstart

theorem setCursor_eq (store : Sqlite) (account : AccountId) (path : String)
    (cursor : Option SyncCursor) :
    store.setCursor account path cursor =
      { store with syncState := (store.setCursor account path cursor).syncState } := by
  cases cursor <;> rfl

theorem refileOne_passing {start : Sqlite} (h : Passing start pass)
    (filed : RemoteRef × MailboxRole) :
    Passing start (refileOne account pass filed) := by
  unfold refileOne
  split
  · exact h
  · rename_i id _
    split
    · exact h
    · exact h.sets id (pass.set_sets id _) (fun other hne => if_neg fun heq => hne heq.symm)
        (fun thread hin => .inr (Pass.mem_touching.mpr (.inl hin)))
        (fun thread hmem => Pass.mem_touching.mpr (.inr hmem))

section Write

variable [Unicode]

variable {account : AccountId} {changes : List Change} {store : Sqlite}

variable {after : Sqlite}

theorem closing_eq (h : closing account pass ingest = .ok (after, changes)) :
    ∃ layered, pass.layer pass.touched = .ok layered ∧
      after = { layered.store with
        threads := after.threads
        summaries := after.summaries
        syncState :=
          (layered.store.setCursor account ingest.mailbox.path ingest.cursor).syncState } := by
  unfold closing at h
  split at h
  · cases h
  · rename_i layered hlayered
    obtain ⟨written, hwritten, heq⟩ := map_ok h
    cases heq
    refine ⟨layered, hlayered, ?_⟩
    have hrefresh := refreshAll_eq hwritten
    rw [setCursor_eq] at hrefresh
    exact hrefresh

theorem writeIngestChunk_inForce (attached : store.Attached) (inForce : store.InForce)
    (h : store.writeIngestChunk account ingest = .ok (after, changes)) :
    after.Attached ∧ after.InForce := by
  unfold writeIngestChunk at h
  split at h
  · cases h
  · rename_i opened hopened
    split at h
    · cases h
    · rename_i pass hpass
      obtain ⟨layered, hlayered, heq⟩ := closing_eq h
      have hboth := layered_inForce inForce
        (passes_passing (Passing.start attached hopened) hpass) hlayered
      rw [heq]
      exact hboth

theorem writeChunks_inForce {pieces : List Ingest} (attached : store.Attached)
    (inForce : store.InForce) :
    (store.writeChunks account changes pieces).1.Attached ∧
      (store.writeChunks account changes pieces).1.InForce := by
  induction pieces generalizing store changes with
  | nil => exact ⟨attached, inForce⟩
  | cons ingest rest ih =>
    rw [writeChunks]
    cases hone : store.writeIngestChunk account ingest with
    | error error => exact ⟨attached, inForce⟩
    | ok pair =>
      obtain ⟨written, more⟩ := pair
      obtain ⟨hattached, hinForce⟩ := writeIngestChunk_inForce attached inForce hone
      exact ih hattached hinForce

/-- Refiling keeps everything queued in force. -/
theorem writeRefile_inForce {filed : List (RemoteRef × MailboxRole)} (attached : store.Attached)
    (inForce : store.InForce) (h : store.writeRefile account filed = .ok (after, changes)) :
    after.Attached ∧ after.InForce := by
  unfold writeRefile at h
  dsimp only at h
  split at h
  · cases h
  · rename_i layered hlayered
    obtain ⟨written, hwritten, heq⟩ := map_ok h
    cases heq
    have hstart : Passing store ⟨store, [], []⟩ := ⟨attached, fun id m hm => .inr ⟨hm, rfl⟩⟩
    have hboth := layered_inForce inForce
      (Pass.foldl_passing (refileOne account) filed (fun _ entry h => refileOne_passing h entry)
        hstart) hlayered
    rw [refreshAll_eq hwritten]
    exact hboth

end Write

end Sqlite

end Mailo.Store
