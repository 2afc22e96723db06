import Mailo.Store.Sqlite.Effect
import Mailo.Store.Sqlite.Ingest

/-!
# Putting what is pending back on top

Writing a thread's pending changes brings every one of its messages to what is queued for it last,
and reaches no other message. A chunk leaves every thread it touched so.
-/

namespace Mailo.Library.Table

variable {κ α β : Type} [DecidableEq κ]

theorem flatMap_rows_key (table : Table κ α) (key : κ) (g : α → List β) :
    table.rows.flatMap (fun row => if row.1 = key then g row.2 else []) =
      ((table.get key).map g).getD [] := by
  have hrows : ∀ rows : List (κ × α), (rows.map Prod.fst).Nodup →
      rows.flatMap (fun row => if row.1 = key then g row.2 else []) =
        ((find key rows).map g).getD [] := by
    intro rows
    induction rows with
    | nil => intro _; rfl
    | cons row rest ih =>
      intro hnodup
      rw [List.map_cons, List.nodup_cons] at hnodup
      rw [List.flatMap_cons, ih hnodup.2]
      by_cases h : row.1 = key
      · have hnone : find key rest = none := find_eq_none.mpr (h ▸ hnodup.1)
        simp [find, h, hnone]
      · simp [find, h]
  exact hrows table.rows table.distinct

end Mailo.Library.Table

namespace Mailo.Store

open Domain Library

theorem settingsOf_map_ofSetting (id other : MessageId) (settings : List Setting) :
    settingsOf id (settings.map (Change.ofSetting other)) =
      if other = id then settings else [] := by
  induction settings with
  | nil => simp
  | cons s rest ih =>
    by_cases h : other = id
    · rw [if_pos h] at ih ⊢
      have hcons : settingsOf id ((s :: rest).map (Change.ofSetting other)) =
          s :: settingsOf id (rest.map (Change.ofSetting other)) := by
        simp [settingsOf, h]
      rw [hcons, ih]
    · rw [if_neg h] at ih ⊢
      have hcons : settingsOf id ((s :: rest).map (Change.ofSetting other)) =
          settingsOf id (rest.map (Change.ofSetting other)) := by
        simp [settingsOf, h]
      rw [hcons, ih]

theorem settingsOf_flatMap {α : Type} (id : MessageId) (l : List α) (g : α → List Change) :
    settingsOf id (l.flatMap g) = l.flatMap fun a => settingsOf id (g a) := by
  induction l with
  | nil => rfl
  | cons a rest ih => rw [List.flatMap_cons, settingsOf_append, ih, List.flatMap_cons]

namespace Sqlite

/-- Of one message, a thread's pending changes are all that is pending on it, when it is there. -/
theorem settingsOf_pendingForThread (store : Sqlite) (thread : ThreadId) (id : MessageId) :
    settingsOf id (store.pendingForThread thread) =
      if store.threadOf id = some thread then store.pendingOn id else [] := by
  have hthere : ∀ other, ((store.messages.get other).any fun m => decide (m.thread = thread)) =
      decide (store.threadOf other = some thread) := by
    intro other
    unfold threadOf
    cases store.messages.get other <;> simp
  have hentry : ∀ entry : Entry,
      settingsOf id (entry.pending.rows.flatMap fun row =>
        if (store.messages.get row.1).any fun m => m.thread = thread then
          row.2.map (Change.ofSetting row.1)
        else []) =
      if store.threadOf id = some thread then entry.asks id else [] := by
    intro entry
    rw [settingsOf_flatMap]
    have hrow : ∀ row : MessageId × List Setting,
        settingsOf id (if (store.messages.get row.1).any fun m => m.thread = thread then
          row.2.map (Change.ofSetting row.1) else []) =
        if row.1 = id then (if store.threadOf id = some thread then row.2 else []) else [] := by
      intro row
      rw [hthere]
      by_cases hid : row.1 = id
      · by_cases hthread : store.threadOf id = some thread <;>
          simp [hid, hthread, settingsOf_map_ofSetting]
      · by_cases hthread : store.threadOf row.1 = some thread <;>
          simp [hid, hthread, settingsOf_map_ofSetting]
    simp only [hrow]
    rw [Table.flatMap_rows_key entry.pending id fun settings =>
      if store.threadOf id = some thread then settings else []]
    unfold Entry.asks
    cases entry.pending.get id <;> simp
  unfold pendingForThread pendingOn
  rw [settingsOf_flatMap]
  simp only [hentry]
  by_cases h : store.threadOf id = some thread <;> simp [h]

theorem sets_pendingForThread (store : Sqlite) (thread : ThreadId) :
    Memory.Sets (store.pendingForThread thread) := by
  intro change hchange
  obtain ⟨entry, _, hentry⟩ := List.mem_flatMap.mp hchange
  obtain ⟨row, _, hrow⟩ := List.mem_flatMap.mp hentry
  split at hrow
  · obtain ⟨s, _, rfl⟩ := List.mem_map.mp hrow
    simp
  · exact absurd hrow List.not_mem_nil

end Sqlite

/-! ## Settings written in a pass -/

/-- Between two stores nothing but the settings of messages differs: each holds the log's. -/
structure Sets (before after : Sqlite) (log : MessageId → List Setting) : Prop where
  frame : after = { before with messages := after.messages }
  messages : ∀ id, after.messages.get id =
    (before.messages.get id).map fun m => Registers.putAll m (log id)

namespace Sets

theorem refl (store : Sqlite) : Sets store store fun _ => [] where
  frame := rfl
  messages id := by simp

theorem trans {a b c : Sqlite} {log more : MessageId → List Setting} (hab : Sets a b log)
    (hbc : Sets b c more) : Sets a c fun id => log id ++ more id where
  frame := by
    rw [hbc.frame, hab.frame]
  messages id := by
    rw [hbc.messages, hab.messages, Option.map_map]
    simp only [Registers.putAll_append]
    rfl

theorem congr {a b : Sqlite} {log more : MessageId → List Setting} (h : Sets a b log)
    (same : ∀ id, log id = more id) : Sets a b more :=
  (funext same : log = more) ▸ h

theorem put (store : Sqlite) (id : MessageId) (s : Setting) :
    Sets store (store.put id s) fun other => if id = other then [s] else [] where
  frame := rfl
  messages other := by
    change (store.messages.modify id fun m => m.put s).get other = _
    rw [Table.get_modify]
    by_cases h : other = id
    · rw [if_pos h, if_pos h.symm]
      rfl
    · rw [if_neg h, if_neg fun heq => h heq.symm]
      simp

variable {before after : Sqlite} {log : MessageId → List Setting}

theorem outbox (h : Sets before after log) : after.outbox = before.outbox := by
  rw [h.frame]

theorem pendingOn (h : Sets before after log) (id : MessageId) :
    after.pendingOn id = before.pendingOn id :=
  Sqlite.pendingOn_of_outbox h.outbox id

theorem rest_putAll_thread (m : Message) (settings : List Setting) :
    (Registers.putAll m settings).thread = m.thread := by
  have hrest := congrArg Message.thread (Message.rest_putAll m settings)
  exact hrest

theorem threadOf (h : Sets before after log) (id : MessageId) :
    after.threadOf id = before.threadOf id := by
  unfold Sqlite.threadOf
  rw [h.messages]
  cases before.messages.get id with
  | none => rfl
  | some m => exact congrArg some (rest_putAll_thread m (log id))

end Sets

namespace Pass

/-- Writing changes that set fields sets them, and keeps the threads touched. -/
theorem write_sets {pass after : Pass} {changes : List Change} (sets : Memory.Sets changes)
    (h : pass.write changes = .ok after) :
    Sets pass.store after.store (fun id => settingsOf id changes) ∧
      after.touched = pass.touched ∧ after.changes = pass.changes ++ changes := by
  induction changes generalizing pass with
  | nil =>
    cases h
    exact ⟨Sets.refl _, rfl, (List.append_nil _).symm⟩
  | cons change rest ih =>
    obtain ⟨⟨id, s⟩, hs⟩ := Option.ne_none_iff_exists'.mp (sets change (.head _))
    rw [write] at h
    cases hone : pass.store.writeChange change with
    | error error => simp [hone] at h
    | ok pair =>
      obtain ⟨next, thread⟩ := pair
      simp only [hone] at h
      obtain ⟨hsets, htouched, hchanges⟩ :=
        ih (fun c hc => sets c (.tail _ hc)) h
      have hput := (Sqlite.writeChange_setting hs hone).1
      rw [hput] at hsets
      refine ⟨((Sets.put pass.store id s).trans hsets).congr fun other => ?_, htouched, ?_⟩
      · by_cases heq : id = other <;> simp [settingsOf, hs, heq]
      · rw [hchanges, List.append_assoc]
        rfl

/-- After the layering every message of a thread layered has what is pending on it in force, and
no other message changed. -/
structure Layered (before after : Sqlite) (threads : List ThreadId) : Prop where
  frame : after = { before with messages := after.messages }
  held : ∀ id, (after.messages.get id).map Message.rest = (before.messages.get id).map Message.rest
  inForce : ∀ id m, after.messages.get id = some m → m.thread ∈ threads →
    Registers.InForce m (before.pendingOn id)
  unqueued : ∀ id m old, after.messages.get id = some m → before.messages.get id = some old →
    ∀ f, Registers.last Message f (before.pendingOn id) = none → m.setting f = old.setting f
  apart : ∀ id m, after.messages.get id = some m → m.thread ∉ threads →
    before.messages.get id = some m

theorem layer_layered {pass after : Pass} {threads : List ThreadId}
    (h : pass.layer threads = .ok after) :
    Layered pass.store after.store threads ∧ after.touched = pass.touched := by
  induction threads generalizing pass with
  | nil =>
    cases h
    exact ⟨⟨rfl, fun _ => rfl, fun _ _ _ hmem => absurd hmem List.not_mem_nil,
      fun id m old hm hold f _ => by rw [hm] at hold; cases hold; rfl, fun _ _ hm _ => hm⟩, rfl⟩
  | cons thread rest ih =>
    rw [layer] at h
    cases hone : pass.write (pass.store.pendingForThread thread) with
    | error error => simp [hone] at h
    | ok next =>
      simp only [hone] at h
      obtain ⟨hsets, htouched, _⟩ := write_sets (Sqlite.sets_pendingForThread _ _) hone
      obtain ⟨hlayered, htouched'⟩ := ih h
      have hlog := fun id => pass.store.settingsOf_pendingForThread thread id
      have hpending : ∀ id, next.store.pendingOn id = pass.store.pendingOn id :=
        hsets.pendingOn
      refine ⟨⟨?_, ?_, ?_, ?_, ?_⟩, htouched'.trans htouched⟩
      · rw [hlayered.frame, hsets.frame]
      · intro id
        rw [hlayered.held, hsets.messages, Option.map_map]
        congr 1
        exact funext fun m => Message.rest_putAll m _
      · intro id m hm hmem
        rw [← hpending]
        by_cases hrest : m.thread ∈ rest
        · exact hlayered.inForce id m hm hrest
        · -- The thread just layered: what was written is still there.
          have hthread : m.thread = thread := by
            rcases List.mem_cons.mp hmem with heq | hin
            · exact heq
            · exact absurd hin hrest
          have hmid := hlayered.apart id m hm hrest
          rw [hsets.messages, hlog] at hmid
          obtain ⟨old, hold, rfl⟩ := Option.map_eq_some_iff.mp hmid
          rw [Sets.rest_putAll_thread] at hthread
          have hin : pass.store.threadOf id = some thread := by
            rw [Sqlite.threadOf, hold]
            exact congrArg some hthread
          rw [if_pos hin, hpending]
          exact Registers.inForce_putAll old _
      · intro id m old hm hold f hnone
        have hmid : next.store.messages.get id =
            some (Registers.putAll old (settingsOf id (pass.store.pendingForThread thread))) := by
          rw [hsets.messages, hold]
          rfl
        rw [hlayered.unqueued id m _ hm hmid f (by rw [hpending]; exact hnone)]
        have hget := Registers.get_putAll old
          (settingsOf id (pass.store.pendingForThread thread)) f
        change Message.setting _ f = _ at hget
        rw [hget, hlog]
        split
        · rw [hnone]
          rfl
        · rfl
      · intro id m hm hapart
        rw [List.mem_cons, not_or] at hapart
        have hmid := hlayered.apart id m hm hapart.2
        rw [hsets.messages, hlog] at hmid
        obtain ⟨old, hold, rfl⟩ := Option.map_eq_some_iff.mp hmid
        rw [Sets.rest_putAll_thread] at hapart
        have hout : pass.store.threadOf id ≠ some thread := by
          rw [Sqlite.threadOf, hold]
          exact fun heq => hapart.1 (Option.some.inj heq)
        rw [if_neg hout]
        exact hold

end Pass

end Mailo.Store
