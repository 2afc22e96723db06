import Mailo.Core.Alike

/-!
# Conversations read again after a write

Settings overwritten to one message change the one conversation that holds it, in memory and in the
store alike.
-/

namespace Mailo.Store.Sqlite

open Domain Library

variable {store : Sqlite}

theorem mem_values_messages (coherent : store.Coherent) {m : Message} :
    m ∈ store.messages.values ↔ store.messages.get m.id = some m := by
  constructor
  · intro h
    obtain ⟨⟨id, held⟩, hrow, rfl⟩ := List.mem_map.mp h
    have hget := Table.mem_rows.mp hrow
    rw [coherent.keyed id held hget]
    exact hget
  · intro h
    exact List.mem_map_of_mem (f := Prod.snd) (Table.mem_rows.mpr h)

theorem keys_eq_ids (coherent : store.Coherent) :
    store.messages.values.map Message.id = store.messages.keys := by
  unfold Table.values Table.keys
  rw [List.map_map]
  exact List.map_congr_left fun row hrow => coherent.keyed row.1 row.2 (Table.mem_rows.mp hrow)

theorem messagesOf_nodup (coherent : store.Coherent) (thread : ThreadId) :
    ((store.messagesOf thread).map Message.id).Nodup := by
  unfold messagesOf
  rw [((List.perm_insertionSort _ _).map Message.id).nodup_iff]
  refine List.Nodup.sublist (List.filter_sublist.map Message.id) ?_
  rw [keys_eq_ids coherent]
  exact store.messages.distinct

def overwritten (id : MessageId) (settings : List Setting) (m : Message) : Message :=
  if m.id = id then Registers.putAll m settings else m

theorem overwritten_rest (id : MessageId) (settings : List Setting) (m : Message) :
    (overwritten id settings m).rest = m.rest := by
  unfold overwritten
  split
  · exact Message.rest_putAll m settings
  · rfl

theorem overwritten_proj {β : Type} (f : Message → β) (hf : ∀ m : Message, f m.rest = f m)
    (id : MessageId) (settings : List Setting) (m : Message) :
    f (overwritten id settings m) = f m :=
  Message.eq_of_rest (overwritten_rest id settings m) f hf

theorem overwritten_same {a b : Message} (h : a.Same b) (id : MessageId) (settings : List Setting) :
    (overwritten id settings a).Same (overwritten id settings b) := by
  by_cases heq : a.id = id
  · have heq' : b.id = id := h.id_eq ▸ heq
    rw [overwritten, if_pos heq, overwritten, if_pos heq']
    exact h.putAll settings
  · have heq' : ¬ b.id = id := h.id_eq ▸ heq
    rw [overwritten, if_neg heq, overwritten, if_neg heq']
    exact h

theorem messagesOf_settle (coherent : store.Coherent) (id : MessageId) (settings : List Setting)
    (thread : ThreadId) :
    (store.settle id settings).messagesOf thread =
      (store.messagesOf thread).map (overwritten id settings) := by
  have hvalues : (store.settle id settings).messages.values =
      store.messages.values.map (overwritten id settings) := by
    unfold settle Table.modify Table.mapRows Table.values
    rw [List.map_map, List.map_map]
    refine List.map_congr_left fun row hrow => ?_
    have hkey := coherent.keyed row.1 row.2 (Table.mem_rows.mp hrow)
    simp only [Function.comp, overwritten, hkey]
  unfold messagesOf
  rw [hvalues, List.filter_map]
  have hthread : ((fun m : Message => decide (m.thread = thread)) ∘ overwritten id settings) =
      fun m => decide (m.thread = thread) := by
    funext m
    have hm := overwritten_proj Message.thread (fun _ => rfl) id settings m
    simp only [Function.comp, hm]
  rw [hthread]
  refine (List.map_insertionSort _ _ (overwritten id settings) _ ?_).symm
  intro a _ b _
  have hdate := overwritten_proj Message.date (fun _ => rfl) id settings
  have hid := overwritten_proj Message.id (fun _ => rfl) id settings
  rw [hdate, hdate, hid, hid]

/-! ## Coherence -/

/-- A store coherent for what another holds, but for the settings of its messages. -/
theorem Coherent.of_settled {after : Sqlite} (h : store.Coherent) (id : MessageId)
    (settings : List Setting) (m : Message)
    (messages : after.messages = (store.settle id settings).messages)
    (labels : after.labels = store.labels) (threads : after.threads = store.threads)
    (remoteMap : after.remoteMap = store.remoteMap)
    (others : ∀ thread, thread ≠ m.thread → after.summaries.get thread = store.summaries.get thread)
    (here : ∃ state summary, store.threads.get m.thread = some state ∧
      after.summaries.get m.thread = some summary ∧ summary.id = m.thread ∧
      summary.mute = state.mute) : after.Coherent := by
  have hback : ∀ other found, after.messages.get other = some found →
      ∃ held, store.messages.get other = some held ∧ found.rest = held.rest := by
    intro other found hfound
    rw [messages, get_settle] at hfound
    split at hfound
    · obtain ⟨held, hheld, rfl⟩ := Option.map_eq_some_iff.mp hfound
      exact ⟨held, hheld, Message.rest_putAll held settings⟩
    · exact ⟨found, hfound, rfl⟩
  refine ⟨?_, labels ▸ h.labelled, labels ▸ h.named, ?_, ?_⟩
  · intro other found hfound
    obtain ⟨held, hheld, hrest⟩ := hback other found hfound
    have hid : found.id = held.id := Message.eq_of_rest hrest Message.id fun _ => rfl
    rw [hid]
    exact h.keyed other held hheld
  · intro other found hfound
    obtain ⟨held, hheld, hrest⟩ := hback other found hfound
    have hthread : found.thread = held.thread := Message.eq_of_rest hrest Message.thread fun _ => rfl
    rw [hthread, threads]
    by_cases heq : held.thread = m.thread
    · rw [heq]
      exact here
    · rw [others _ heq]
      exact h.threaded other held hheld
  · intro account remote other found hremote hfound
    obtain ⟨held, hheld, hrest⟩ := hback other found hfound
    have haccount : found.account = held.account := Message.eq_of_rest hrest Message.account fun _ => rfl
    rw [haccount]
    exact h.addressed account remote other held (remoteMap ▸ hremote) hheld

end Mailo.Store.Sqlite

namespace Mailo.Logic

open Domain Store Library

theorem putFirst_alike {xs ys : List Message} (h : List.Forall₂ Message.Same xs ys)
    (distinct : (ys.map Message.id).Nodup) (id : MessageId) (s : Setting) :
    List.Forall₂ Message.Same (putFirst id s xs) (ys.map (Sqlite.overwritten id [s])) := by
  induction h with
  | nil => exact .nil
  | @cons a b xs ys hab hrest ih =>
    rw [List.map_cons, List.nodup_cons] at distinct
    rw [putFirst, List.map_cons]
    by_cases heq : a.id = id
    · have heq' : b.id = id := hab.id_eq ▸ heq
      have hsame : ys.map (Sqlite.overwritten id [s]) = ys := by
        refine (List.map_congr_left fun m hm => ?_).trans (List.map_id ys)
        have hne : ¬ m.id = id := fun hid =>
          distinct.1 (heq' ▸ hid ▸ List.mem_map_of_mem (f := Message.id) hm)
        rw [Sqlite.overwritten, if_neg hne]
        rfl
      rw [if_pos heq, hsame, Sqlite.overwritten, if_pos heq']
      exact .cons (hab.put s) hrest
    · have heq' : ¬ b.id = id := hab.id_eq ▸ heq
      rw [if_neg heq, Sqlite.overwritten, if_neg heq']
      exact .cons hab (ih distinct.2)

theorem putFirst_all {xs ys : List Message} (h : List.Forall₂ Message.Same xs ys)
    (distinct : (ys.map Message.id).Nodup) (id : MessageId) (settings : List Setting) :
    List.Forall₂ Message.Same (settings.foldl (fun messages s => putFirst id s messages) xs)
      (ys.map (Sqlite.overwritten id settings)) := by
  induction settings generalizing xs ys with
  | nil =>
    have hsame : ys.map (Sqlite.overwritten id []) = ys := by
      refine (List.map_congr_left fun m _ => ?_).trans (List.map_id ys)
      unfold Sqlite.overwritten
      split <;> rfl
    rw [hsame]
    exact h
  | cons s rest ih =>
    have hids : (ys.map (Sqlite.overwritten id [s])).map Message.id = ys.map Message.id := by
      rw [List.map_map]
      exact List.map_congr_left fun m _ =>
        Sqlite.overwritten_proj Message.id (fun _ => rfl) id [s] m
    have hboth : (ys.map (Sqlite.overwritten id [s])).map (Sqlite.overwritten id rest) =
        ys.map (Sqlite.overwritten id (s :: rest)) := by
      rw [List.map_map]
      refine List.map_congr_left fun m _ => ?_
      have hid := Sqlite.overwritten_proj Message.id (fun _ => rfl) id [s] m
      by_cases heq : m.id = id
      · have heq' : (Sqlite.overwritten id [s] m).id = id := hid.trans heq
        rw [Function.comp, Sqlite.overwritten, if_pos heq', Sqlite.overwritten, if_pos heq,
          Sqlite.overwritten, if_pos heq]
        rfl
      · have heq' : ¬ (Sqlite.overwritten id [s] m).id = id := fun h => heq (hid.symm.trans h)
        rw [Function.comp, Sqlite.overwritten, if_neg heq', Sqlite.overwritten, if_neg heq,
          Sqlite.overwritten, if_neg heq]
    have hnext := ih (putFirst_alike h distinct id s) (hids.symm ▸ distinct)
    rw [hboth] at hnext
    exact hnext

namespace ThreadView

theorem foldl_write (view : ThreadView) (id : MessageId) (settings : List Setting) :
    (settings.map (Change.ofSetting id)).foldl write view =
      { view with
        messages := settings.foldl (fun messages s => putFirst id s messages) view.messages } := by
  induction settings generalizing view with
  | nil => rfl
  | cons s rest ih =>
    have hone : view.write (Change.ofSetting id s) =
        { view with messages := putFirst id s view.messages } := by
      unfold write
      rw [Change.setting_ofSetting]
    rw [List.map_cons, List.foldl_cons, hone, ih]
    rfl

variable [Unicode]

/-- Settings change messages of the conversation, and of its summary neither id nor mute. -/
theorem apply_settings (view : ThreadView) (patch : ChangeId) (id : MessageId)
    (settings : List Setting) :
    (view.apply ⟨patch, settings.map (Change.ofSetting id)⟩).messages =
        settings.foldl (fun messages s => putFirst id s messages) view.messages ∧
      (view.apply ⟨patch, settings.map (Change.ofSetting id)⟩).thread.summary.id =
        view.thread.summary.id ∧
      (view.apply ⟨patch, settings.map (Change.ofSetting id)⟩).thread.summary.mute =
        view.thread.summary.mute := by
  unfold apply
  rw [foldl_write]
  dsimp only
  split
  · rename_i summary hsummary
    obtain ⟨_, _, _, _, rfl⟩ := ThreadSummary.derive_eq_some hsummary
    exact ⟨rfl, rfl, rfl⟩
  · exact ⟨rfl, rfl, rfl⟩

end ThreadView

end Mailo.Logic

namespace Mailo.Core

open Domain Logic Store Library

/-- The conversation a view is of reads alike from the store. -/
def Shows (store : Sqlite) (view : ThreadView) (thread : ThreadId) : Prop :=
  ∃ read, threadView store thread = some read ∧ Alike view read

variable {store : Sqlite}

theorem threadView_eq (coherent : store.Coherent) (thread : ThreadId) :
    threadView store thread = (store.summaries.get thread).map fun summary =>
      ⟨⟨summary, (store.messagesOf thread).map Message.id⟩,
        (store.messagesOf thread).map Sqlite.shown⟩ := by
  have hmessages : ((store.messagesOf thread).map Message.id).filterMap store.message =
      (store.messagesOf thread).map Sqlite.shown := by
    rw [List.filterMap_map]
    have hone : ∀ m ∈ store.messagesOf thread,
        (store.message ∘ Message.id) m = some (Sqlite.shown m) := by
      intro m hm
      have hget := (Sqlite.mem_values_messages coherent).mp (Sqlite.mem_messagesOf.mp hm).1
      rw [Function.comp, Sqlite.message, hget]
      rfl
    rw [List.filterMap_congr hone]
    exact congrFun List.filterMap_eq_map (store.messagesOf thread)
  unfold threadView Sqlite.thread
  rw [Option.map_map]
  cases store.summaries.get thread with
  | none => rfl
  | some summary => exact congrArg some (congrArg (ThreadView.mk _) hmessages)

variable {thread : ThreadId} {view : ThreadView}

theorem shows_nodup (coherent : store.Coherent) (h : threadView store thread = some view) :
    (view.messages.map Message.id).Nodup := by
  rw [threadView_eq coherent] at h
  obtain ⟨summary, -, rfl⟩ := Option.map_eq_some_iff.mp h
  rw [List.map_map]
  exact Sqlite.messagesOf_nodup coherent thread

theorem mem_threadView (coherent : store.Coherent) (h : threadView store thread = some view)
    {m : Message} :
    m ∈ view.messages ↔ ∃ held, store.messages.get held.id = some held ∧ held.thread = thread ∧
      Sqlite.shown held = m := by
  rw [threadView_eq coherent] at h
  obtain ⟨summary, -, rfl⟩ := Option.map_eq_some_iff.mp h
  simp only [List.mem_map, Sqlite.mem_messagesOf, Sqlite.mem_values_messages coherent, and_assoc]

/-- A view holds a message exactly when it is of the message's conversation. -/
theorem holds_iff (coherent : store.Coherent) (h : Shows store view thread) {id : MessageId} :
    view.holds id = true ↔ ∃ m, store.messages.get id = some m ∧ m.thread = thread := by
  obtain ⟨read, hread, halike⟩ := h
  rw [halike.holds, ThreadView.holds, List.any_eq_true]
  constructor
  · rintro ⟨m, hm, heq⟩
    obtain ⟨held, hget, hthread, rfl⟩ := (mem_threadView coherent hread).mp hm
    have hid : held.id = id := of_decide_eq_true heq
    exact ⟨held, hid ▸ hget, hthread⟩
  · rintro ⟨m, hm, hthread⟩
    have hid := coherent.keyed id m hm
    exact ⟨Sqlite.shown m, (mem_threadView coherent hread).mpr ⟨m, hid.symm ▸ hm, hthread, rfl⟩,
      decide_eq_true hid⟩

section Written

variable [Unicode] {store after : Sqlite} {id : MessageId} {m : Message} {settings : List Setting}

/-- The conversations of a store after settings were overwritten to one message. -/
structure Rewritten (store after : Sqlite) (id : MessageId) (m : Message)
    (settings : List Setting) : Prop where
  held : store.messages.get id = some m
  messages : after.messages = (store.settle id settings).messages
  others : ∀ thread, thread ≠ m.thread → after.summaries.get thread = store.summaries.get thread
  here : ∃ old new, store.summaries.get m.thread = some old ∧
    after.summaries.get m.thread = some new ∧ new.id = old.id ∧ new.mute = old.mute

theorem shows_rewritten (coherent : store.Coherent) (coherent' : after.Coherent)
    (h : Rewritten store after id m settings)
    (shows' : Shows store view thread) (patch : ChangeId) :
    (thread ≠ m.thread → Shows after view thread) ∧
      (thread = m.thread →
        Shows after (view.apply ⟨patch, settings.map (Change.ofSetting id)⟩) thread) := by
  obtain ⟨read, hread, halike⟩ := shows'
  have hnodup := shows_nodup coherent hread
  have hmessages : after.messagesOf thread =
      (store.messagesOf thread).map (Sqlite.overwritten id settings) := by
    rw [← Sqlite.messagesOf_settle coherent]
    unfold Sqlite.messagesOf
    rw [h.messages]
  rw [threadView_eq coherent] at hread
  obtain ⟨summary, hsummary, rfl⟩ := Option.map_eq_some_iff.mp hread
  constructor
  · intro hne
    have hsame : after.messagesOf thread = store.messagesOf thread := by
      rw [hmessages]
      refine (List.map_congr_left fun other hother => ?_).trans (List.map_id _)
      obtain ⟨hvalue, hthread⟩ := Sqlite.mem_messagesOf.mp hother
      have hother' : ¬ other.id = id := by
        intro heq
        have hget := (Sqlite.mem_values_messages coherent).mp hvalue
        rw [heq, h.held] at hget
        exact hne (hthread.symm.trans (congrArg Message.thread (Option.some.inj hget).symm))
      rw [Sqlite.overwritten, if_neg hother']
      rfl
    refine ⟨_, ?_, halike⟩
    rw [threadView_eq coherent', h.others thread hne, hsummary, hsame]
    rfl
  · rintro rfl
    obtain ⟨old, new, hold, hnew, hid, hmute⟩ := h.here
    have hsum : old = summary := by
      rw [hold] at hsummary
      exact Option.some.inj hsummary
    subst hsum
    obtain ⟨happly, hviewId, hviewMute⟩ := view.apply_settings patch id settings
    have hread' : threadView after m.thread = some ⟨⟨new, (after.messagesOf m.thread).map Message.id⟩,
        (after.messagesOf m.thread).map Sqlite.shown⟩ := by
      rw [threadView_eq coherent', hnew]
      rfl
    refine ⟨_, hread', ?_, ?_, ?_⟩
    · rw [hviewId, halike.id]
      exact hid.symm
    · rw [hviewMute, halike.mute]
      exact hmute.symm
    · rw [happly]
      have hall := putFirst_all halike.messages hnodup id settings
      rw [hmessages]
      rw [List.forall₂_map_right_iff, List.forall₂_map_right_iff] at hall ⊢
      refine hall.imp fun x y hxy => hxy.trans ?_
      exact (Sqlite.overwritten_same (Sqlite.shown_same y) id settings).trans
        (Sqlite.shown_same _).symm

end Written

end Mailo.Core
