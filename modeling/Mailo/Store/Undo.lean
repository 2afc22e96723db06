import Mailo.Store.Memory

/-!
# Undoing an act

An operation's inverse writes back, for every field its forward changes write, what the message
held before. Written after the forward changes it therefore leaves every message and the thread's
own state as they were.
-/

namespace Mailo.Store

open Domain Library

/-- `halves` sets fields of selected messages, and its second part puts back what they held. -/
structure Undoes (selected : List Message) (halves : Halves) : Prop where
  forward : ∀ change ∈ halves.1, ∃ m ∈ selected, ∃ s, change = Change.ofSetting m.id s ∧
    ∃ u, u.field = s.field ∧ Change.ofSetting m.id u ∈ halves.2
  inverse : ∀ change ∈ halves.2, ∃ m ∈ selected, ∃ f, change = Change.ofSetting m.id (m.setting f)

namespace Undoes

theorem nothing (selected : List Message) : Undoes selected ([], []) :=
  ⟨fun _ h => absurd h List.not_mem_nil, fun _ h => absurd h List.not_mem_nil⟩

/-- One field set, and put back to what the message held. -/
theorem one (m : Message) (s : Setting) :
    Undoes [m] ([Change.ofSetting m.id s], [Change.ofSetting m.id (m.setting s.field)]) where
  forward change h := by
    refine ⟨m, List.mem_singleton_self m, s, List.mem_singleton.mp h, m.setting s.field, ?_, ?_⟩
    · exact Registers.key_get m s.field
    · exact List.mem_singleton_self _
  inverse change h := ⟨m, List.mem_singleton_self m, s.field, List.mem_singleton.mp h⟩

variable {selected : List Message}

theorem append {a b : Halves} (ha : Undoes selected a) (hb : Undoes selected b) :
    Undoes selected (a.1 ++ b.1, a.2 ++ b.2) where
  forward change h := by
    rcases List.mem_append.mp h with h | h
    · obtain ⟨m, hm, s, hs, u, hfield, hu⟩ := ha.forward change h
      exact ⟨m, hm, s, hs, u, hfield, List.mem_append_left _ hu⟩
    · obtain ⟨m, hm, s, hs, u, hfield, hu⟩ := hb.forward change h
      exact ⟨m, hm, s, hs, u, hfield, List.mem_append_right _ hu⟩
  inverse change h := by
    rcases List.mem_append.mp h with h | h
    · exact ha.inverse change h
    · exact hb.inverse change h

theorem forEach {halves : Message → Halves} (h : ∀ m ∈ selected, Undoes [m] (halves m)) :
    Undoes selected (Halves.forEach selected halves)
    where
  forward change hc := by
    obtain ⟨m, hm, hc⟩ := List.mem_flatMap.mp hc
    obtain ⟨m', hm', s, hs, u, hfield, hu⟩ := (h m hm).forward change hc
    rw [List.mem_singleton.mp hm'] at hs hu
    exact ⟨m, hm, s, hs, u, hfield, List.mem_flatMap.mpr ⟨m, hm, hu⟩⟩
  inverse change hc := by
    obtain ⟨m, hm, hc⟩ := List.mem_flatMap.mp hc
    obtain ⟨m', hm', f, hf⟩ := (h m hm).inverse change hc
    rw [List.mem_singleton.mp hm'] at hf
    exact ⟨m, hm, f, hf⟩

theorem moveInto (selected : List Message) (role : MailboxRole) :
    Undoes selected (moveInto selected role) := by
  refine forEach fun m _ => ?_
  split
  · exact one m (.mailbox role)
  · exact nothing [m]

theorem restore (selected : List Message) : Undoes selected (restore selected) := by
  refine forEach fun m _ => ?_
  split
  · exact one m (.mailbox .inbox)
  · exact nothing [m]

theorem setRead (selected : List Message) (state : ReadState) :
    Undoes selected (setRead selected state) := by
  refine forEach fun m _ => ?_
  split
  · exact one m (.read state)
  · exact nothing [m]

theorem setStar (selected : List Message) (star : Star) :
    Undoes selected (setStar selected star) := by
  refine forEach fun m _ => append ?_ ?_
  · split
    · exact one m (.star star)
    · exact nothing [m]
  · split
    · exact one m (.flag .red)
    · exact nothing [m]

theorem setFlag (selected : List Message) (hue : Hue) : Undoes selected (setFlag selected hue) := by
  refine forEach fun m _ => append ?_ ?_
  · split
    · exact one m (.star .starred)
    · exact nothing [m]
  · split
    · exact one m (.flag hue)
    · exact nothing [m]

/-- A label moves only where it was on the other side, so the flip is what the message held. -/
theorem setLabel (selected : List Message) (label : LabelId) (membership : Membership) :
    Undoes selected (setLabel selected label membership) := by
  refine forEach fun m _ => ?_
  dsimp only
  split
  · rename_i h
    have hflip : m.setting (.label label) = .label label membership.flip := by
      by_cases hmem : label ∈ m.labels <;> cases membership <;>
        simp_all [Message.setting, Message.membership, Membership.flip]
    have := one m (.label label membership)
    rwa [show (Setting.label label membership).field = .label label from rfl, hflip] at this
  · exact nothing [m]

theorem fileInto (selected : List Message) (label : LabelId) :
    Undoes selected (fileInto selected label) :=
  append (moveInto selected .archive) (setLabel selected label .in)

theorem sets_forward {halves : Halves} (h : Undoes selected halves) :
    Memory.Sets halves.1 := by
  intro change hc
  obtain ⟨m, _, s, rfl, _⟩ := h.forward change hc
  simp

theorem sets_inverse {halves : Halves} (h : Undoes selected halves) :
    Memory.Sets halves.2 := by
  intro change hc
  obtain ⟨m, _, f, rfl⟩ := h.inverse change hc
  simp

variable {id : MessageId}

theorem settingsOf_eq_nil {halves : Halves} (h : Undoes selected halves)
    (unselected : ∀ m ∈ selected, m.id ≠ id) :
    settingsOf id halves.1 = [] ∧ settingsOf id halves.2 = [] := by
  constructor <;> rw [List.eq_nil_iff_forall_not_mem] <;> intro s hs
  · obtain ⟨m, hm, t, ht, _⟩ := h.forward _ (mem_settingsOf.mp hs)
    exact unselected m hm (Change.ofSetting_inj ht).1.symm
  · obtain ⟨m, hm, f, hf⟩ := h.inverse _ (mem_settingsOf.mp hs)
    exact unselected m hm (Change.ofSetting_inj hf).1.symm

/-- The writes of a message's halves, one after the other, leave its registers as they were. -/
theorem same_putAll {halves : Halves} (h : Undoes selected halves) {stored : Message}
    (held : ∀ m ∈ selected, m.id = id → stored.Same m) :
    (Registers.putAll (Registers.putAll stored (settingsOf id halves.1))
      (settingsOf id halves.2)).Same stored := by
  refine ⟨by simp, fun f => Registers.get_putAll_undo stored _ _ ?_ ?_ f⟩
  · intro u hu
    obtain ⟨m, hm, f, hf⟩ := h.inverse _ (mem_settingsOf.mp hu)
    obtain ⟨hid, rfl⟩ := Change.ofSetting_inj hf
    have hkey : (m.setting f).field = f := Registers.key_get m f
    change m.setting f = stored.setting (m.setting f).field
    rw [hkey]
    exact ((held m hm hid.symm).2 f).symm
  · intro s hs
    obtain ⟨m, hm, t, ht, u, hfield, hu⟩ := h.forward _ (mem_settingsOf.mp hs)
    obtain ⟨rfl, rfl⟩ := Change.ofSetting_inj ht
    exact ⟨u, mem_settingsOf.mpr hu, hfield⟩

/-- Every operation on the fields of messages undoes itself. -/
theorem halves {op : Op} (h : op.setsFields = true) (target : Target) (thread : Thread)
    (messages : List Message) :
    Undoes (select target messages) (op.halves target thread messages) := by
  cases op with
  | archive | trash | spam => exact moveInto _ _
  | restore => exact restore _
  | setRead state => exact setRead _ _
  | setStar star => exact setStar _ _
  | label label membership => exact setLabel _ _ _
  | file label => exact fileInto _ _
  | copy label => exact setLabel _ _ _
  | flag hue => exact setFlag _ _
  | _ => exact absurd h Bool.false_ne_true

end Undoes

/-! ## The two writes of an act -/

/-- What two writes of an act leave: messages as they were, and others never written. -/
structure Restored (store after back : Memory) (selected : List Message) : Prop where
  messages : ∀ id, Option.Rel Message.Same (back.messages.get id) (store.messages.get id)
  threads : ∀ id, back.threads.get id = store.threads.get id
  unselected : ∀ id, (∀ m ∈ selected, m.id ≠ id) →
    after.messages.get id = store.messages.get id ∧ back.messages.get id = store.messages.get id

variable {α : Type}

theorem optionRel_refl {r : α → α → Prop} (refl : ∀ a, r a a) (a : Option α) :
    Option.Rel r a a := by
  cases a with
  | none => exact .none
  | some a => exact .some (refl a)

variable {selected : List Message} {change : α → Change}

theorem restored_of_undoes {halves : Halves} (h : Undoes selected halves) (store : Memory)
    (held : ∀ m ∈ selected, ∃ stored, store.messages.get m.id = some stored ∧ stored.Same m) :
    ∃ after back, store.writeChanges halves.1 = .ok after ∧
      after.writeChanges halves.2 = .ok back ∧ Restored store after back selected := by
  obtain ⟨after, hafter, hthreads, hget⟩ := store.writeChanges_sets h.sets_forward
  obtain ⟨back, hback, hthreads', hget'⟩ := after.writeChanges_sets h.sets_inverse
  refine ⟨after, back, hafter, hback, ?_, ?_, ?_⟩
  · intro id
    rw [hget', hget]
    cases hstored : store.messages.get id with
    | none => exact .none
    | some stored =>
      refine .some (h.same_putAll fun m hm hid => ?_)
      obtain ⟨found, hfound, hsame⟩ := held m hm
      rw [hid, hstored, Option.some.injEq] at hfound
      exact hfound ▸ hsame
  · intro id
    rw [hthreads', hthreads]
  · intro id hid
    obtain ⟨hforward, hinverse⟩ := h.settingsOf_eq_nil hid
    rw [hget', hget, hforward, hinverse]
    simp

/-- The case of an operation on the thread's own state, which writes at most one value of it. -/
theorem restored_of_threadHalves [DecidableEq α] (targeted : Bool) {id : ThreadId}
    {write : α → ThreadState → ThreadState}
    (writes : ∀ value, (change value).threadState = some (id, write value)) {prior next : α}
    (selected : List Message) (store : Memory)
    (shown : ∀ held, store.threads.get id = some held → write prior (write next held) = held) :
    ∃ after back,
      store.writeChanges (Op.threadHalves targeted change prior next).1 = .ok after ∧
      after.writeChanges (Op.threadHalves targeted change prior next).2 = .ok back ∧
      Restored store after back selected := by
  unfold Op.threadHalves
  split
  · refine ⟨{ store with threads := store.threads.modify id (write next) },
      { store with threads := (store.threads.modify id (write next)).modify id (write prior) },
      ?_, ?_, ?_⟩
    · rw [Memory.writeChanges_cons, Memory.writeChange_threadState store (writes next)]
      rfl
    · rw [Memory.writeChanges_cons, Memory.writeChange_threadState _ (writes prior)]
      rfl
    · refine ⟨fun other => optionRel_refl Message.Same.refl _, fun other => ?_,
        fun other _ => ⟨rfl, rfl⟩⟩
      rw [Table.get_modify, Table.get_modify]
      by_cases heq : other = id
      · subst heq
        rw [if_pos rfl, if_pos rfl, Option.map_map]
        cases hheld : store.threads.get other with
        | none => rfl
        | some held => exact congrArg some (shown held hheld)
      · rw [if_neg heq, if_neg heq]
  · exact ⟨store, store, rfl, rfl, fun _ => optionRel_refl Message.Same.refl _, fun _ => rfl,
      fun _ _ => ⟨rfl, rfl⟩⟩

/-- Every change of an act's halves that is about a message is about a selected one. -/
def Selects (selected : List Message) (halves : Halves) : Prop :=
  ∀ change ∈ halves.1 ++ halves.2, ∀ id, change.messageOf = some id → ∃ m ∈ selected, m.id = id

theorem Undoes.selects {halves : Halves} (h : Undoes selected halves) :
    Selects selected halves := by
  intro change hc id hid
  have hof : ∀ (m : Message) (s : Setting),
      (Change.ofSetting m.id s).messageOf = some id → m.id = id := by
    intro m s hs
    cases s <;> exact Option.some.inj hs
  rcases List.mem_append.mp hc with hc | hc
  · obtain ⟨m, hm, s, rfl, _⟩ := h.forward change hc
    exact ⟨m, hm, hof m s hid⟩
  · obtain ⟨m, hm, f, rfl⟩ := h.inverse change hc
    exact ⟨m, hm, hof m _ hid⟩

theorem selects_threadHalves [DecidableEq α] (targeted : Bool)
    (silent : ∀ value, (change value).messageOf = none) (prior next : α) (selected : List Message) :
    Selects selected (Op.threadHalves targeted change prior next) := by
  intro c hc id hid
  unfold Op.threadHalves at hc
  split at hc
  · simp only [List.mem_append, List.mem_singleton] at hc
    rcases hc with rfl | rfl <;> rw [silent] at hid <;> cases hid
  · simp at hc

/-- Undo of an act: the forward changes of an operation and then its inverse leave every message
(labels as sets) and every thread's state as they were, and neither touches a message the target
does not select. -/
theorem undo_restores (op : Op) (reversible : op ≠ .destroy) (target : Target) (thread : Thread)
    (messages : List Message) (caps : AccountCaps) (forwardId inverseId : ChangeId)
    (store : Memory)
    (held : ∀ m ∈ messages, ∃ stored, store.messages.get m.id = some stored ∧ stored.Same m)
    (state : store.threads.get thread.summary.id = some (.shown thread.summary)) :
    let applied := op.apply target thread messages caps forwardId inverseId
    (∃ after back, store.writeChanges applied.forward.changes = .ok after ∧
      after.writeChanges applied.inverse.changes = .ok back ∧
      Restored store after back (select target messages)) ∧
    Selects (select target messages) (applied.forward.changes, applied.inverse.changes) := by
  have hselected : ∀ m ∈ select target messages,
      ∃ stored, store.messages.get m.id = some stored ∧ stored.Same m := by
    intro m hm
    refine held m ?_
    cases target with
    | threads | messages => exact (List.mem_filter.mp hm).1
  have hfields : op.setsFields = true →
      (∃ after back, store.writeChanges (op.halves target thread messages).1 = .ok after ∧
        after.writeChanges (op.halves target thread messages).2 = .ok back ∧
        Restored store after back (select target messages)) ∧
      Selects (select target messages) (op.halves target thread messages) := by
    intro h
    have hundoes := Undoes.halves h target thread messages
    exact ⟨restored_of_undoes hundoes store hselected, hundoes.selects⟩
  cases op with
  | destroy => exact absurd rfl reversible
  | setSnooze | setPin | setMute | setFollowUp =>
    refine ⟨restored_of_threadHalves _ (fun _ => rfl) _ store ?_,
      selects_threadHalves _ (fun _ => rfl) _ _ _⟩
    rw [state]
    rintro _ ⟨⟩
    rfl
  | _ => exact hfields rfl

/-- A received message and the reply sent to it. -/
def pair : List Message := [.plain ⟨1⟩ ⟨1⟩ .inbox, .plain ⟨2⟩ ⟨1⟩ .sent]

def pairThread : Thread where
  summary := @ThreadSummary.deriveFrom .ascii ⟨1⟩ (.plain ⟨1⟩ ⟨1⟩ .inbox) (.plain ⟨2⟩ ⟨1⟩ .sent)
    pair .inactive .unpinned .unmuted .inactive
  messages := [⟨1⟩, ⟨2⟩]

def pairStore : Memory :=
  { Memory.empty with
    messages := ⟨pair.map fun m => (m.id, m), by decide⟩
    threads := ⟨[(⟨1⟩, .fresh)], by decide⟩ }

/-- Archiving the pair files both away; taking it back leaves one in each place again. -/
theorem undo_restores_archive :
    let applied := Op.archive.apply (.threads [⟨1⟩]) pairThread pair
      ⟨.localOnly, .dropInbox, ⟨[]⟩⟩ ⟨1⟩ ⟨2⟩
    ∃ after back, pairStore.writeChanges applied.forward.changes = .ok after ∧
      after.writeChanges applied.inverse.changes = .ok back ∧
      Restored pairStore after back (select (.threads [⟨1⟩]) pair) :=
  (undo_restores .archive (by decide) (.threads [⟨1⟩]) pairThread pair
    ⟨.localOnly, .dropInbox, ⟨[]⟩⟩ ⟨1⟩ ⟨2⟩ pairStore
    (by
      intro m hm
      simp only [pair, List.mem_cons, List.not_mem_nil, or_false] at hm
      rcases hm with rfl | rfl <;> exact ⟨_, rfl, .refl _⟩)
    rfl).1

end Mailo.Store
