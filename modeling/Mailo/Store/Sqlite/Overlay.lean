import Mailo.Library.Runs
import Mailo.Store.Undo
import Mailo.Store.Sqlite.Chunk
import Mailo.Store.Sqlite.Queueing

/-!
# What is pending stays in force

A run takes commits, queueing, acts taken back, ingests, refilings and settled entries in any
order. Ingests and refilings put what is queued back on top of what they write. The others write
a field, or let go of an entry, without a look at the queue: what is pending stays in force
exactly as far as each of them leaves every field still asked for at the value asked for last.
-/

namespace Mailo.Store

open Domain Library

/-- Whether a change leaves every way the server can address a message, and the labels' names. -/
def keepsAddresses : Change → Bool
  | .messageUpsert _ | .messageDelete _ | .labelUpsert _ => false
  | _ => true

/-- A commit of one decision. It stores no message, takes nothing back, and its work is addressed
alike before and after the change, or asks for nothing where it is addressed after. -/
structure Decision where
  commit : Commit
  stores : ∀ change ∈ commit.forward.changes, ∀ m, change ≠ .messageUpsert m
  takesNothingBack : ∀ row ∈ commit.rows, ∀ forward inverse, row ≠ .withdrawn forward inverse
  addressed : (∀ change ∈ commit.forward.changes, keepsAddresses change = true) ∨
    ∀ work ∈ commit.queue, work.resolve = .afterForward → asksFor work.intent = []

/-- A move or copy taken back: the inverse written, and the entry not yet sent withdrawn. -/
structure TakeBack where
  account : AccountId
  now : DateTime
  forward : ChangeId
  inverse : Patch
  sets : Memory.Sets inverse.changes

def TakeBack.commit (back : TakeBack) : Commit :=
  ⟨back.account, back.now, back.inverse, [], [.withdrawn back.forward back.inverse]⟩

namespace Decision

theorem sets_keepsAddresses {changes : List Change} (h : Memory.Sets changes) :
    ∀ change ∈ changes, keepsAddresses change = true := by
  intro change hc
  have hs := h change hc
  cases change <;> first | rfl | exact absurd rfl hs

theorem sets_stores {changes : List Change} (h : Memory.Sets changes) :
    ∀ change ∈ changes, ∀ m, change ≠ .messageUpsert m := by
  intro change hc m heq
  exact h change hc (heq ▸ rfl)

/-- What an operation changes, as one case: fields of messages, messages deleted with nothing
asked for after, or a thread's own state. -/
theorem halves_cases (op : Op) (target : Target) (thread : Thread) (messages : List Message) :
    Memory.Sets (op.halves target thread messages).1 ∨ op = .destroy ∨
      ∀ change ∈ (op.halves target thread messages).1, change.threadState ≠ none := by
  have hthread : ∀ {α : Type} [DecidableEq α] (targeted : Bool) (change : α → Change)
      (prior next : α), (∀ value, (change value).threadState ≠ none) →
      ∀ c ∈ (Op.threadHalves targeted change prior next).1, c.threadState ≠ none := by
    intro α _ targeted change prior next h c hc
    unfold Op.threadHalves at hc
    split at hc
    · rw [List.mem_singleton.mp hc]
      exact h next
    · exact absurd hc List.not_mem_nil
  cases op with
  | destroy => exact .inr (.inl rfl)
  | setSnooze _ | setPin _ | setMute _ | setFollowUp _ =>
    exact .inr (.inr (hthread _ _ _ _ fun _ h => nomatch h))
  | _ => exact .inl (Undoes.halves rfl target thread messages).sets_forward

/-- The decision of an act: what `Op.apply` answers, committed. -/
def act (op : Op) (target : Target) (thread : Thread) (messages : List Message)
    (caps : AccountCaps) (forwardId inverseId : ChangeId) (account : AccountId) (now : DateTime)
    (tellsServer : Bool) : Decision where
  commit := (op.apply target thread messages caps forwardId inverseId).intoCommit account now
    tellsServer
  stores := by
    intro change hc m heq
    subst heq
    rcases halves_cases op target thread messages with hsets | rfl | hstate
    · exact sets_stores hsets _ hc m rfl
    · obtain ⟨held, _, hheld⟩ := List.mem_map.mp hc
      cases hheld
    · exact hstate _ hc rfl
  takesNothingBack := fun _ h => absurd h List.not_mem_nil
  addressed := by
    rcases halves_cases op target thread messages with hsets | rfl | hstate
    · exact .inl (sets_keepsAddresses hsets)
    · right
      intro work hwork _
      simp only [Applied.intoCommit, Option.mem_toList, Option.map_eq_some_iff,
        Option.filter_eq_some_iff, Op.apply] at hwork
      obtain ⟨intent, ⟨hintent, _⟩, rfl⟩ := hwork
      split at hintent
      · cases hintent
      · cases hintent
        rfl
    · left
      intro change hc
      have hs := hstate change hc
      cases change <;> first | rfl | exact absurd rfl hs

end Decision

namespace Sqlite

/-- What can happen to a store. -/
inductive Step where
  | commit (decision : Decision)
  | enqueue (account : AccountId) (intent : RemoteIntent) (undo : Patch) (now : DateTime)
  | takeBack (back : TakeBack)
  | ingest (account : AccountId) (ingest : Ingest)
  | refile (account : AccountId) (filed : List (RemoteRef × MailboxRole))
  | settle (id : OutboxId) (settle : Settle) (now : DateTime)

def transact {α : Type} (store : Sqlite) : Except StoreError (Sqlite × α) → Sqlite
  | .ok (written, _) => written
  | .error _ => store

theorem transact_cases {α : Type} (store : Sqlite) (result : Except StoreError (Sqlite × α)) :
    (∃ written a, result = .ok (written, a) ∧ store.transact result = written) ∨
      store.transact result = store := by
  cases result with
  | error error => exact .inr rfl
  | ok pair => exact .inl ⟨pair.1, pair.2, rfl, rfl⟩

section Steps

variable [Unicode]

def after (store : Sqlite) : Step → Sqlite
  | .commit decision => store.transact (store.commitSteps decision.commit)
  | .enqueue account intent undo now =>
    store.transact (store.queueIn account intent undo none now)
  | .takeBack back => store.transact (store.commitSteps back.commit)
  | .ingest account ingest => (store.writeIngest account ingest).1
  | .refile account filed => store.transact (store.writeRefile account filed)
  | .settle id settle now =>
    store.transact ((store.settleIn id settle now).map fun settled => (settled, ()))

end Steps

def takenBack : Settle := .failed "taken back before it was sent" (.fatal "taken back")

/-- New work asks of a message only what it has, as a patch leaves it. -/
def AsksAsWritten (m : Message) (patch asked : List Setting) : Prop :=
  ∀ s ∈ asked, Registers.last Message s.field asked =
    some ((Registers.last Message s.field patch).getD (m.setting s.field))

instance (m : Message) (patch asked : List Setting) : Decidable (AsksAsWritten m patch asked) :=
  inferInstanceAs (Decidable (∀ s ∈ asked, _))

/-- A patch writes over no field that is pending and not asked for anew, other than with what was
asked last. -/
def Respects (patch pending asked : List Setting) : Prop :=
  ∀ s ∈ pending, (∀ a ∈ asked, a.field ≠ s.field) →
    Registers.last Message s.field patch = none ∨
      Registers.last Message s.field patch = Registers.last Message s.field pending

instance (patch pending asked : List Setting) : Decidable (Respects patch pending asked) :=
  inferInstanceAs (Decidable (∀ s ∈ pending, _))

/-- Letting go of an entry uncovers no field: what was asked last while it was queued is what the
others ask last, of every field that they ask for and the patch leaves alone. -/
def LetsGo (patch pending others : List Setting) : Prop :=
  ∀ s ∈ others, Registers.last Message s.field patch = none →
    Registers.last Message s.field pending = Registers.last Message s.field others

instance (patch pending others : List Setting) : Decidable (LetsGo patch pending others) :=
  inferInstanceAs (Decidable (∀ s ∈ others, _))

/-- An entry may leave the queue as a patch is written: neither the patch nor its going away
touches what the other entries ask of a message. -/
def MayLeave (store : Sqlite) (id : OutboxId) (patch : List Change) (message : MessageId) : Prop :=
  Respects (writesOf message patch) (store.pendingBut id message) [] ∧
    LetsGo (writesOf message patch) (store.pendingOn message) (store.pendingBut id message)

instance (store : Sqlite) (id : OutboxId) (patch : List Change) (message : MessageId) :
    Decidable (store.MayLeave id patch message) :=
  inferInstanceAs (Decidable (_ ∧ _))

/-- An act's inverse may be written, with what its entry put back where it was not yet sent. -/
def MayTakeBack (store : Sqlite) (back : TakeBack) (message : MessageId) : Prop :=
  match store.untried back.forward back.inverse with
  | none => Respects (writesOf message back.inverse.changes) (store.pendingOn message) []
  | some id => store.MayLeave id (back.inverse.changes ++ store.writesBack id takenBack) message

instance (store : Sqlite) (back : TakeBack) (message : MessageId) :
    Decidable (store.MayTakeBack back message) :=
  match h : store.untried back.forward back.inverse with
  | none => decidable_of_iff
      (Respects (writesOf message back.inverse.changes) (store.pendingOn message) [])
      (by rw [MayTakeBack, h])
  | some id => decidable_of_iff
      (store.MayLeave id (back.inverse.changes ++ store.writesBack id takenBack) message)
      (by rw [MayTakeBack, h])

def askedBy (store : Sqlite) (commit : Commit) (message : MessageId) : List Setting :=
  store.queuesAll commit.account .beforeForward commit.queue message ++
    store.queuesAll commit.account .afterForward commit.queue message

/-- What keeps a step from leaving a held message without what is pending on it: its work asks for
what its patch writes, its patch leaves what else is pending, and an entry that leaves the queue
neither writes back nor lets go of what another asks. -/
def Meets (store : Sqlite) : Step → Prop
  | .commit decision => ∀ row ∈ store.messages.rows,
    AsksAsWritten row.2 (writesOf row.1 decision.commit.forward.changes)
        (store.askedBy decision.commit row.1) ∧
      Respects (writesOf row.1 decision.commit.forward.changes) (store.pendingOn row.1)
        (store.askedBy decision.commit row.1)
  | .enqueue account intent _ _ => ∀ row ∈ store.messages.rows,
    AsksAsWritten row.2 [] (store.queues account intent row.1)
  | .takeBack back => ∀ row ∈ store.messages.rows, store.MayTakeBack back row.1
  | .settle id settle _ => leavesQueue settle = true → ∀ row ∈ store.messages.rows,
    store.MayLeave id (store.writesBack id settle) row.1
  | .ingest _ _ | .refile _ _ => True

instance (store : Sqlite) : (step : Step) → Decidable (store.Meets step)
  | .commit decision => inferInstanceAs (Decidable (∀ row ∈ store.messages.rows,
    AsksAsWritten row.2 (writesOf row.1 decision.commit.forward.changes)
        (store.askedBy decision.commit row.1) ∧
      Respects (writesOf row.1 decision.commit.forward.changes) (store.pendingOn row.1)
        (store.askedBy decision.commit row.1)))
  | .enqueue account intent _ _ => inferInstanceAs (Decidable (∀ row ∈ store.messages.rows,
    AsksAsWritten row.2 [] (store.queues account intent row.1)))
  | .takeBack back => inferInstanceAs (Decidable (∀ row ∈ store.messages.rows,
    store.MayTakeBack back row.1))
  | .settle id settle _ => inferInstanceAs (Decidable (leavesQueue settle = true →
    ∀ row ∈ store.messages.rows, store.MayLeave id (store.writesBack id settle) row.1))
  | .ingest _ _ => .isTrue trivial
  | .refile _ _ => .isTrue trivial

/-- Of every field something queued asks for, the value written, or the one held where nothing is
written, is the one asked for last. -/
def Lands (m : Message) (written queued : List Setting) : Prop :=
  ∀ s ∈ queued, Registers.last Message s.field queued =
    some ((Registers.last Message s.field written).getD (m.setting s.field))

variable {m : Message} {patch pending asked others : List Setting}

theorem AsksAsWritten.lands (hasks : AsksAsWritten m patch asked)
    (hrespects : Respects patch pending asked) (inForce : Registers.InForce m pending) :
    Lands m patch (pending ++ asked) := by
  intro s hs
  rw [Registers.last_append]
  by_cases hanew : ∃ a ∈ asked, a.field = s.field
  · obtain ⟨a, ha, hfield⟩ := hanew
    have hlast := hasks a ha
    rw [hfield] at hlast
    rw [hlast, Option.some_or]
  · have hnone : ∀ a ∈ asked, a.field ≠ s.field := fun a ha hfield => hanew ⟨a, ha, hfield⟩
    have hpending : s ∈ pending :=
      (List.mem_append.mp hs).resolve_right fun hasked => hnone s hasked rfl
    obtain ⟨value, hvalue⟩ := Registers.exists_last (σ := Message) hpending
    change Registers.last Message s.field pending = some value at hvalue
    rw [Registers.last_eq_none.mpr hnone, Option.none_or, hvalue]
    rcases hrespects s hpending hnone with hleft | hwritten
    · rw [hleft, Option.getD_none]
      exact congrArg some (inForce s.field value hvalue).symm
    · rw [hwritten, hvalue, Option.getD_some]

/-- Where an entry may leave, what stays queued stands in the message as the patch leaves it. -/
theorem Respects.lands (hrespects : Respects patch others []) (hlets : LetsGo patch pending others)
    (inForce : Registers.InForce m pending) : Lands m patch others := by
  intro s hs
  rcases hwritten : Registers.last Message s.field patch with _ | value
  · obtain ⟨last, hlast⟩ := Registers.exists_last (σ := Message) hs
    change Registers.last Message s.field others = some last at hlast
    have hheld := hlets s hs hwritten
    rw [hlast] at hheld ⊢
    rw [Option.getD_none]
    exact congrArg some (inForce s.field last hheld).symm
  · rcases hrespects s hs (fun _ h => absurd h List.not_mem_nil) with hnone | hsame
    · rw [hwritten] at hnone
      cases hnone
    · rw [← hsame, hwritten, Option.getD_some]

/-! ## What each step leaves -/

variable {before store : Sqlite} {changes : List Change} {queue : MessageId → List Setting}

theorem Leaves.inForce {after : Sqlite} (h : Leaves before after changes queue)
    (lands : ∀ row ∈ before.messages.rows, Lands row.2 (writesOf row.1 changes) (queue row.1)) :
    after.InForce := by
  intro id m hm f s hlast
  rcases h.held id m hm with ⟨old, hold, hpending, hset⟩ | hnone
  · rw [hpending] at hlast
    obtain ⟨hmem, hfield⟩ := Registers.last_eq_some hlast
    change s.field = f at hfield
    subst hfield
    have hlands := lands (id, old) (Table.mem_rows.mpr hold) s hmem
    rw [hlast, Option.some.injEq] at hlands
    exact (hset s.field).trans hlands.symm
  · rw [hnone] at hlast
    cases hlast

theorem Leaves.congr {after : Sqlite} {same : MessageId → List Setting}
    (h : Leaves before after changes queue) (eq : ∀ id, queue id = same id) :
    Leaves before after changes same :=
  (funext eq : queue = same) ▸ h

theorem Writes.andLeaves {middle after : Sqlite} {more : List Change}
    (h : Writes before middle changes) (stores : ∀ id, ¬ Stores changes id)
    (k : Leaves middle after more queue) :
    Leaves before after (changes ++ more) queue where
  attached := k.attached
  held id m hm := by
    rcases k.held id m hm with ⟨mid, hmid, hpending, hset⟩ | hnone
    · rcases h.held id mid hmid with ⟨old, hold, _, hset'⟩ | ⟨hstored, _⟩
      · refine .inl ⟨old, hold, hpending, fun f => ?_⟩
        rw [hset, hset', writesOf_append, Registers.last_append]
        cases Registers.last Message f (writesOf id more) <;> rfl
      · exact absurd hstored (stores id)
    · exact .inr hnone

theorem Queues.leaves {after : Sqlite} {more : MessageId → List Setting}
    (attached : before.Attached) (h : Queues before after more) :
    Leaves before after [] fun id => before.pendingOn id ++ more id where
  attached := h.attached attached
  held id m hm := .inl ⟨m, h.messages ▸ hm, h.pendingOn id, fun _ => rfl⟩

theorem not_stores (h : ∀ change ∈ changes, ∀ m, change ≠ .messageUpsert m) (id : MessageId) :
    ¬ Stores changes id := fun ⟨m, hmem, _⟩ => h _ hmem m rfl

theorem writeChange_resolves {written : Sqlite} {change : Change} {thread : Option ThreadId}
    (keeps : keepsAddresses change = true) (h : store.writeChange change = .ok (written, thread))
    (account : AccountId) (intent : RemoteIntent) :
    written.resolveIntent account intent = store.resolveIntent account intent := by
  cases hs : change.setting with
  | some pair =>
    obtain ⟨id, s⟩ := pair
    rw [(writeChange_setting hs h).1]
    rfl
  | none =>
    cases change with
    | threadSnooze _ _ | threadPin _ _ | threadMute _ _ | threadFollowUp _ _
    | draftUpsert _ | draftDelete _ =>
      cases h
      rfl
    | messageUpsert _ | messageDelete _ | labelUpsert _ => cases keeps
    | messageRead _ _ | messageStar _ _ | messageFlag _ _ | messageMailbox _ _
    | messageLabel _ _ _ => cases hs

/-- Changes that leave the addresses and the labels leave how every intent resolves. -/
theorem writeChanges_resolves {written : Sqlite} {touched after : List ThreadId}
    (keeps : ∀ change ∈ changes, keepsAddresses change = true)
    (h : store.writeChanges touched changes = .ok (written, after)) (account : AccountId)
    (intent : RemoteIntent) :
    written.resolveIntent account intent = store.resolveIntent account intent := by
  induction changes generalizing store touched with
  | nil =>
    cases h
    rfl
  | cons change rest ih =>
    obtain ⟨next, thread, hone, hrest⟩ := writeChanges_cons h
    rw [ih (fun c hc => keeps c (.tail _ hc)) hrest,
      writeChange_resolves (keeps change (.head _)) hone]

/-- Changes of messages' fields write messages and nothing else. -/
theorem writeChanges_sets {written : Sqlite} {touched after : List ThreadId}
    (sets : Memory.Sets changes) (h : store.writeChanges touched changes = .ok (written, after)) :
    written = { store with messages := written.messages } := by
  induction changes generalizing store touched with
  | nil =>
    cases h
    rfl
  | cons change rest ih =>
    obtain ⟨next, thread, hone, hrest⟩ := writeChanges_cons h
    obtain ⟨⟨id, s⟩, hs⟩ := Option.ne_none_iff_exists'.mp (sets change (.head _))
    rw [ih (fun c hc => sets c (.tail _ hc)) hrest, (writeChange_setting hs hone).1]
    rfl

theorem inForce_empty : Sqlite.empty.Attached ∧ Sqlite.empty.InForce :=
  ⟨fun _ _ => rfl, fun _ _ h => by cases h⟩

section Steps

variable [Unicode]

variable {store done : Sqlite} {made : List (Option OutboxId)}

theorem writePatch_resolves {written : Sqlite} {patch : Patch}
    (keeps : ∀ change ∈ patch.changes, keepsAddresses change = true)
    (h : store.writePatch patch = .ok written) (account : AccountId) (intent : RemoteIntent) :
    written.resolveIntent account intent = store.resolveIntent account intent := by
  unfold writePatch at h
  cases hchanges : store.writeChanges [] patch.changes with
  | error error => simp [hchanges] at h
  | ok pair =>
    obtain ⟨next, touched⟩ := pair
    simp only [hchanges] at h
    rw [refreshAll_eq h]
    exact writeChanges_resolves keeps hchanges account intent

theorem writeRows_silent {written : Sqlite} {now : DateTime} {rows : List Commit.Row}
    (none : ∀ row ∈ rows, ∀ forward inverse, row ≠ .withdrawn forward inverse)
    (h : store.writeRows now rows = .ok written) :
    written.messages = store.messages ∧ written.outbox = store.outbox := by
  induction rows generalizing store with
  | nil =>
    cases h
    exact ⟨rfl, rfl⟩
  | cons row rest ih =>
    rw [writeRows] at h
    cases hone : store.writeRow now row with
    | error error => simp [hone] at h
    | ok next =>
      rw [hone] at h
      obtain ⟨hmessages, houtbox⟩ := ih (fun r hr => none r (.tail _ hr)) h
      have hnext : next.messages = store.messages ∧ next.outbox = store.outbox := by
        cases row with
        | withdrawn forward inverse => exact absurd rfl (none _ (.head _) _ _)
        | sendState draft state stamp =>
          change (if _ then _ else _) = _ at hone
          split at hone
          · cases hone
            exact ⟨rfl, rfl⟩
          · cases hone
        | expect draft updated state =>
          cases hone
          exact ⟨rfl, rfl⟩
      exact ⟨hmessages.trans hnext.1, houtbox.trans hnext.2⟩

theorem commitSteps_eq {commit : Commit} (h : store.commitSteps commit = .ok (done, made)) :
    ∃ addressed before written queued after,
      store.queueAll commit.account commit.now .beforeForward commit.queue =
        .ok (addressed, before) ∧
      addressed.writePatch commit.forward = .ok written ∧
      written.queueAll commit.account commit.now .afterForward commit.queue =
        .ok (queued, after) ∧
      queued.writeRows commit.now commit.rows = .ok done := by
  unfold commitSteps at h
  split at h
  · cases h
  · split at h
    · cases h
    · rename_i addressed before hbefore
      split at h
      · cases h
      · rename_i written hwritten
        split at h
        · cases h
        · rename_i queued after hafter
          split at h
          · cases h
          · rename_i last hrows
            cases h
            exact ⟨addressed, before, written, queued, after, hbefore, hwritten, hafter, hrows⟩

theorem commitSteps_leaves {decision : Decision} (attached : store.Attached)
    (h : store.commitSteps decision.commit = .ok (done, made)) :
    Leaves store done decision.commit.forward.changes fun id =>
      store.pendingOn id ++ store.askedBy decision.commit id := by
  obtain ⟨addressed, before, written, queued, after, hbefore, hwritten, hafter, hrows⟩ :=
    commitSteps_eq h
  have hfirst := queueAll_queues hbefore
  have hwrites := writePatch_writes (hfirst.attached attached) hwritten
  have hsecond := queueAll_queues hafter
  obtain ⟨hmessages, houtbox⟩ := writeRows_silent decision.takesNothingBack hrows
  have hstores := not_stores decision.stores
  -- What is queued after the change is what would be queued before it.
  have hsame : ∀ id, written.queuesAll decision.commit.account .afterForward
      decision.commit.queue id =
        store.queuesAll decision.commit.account .afterForward decision.commit.queue id := by
    intro id
    unfold queuesAll
    refine List.flatMap_congr fun work hwork => ?_
    split
    · rename_i hwhen
      unfold queues
      rcases decision.addressed with hkeeps | hnothing
      · rw [writePatch_resolves hkeeps hwritten, hfirst.resolveIntent]
      · have hasked : asked work.intent id = [] := by
          rw [asked, hnothing work hwork hwhen, ite_self]
        rw [hasked, ite_self, ite_self]
    · rfl
  refine ⟨?_, fun id m hm => ?_⟩
  · intro id hnone
    rw [pendingOn_of_outbox houtbox]
    exact hsecond.attached hwrites.attached id (hmessages ▸ hnone)
  · rw [hmessages, hsecond.messages] at hm
    rcases hwrites.held id m hm with ⟨old, hold, hpending, hset⟩ | ⟨hstored, _⟩
    · refine .inl ⟨old, hfirst.messages ▸ hold, ?_, hset⟩
      rw [pendingOn_of_outbox houtbox, hsecond.pendingOn, hpending, hfirst.pendingOn, hsame,
        List.append_assoc]
      rfl
    · exact absurd hstored (hstores id)

theorem writePatch_sets {written : Sqlite} {patch : Patch} (sets : Memory.Sets patch.changes)
    (h : store.writePatch patch = .ok written) :
    written = { store with
      messages := written.messages
      threads := written.threads
      summaries := written.summaries } := by
  unfold writePatch at h
  cases hchanges : store.writeChanges [] patch.changes with
  | error error => simp [hchanges] at h
  | ok pair =>
    obtain ⟨next, touched⟩ := pair
    simp only [hchanges] at h
    rw [refreshAll_eq h, writeChanges_sets sets hchanges]

theorem takeBack_leaves {back : TakeBack} (attached : store.Attached)
    (h : store.commitSteps back.commit = .ok (done, made)) :
    Leaves store done (back.inverse.changes ++
        match store.untried back.forward back.inverse with
        | some id => store.writesBack id takenBack
        | none => [])
      fun message =>
        match store.untried back.forward back.inverse with
        | some id => store.staysQueued id takenBack message
        | none => store.pendingOn message := by
  obtain ⟨addressed, before, written, queued, after, hbefore, hwritten, hafter, hrows⟩ :=
    commitSteps_eq h
  cases hbefore
  cases hafter
  have hwrites := writePatch_writes attached hwritten
  have hstores := not_stores (Decision.sets_stores back.sets)
  have houtbox : written.outbox = store.outbox := by rw [writePatch_sets back.sets hwritten]
  have huntried : written.untried back.forward back.inverse =
      store.untried back.forward back.inverse := by
    unfold untried
    rw [houtbox]
  have hdone : written.withdrawIn back.forward back.inverse back.now = .ok done := by
    simp only [TakeBack.commit, writeRows, writeRow] at hrows
    cases hone : written.withdrawIn back.forward back.inverse back.now with
    | error error => simp [hone] at hrows
    | ok next =>
      rw [hone] at hrows
      exact hrows
  unfold withdrawIn at hdone
  rw [huntried] at hdone
  cases hid : store.untried back.forward back.inverse with
  | none =>
    rw [hid] at hdone
    cases hdone
    refine hwrites.andLeaves hstores
      ⟨hwrites.attached, fun id m hm => .inl ⟨m, hm, ?_, fun _ => rfl⟩⟩
    exact pendingOn_of_outbox houtbox id
  | some id =>
    rw [hid] at hdone
    have hleaves := settleIn_leaves hwrites.attached hdone
    have hback : written.writesBack id takenBack = store.writesBack id takenBack := by
      unfold writesBack takenBack
      dsimp only
      rw [houtbox]
    have hqueue : ∀ message, written.staysQueued id takenBack message =
        store.staysQueued id takenBack message := by
      intro message
      unfold staysQueued pendingBut pendingOn
      rw [houtbox]
    change Leaves store done (back.inverse.changes ++ store.writesBack id takenBack) _
    rw [← hback]
    refine hwrites.andLeaves hstores (hleaves.congr fun message => ?_)
    exact hqueue message

/-- One step keeps what is pending in force, where it meets its condition. -/
theorem after_inForce {step : Step} (attached : store.Attached) (inForce : store.InForce)
    (meets : store.Meets step) :
    (store.after step).Attached ∧ (store.after step).InForce := by
  have hrow : ∀ {row}, row ∈ store.messages.rows →
      Registers.InForce row.2 (store.pendingOn row.1) := fun hrow =>
    inForce _ _ (Table.mem_rows.mp hrow)
  cases step with
  | commit decision =>
    rcases store.transact_cases (store.commitSteps decision.commit) with
      ⟨done, made, hok, heq⟩ | heq
    · have hleaves := commitSteps_leaves attached hok
      rw [after, heq]
      exact ⟨hleaves.attached, hleaves.inForce fun row hmem =>
        (meets row hmem).1.lands (meets row hmem).2 (hrow hmem)⟩
    · rw [after, heq]
      exact ⟨attached, inForce⟩
  | enqueue account intent undo now =>
    rcases store.transact_cases (store.queueIn account intent undo none now) with
      ⟨done, made, hok, heq⟩ | heq
    · have hleaves := (queueIn_queues hok).1.leaves attached
      rw [after, heq]
      exact ⟨hleaves.attached, hleaves.inForce fun row hmem =>
        (meets row hmem).lands (fun _ _ _ => .inl rfl) (hrow hmem)⟩
    · rw [after, heq]
      exact ⟨attached, inForce⟩
  | takeBack back =>
    rcases store.transact_cases (store.commitSteps back.commit) with
      ⟨done, made, hok, heq⟩ | heq
    · have hleaves := takeBack_leaves attached hok
      rw [after, heq]
      refine ⟨hleaves.attached, hleaves.inForce fun row hmem => ?_⟩
      have hmay := meets row hmem
      unfold MayTakeBack at hmay
      cases hid : store.untried back.forward back.inverse with
      | none =>
        rw [hid] at hmay
        simp only [List.append_nil]
        exact Respects.lands hmay (fun _ _ _ => rfl) (hrow hmem)
      | some id =>
        rw [hid] at hmay
        exact hmay.1.lands hmay.2 (hrow hmem)
    · rw [after, heq]
      exact ⟨attached, inForce⟩
  | ingest account ingest => exact writeChunks_inForce attached inForce
  | refile account filed =>
    rcases store.transact_cases (store.writeRefile account filed) with ⟨done, made, hok, heq⟩ | heq
    · rw [after, heq]
      exact writeRefile_inForce attached inForce hok
    · rw [after, heq]
      exact ⟨attached, inForce⟩
  | settle id settle now =>
    rcases store.transact_cases ((store.settleIn id settle now).map fun settled => (settled, ()))
      with ⟨done, made, hok, heq⟩ | heq
    · obtain ⟨settled, hsettled, hpair⟩ := map_ok hok
      cases hpair
      have hleaves := settleIn_leaves attached hsettled
      rw [after, heq]
      refine ⟨hleaves.attached, hleaves.inForce fun row hmem => ?_⟩
      unfold staysQueued
      cases hleave : leavesQueue settle with
      | true =>
        obtain ⟨hrespects, hlets⟩ := meets hleave row hmem
        exact hrespects.lands hlets (hrow hmem)
      | false =>
        have hnothing : store.writesBack id settle = [] := by
          cases settle with
          | ok => rfl
          | inPart done => cases hleave
          | failed reason retry => cases retry <;> first | rfl | cases hleave
        rw [hnothing]
        exact Respects.lands (fun _ _ _ => .inl rfl) (fun _ _ _ => rfl) (hrow hmem)
    · rw [after, heq]
      exact ⟨attached, inForce⟩

/-- In every run from an empty store whose steps all meet their condition, every field a queued
change names holds the value asked for last. -/
theorem pending_in_force {store : Sqlite} (h : Reaches after Meets .empty store) :
    store.InForce :=
  (h.invariant (fun store => store.Attached ∧ store.InForce) inForce_empty
    fun _ _ both meets => after_inForce both.1 both.2 meets).2

end Steps

/-- One message arriving in an inbox. -/
def arrival : Step :=
  .ingest ⟨0⟩ { Ingest.silent ⟨⟨0⟩, "INBOX"⟩ with
    messages := [⟨.imap "INBOX" 1 1, .gmail 1, .plain ⟨1⟩ ⟨1⟩ .inbox⟩] }

/-- An act on that message as it is filed in `held`. -/
def acting (op : Op) (held : MailboxRole) (id : Nat) : Step :=
  let m : Message := .plain ⟨1⟩ ⟨1⟩ held
  let summary := @ThreadSummary.deriveFrom .ascii ⟨1⟩ m m [m] .inactive .unpinned .unmuted
    .inactive
  .commit (Decision.act op (.threads [⟨1⟩]) ⟨summary, [⟨1⟩]⟩ [m] ⟨.localOnly, .dropInbox, ⟨[]⟩⟩
    ⟨id⟩ ⟨id + 1⟩ ⟨0⟩ 0 true)

def refusing (id : Nat) : Step := .settle ⟨id⟩ (.failed "" (.fatal "")) 0

/-- Archived, then trashed before the server has heard of either, then the first is refused: the
message is back in the inbox while the move to the trash is still queued. -/
theorem pending_lost : ∃ store, Reaches (@after .ascii) anyAction .empty store ∧
    ¬ store.InForce := by
  refine ⟨_, Reaches.start.foldl
    [arrival, acting .archive .inbox 1, acting .trash .archive 3, refusing 1], fun h => ?_⟩
  have hheld := h ⟨1⟩ { Message.plain ⟨1⟩ ⟨1⟩ .inbox with mailbox := .inbox } (by decide) .mailbox
    (.mailbox .trash) (by decide)
  exact absurd hheld (by decide)

/-- Archived, then trashed: each step meets its condition. -/
theorem pending_in_force_trashed :
    ((@after .ascii (@after .ascii (@after .ascii .empty arrival) (acting .archive .inbox 1))
      (acting .trash .archive 3))).InForce :=
  @pending_in_force .ascii _
    (((Reaches.start.next arrival (by decide)).next (acting .archive .inbox 1) (by decide)).next
      (acting .trash .archive 3) (by decide))

end Sqlite

end Mailo.Store
