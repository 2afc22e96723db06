import Mailo.Engine.Drain
import Mailo.Store.Sqlite.Overlay

/-!
# An entry in flight

A drain's attempt stands between two transactions. Where no write takes out the entry it is about,
and an act the server has, or may come to have, is taken back by telling it so, the attempt finds
its row to settle, what was taken back before it was sent was not sent, and nothing that the server
took stays put back here alone.
-/

namespace Mailo.Engine

open Domain Library Logic Store

def Phase.inFlight : Phase → Option OutboxId
  | .sending id _ | .settling id _ _ _ => some id
  | .idle | .walking _ => none

/-- An attempt of the entry is under way, or ended with nothing counted: cut off, or waiting for a
credential. -/
def Drain.Busy (drain : Drain) (id : OutboxId) : Prop :=
  drain.phase.inFlight = some id ∨ id ∈ drain.uncounted

/-- The changes a write makes, and those it may put back by taking an entry back. -/
def Write.Puts (store : Sqlite) (write : Write) (change : Change) : Prop :=
  change ∈ write.changes store ∨
    ∃ commit, write.decides store = some commit ∧
      ∃ forward inverse, .withdrawn forward inverse ∈ commit.rows ∧
        (store.PutBackBy forward inverse change ∨
          ∃ work ∈ commit.queue, change ∈ work.undo.changes)

/-! ## What a write takes out -/

/-- What a write takes out of the queue. -/
def Write.Out (store : Sqlite) (write : Write) (replaced : List OutboxId) (id : Nat)
    (entry : Entry) : Prop :=
  Deletes (write.Puts store) entry ∨
    ((∃ work ∈ write.intents store, Replaces work.1 work.2 entry) ∧ ⟨id⟩ ∈ replaced) ∨
    ∃ commit, write.decides store = some commit ∧
      ∃ forward inverse, .withdrawn forward inverse ∈ commit.rows ∧ Named forward inverse entry

section Writes

variable [Unicode]

variable {store : Sqlite} {write : Write}

omit [Unicode] in
theorem commit_out {commit : Commit} {replaced : List OutboxId}
    (hdecides : write.decides store = some commit) (id : Nat) (entry : Entry)
    (h : store.TakenByCommit commit replaced id entry) : write.Out store replaced id entry := by
  have hkind : (∃ made, write = .commit made) ∨ ∃ undo hasServer now,
      write = .takeBack undo hasServer now := by
    cases write with
    | commit made => exact .inl ⟨made, rfl⟩
    | takeBack undo hasServer now => exact .inr ⟨undo, hasServer, now, rfl⟩
    | patch | queue | place => cases hdecides
  have hchanges : write.changes store = commit.forward.changes := by
    rcases hkind with ⟨made, rfl⟩ | ⟨undo, hasServer, now, rfl⟩ <;>
      simp only [Write.changes, hdecides]
  have hintents : write.intents store =
      commit.queue.map fun work => (commit.account, work.intent) := by
    rcases hkind with ⟨made, rfl⟩ | ⟨undo, hasServer, now, rfl⟩ <;>
      simp only [Write.intents, hdecides]
  rcases h with hdeletes | ⟨⟨work, hwork, hreplaces⟩, hid⟩ | ⟨forward, inverse, hrow, hout⟩
  · exact .inl (hdeletes.mono fun change hchange => .inl (by rw [hchanges]; exact hchange))
  · refine .inr (.inl ⟨⟨(commit.account, work.intent), ?_, hreplaces⟩, hid⟩)
    rw [hintents]
    exact List.mem_map.mpr ⟨work, hwork, rfl⟩
  · rcases hout with hnamed | hdeletes
    · exact .inr (.inr ⟨commit, hdecides, forward, inverse, hrow, hnamed⟩)
    · exact .inl (hdeletes.mono fun change hchange =>
        .inr ⟨commit, hdecides, forward, inverse, hrow, hchange⟩)

theorem apply_takes (store : Sqlite) (write : Write) :
    Sqlite.Takes store (write.apply store) (write.Out store (write.apply store).replaced)
      fun _ => True := by
  have hdecided : ∀ {commit : Commit}, write.decides store = some commit →
      ∀ {written : Sqlite} {ids : List (Option OutboxId)},
      store.commitSteps commit = .ok (written, ids) →
      Sqlite.Takes store written (write.Out store written.replaced) fun _ => True :=
    fun hdecides _ _ hwritten => (Sqlite.commitSteps_takes hwritten).mono
      (commit_out hdecides) fun _ _ => trivial
  cases write with
  | commit made =>
    simp only [Write.apply, Write.decides, Option.map_some]
    cases hwritten : store.commitSteps made with
    | error error => exact .refl _
    | ok pair => exact hdecided rfl hwritten
  | takeBack undo hasServer now =>
    simp only [Write.apply]
    cases hdecides : Write.decides store (.takeBack undo hasServer now) with
    | none => exact .refl _
    | some commit =>
      rw [Option.map_some]
      cases hwritten : store.commitSteps commit with
      | error error => exact .refl _
      | ok pair => exact hdecided hdecides hwritten
  | patch made =>
    simp only [Write.apply]
    cases hwritten : store.writePatch made with
    | error error => exact .refl _
    | ok written =>
      exact (Sqlite.writePatch_takes hwritten).mono
        (fun _ _ hdeletes => .inl (hdeletes.mono fun _ hchange => .inl hchange))
        fun _ _ => trivial
  | queue account intent undo now =>
    simp only [Write.apply]
    cases hwritten : store.queueIn account intent undo none now with
    | error error => exact .refl _
    | ok pair =>
      exact (Sqlite.queueIn_takes hwritten).mono
        (fun _ _ hout => .inr (.inl
          ⟨⟨(account, intent), List.mem_singleton_self _, hout.1⟩, hout.2⟩))
        fun _ _ => trivial
  | place remoteMap unplaced => exact .of_eq rfl rfl

/-- What a write takes back is out of the queue after it, and was an entry its commit names if it
was queued before. -/
theorem takes_spec {taken : OutboxId × List Change} (htaken : taken ∈ write.takes store) :
    (write.apply store).outbox.get taken.1.raw = none ∧
      (store.outbox.next ≤ taken.1.raw ∨
        ∃ commit, write.decides store = some commit ∧ ∃ forward inverse entry,
          .withdrawn forward inverse ∈ commit.rows ∧
            store.outbox.get taken.1.raw = some entry ∧ Named forward inverse entry) ∧
      taken.1.raw < (write.apply store).outbox.next := by
  unfold Write.takes at htaken
  split at htaken
  · cases htaken
  · rename_i commit hdecides
    split at htaken
    · rename_i pair hwritten
      have happly : write.apply store = pair.1 := by
        cases write with
        | commit made =>
          cases hdecides
          simp only [Write.apply, Write.decides, Option.map_some, hwritten]
        | takeBack undo hasServer now =>
          simp only [Write.apply, hdecides, Option.map_some, hwritten]
        | patch | queue | place => cases hdecides
      obtain ⟨hgone, hbefore, hlt⟩ := Sqlite.withdrawnBy_spec hwritten htaken
      rw [happly]
      refine ⟨hgone, hbefore.imp_right fun hnamed => ?_, hlt⟩
      exact ⟨commit, hdecides, hnamed⟩
    · cases htaken

end Writes

/-! ## Settling only fails for want of a row when the row is gone -/

section Lost

variable [Unicode]

variable {id : OutboxId} {store : Sqlite}

omit [Unicode] in
theorem writeChange_noEntry {change : Change} (h : store.writeChange change = .error (.noEntry id))
    : False := by
  cases change with
  | messageUpsert m =>
    simp only [Sqlite.writeChange, Sqlite.upsertMessage] at h
    split at h
    · cases h
    · split at h <;> cases h
  | labelUpsert label =>
    simp only [Sqlite.writeChange, Sqlite.writeLabel] at h
    split at h <;> cases h
  | messageLabel message label membership =>
    cases membership with
    | «in» =>
      simp only [Sqlite.writeChange] at h
      split at h <;> cases h
    | out => cases h
  | messageDelete _ | draftDelete _ | messageRead _ _ | messageStar _ _ | messageFlag _ _
  | messageMailbox _ _ | threadSnooze _ _ | threadPin _ _ | threadMute _ _ | threadFollowUp _ _
  | draftUpsert _ => cases h

theorem refreshSummary_noEntry {thread : ThreadId}
    (h : store.refreshSummary thread = .error (.noEntry id)) : False := by
  unfold Sqlite.refreshSummary at h
  dsimp only at h
  split at h
  · cases h
  · split at h
    · cases h
    · split at h <;> cases h

theorem writeEach_noEntry {changes : List Change}
    (h : store.writeEach changes = .error (.noEntry id)) : False := by
  induction changes generalizing store with
  | nil => cases h
  | cons change rest ih =>
    rw [Sqlite.writeEach] at h
    split at h
    · rename_i error hone
      cases h
      exact writeChange_noEntry hone
    · exact ih h
    · split at h
      · rename_i error hrefresh
        cases h
        exact refreshSummary_noEntry hrefresh
      · exact ih h

theorem deleteUnaddressed_noEntry {messages : List MessageId}
    (h : store.deleteUnaddressed messages = .error (.noEntry id)) : False := by
  induction messages generalizing store with
  | nil => cases h
  | cons message rest ih =>
    rw [Sqlite.deleteUnaddressed] at h
    split at h
    · split at h
      · exact ih h
      · split at h
        · rename_i error hrefresh
          cases h
          exact refreshSummary_noEntry hrefresh
        · exact ih h
    · exact ih h

theorem settleIn_noEntry {other : OutboxId} {settle : Settle} {now : DateTime}
    (h : store.settleIn id settle now = .error (.noEntry other)) :
    store.outbox.get id.raw = none ∧ id ∉ store.replaced := by
  unfold Sqlite.settleIn at h
  split at h
  · rename_i hnone
    split at h
    · cases h
    · rename_i hreplaced
      exact ⟨hnone, fun hmem => hreplaced (List.contains_iff_mem.mpr hmem)⟩
  · rename_i entry hentry
    have hundo : ∀ done, (store.settleDestroyed id .refused).undoEntry id done =
        .error (.noEntry other) → False := by
      intro done hdone
      unfold Sqlite.undoEntry at hdone
      rw [Sqlite.settleDestroyed_eq] at hdone
      split at hdone
      · rename_i hnone
        rw [hentry] at hnone
        cases hnone
      · exact writeEach_noEntry hdone
    cases settle with
    | ok =>
      dsimp only at h
      split at h
      · cases h
      · unfold Sqlite.forgetMailbox at h
        cases hforgot : Sqlite.deleteUnaddressed _ _ with
        | error error =>
          rw [hforgot] at h
          cases h
          exact (deleteUnaddressed_noEntry hforgot).elim
        | ok forgot =>
          rw [hforgot] at h
          cases h
    | failed reason retry =>
      cases retry with
      | now | after | needsReauth | needsGrant => cases h
      | fatal text => exact (hundo [] h).elim
    | inPart done => exact (hundo done h).elim

omit [Unicode] in
theorem dispatch_held {found : Dispatch} (h : store.dispatch id = .ok found)
    (hfound : found ≠ .wait) :
    ∃ entry, store.outbox.get id.raw = some entry := by
  unfold Sqlite.dispatch at h
  split at h
  · cases h
    exact absurd rfl hfound
  · rename_i entry hentry
    exact ⟨entry, hentry⟩

end Lost

/-! ## An act taken back -/

/-- The server can be told that an act is taken back: its account has one, every message it changed
was in one state before, and each of them is addressed there. -/
structure Tellable (store : Sqlite) (entry : Undo) (hasServer : Bool) : Prop where
  server : hasServer = true
  oneWord : ∃ remote, entry.remote = some remote ∧ OneWord entry.inverse remote
  addressed : ∀ change ∈ entry.inverse.changes, ∀ message setting,
    change.setting = some (message, setting) →
      store.addressesOf entry.account message ≠ [] ∨ store.isUnplaced entry.account message = true

/-- A filing not yet tried, with nothing queued behind it on its messages, is the entry of the act
that is taken out of the queue with it. -/
structure Withdraws (store : Sqlite) (entry : Undo) (id : OutboxId) : Prop where
  sets : Memory.Sets entry.inverse.changes
  filing : withdrawable (waitingIn store entry.account) entry = true
  untried : store.untried entry.forward.id entry.inverse = some id

section TakingBack

variable {store written : Sqlite} {entry : Undo} {hasServer : Bool} {now : DateTime}
  {commit : Commit} {message : MessageId}

theorem Tells.append {log more : List Setting} {setting : Setting} (h : Tells more setting) :
    Tells (log ++ more) setting := by
  unfold Tells at h ⊢
  rw [Registers.last_append, Registers.last_append]
  rcases h with hlast | ⟨hflag, hlast⟩
  · exact .inl (by rw [hlast, Option.some_or])
  · exact .inr ⟨hflag, by rw [hlast, Option.some_or]⟩

theorem mem_addressed {intent : RemoteIntent} {onServer : MessageId → Bool}
    (h : message ∈ messagesOf intent) (held : onServer message = true) :
    message ∈ addressed intent onServer := by
  have hfold : ∀ (rest out : List MessageId), message ∈ out ∨ message ∈ rest →
      message ∈ rest.foldl (fun out each =>
        if !out.contains each && onServer each then out ++ [each] else out) out := by
    intro rest
    induction rest with
    | nil => exact fun out hor => hor.resolve_right List.not_mem_nil
    | cons first rest ih =>
      intro out hor
      refine ih _ ?_
      rcases hor with hout | hrest
      · left
        dsimp only
        split
        · exact List.mem_append_left _ hout
        · exact hout
      · rcases List.mem_cons.mp hrest with rfl | hrest
        · left
          dsimp only
          split
          · exact List.mem_append_right _ (List.mem_singleton_self _)
          · rename_i hnot
            simpa [held] using hnot
        · exact .inr hrest
  exact hfold _ [] (.inr h)

/-- Work queued behind all else is the last word on the messages it addresses. -/
theorem told_queueIn {account : AccountId} {intent : RemoteIntent} {undo : Patch}
    {forward : Option ChangeId} {queued : OutboxId}
    (h : store.queueIn account intent undo forward now = .ok (written, some queued))
    (hmessage : message ∈ messagesOf intent)
    (haddressed : store.addressesOf account message ≠ [] ∨ store.isUnplaced account message = true) :
    told written message = told store message ++ asksFor intent := by
  have hdraft : store.staleCopies account intent = [] := by
    unfold Sqlite.staleCopies
    cases intent <;> first | rfl | cases hmessage
  unfold Sqlite.queueIn at h
  split at h
  · cases h
  · rename_i op hop
    dsimp only at h
    split at h
    · cases h
      have hkept : (store.outbox.filter fun held _ =>
          !((store.staleCopies account intent).map Prod.fst).contains held).values =
          store.outbox.values := by
        rw [hdraft]
        unfold Series.values Series.filter
        simp
      have hmem : message ∈ (store.entryFor account intent op hop undo forward now).messages := by
        refine mem_addressed hmessage ?_
        rcases haddressed with hheld | hheld
        · simp [hheld]
        · simp [hheld]
      unfold told
      rw [Series.values_push, List.flatMap_append, hkept, List.flatMap_singleton, if_pos hmem]
      congr 1
      refine (get_pendingRows intent message).trans ?_
      unfold asked
      rw [if_pos hmessage]
    · cases h

theorem resolveIntent_ne_none {account : AccountId} {intent : RemoteIntent}
    (operates : ∀ remotes, store.operationOn remotes intent ≠ none)
    (hmessage : message ∈ messagesOf intent)
    (haddressed : store.addressesOf account message ≠ [] ∨ store.isUnplaced account message = true) :
    store.resolveIntent account intent ≠ none := by
  have hunaddressed : unaddressed intent = none := by
    cases intent <;> first | rfl | cases hmessage
  unfold Sqlite.resolveIntent
  rw [hunaddressed]
  dsimp only
  rw [if_neg]
  · exact operates _
  · simp only [Bool.and_eq_true, Bool.not_eq_true', List.isEmpty_iff, List.any_eq_false]
    rintro ⟨hnone, hplaced⟩
    rcases haddressed with hheld | hheld
    · obtain ⟨remote, hremote⟩ := List.exists_mem_of_ne_nil _ hheld
      have hin : remote ∈ store.refsFor account (messagesOf intent) :=
        List.mem_flatMap.mpr ⟨message, hmessage, hremote⟩
      rw [hnone] at hin
      cases hin
    · exact hplaced message hmessage hheld

/-- Taking such an act back commits its inverse, and the reverse queued behind it. -/
theorem takeBack_oneWord {remote : RemoteIntent} {waiting : List Waiting}
    (oneWord : OneWord entry.inverse remote) (hremote : entry.remote = some remote)
    (some_change : entry.inverse.changes ≠ [])
    (hdecides : takeBack waiting true entry now = some commit) :
    ∃ intent, AsksBack intent entry.inverse.changes ∧
      commit = ⟨entry.account, now, entry.inverse,
        [⟨intent, entry.forward, none, .afterForward, .skip⟩], []⟩ := by
  obtain ⟨intent, hreverse, hasks⟩ := reverseIntent_asksBack oneWord some_change
  refine ⟨intent, hasks, ?_⟩
  unfold takeBack withdrawable at hdecides
  split at hdecides
  · cases hdecides
  · rw [hremote] at hdecides
    cases oneWord <;>
    · simp only [Bool.false_and, Bool.false_eq_true, if_false, Option.filter_some, if_true,
        Option.bind_some, hreverse] at hdecides
      exact (Option.some.inj hdecides).symm

variable [Unicode]

variable {ids : List (Option OutboxId)}

/-- An act taken back where the server can be told leaves nothing one-sided. -/
theorem Tellable.told (h : Tellable store entry hasServer)
    (hdecides : takeBack (waitingIn store entry.account) hasServer entry now = some commit)
    (hwritten : store.commitSteps commit = .ok (written, ids)) {change : Change}
    (hchange : change ∈ entry.inverse.changes) : oneSided written change = false := by
  obtain ⟨remote, hremote, hone⟩ := h.oneWord
  rw [h.server] at hdecides
  obtain ⟨intent, hasks, rfl⟩ :=
    takeBack_oneWord hone hremote (List.ne_nil_of_mem hchange) hdecides
  obtain ⟨message, setting, hsetting, hmessage, htells⟩ := hasks.each change hchange
  have hsets : Memory.Sets entry.inverse.changes := fun each heach => by
    obtain ⟨_, _, hsome, _⟩ := hasks.each each heach
    simp [hsome]
  obtain ⟨before, queued, patched, after, more, hbefore, hpatched, hafter, hrows⟩ :=
    Sqlite.commitSteps_eq hwritten
  cases hbefore
  cases hrows
  have hframe := Sqlite.writePatch_sets hsets hpatched
  have haddressed : patched.addressesOf entry.account message ≠ [] ∨
      patched.isUnplaced entry.account message = true := by
    rw [hframe]
    exact h.addressed change hchange message setting hsetting
  have hresolves := resolveIntent_ne_none (hasks.operates patched) hmessage haddressed
  rw [Sqlite.queueAll, if_pos rfl] at hafter
  dsimp only at hafter
  split at hafter
  · cases hafter
  · rename_i made hmade
    have hnone := (Sqlite.queueIn_queues hmade).2
    exact absurd (by simpa using hnone) hresolves
  · rename_i queued id hmade
    rw [Sqlite.queueAll] at hafter
    cases hafter
    have htold := told_queueIn hmade hmessage haddressed
    unfold oneSided
    rw [hsetting]
    dsimp only
    rw [htold, decide_eq_true (Tells.append htells), Bool.not_true, Bool.and_false]

theorem Withdraws.gone {id : OutboxId} (h : Withdraws store entry id)
    (hdecides : takeBack (waitingIn store entry.account) hasServer entry now = some commit)
    (hwritten : store.commitSteps commit = .ok (written, ids)) :
    .withdrawn entry.forward.id entry.inverse ∈ commit.rows ∧
      written.outbox.get id.raw = none := by
  have hfiling := h.filing
  have hreverse : ∀ remote, entry.remote = some remote → reverseIntent remote entry.inverse = none := by
    intro remote hremote
    unfold withdrawable at hfiling
    rw [hremote] at hfiling
    cases remote <;> first | rfl | cases hfiling
  have hnone : ((entry.remote.filter fun _ => hasServer).bind fun remote =>
      reverseIntent remote entry.inverse) = none := by
    rw [Option.bind_eq_none_iff]
    intro remote hremote
    exact hreverse remote (Option.filter_eq_some_iff.mp hremote).1
  have hcommit : commit = ⟨entry.account, now, entry.inverse, [],
      [.withdrawn entry.forward.id entry.inverse]⟩ := by
    unfold takeBack at hdecides
    rw [if_pos hfiling, hnone] at hdecides
    obtain ⟨_, hbegun⟩ := Option.ite_none_left_eq_some.mp hdecides
    obtain ⟨_, hsome⟩ := Option.ite_none_left_eq_some.mp hbegun
    exact (Option.some.inj hsome).symm
  subst hcommit
  obtain ⟨before, queued, patched, after, more, hbefore, hpatched, hafter, hrows⟩ :=
    Sqlite.commitSteps_eq hwritten
  cases hbefore
  cases hafter
  refine ⟨.head _, ?_⟩
  have hframe := Sqlite.writePatch_sets h.sets hpatched
  simp only [Sqlite.writeRows, Sqlite.writeRow] at hrows
  split at hrows
  · cases hrows
  · rename_i last hlast
    cases hrows
    have huntried : patched.untried entry.forward.id entry.inverse = some id := by
      rw [hframe]
      exact h.untried
    rcases Sqlite.withdrawIn_cases hlast with ⟨hmissing, _⟩ | ⟨other, _, hother, _, _, _, hgone⟩
    · rw [huntried] at hmissing
      cases hmissing
    · rw [huntried] at hother
      cases hother
      exact hgone

end TakingBack
/-- The server has a change of an entry, or may come to have it. -/
def Drain.MayHave (drain : Drain) (id : OutboxId) (change : Change) : Prop :=
  (∃ entry, drain.store.outbox.get id.raw = some entry) ∨ drain.phase.inFlight = some id ∨
    ∃ took, (id, took) ∈ drain.took ∧ took.covers change

/-- An entry that an act asked for, queued or sent. -/
def Drain.Asked (drain : Drain) (act : Undo) (id : OutboxId) : Prop :=
  ∃ entry, queuedBy (waitingOf (id, entry)) act = true ∧
    (drain.store.outbox.get id.raw = some entry ∨ (id, entry) ∈ drain.begun)

/-- A write leaves what is in flight: it takes back no entry an attempt of which has begun and has
not been counted, deletes no draft whose submission is under way and, from another process, takes
the place of no upload under way. An act the server has, or may come to have, is taken back by
telling it so, or with the only entry that would have told it. -/
structure Drain.Spares (drain : Drain) (writer : Writer) (write : Write) : Prop where
  named : ∀ commit, write.decides drain.store = some commit → ∀ forward inverse,
    .withdrawn forward inverse ∈ commit.rows → ∀ id entry, drain.Busy id →
      drain.store.outbox.get id.raw = some entry → ¬ Named forward inverse entry
  deletes : ∀ id entry, drain.phase.inFlight = some id →
    drain.store.outbox.get id.raw = some entry → ¬ Deletes (write.Puts drain.store) entry
  replaces : writer = .elsewhere → ∀ id entry, drain.phase.inFlight = some id →
    drain.store.outbox.get id.raw = some entry →
      ∀ work ∈ write.intents drain.store, ¬ Replaces work.1 work.2 entry
  tells : ∀ act hasServer now, write = .takeBack act hasServer now →
    write.decides drain.store ≠ none → ∀ id, drain.Asked act id →
      ∀ change ∈ act.inverse.changes, drain.MayHave id change →
        Tellable drain.store act hasServer ∨ Withdraws drain.store act id

/-- What the server did of an entry is no more than what `done` says. -/
def Within (done : List MessageId) (took : Took) : Prop :=
  ∃ messages, took = .part messages ∧ messages ⊆ done

/-- A step that leaves what is in flight, and at which an entry given up or refused for good is
one of which the server did no more than it said. -/
def Drain.Clear (drain : Drain) : Event → Prop
  | .write writer write => drain.Spares writer write
  | .answer outcome took =>
    ∀ id rest settle done, drain.phase = .sending id rest → outcome.settles = some settle →
      leftDone settle = some done →
        Within done took ∧ ∀ earlier, (id, earlier) ∈ drain.took → Within done earlier
  | .reach there =>
    ∀ id entry rest reason, drain.phase = .walking ((id, entry) :: rest) →
      drain.store.dispatch id = .ok (.lost reason) →
        ∀ earlier, (id, earlier) ∈ drain.took → Within there earlier
  | .look _ | .settle _ => True

section Run

variable [Unicode]

def ClearRun (drain : Drain) : List Event → Prop
  | [] => True
  | event :: rest => drain.Clear event ∧ ∀ next, step drain event = some next → ClearRun next rest

/-- What holds of a drain whose steps leave what is in flight alone. -/
structure Sound (drain : Drain) : Prop where
  held : ∀ id, drain.phase.inFlight = some id → id.raw < drain.store.outbox.next ∧
    ((∃ entry, drain.store.outbox.get id.raw = some entry) ∨ id ∈ drain.store.replaced)
  sending : ∀ id rest, drain.phase = .sending id rest → id ∈ drain.sent
  settling : ∀ id settle halts rest done, drain.phase = .settling id settle halts rest →
    leftDone settle = some done → ∀ took, (id, took) ∈ drain.took → Within done took
  sent : ∀ id ∈ drain.sent, id.raw < drain.store.outbox.next
  counted : ∀ id ∈ drain.sent, ∀ entry, drain.store.outbox.get id.raw = some entry →
    id ∈ drain.uncounted ∨ 0 < entry.attempts
  took : ∀ row ∈ drain.took, row.1 ∈ drain.sent
  withdrawn : ∀ id ∈ drain.withdrawn, drain.store.outbox.get id.raw = none ∧
    id.raw < drain.store.outbox.next ∧ id ∉ drain.sent ∧ drain.phase.inFlight ≠ some id
  putBack : ∀ row ∈ drain.putBack, drain.store.outbox.get row.1.raw = none ∧
    row.1.raw < drain.store.outbox.next ∧ drain.phase.inFlight ≠ some row.1 ∧
    ∀ took, (row.1, took) ∈ drain.took → ¬ took.covers row.2
  lost : drain.lost = []

omit [Unicode] in
theorem sound_start (account : AccountId) (store : Sqlite) : Sound (.start account store) where
  held _ h := by cases h
  sending _ _ h := by cases h
  settling _ _ _ _ _ h := by cases h
  sent _ h := by cases h
  counted _ h := by cases h
  took _ h := by cases h
  withdrawn _ h := by cases h
  putBack _ h := by cases h
  lost := rfl

variable {took : Took} {phase : Phase} {id : OutboxId}

omit [Unicode] in
/-- Nothing of what stays put back is about what the server did. -/
theorem Within.spares {patch : Patch} {done : List MessageId} {change : Change}
    (h : Within done took) (hchange : change ∈ undoRest patch done) : ¬ took.covers change := by
  obtain ⟨messages, rfl, hsub⟩ := h
  rintro ⟨message, hmessage, hof⟩
  have hkept := (List.mem_filter.mp hchange).2
  rw [hof] at hkept
  simp only [List.contains_iff_mem.mpr (hsub hmessage), Bool.not_true] at hkept
  cases hkept

/-! ## What a step preserves -/

variable {drain next : Drain}

omit [Unicode] in
/-- Another phase in which nothing is in flight. -/
theorem Sound.rest (h : Sound drain) (hphase : phase.inFlight = none) :
    Sound { drain with phase := phase } where
  held _ hid := by
    rw [hphase] at hid
    cases hid
  sending id rest hid := by
    rw [show phase = .sending id rest from hid] at hphase
    cases hphase
  settling id settle halts rest _ hid := by
    rw [show phase = .settling id settle halts rest from hid] at hphase
    cases hphase
  sent := h.sent
  counted := h.counted
  took := h.took
  withdrawn id hid := by
    obtain ⟨hnone, hlt, hsent, _⟩ := h.withdrawn id hid
    exact ⟨hnone, hlt, hsent, by rw [show _ = none from hphase]; simp⟩
  putBack row hrow := by
    obtain ⟨hnone, hlt, _, htook⟩ := h.putBack row hrow
    exact ⟨hnone, hlt, by rw [show _ = none from hphase]; simp, htook⟩
  lost := h.lost

omit [Unicode] in
/-- An entry that is held comes in flight. -/
theorem Sound.addressed (h : Sound drain) {entry : Entry}
    (hentry : drain.store.outbox.get id.raw = some entry) :
    id.raw < drain.store.outbox.next ∧ id ∉ drain.withdrawn ∧
      ∀ row ∈ drain.putBack, row.1 ≠ id := by
  refine ⟨Series.get_lt_next hentry, fun hid => ?_, fun row hrow heq => ?_⟩
  · have hnone := (h.withdrawn id hid).1
    rw [hentry] at hnone
    cases hnone
  · have hnone := (h.putBack row hrow).1
    rw [heq, hentry] at hnone
    cases hnone

theorem sound_reach {there : List MessageId} (h : Sound drain) (hclear : drain.Clear (.reach there))
    (hstep : step drain (.reach there) = some next) :
    Sound next := by
  simp only [step] at hstep
  split at hstep
  · cases hstep
    exact h.rest rfl
  · rename_i id due rest hphase
    cases hdispatch : drain.store.dispatch id with
    | error error =>
      rw [hdispatch] at hstep
      cases hstep
      exact h.rest rfl
    | ok found =>
      rw [hdispatch] at hstep
      -- Moot or given up: it is settled next, and no attempt of it began here.
      have hsettles : ∀ settle, (∃ entry, drain.store.outbox.get id.raw = some entry) →
          (∀ done, leftDone settle = some done → ∀ took, (id, took) ∈ drain.took →
            Within done took) →
          Sound { drain with phase := .settling id settle false rest } := by
        rintro settle ⟨entry, hentry⟩ hdone
        obtain ⟨hlt, hwithdrawn, hputBack⟩ := h.addressed hentry
        refine ⟨fun other hother => ?_, fun _ _ hid => (by cases hid),
          fun other _ _ _ done hother hleft => ?_, h.sent, h.counted, h.took,
          fun other hother => ?_, fun row hrow => ?_, h.lost⟩
        · cases hother
          exact ⟨hlt, .inl ⟨entry, hentry⟩⟩
        · cases hother
          exact hdone done hleft
        · obtain ⟨hnone, hlt', hsent, _⟩ := h.withdrawn other hother
          refine ⟨hnone, hlt', hsent, fun hsame => hwithdrawn ?_⟩
          cases hsame
          exact hother
        · obtain ⟨hnone, hlt', _, htook⟩ := h.putBack row hrow
          refine ⟨hnone, hlt', fun hsame => hputBack row hrow ?_, htook⟩
          exact (Option.some.inj hsame).symm
      cases found with
      | wait =>
        cases hstep
        exact h.rest rfl
      | moot =>
        cases hstep
        exact hsettles _ (dispatch_held hdispatch (by simp)) fun done hdone => by cases hdone
      | lost reason =>
        cases hstep
        refine hsettles _ (dispatch_held hdispatch (by simp)) fun done hdone took htook => ?_
        have hwithin := hclear id due rest reason hphase hdispatch took htook
        by_cases hthere : there.isEmpty
        · rw [if_pos hthere] at hdone
          cases hdone
          rw [List.isEmpty_iff] at hthere
          rw [hthere] at hwithin
          exact hwithin
        · rw [if_neg hthere] at hdone
          cases hdone
          exact hwithin
      | send op =>
        cases hstep
        obtain ⟨entry, hentry⟩ := dispatch_held hdispatch (by simp)
        obtain ⟨hlt, hwithdrawn, hputBack⟩ := h.addressed hentry
        have hbegun : ∀ other, other ∈ (drain.begun ++ [(id, due)]).map Prod.fst ↔
            other ∈ drain.sent ∨ other = id := by
          simp [Drain.sent]
        refine ⟨fun other hother => ?_, fun other _ hother => ?_,
          fun _ _ _ _ _ hid => (by cases hid), fun other hother => ?_,
          fun other hother held hheld => ?_, fun row hrow => ?_, fun other hother => ?_,
          fun row hrow => ?_, h.lost⟩
        · cases hother
          exact ⟨hlt, .inl ⟨entry, hentry⟩⟩
        · cases hother
          exact (hbegun id).mpr (.inr rfl)
        · rcases (hbegun other).mp hother with hother | rfl
          · exact h.sent other hother
          · exact hlt
        · rcases (hbegun other).mp hother with hother | rfl
          · exact (h.counted other hother held hheld).imp_left (List.mem_append_left _)
          · exact .inl (List.mem_append_right _ (List.mem_singleton_self _))
        · exact (hbegun row.1).mpr (.inl (h.took row hrow))
        · obtain ⟨hnone, hlt', hsent, _⟩ := h.withdrawn other hother
          have hne : other ≠ id := fun hsame => hwithdrawn (hsame ▸ hother)
          refine ⟨hnone, hlt', fun hmem => ?_, fun hsame => hne (Option.some.inj hsame).symm⟩
          exact ((hbegun other).mp hmem).elim hsent hne
        · obtain ⟨hnone, hlt', _, htook⟩ := h.putBack row hrow
          refine ⟨hnone, hlt', fun hsame => hputBack row hrow ?_, htook⟩
          exact (Option.some.inj hsame).symm
  · cases hstep

theorem sound_answer {outcome : Outcome} (h : Sound drain)
    (hclear : drain.Clear (.answer outcome took))
    (hstep : step drain (.answer outcome took) = some next) : Sound next := by
  simp only [step] at hstep
  split at hstep
  · rename_i id rest hphase
    cases hstep
    have hsent := h.sending id rest hphase
    have hflight : drain.phase.inFlight = some id := by rw [hphase]; rfl
    -- What is put back is not what is in flight, and that is all the server did something of.
    have hputBack : ∀ row ∈ drain.putBack, ∀ each, (row.1, each) ∈ drain.took ++ [(id, took)] →
        ¬ each.covers row.2 := by
      intro row hrow each heach
      obtain ⟨_, _, hne, htook⟩ := h.putBack row hrow
      rcases List.mem_append.mp heach with heach | heach
      · exact htook each heach
      · obtain ⟨hsame, _⟩ := Prod.mk.inj (List.mem_singleton.mp heach)
        exact absurd (by rw [hflight, hsame]) hne
    have htook : ∀ row ∈ drain.took ++ [(id, took)], row.1 ∈ drain.sent := by
      intro row hrow
      rcases List.mem_append.mp hrow with hrow | hrow
      · exact h.took row hrow
      · rw [List.mem_singleton.mp hrow]
        exact hsent
    cases hsettles : outcome.settles with
    | none =>
      refine ⟨fun _ hother => (by cases hother), fun _ _ hother => (by cases hother),
        fun _ _ _ _ _ hother => (by cases hother), h.sent, h.counted, htook,
        fun other hother => ?_, fun row hrow => ?_, h.lost⟩
      · obtain ⟨hnone, hlt, hunsent, _⟩ := h.withdrawn other hother
        exact ⟨hnone, hlt, hunsent, fun hsame => by cases hsame⟩
      · obtain ⟨hnone, hlt, _, _⟩ := h.putBack row hrow
        exact ⟨hnone, hlt, fun hsame => (by cases hsame), hputBack row hrow⟩
    | some settle =>
      refine ⟨fun other hother => ?_, fun _ _ hother => (by cases hother),
        fun other _ _ _ done hother hleft each heach => ?_, h.sent, h.counted, htook,
        fun other hother => ?_, fun row hrow => ?_, h.lost⟩
      · cases hother
        exact h.held id hflight
      · cases hother
        obtain ⟨hnow, hearlier⟩ := hclear id rest settle done hphase hsettles hleft
        rcases List.mem_append.mp heach with heach | heach
        · exact hearlier each heach
        · rw [(Prod.mk.inj (List.mem_singleton.mp heach)).2]
          exact hnow
      · obtain ⟨hnone, hlt, hunsent, hne⟩ := h.withdrawn other hother
        exact ⟨hnone, hlt, hunsent, by rw [hflight] at hne; exact hne⟩
      · obtain ⟨hnone, hlt, hne, _⟩ := h.putBack row hrow
        exact ⟨hnone, hlt, by rw [hflight] at hne; exact hne, hputBack row hrow⟩
  · cases hstep

omit [Unicode] in
/-- A settlement written, with nothing in flight after it. -/
theorem Sound.settled (h : Sound drain) {after : Sqlite} {uncounted : List OutboxId}
    {back : List Change} (hphase : phase.inFlight = none) (hlt : id.raw < drain.store.outbox.next)
    (hnext : drain.store.outbox.next ≤ after.outbox.next)
    (habsent : ∀ other, other < drain.store.outbox.next →
      drain.store.outbox.get other = none → after.outbox.get other = none)
    (hcounted : ∀ other ∈ drain.sent, ∀ entry, after.outbox.get other.raw = some entry →
      other ∈ uncounted ∨ 0 < entry.attempts)
    (hback : ∀ change ∈ back, after.outbox.get id.raw = none ∧
      ∀ took, (id, took) ∈ drain.took → ¬ took.covers change) :
    Sound { drain with
      store := after
      phase := phase
      uncounted := uncounted
      putBack := drain.putBack ++ back.map fun change => (id, change) } where
  held _ hother := by
    rw [show _ = none from hphase] at hother
    cases hother
  sending other rest hother := by
    rw [show phase = .sending other rest from hother] at hphase
    cases hphase
  settling other settle halts rest _ hother := by
    rw [show phase = .settling other settle halts rest from hother] at hphase
    cases hphase
  sent other hother := Nat.lt_of_lt_of_le (h.sent other hother) hnext
  counted := hcounted
  took := h.took
  withdrawn other hother := by
    obtain ⟨hnone, hbelow, hunsent, _⟩ := h.withdrawn other hother
    exact ⟨habsent _ hbelow hnone, Nat.lt_of_lt_of_le hbelow hnext, hunsent,
      by rw [show _ = none from hphase]; simp⟩
  putBack row hrow := by
    have hidle : ({ drain with phase := phase } : Drain).phase.inFlight ≠ some row.1 := by
      rw [show _ = none from hphase]
      simp
    rcases List.mem_append.mp hrow with hrow | hrow
    · obtain ⟨hnone, hbelow, _, htook⟩ := h.putBack row hrow
      exact ⟨habsent _ hbelow hnone, Nat.lt_of_lt_of_le hbelow hnext, hidle, htook⟩
    · obtain ⟨change, hchange, rfl⟩ := List.mem_map.mp hrow
      obtain ⟨hnone, htook⟩ := hback change hchange
      exact ⟨hnone, Nat.lt_of_lt_of_le hlt hnext, hidle, htook⟩
  lost := h.lost

theorem sound_settle {now : DateTime} (h : Sound drain)
    (hstep : step drain (.settle now) = some next) : Sound next := by
  simp only [step] at hstep
  split at hstep
  · rename_i id settle halts rest hphase
    have hflight : drain.phase.inFlight = some id := by rw [hphase]; rfl
    obtain ⟨hlt, hheld⟩ := h.held id hflight
    cases hsettled : drain.store.settleIn id settle now with
    | error error =>
      rw [hsettled] at hstep
      cases error with
      | noEntry other =>
        obtain ⟨hnone, hreplaced⟩ := settleIn_noEntry hsettled
        rcases hheld with ⟨entry, hentry⟩ | hmem
        · rw [hentry] at hnone
          cases hnone
        · exact absurd hmem hreplaced
      | _ =>
        cases hstep
        exact h.rest rfl
    | ok after =>
      rw [hsettled] at hstep
      cases hstep
      have hidle : (if halts = true then Phase.idle else .walking rest).inFlight = none := by
        cases halts <;> rfl
      rcases Sqlite.settleIn_cases hsettled with ⟨hnone, rfl⟩ | ⟨entry, hentry,
        ⟨hleaves, htakes, hgone⟩ | ⟨hstays, retried, hretried, rfl⟩⟩
      · -- Replaced while it ran: there is nothing to write.
        have hback : drain.store.writesBack id settle = [] := by
          unfold Sqlite.writesBack
          split <;> simp [hnone]
        rw [hback]
        refine h.settled hidle hlt (Nat.le_refl _) (fun _ _ hother => hother)
          (fun other hother found hfound => ?_) fun _ hchange => by cases hchange
        have hne : other ≠ id := by
          rintro rfl
          rw [hnone] at hfound
          cases hfound
        refine (h.counted other hother found hfound).imp_left fun hmem => ?_
        split
        · simp [hmem, hne]
        · exact hmem
      · refine h.settled hidle hlt htakes.next (fun other hother hnone => ?_)
          (fun other hother now hnow => ?_) fun change hchange => ⟨hgone, fun took htook => ?_⟩
        · exact htakes.absent hother hnone
        · have hne : other ≠ id := by
            rintro rfl
            rw [hgone] at hnow
            cases hnow
          rcases htakes.made _ now hnow with ⟨held, hheld, halike⟩ | ⟨_, hfalse⟩
          · rcases h.counted other hother held hheld with hmem | hattempts
            · left
              split
              · simp [hmem, hne]
              · exact hmem
            · exact .inr (halike.attempts ▸ hattempts)
          · exact hfalse.elim
        · have hwithin := h.settling id settle halts rest
          replace hchange := (List.mem_filter.mp hchange).1
          unfold Sqlite.writesBack at hchange
          split at hchange
          · rw [hentry] at hchange
            exact (hwithin [] hphase rfl took htook).spares hchange
          · rename_i done
            rw [hentry] at hchange
            exact (hwithin done hphase rfl took htook).spares hchange
          · cases hchange
      · have hback : drain.store.writesBack id settle = [] := by
          unfold Sqlite.writesBack
          split
          · cases hstays
          · cases hstays
          · rfl
        rw [hback]
        refine h.settled hidle hlt (Nat.le_refl _) (fun other _ hnone => ?_)
          (fun other hother now hnow => ?_) fun _ hchange => by cases hchange
        · rw [Series.get_modify, hnone]
          split <;> rfl
        · rw [Series.get_modify] at hnow
          split at hnow
          · rename_i hsame
            obtain ⟨held, hheld, rfl⟩ := Option.map_eq_some_iff.mp hnow
            rw [hstays, Bool.false_or]
            by_cases hcounts : Sqlite.countsTry settle = true
            · exact .inr ((hretried held).counted hcounts)
            · rw [if_neg hcounts]
              refine (h.counted other hother held hheld).imp_right fun hattempts => ?_
              exact Nat.lt_of_lt_of_le hattempts (hretried held).attempts
          · rename_i hdiffers
            have hne : other ≠ id := fun hsame => hdiffers (by rw [hsame])
            refine (h.counted other hother now hnow).imp_left fun hmem => ?_
            split
            · simp [hmem, hne]
            · exact hmem
  · cases hstep

/-- What stands one-sided after an act is taken back is of an entry that is gone, and nothing the
server has. -/
theorem Sound.undoes {writer : Writer} {write : Write} (h : Sound drain)
    (hspares : drain.Spares writer write) {row : OutboxId × Change}
    (hrow : row ∈ drain.undoes write)
    (hstands : oneSided (write.apply drain.store) row.2 = true) :
    drain.store.outbox.get row.1.raw = none ∧ row.1.raw < drain.store.outbox.next ∧
      drain.phase.inFlight ≠ some row.1 ∧ ∀ took, (row.1, took) ∈ drain.took → ¬ took.covers row.2 := by
  unfold Drain.undoes at hrow
  split at hrow
  · rename_i act hasServer now written ids hmade
    obtain ⟨commit, hdecides, hwritten⟩ := Option.map_eq_some_iff.mp hmade
    have happly : Write.apply drain.store (.takeBack act hasServer now) = written := by
      simp only [Write.apply, hdecides, Option.map_some, hwritten]
    rw [happly] at hstands
    obtain ⟨⟨id, entry⟩, hentry, hput⟩ := List.mem_flatMap.mp hrow
    obtain ⟨change, hchange, rfl⟩ := List.mem_map.mp hput
    obtain ⟨hentry, hqueued⟩ := List.mem_filter.mp hentry
    -- Queued still, or sent.
    have hheld : (drain.store.outbox.get id.raw = some entry ∧
        written.outbox.get id.raw ≠ none) ∨ (id, entry) ∈ drain.begun := by
      rcases List.mem_append.mp hentry with hbegun | hqueue
      · exact .inr hbegun
      · obtain ⟨hin, hstays⟩ := List.mem_filter.mp hqueue
        obtain ⟨held, hheld, heq⟩ := List.mem_map.mp hin
        cases heq
        exact .inl ⟨Series.mem_rows.mp hheld, Option.isSome_iff_ne_none.mp hstays⟩
    by_cases hmay : drain.MayHave id change
    · exfalso
      have htells := hspares.tells act hasServer now rfl (by rw [hdecides]; simp) id
        ⟨entry, hqueued, hheld.imp_left And.left⟩ change hchange hmay
      rcases htells with htell | hwithdraws
      · rw [htell.told hdecides hwritten hchange] at hstands
        cases hstands
      · obtain ⟨hrow, hgone⟩ := hwithdraws.gone hdecides hwritten
        rcases hheld with ⟨_, hstays⟩ | hbegun
        · exact hstays hgone
        · obtain ⟨held, hheld, hnamed⟩ := Sqlite.untried_spec hwithdraws.untried
          have hsent : id ∈ drain.sent := List.mem_map.mpr ⟨_, hbegun, rfl⟩
          rcases h.counted id hsent held hheld with hopen | hattempts
          · exact hspares.named commit hdecides _ _ hrow id held (.inr hopen) hheld hnamed
          · rw [hnamed.1] at hattempts
            exact Nat.lt_irrefl 0 hattempts
    · unfold Drain.MayHave at hmay
      simp only [not_or, not_exists, not_and] at hmay
      obtain ⟨hnone, hidle, hspared⟩ := hmay
      have hbegun : (id, entry) ∈ drain.begun := hheld.resolve_left fun hqueue =>
        hnone entry hqueue.1
      exact ⟨Option.eq_none_iff_forall_ne_some.mpr hnone,
        h.sent id (List.mem_map.mpr ⟨_, hbegun, rfl⟩), hidle, hspared⟩
  · cases hrow

/-- What is taken back was never attempted: it is not in flight, and its tries would be counted. -/
theorem Sound.never_attempted {writer : Writer} {write : Write} (h : Sound drain)
    (hspares : drain.Spares writer write) {taken : OutboxId × List Change}
    (htaken : taken ∈ write.takes drain.store) :
    (write.apply drain.store).outbox.get taken.1.raw = none ∧
      taken.1.raw < (write.apply drain.store).outbox.next ∧
      taken.1 ∉ drain.sent ∧ drain.phase.inFlight ≠ some taken.1 := by
  obtain ⟨hgone, hbefore, hlt⟩ := takes_spec htaken
  refine ⟨hgone, hlt, ?_⟩
  rcases hbefore with hlater | ⟨commit, hdecides, forward, inverse, entry, hrow, hentry, hnamed⟩
  · refine ⟨fun hmem => ?_, fun hflight => ?_⟩
    · have hbelow := h.sent _ hmem
      omega
    · have hbelow := (h.held _ hflight).1
      omega
  · have hidle : ¬ drain.Busy taken.1 := fun hbusy =>
      hspares.named commit hdecides forward inverse hrow taken.1 entry hbusy hentry hnamed
    refine ⟨fun hmem => ?_, fun hflight => hidle (.inl hflight)⟩
    rcases h.counted _ hmem entry hentry with hopen | hattempts
    · exact hidle (.inr hopen)
    · rw [hnamed.1] at hattempts
      exact Nat.lt_irrefl 0 hattempts

/-- The entry in flight keeps its row at a write, or is remembered as replaced by a newer one. -/
theorem Drain.Spares.keeps {writer : Writer} {write : Write} {id : OutboxId} {entry : Entry}
    (hspares : drain.Spares writer write) (hflight : drain.phase.inFlight = some id)
    (hentry : drain.store.outbox.get id.raw = some entry) :
    (∃ now, (write.apply drain.store).outbox.get id.raw = some now) ∨
      writer = .here ∧ ⟨id.raw⟩ ∈ (write.apply drain.store).replaced := by
  rcases (apply_takes drain.store write).kept id.raw entry hentry with ⟨now, hnow, _⟩ | hout
  · exact .inl ⟨now, hnow⟩
  rcases hout with hdeletes | ⟨⟨work, hwork, hreplaces⟩, hmem⟩ |
    ⟨commit, hdecides, forward, inverse, hrow, hnamed⟩
  · exact absurd hdeletes (hspares.deletes id entry hflight hentry)
  · cases hwriter : writer with
    | here => exact .inr ⟨rfl, hmem⟩
    | elsewhere =>
      exact absurd hreplaces (hspares.replaces hwriter id entry hflight hentry work hwork)
  · exact absurd hnamed
      (hspares.named commit hdecides forward inverse hrow id entry (.inl hflight) hentry)

theorem sound_write {writer : Writer} {write : Write} (h : Sound drain)
    (hspares : drain.Spares writer write) (hstep : step drain (.write writer write) = some next) :
    Sound next := by
  simp only [step, Option.some.injEq] at hstep
  have htakes := apply_takes drain.store write
  -- What is written by another process is not remembered as replaced here.
  have houtbox : next.store.outbox = (write.apply drain.store).outbox := by
    subst hstep
    cases writer <;> rfl
  have hreplaced : ∀ id, (⟨id⟩ : OutboxId) ∈ (write.apply drain.store).replaced →
      writer = .here → ⟨id⟩ ∈ next.store.replaced := by
    rintro id hid rfl
    subst hstep
    exact hid
  have hkept : drain.store.replaced ⊆ next.store.replaced := by
    subst hstep
    cases writer with
    | here => exact htakes.replaced
    | elsewhere => exact fun _ hid => hid
  have hphase : next.phase = drain.phase := by
    subst hstep
    rfl
  have hnext : drain.store.outbox.next ≤ next.store.outbox.next := by
    rw [houtbox]
    exact htakes.next
  have habsent : ∀ id, id < drain.store.outbox.next → drain.store.outbox.get id = none →
      next.store.outbox.get id = none := by
    intro id hid hnone
    rw [houtbox]
    exact htakes.absent hid hnone
  have hsent : next.sent = drain.sent ∧ next.uncounted = drain.uncounted ∧
      next.took = drain.took ∧ next.lost = drain.lost := by
    subst hstep
    exact ⟨rfl, rfl, rfl, rfl⟩
  obtain ⟨hsent, huncounted, htook, hlost⟩ := hsent
  have hnever : ∀ taken ∈ write.takes drain.store,
      next.store.outbox.get taken.1.raw = none ∧ taken.1.raw < next.store.outbox.next ∧
        taken.1 ∉ next.sent ∧ next.phase.inFlight ≠ some taken.1 := by
    intro taken htaken
    rw [houtbox, hsent, hphase]
    exact h.never_attempted hspares htaken
  constructor
  case held =>
    intro id hflight
    rw [hphase] at hflight
    obtain ⟨hlt, hheld⟩ := h.held id hflight
    refine ⟨Nat.lt_of_lt_of_le hlt hnext, ?_⟩
    rcases hheld with ⟨entry, hentry⟩ | hmem
    · rcases hspares.keeps hflight hentry with ⟨now, hnow⟩ | ⟨hwriter, hmem⟩
      · exact .inl ⟨now, by rw [houtbox]; exact hnow⟩
      · exact .inr (hreplaced id.raw hmem hwriter)
    · exact .inr (hkept hmem)
  case sending =>
    intro id rest hsending
    rw [hsent]
    exact h.sending id rest (hphase ▸ hsending)
  case settling =>
    intro id settle halts rest done hsettling hleft took hmem
    exact h.settling id settle halts rest done (hphase ▸ hsettling) hleft took (htook ▸ hmem)
  case sent =>
    intro id hid
    exact Nat.lt_of_lt_of_le (h.sent id (hsent ▸ hid)) hnext
  case counted =>
    intro id hid now hnow
    rw [hsent] at hid
    rw [houtbox] at hnow
    rw [huncounted]
    rcases htakes.made _ now hnow with ⟨entry, hentry, halike⟩ | ⟨hlater, _⟩
    · exact (h.counted id hid entry hentry).imp_right fun hattempts => halike.attempts ▸ hattempts
    · have hbelow := h.sent id hid
      omega
  case took =>
    intro row hrow
    rw [hsent]
    exact h.took row (htook ▸ hrow)
  case withdrawn =>
    intro id hid
    have hsplit : id ∈ drain.withdrawn ++ (write.takes drain.store).map Prod.fst := by
      rw [← hstep] at hid
      exact hid
    rcases List.mem_append.mp hsplit with hold | hnew
    · obtain ⟨hnone, hlt, hunsent, hne⟩ := h.withdrawn id hold
      exact ⟨habsent _ hlt hnone, Nat.lt_of_lt_of_le hlt hnext, hsent ▸ hunsent, hphase ▸ hne⟩
    · obtain ⟨taken, htaken, rfl⟩ := List.mem_map.mp hnew
      exact hnever taken htaken
  case putBack =>
    intro row hrow
    have hsplit : row ∈ drain.putBack ++
        (((write.takes drain.store).flatMap fun taken =>
          taken.2.map fun change => (taken.1, change)) ++ drain.undoes write).filter
            fun row => oneSided (write.apply drain.store) row.2 := by
      rw [← hstep] at hrow
      exact hrow
    rcases List.mem_append.mp hsplit with hold | hnew
    · obtain ⟨hnone, hlt, hne, hspared⟩ := h.putBack row hold
      exact ⟨habsent _ hlt hnone, Nat.lt_of_lt_of_le hlt hnext, hphase ▸ hne,
        fun took hmem => hspared took (htook ▸ hmem)⟩
    · obtain ⟨hnew, hstands⟩ := List.mem_filter.mp hnew
      rcases List.mem_append.mp hnew with hnew | hnew
      · obtain ⟨taken, htaken, hmade⟩ := List.mem_flatMap.mp hnew
        obtain ⟨change, _, rfl⟩ := List.mem_map.mp hmade
        obtain ⟨hnone, hlt, hunsent, hne⟩ := hnever taken htaken
        refine ⟨hnone, hlt, hne, fun took hmem => absurd ?_ hunsent⟩
        rw [hsent]
        exact h.took (taken.1, took) (htook ▸ hmem)
      · obtain ⟨hnone, hlt, hne, hspared⟩ := h.undoes hspares hnew hstands
        exact ⟨habsent _ hlt hnone, Nat.lt_of_lt_of_le hlt hnext, hphase ▸ hne,
          fun took hmem => hspared took (htook ▸ hmem)⟩
  case lost =>
    rw [hlost]
    exact h.lost

theorem sound_step {event : Event} (h : Sound drain) (hclear : drain.Clear event)
    (hstep : step drain event = some next) : Sound next := by
  cases event with
  | look now =>
    simp only [step] at hstep
    split at hstep
    · cases hstep
      exact h.rest rfl
    · cases hstep
  | reach there => exact sound_reach h hclear hstep
  | answer outcome took => exact sound_answer h hclear hstep
  | settle now => exact sound_settle h hstep
  | write writer write => exact sound_write h hclear hstep

theorem sound_run {last : Drain} {events : List Event} (h : Sound drain)
    (hclear : ClearRun drain events) (hrun : run drain events = some last) : Sound last := by
  induction events generalizing drain with
  | nil =>
    cases hrun
    exact h
  | cons event rest ih =>
    rw [run] at hrun
    obtain ⟨next, hstep, hrest⟩ := Option.bind_eq_some_iff.mp hrun
    exact ih (sound_step h hclear.1 hstep) (hclear.2 next hstep) hrest

/-! ## The law of an entry in flight -/

/-- In every run that leaves what is in flight alone: no attempt is settled whose row is gone, no
entry taken back before it was sent was sent or is being sent, and no change is put back that the
server took for the entry. -/
theorem in_flight_kept (account : AccountId) (store : Sqlite) (events : List Event) (last : Drain)
    (hclear : ClearRun (.start account store) events)
    (hrun : run (.start account store) events = some last) :
    last.lost = [] ∧ (∀ id ∈ last.withdrawn, id ∉ last.sent) ∧
      ∀ row ∈ last.putBack, ∀ took, (row.1, took) ∈ last.took → ¬ took.covers row.2 := by
  have hsound := sound_run (sound_start account store) hclear hrun
  refine ⟨hsound.lost, fun id hid => ?_, fun row hrow => ?_⟩
  · exact (hsound.withdrawn id hid).2.2.1
  · exact (hsound.putBack row hrow).2.2.2

end Run

section Examples

/-- Text as in ASCII. -/
local instance asciiText : Unicode := .ascii

/-- An account with one message in its inbox. -/
def inboxed : Sqlite := Sqlite.empty.after Sqlite.arrival

/-- That message filed under a label: out of the inbox, and into the label's folder. -/
def filed : Applied :=
  let letter : Message := .plain ⟨1⟩ ⟨1⟩ .inbox
  let summary := ThreadSummary.deriveFrom ⟨1⟩ letter letter [letter] .inactive .unpinned .unmuted
    .inactive
  Op.apply (.file ⟨1⟩) (.threads [⟨1⟩]) ⟨summary, [⟨1⟩]⟩ [letter]
    ⟨.localOnly, .dropInbox, ⟨[]⟩⟩ ⟨1⟩ ⟨2⟩

def filing : Undo := ⟨some ⟨1⟩, ⟨0⟩, filed.forward, filed.inverse, filed.remote, none⟩

def filingQueued : List Event :=
  [.write .here (.patch ⟨⟨9⟩, [.labelUpsert ⟨⟨1⟩, ⟨0⟩, "Projects", none, .user⟩]⟩),
    .write .here (.commit (filed.intoCommit ⟨0⟩ 0 true))]

def takingBack : Event := .write .here (.takeBack filing true 0)

variable {drain : Drain}

theorem spares_idle {writer : Writer} {write : Write} (hidle : drain.phase.inFlight = none)
    (hnone : drain.uncounted = [])
    (htells : ∀ act hasServer now, write = .takeBack act hasServer now →
      write.decides drain.store ≠ none → ∀ id, drain.Asked act id →
        ∀ change ∈ act.inverse.changes, drain.MayHave id change →
          Tellable drain.store act hasServer ∨ Withdraws drain.store act id) :
    drain.Spares writer write where
  tells := htells
  named _ _ _ _ _ id _ hbusy := by
    rcases hbusy with hflight | hopen
    · rw [hidle] at hflight
      cases hflight
    · rw [hnone] at hopen
      cases hopen
  deletes _ _ hflight := by
    rw [hidle] at hflight
    cases hflight
  replaces _ _ _ hflight := by
    rw [hidle] at hflight
    cases hflight

/-- A filing taken back while it waits. -/
theorem in_flight_kept_waiting : ∃ last,
    run (.start ⟨0⟩ inboxed) (filingQueued ++ [takingBack]) = some last ∧
      last.withdrawn = [⟨1⟩] ∧ last.lost = [] ∧ (∀ id ∈ last.withdrawn, id ∉ last.sent) ∧
        ∀ row ∈ last.putBack, ∀ took, (row.1, took) ∈ last.took → ¬ took.covers row.2 := by
  have hlast : (run (.start ⟨0⟩ inboxed) (filingQueued ++ [takingBack])).map Drain.withdrawn =
      some [⟨1⟩] := by decide +kernel
  obtain ⟨last, hrun, hwithdrawn⟩ := Option.map_eq_some_iff.mp hlast
  refine ⟨last, hrun, hwithdrawn, in_flight_kept ⟨0⟩ inboxed _ last ?_ hrun⟩
  have hidle : (run (.start ⟨0⟩ inboxed) filingQueued).map (fun drain =>
      (drain.phase.inFlight, drain.uncounted, drain.sent)) = some (none, [], []) := by
    decide +kernel
  have hqueued : (run (.start ⟨0⟩ inboxed) filingQueued).map (fun drain =>
      (drain.store.outbox.ids, drain.store.untried filing.forward.id filing.inverse,
        withdrawable (waitingIn drain.store filing.account) filing)) =
      some ([1], some ⟨1⟩, true) := by decide +kernel
  obtain ⟨queued, hbefore, hfacts⟩ := Option.map_eq_some_iff.mp hqueued
  rw [hbefore] at hidle
  simp only [Option.map_some, Option.some.injEq, Prod.mk.injEq] at hidle hfacts
  obtain ⟨hidle, hnone, hunsent⟩ := hidle
  obtain ⟨hids, huntried, hwaits⟩ := hfacts
  refine ⟨spares_idle rfl rfl nofun, fun first hfirst => ⟨?_, fun second hsecond => ⟨?_, ?_⟩⟩⟩
  · cases hfirst
    exact spares_idle rfl rfl nofun
  · have hsame : second = queued := by
      have hrun : run (.start ⟨0⟩ inboxed) filingQueued = some second := by
        rw [filingQueued, run, hfirst, Option.bind_some, run, hsecond]
        rfl
      exact Option.some.inj (hrun.symm.trans hbefore)
    rw [hsame]
    refine spares_idle hidle hnone ?_
    rintro act hasServer now hact - id ⟨entry, hentry, hheld | hbegun⟩ change hchange hmay
    · cases hact
      have hmem : id.raw ∈ queued.store.outbox.ids := Series.mem_ids.mpr ⟨entry, hheld⟩
      rw [hids, List.mem_singleton] at hmem
      have hid : id = ⟨1⟩ := congrArg OutboxId.mk hmem
      exact .inr ⟨by unfold Memory.Sets; decide, hwaits, hid ▸ huntried⟩
    · have hsent : id ∈ queued.sent := List.mem_map.mpr ⟨_, hbegun, rfl⟩
      rw [hunsent] at hsent
      cases hsent
  · exact fun _ _ => trivial

instance (took : Took) (change : Change) : Decidable (took.covers change) :=
  match took with
  | .whole => .isTrue trivial
  | .part messages => inferInstanceAs (Decidable (∃ message ∈ messages, _))

/-- Where a run breaks the law: the attempts lost, the entries withdrawn though sent, and what the
server took and stands put back with nothing queued to tell it. -/
def breaches (store : Sqlite) (events : List Event) :
    Option (List OutboxId × List OutboxId × List (OutboxId × Change)) :=
  (run (.start ⟨0⟩ store) events).map fun last =>
    (last.lost, last.withdrawn.filter last.sent.contains,
      last.putBack.filter fun row => last.took.any fun each =>
        each.1 = row.1 && decide (each.2.covers row.2))

def sent : List Event := [.look 0, .reach []]

def accepted : List Event := [.answer .accepted .whole, .settle 0]

def takenBackInFlight : List Event := filingQueued ++ sent ++ [takingBack] ++ accepted

def takenBackAfter : List Event := filingQueued ++ sent ++ accepted ++ [takingBack]

def takenBackCutOff : List Event :=
  filingQueued ++ sent ++ [.answer .cancelled .whole, takingBack]

/-- The first attempt is refused for a time though the server moved the message, the second for
good. -/
def refusedTwice : List Event :=
  filingQueued ++ sent ++ [.answer (.refused "" .now []) (.part [⟨1⟩]), .settle 0,
    .look queueHorizon, .reach [], .answer (.refused "" (.fatal "") []) (.part []), .settle 0]

def discardedInFlight : List Event :=
  [.write .here (.patch ⟨⟨1⟩, [.draftUpsert ⟨⟨1⟩, ⟨0⟩, .editing, 0⟩]⟩),
    .write .here (.queue ⟨0⟩ (.send ⟨1⟩ ⟨1⟩ "" [] .unrequested) ⟨⟨2⟩, []⟩ 0)] ++ sent ++
    [.write .here (.patch ⟨⟨3⟩, [.draftDelete ⟨1⟩]⟩)] ++ accepted

def uploading : Write := .queue ⟨0⟩ (.keepDraft ⟨1⟩ ⟨⟨0⟩, "Drafts"⟩ "") ⟨⟨1⟩, []⟩ 0

def replacedElsewhere : List Event :=
  [.write .here uploading] ++ sent ++ [.write .elsewhere uploading] ++ accepted

/-- A conversation of two messages, one of them in Spam. -/
def scattered : Sqlite := Sqlite.empty.after (.ingest ⟨0⟩ { Ingest.silent ⟨⟨0⟩, "INBOX"⟩ with
  messages := [⟨.imap "INBOX" 1 1, .gmail 1, .plain ⟨1⟩ ⟨1⟩ .inbox⟩,
    ⟨.imap "Spam" 1 1, .gmail 2, .plain ⟨2⟩ ⟨1⟩ .spam⟩] })

def archived : Applied :=
  let first : Message := .plain ⟨1⟩ ⟨1⟩ .inbox
  let letters : List Message := [first, .plain ⟨2⟩ ⟨1⟩ .spam]
  let summary := ThreadSummary.deriveFrom ⟨1⟩ first first letters .inactive .unpinned .unmuted
    .inactive
  Op.apply .archive (.threads [⟨1⟩]) ⟨summary, [⟨1⟩, ⟨2⟩]⟩ letters ⟨.localOnly, .dropInbox, ⟨[]⟩⟩ ⟨1⟩
    ⟨2⟩

def archivedBack : List Event :=
  [.write .here (.commit (archived.intoCommit ⟨0⟩ 0 true))] ++ sent ++ accepted ++
    [.write .here (.takeBack ⟨some ⟨1⟩, ⟨0⟩, archived.forward, archived.inverse, archived.remote,
      none⟩ true 0)]

/-- Taken back while it is being sent, a filing has no row to settle, is withdrawn though sent, and
stays put back here alone though the server took it. Taken back once it has gone it stays so too,
as does the smaller part of a conversation archived from two folders, and what an attempt did that
a later one was refused. A pass cut off leaves the filing to be withdrawn though sent. A draft
discarded while its submission is under way has no row to settle, and nor has an upload that
another process replaces. -/
theorem taken_back_in_flight :
    breaches inboxed takenBackInFlight = some ([⟨1⟩], [⟨1⟩],
      (filing.inverse.changes ++ filing.inverse.changes).map fun change => (⟨1⟩, change)) ∧
    breaches inboxed takenBackAfter = some ([], [],
      filing.inverse.changes.map fun change => (⟨1⟩, change)) ∧
    breaches scattered archivedBack = some ([], [], [(⟨1⟩, .messageMailbox ⟨1⟩ .inbox)]) ∧
    breaches inboxed refusedTwice = some ([], [],
      filing.inverse.changes.map fun change => (⟨1⟩, change)) ∧
    (breaches inboxed takenBackCutOff).map (fun broken => broken.2.1) = some [⟨1⟩] ∧
    breaches inboxed discardedInFlight = some ([⟨1⟩], [], []) ∧
    breaches inboxed replacedElsewhere = some ([⟨1⟩], [], []) := by
  refine ⟨?_, ?_, ?_, ?_, ?_, ?_, ?_⟩ <;> decide +kernel

end Examples

end Mailo.Engine
