import Mailo.Core.Outgoing

/-!
# What the writes of a drain do to drafts and to submissions

A settlement takes out its own row and leaves every draft as it is; what is queued beside it takes
no submission out; queueing a send and taking one back write one draft and its submissions.
-/

namespace Mailo.Core

open Domain Library Store Runtime.Sending

/-- Whether a change writes a draft. -/
def ofDraft : Change → Bool
  | .draftUpsert _ | .draftDelete _ => true
  | _ => false

/-- An entry as the acts of the app queue it: its undo writes no draft, and a submission names no
message held here. -/
structure Plain (entry : Entry) : Prop where
  undone : ∀ change ∈ entry.undo.changes, ofDraft change = false
  alone : submitted entry.op ≠ none → entry.messages = []

def AllPlain (store : Sqlite) : Prop :=
  ∀ id entry, store.outbox.get id = some entry → Plain entry

/-- The draft whose submission a row is. -/
def rowOf (store : Sqlite) (id : OutboxId) : Option DraftId :=
  (store.outbox.get id.raw).bind fun entry => submitted entry.op

variable {draft : DraftId} {id : OutboxId} {store after : Sqlite} {op : ProtoOp}
  {account : AccountId} {forward : Option ChangeId} {intent : RemoteIntent} {now : DateTime}
  {queued : Option OutboxId} {undo : Patch}

theorem rowOf_eq_some :
    rowOf store id = some draft ↔
      ∃ entry, store.outbox.get id.raw = some entry ∧ submitted entry.op = some draft :=
  Option.bind_eq_some_iff

theorem submitted_eq_some :
    submitted op = some draft ↔ Sqlite.isSubmitOf draft op = true := by
  cases op <;> simp [submitted, Sqlite.isSubmitOf]

/-- A write that leaves every draft, and of the queue only takes rows out or counts their tries. -/
structure Calm (before after : Sqlite) : Prop where
  drafts : after.drafts = before.drafts
  rows : ∀ id now, after.outbox.get id = some now → ∃ entry, before.outbox.get id = some entry ∧
    now.op = entry.op ∧ now.undo = entry.undo ∧ now.messages = entry.messages

namespace Calm

variable {a b c : Sqlite}

theorem of_eq (hdrafts : b.drafts = a.drafts) (houtbox : b.outbox = a.outbox) : Calm a b :=
  ⟨hdrafts, fun _ now h => ⟨now, by rw [← houtbox]; exact h, rfl, rfl, rfl⟩⟩

theorem refl (a : Sqlite) : Calm a a := of_eq rfl rfl

theorem trans (hab : Calm a b) (hbc : Calm b c) : Calm a c where
  drafts := hbc.drafts.trans hab.drafts
  rows id now h := by
    obtain ⟨mid, hmid, hop, hundo, hmessages⟩ := hbc.rows id now h
    obtain ⟨entry, hentry, hop', hundo', hmessages'⟩ := hab.rows id mid hmid
    exact ⟨entry, hentry, hop.trans hop', hundo.trans hundo', hmessages.trans hmessages'⟩

theorem filter {p : Nat → Entry → Bool} (hdrafts : b.drafts = a.drafts)
    (houtbox : b.outbox = a.outbox.filter p) : Calm a b where
  drafts := hdrafts
  rows id now h := by
    rw [houtbox, Series.get_filter, Option.filter_eq_some_iff] at h
    exact ⟨now, h.1, rfl, rfl, rfl⟩

theorem mapRows {f : Nat → Entry → Entry} (hdrafts : b.drafts = a.drafts)
    (houtbox : b.outbox = a.outbox.mapRows f)
    (hf : ∀ id entry, (f id entry).op = entry.op ∧ (f id entry).undo = entry.undo ∧
      (f id entry).messages = entry.messages) : Calm a b where
  drafts := hdrafts
  rows id now h := by
    rw [houtbox, Series.get_mapRows, Option.map_eq_some_iff] at h
    obtain ⟨entry, hentry, rfl⟩ := h
    exact ⟨entry, hentry, hf id entry⟩

theorem plain (h : Calm a b) (hplain : AllPlain a) : AllPlain b := by
  intro id now hnow
  obtain ⟨entry, hentry, hop, hundo, hmessages⟩ := h.rows id now hnow
  have hbefore := hplain id entry hentry
  refine ⟨fun change hchange => hbefore.undone change (hundo ▸ hchange), fun hsubmits => ?_⟩
  rw [hmessages]
  exact hbefore.alone (by rw [← hop]; exact hsubmits)

end Calm

/-! ## Writing changes that are not a draft's -/

theorem deleteMessage_calm (store : Sqlite) (id : MessageId) :
    Calm store (store.deleteMessage id) :=
  .mapRows rfl (f := fun _ entry => entry.forget id) rfl fun _ _ => ⟨rfl, rfl, rfl⟩

theorem writeChange_calm {written : Sqlite} {change : Change} {thread : Option ThreadId}
    (hdraft : ofDraft change = false) (h : store.writeChange change = .ok (written, thread)) :
    Calm store written := by
  cases change with
  | messageUpsert m =>
    obtain ⟨stored, hstored, heq⟩ := map_ok h
    cases heq
    unfold Sqlite.upsertMessage at hstored
    split at hstored
    · cases hstored
    · dsimp only at hstored
      split at hstored <;> cases hstored
      exact .of_eq rfl rfl
  | messageDelete id =>
    cases h
    exact deleteMessage_calm store id
  | labelUpsert label =>
    obtain ⟨stored, hstored, heq⟩ := map_ok h
    cases heq
    unfold Sqlite.writeLabel at hstored
    dsimp only at hstored
    split at hstored <;> cases hstored
    exact .of_eq rfl rfl
  | messageLabel id label membership =>
    cases membership with
    | «in» =>
      simp only [Sqlite.writeChange] at h
      split at h
      · cases h
        exact .of_eq rfl rfl
      · cases h
    | out =>
      cases h
      exact .of_eq rfl rfl
  | draftUpsert _ | draftDelete _ => cases hdraft
  | messageRead _ _ | messageStar _ _ | messageFlag _ _ | messageMailbox _ _ | threadSnooze _ _
  | threadPin _ _ | threadMute _ _ | threadFollowUp _ _ =>
    cases h
    exact .of_eq rfl rfl

section Settle

variable [Unicode]

variable {store after : Sqlite} {id : OutboxId} {how : Settle} {now : DateTime}

variable {written : Sqlite} {other : OutboxId}

theorem refreshSummary_calm {thread : ThreadId} (h : store.refreshSummary thread = .ok written) :
    Calm store written := by
  rw [Sqlite.refreshSummary_eq h]
  exact .of_eq rfl rfl

theorem writeEach_calm {changes : List Change} (hdraft : ∀ change ∈ changes, ofDraft change = false)
    (h : store.writeEach changes = .ok written) : Calm store written := by
  induction changes generalizing store with
  | nil =>
    cases h
    exact .refl _
  | cons change rest ih =>
    have hrest := fun each heach => hdraft each (.tail _ heach)
    rw [Sqlite.writeEach] at h
    split at h
    · cases h
    · rename_i next hone
      exact (writeChange_calm (hdraft change (.head _)) hone).trans (ih hrest h)
    · rename_i next thread hone
      split at h
      · cases h
      · rename_i refreshed hrefresh
        exact ((writeChange_calm (hdraft change (.head _)) hone).trans
          (refreshSummary_calm hrefresh)).trans (ih hrest h)

theorem deleteUnaddressed_calm {messages : List MessageId}
    (h : store.deleteUnaddressed messages = .ok after) : Calm store after := by
  induction messages generalizing store with
  | nil =>
    cases h
    exact .refl _
  | cons message rest ih =>
    rw [Sqlite.deleteUnaddressed] at h
    split at h
    · split at h
      · exact (deleteMessage_calm store message).trans (ih h)
      · split at h
        · cases h
        · rename_i refreshed hrefresh
          exact ((deleteMessage_calm store message).trans (refreshSummary_calm hrefresh)).trans
            (ih h)
    · exact ih h

theorem forgetMailbox_calm {path : String} (h : store.forgetMailbox account path = .ok after) :
    Calm store after := by
  have hbefore : Calm store
      (({ store.forgetRemotesIn account path with
        syncState := (store.forgetRemotesIn account path).syncState.filter
          fun key _ => key ≠ (account, path) } : Sqlite).forgetDestroyedIn account path) :=
    .of_eq rfl rfl
  exact hbefore.trans (deleteUnaddressed_calm h)

omit [Unicode] in
theorem dropEntry_calm (store : Sqlite) (id : OutboxId) : Calm store (store.dropEntry id) :=
  .filter rfl (p := fun held _ => held != id.raw) rfl

omit [Unicode] in
theorem settleDestroyed_calm (store : Sqlite) (id : OutboxId) (answered : Answered) :
    Calm store (store.settleDestroyed id answered) := by
  rw [Sqlite.settleDestroyed_eq]
  exact .of_eq rfl rfl

theorem undoEntry_calm {done : List MessageId} (hplain : AllPlain store)
    (h : store.undoEntry id done = .ok after) : Calm store after := by
  unfold Sqlite.undoEntry at h
  split at h
  · cases h
  · rename_i entry hentry
    refine (dropEntry_calm store id).trans (writeEach_calm (fun change hchange => ?_) h)
    exact (hplain id.raw entry hentry).undone change (List.mem_filter.mp hchange).1

/-- A settlement writes no draft. -/
theorem settleIn_calm (hplain : AllPlain store) (h : store.settleIn id how now = .ok after) :
    Calm store after := by
  have hundone : ∀ done, (store.settleDestroyed id .refused).undoEntry id done = .ok after →
      Calm store after := fun done hdone =>
    (settleDestroyed_calm store id .refused).trans
      (undoEntry_calm ((settleDestroyed_calm store id .refused).plain hplain) hdone)
  have hretried : ∀ f : Entry → Entry, (∀ entry, (f entry).op = entry.op ∧
      (f entry).undo = entry.undo ∧ (f entry).messages = entry.messages) →
      Calm store { store with outbox := store.outbox.modify id.raw f } := fun f hf =>
    .mapRows rfl (f := fun held entry => if held = id.raw then f entry else entry) rfl
      fun held entry => by
        split
        · exact hf entry
        · exact ⟨rfl, rfl, rfl⟩
  unfold Sqlite.settleIn at h
  split at h
  · split at h <;> cases h
    exact .refl _
  · cases how with
    | ok =>
      dsimp only at h
      split at h
      · cases h
        exact (settleDestroyed_calm store id .done).trans (dropEntry_calm _ id)
      · obtain ⟨forgot, hforgot, rfl⟩ := map_ok h
        exact ((settleDestroyed_calm store id .done).trans (forgetMailbox_calm hforgot)).trans
          (dropEntry_calm _ id)
    | failed reason retry =>
      cases retry with
      | fatal text => exact hundone [] h
      | now | after _ | needsReauth | needsGrant =>
        cases h
        exact hretried _ fun _ => ⟨rfl, rfl, rfl⟩
    | inPart done => exact hundone done h

/-- A settlement of one row leaves the others. -/
theorem settleIn_other (hplain : AllPlain store) (h : store.settleIn id how now = .ok after)
    (hother : other ≠ id) (hrow : rowOf store other = some draft) :
    rowOf after other = some draft := by
  obtain ⟨entry, hentry, hdraft⟩ := rowOf_eq_some.mp hrow
  have hraw : other.raw ≠ id.raw := fun heq => hother (by cases other; cases id; cases heq; rfl)
  rcases Sqlite.settleIn_cases h with ⟨_, rfl⟩ | ⟨own, hown, ⟨_, htakes, _⟩ | ⟨_, f, hf, rfl⟩⟩
  · exact hrow
  · rcases htakes.kept other.raw entry hentry with ⟨held, hheld, halike⟩ | hgone | hdeletes
    · exact rowOf_eq_some.mpr ⟨held, hheld, by rw [← halike.op]; exact hdraft⟩
    · exact absurd hgone hraw
    · obtain ⟨deleted, hchange, _⟩ := hdeletes
      exact absurd ((hplain id.raw own hown).undone _ hchange) (by simp [ofDraft])
  · refine rowOf_eq_some.mpr ⟨entry, ?_, hdraft⟩
    simp only [Series.get_modify]
    rw [if_neg hraw]
    exact hentry

/-- A settlement that is no more than a try counted leaves its own row too. -/
theorem settleIn_stays (h : store.settleIn id how now = .ok after)
    (hstays : Sqlite.leavesQueue how = false) (hrow : rowOf store id = some draft) :
    rowOf after id = some draft := by
  obtain ⟨entry, hentry, hdraft⟩ := rowOf_eq_some.mp hrow
  rcases Sqlite.settleIn_cases h with ⟨hnone, _⟩ | ⟨own, hown, ⟨hleaves, _⟩ | ⟨_, f, hf, rfl⟩⟩
  · rw [hentry] at hnone
    cases hnone
  · rw [hstays] at hleaves
    cases hleaves
  · refine rowOf_eq_some.mpr ⟨f entry, ?_, by rw [← (hf entry).op]; exact hdraft⟩
    simp only [Series.get_modify]
    rw [if_pos trivial, hentry]
    rfl

/-- A number that has no row, and was given, has none after a settlement. -/
theorem settleIn_absent (h : store.settleIn id how now = .ok after)
    (hnone : store.outbox.get other.raw = none) (hbelow : other.raw < store.outbox.next) :
    after.outbox.get other.raw = none := by
  rcases Sqlite.settleIn_cases h with ⟨_, rfl⟩ | ⟨own, _, ⟨_, htakes, _⟩ | ⟨_, f, _, rfl⟩⟩
  · exact hnone
  · exact htakes.absent hbelow hnone
  · simp only [Series.get_modify]
    split <;> simp [hnone]

theorem settleIn_next (h : store.settleIn id how now = .ok after) :
    store.outbox.next ≤ after.outbox.next := by
  rcases Sqlite.settleIn_cases h with ⟨_, rfl⟩ | ⟨own, _, ⟨_, htakes, _⟩ | ⟨_, f, _, rfl⟩⟩
  · exact Nat.le_refl _
  · exact htakes.next
  · exact Nat.le_refl _

theorem settleIn_gone (h : store.settleIn id .ok now = .ok after) :
    after.outbox.get id.raw = none := by
  rcases Sqlite.settleIn_cases h with ⟨hnone, rfl⟩ | ⟨own, _, ⟨_, _, hgone⟩ | ⟨hstays, _⟩⟩
  · exact hnone
  · exact hgone
  · cases hstays

end Settle

theorem markDraft_outbox (store : Sqlite) (draft : DraftId) (state : SendState) (now : DateTime) :
    (markDraft store draft state now).outbox = store.outbox := by
  unfold markDraft Sqlite.setSendState
  split <;> rfl

variable {a b : Sqlite} {addresses : Lookup} {messages : List MessageId} {sent : ProtoOp}

theorem rowOf_congr (h : a.outbox = b.outbox) (id : OutboxId) :
    rowOf a id = rowOf b id := by
  rw [rowOf, rowOf, h]

@[simp] theorem rowOf_markDraft (store : Sqlite) (draft : DraftId) (state : SendState)
    (now : DateTime) (id : OutboxId) : rowOf (markDraft store draft state now) id = rowOf store id :=
  rowOf_congr (markDraft_outbox store draft state now) id

theorem markDraft_plain (hplain : AllPlain store) (draft : DraftId) (state : SendState)
    (now : DateTime) : AllPlain (markDraft store draft state now) := by
  intro id entry hentry
  rw [markDraft_outbox] at hentry
  exact hplain id entry hentry

/-- The draft marked says so, where it is held, and the others are as they were. -/
theorem markDraft_get (store : Sqlite) (draft other : DraftId) (state : SendState) (now : DateTime) :
    (markDraft store draft state now).drafts.get other =
      if other = draft then
        (store.drafts.get draft).map fun held => { held with state := state, updated := now }
      else store.drafts.get other := by
  unfold markDraft Sqlite.setSendState
  by_cases hheld : store.drafts.contains draft = true
  · rw [if_pos hheld]
    show (store.drafts.modify draft _).get other = _
    rw [Table.get_modify]
    by_cases hother : other = draft
    · rw [if_pos hother, if_pos hother, hother]
    · rw [if_neg hother, if_neg hother]
  · rw [if_neg hheld]
    show store.drafts.get other = _
    have hnone : store.drafts.get draft = none := by
      rw [Table.contains, Bool.not_eq_true, Option.isSome_eq_false_iff, Option.isNone_iff_eq_none] at hheld
      exact hheld
    split
    · rename_i hother
      rw [hother, hnone]
      rfl
    · rfl

/-- What queueing an intent writes: no draft, and of the rows only a new one, and those of a
draft's earlier uploads. -/
theorem queueIn_spec (h : store.queueIn account intent undo forward now = .ok (after, queued)) :
    after.drafts = store.drafts ∧
      (∀ id entry, after.outbox.get id = some entry → store.outbox.get id = some entry ∨
        (store.resolveIntent account intent = some entry.op ∧ entry.undo = undo ∧
          ((Store.messagesOf intent = []) → entry.messages = []))) ∧
      ∀ id, queued = some id → ∃ entry, after.outbox.get id.raw = some entry ∧
        store.resolveIntent account intent = some entry.op := by
  unfold Sqlite.queueIn at h
  split at h
  · cases h
    exact ⟨rfl, fun id entry hentry => .inl hentry, fun id hid => by cases hid⟩
  · rename_i op hop
    dsimp only at h
    split at h
    · cases h
      refine ⟨rfl, fun id entry hentry => ?_, fun id hid => ?_⟩
      · rw [Series.get_push] at hentry
        split at hentry
        · cases hentry
          refine .inr ⟨hop, rfl, fun hnone => ?_⟩
          show addressed intent _ = []
          rw [addressed, hnone]
          rfl
        · rw [Series.get_filter, Option.filter_eq_some_iff] at hentry
          exact .inl hentry.1
      · cases hid
        exact ⟨_, by rw [Series.get_push, if_pos]; rfl, hop⟩
    · cases h

theorem queueIn_row (h : store.queueIn account intent undo forward now = .ok (after, queued))
    (hrow : rowOf store id = some draft) : rowOf after id = some draft := by
  obtain ⟨entry, hentry, hdraft⟩ := rowOf_eq_some.mp hrow
  rcases (Sqlite.queueIn_takes h).kept id.raw entry hentry with ⟨held, hheld, halike⟩ | ⟨hout, _⟩
  · exact rowOf_eq_some.mpr ⟨held, hheld, by rw [← halike.op]; exact hdraft⟩
  · obtain ⟨_, _, _, hkeep⟩ := hout
    cases hop : entry.op <;> simp [hop, submitted, isKeepOf] at hdraft hkeep

theorem queueIn_plain (hplain : AllPlain store) (hundo : undo.changes = [])
    (hquiet : Store.messagesOf intent = [])
    (h : store.queueIn account intent undo forward now = .ok (after, queued)) : AllPlain after := by
  intro id entry hentry
  rcases (queueIn_spec h).2.1 id entry hentry with hheld | ⟨_, hsame, hmessages⟩
  · exact hplain id entry hheld
  · refine ⟨fun change hchange => ?_, fun _ => hmessages hquiet⟩
    rw [hsame, hundo] at hchange
    cases hchange

/-- A write beside the drafts that takes no submission out. -/
structure Aside (before after : Sqlite) : Prop where
  drafts : after.drafts = before.drafts
  row : ∀ id draft, rowOf before id = some draft → rowOf after id = some draft
  plain : AllPlain before → AllPlain after
  next : before.outbox.next ≤ after.outbox.next
  absent : ∀ id : OutboxId, id.raw < before.outbox.next → before.outbox.get id.raw = none →
    after.outbox.get id.raw = none

theorem Aside.refl (store : Sqlite) : Aside store store :=
  ⟨rfl, fun _ _ h => h, fun h => h, Nat.le_refl _, fun _ _ h => h⟩

theorem queueBeside_aside (store : Sqlite) (account : AccountId) (now : DateTime)
    (hquiet : Store.messagesOf intent = []) :
    Aside store (queueBeside store account now intent) := by
  unfold queueBeside
  split
  · rename_i queued id h
    exact ⟨(queueIn_spec h).1, fun id draft => queueIn_row h,
      fun hplain => queueIn_plain hplain rfl hquiet h, (Sqlite.queueIn_takes h).next,
      fun id hbelow hnone => (Sqlite.queueIn_takes h).absent hbelow hnone⟩
  · exact .refl store

theorem keepSentCopy_aside (store : Sqlite) (account : AccountId) (now : DateTime)
    (beside : Beside) : Aside store (keepSentCopy store account now beside) := by
  unfold keepSentCopy
  split
  · exact queueBeside_aside _ _ _ rfl
  · exact .refl store

theorem dropDraftCopies_aside (store : Sqlite) (now : DateTime) (beside : Beside) (id : DraftId) :
    Aside store (dropDraftCopies store now beside id) := by
  unfold dropDraftCopies
  split
  · exact queueBeside_aside _ _ _ rfl
  · exact .refl store

/-- A submission is sent at its turn: it names no message that it could wait for. -/
theorem dispatch_submission {entry : Entry} {found : Dispatch}
    (hentry : store.outbox.get id.raw = some entry) (hmessages : entry.messages = [])
    (h : store.dispatch id = .ok found) : found = .send entry.op := by
  unfold Sqlite.dispatch at h
  rw [hentry] at h
  simp only [inQueue, hmessages] at h
  cases hknown : known ((store.earlier entry.account id).flatten ++ [])
      (store.addressesNow entry.account) with
  | error error =>
    rw [hknown] at h
    cases h
  | ok places =>
    rw [hknown] at h
    cases h
    rfl

theorem submitted_readdress (op : ProtoOp) (remotes : List RemoteRef) :
    submitted (readdress op remotes) = submitted op := by
  cases op <;> rfl

theorem ownFrom_submits {remotes : List RemoteRef} {held waits : Bool}
    (h : ownFrom op addresses remotes held waits messages = .ok (.send sent)) :
    submitted sent = submitted op := by
  induction messages generalizing remotes held waits with
  | nil =>
    unfold ownFrom at h
    split at h
    · cases h
    · split at h
      · cases h
      · cases h
        exact submitted_readdress op remotes
  | cons message rest ih =>
    unfold ownFrom at h
    split at h
    · cases h
    · exact ih h
    · split at h
      · cases h
      · exact ih h
    · split at h <;> exact ih h

theorem own_submits (h : own op messages addresses = .ok (.send sent)) :
    submitted sent = submitted op := by
  unfold own at h
  split at h
  · cases h
    rfl
  · exact ownFrom_submits h

/-- What is attempted submits what its row says. -/
theorem dispatch_submits (h : store.dispatch id = .ok (.send op)) :
    (∃ entry, store.outbox.get id.raw = some entry) ∧ submitted op = rowOf store id := by
  unfold Sqlite.dispatch at h
  split at h
  · cases h
  · rename_i entry hentry
    refine ⟨⟨entry, hentry⟩, ?_⟩
    rw [rowOf, hentry]
    unfold inQueue at h
    cases hknown : known ((store.earlier entry.account id).flatten ++ entry.messages)
        (store.addressesNow entry.account) with
    | error error =>
      rw [hknown] at h
      cases h
    | ok places =>
      rw [hknown] at h
      dsimp only [Except.bind] at h
      split at h
      · exact own_submits h
      · split at h
        · cases h
        · exact own_submits h

/-! ## Queueing a send, and taking one back -/

/-- A write of one draft and of its submissions. -/
structure Sends (draft : DraftId) (before after : Sqlite) : Prop where
  drafts : ∀ other, other ≠ draft → after.drafts.get other = before.drafts.get other
  row : ∀ id other, other ≠ draft → rowOf before id = some other → rowOf after id = some other
  plain : AllPlain before → AllPlain after

theorem Sends.trans {c : Sqlite} (hab : Sends draft a b) (hbc : Sends draft b c) :
    Sends draft a c :=
  ⟨fun other hother => (hbc.drafts other hother).trans (hab.drafts other hother),
    fun id other hother hrow => hbc.row id other hother (hab.row id other hother hrow),
    fun hplain => hbc.plain (hab.plain hplain)⟩

/-- The draft written as `back`, its submissions gone. -/
def putBack (store : Sqlite) (back : Draft) : Sqlite :=
  { store.deleteDraft back.id with drafts := (store.drafts.erase back.id).set back.id back }

theorem putBack_sends (store : Sqlite) (back : Draft) : Sends back.id store (putBack store back) where
  drafts other hother := by
    show ((store.drafts.erase back.id).set back.id back).get other = _
    rw [Table.get_set, if_neg hother, Table.get_erase, if_neg hother]
  row id other hother hrow := by
    obtain ⟨entry, hentry, hdraft⟩ := rowOf_eq_some.mp hrow
    refine rowOf_eq_some.mpr ⟨entry, ?_, hdraft⟩
    show (store.outbox.filter _).get id.raw = _
    rw [Series.get_filter, hentry, Option.filter_some, if_pos]
    rw [Bool.not_eq_true', Bool.eq_false_iff]
    intro hsubmit
    exact hother (Option.some.inj (hdraft.symm.trans (submitted_eq_some.mpr hsubmit)))
  plain hplain id entry hentry := by
    have hheld : (store.outbox.filter _).get id = some entry := hentry
    rw [Series.get_filter, Option.filter_eq_some_iff] at hheld
    exact hplain id entry hheld.1

theorem putBack_get (store : Sqlite) (back : Draft) :
    (putBack store back).drafts.get back.id = some back := by
  show ((store.drafts.erase back.id).set back.id back).get back.id = _
  rw [Table.get_set, if_pos rfl]

theorem markDraft_sends (store : Sqlite) (draft : DraftId) (state : SendState) (now : DateTime) :
    Sends draft store (markDraft store draft state now) where
  drafts other hother := by rw [markDraft_get, if_neg hother]
  row id other _ hrow := by rw [rowOf_markDraft]; exact hrow
  plain hplain := markDraft_plain hplain draft state now

theorem Aside.sends {before : Sqlite} (h : Aside before after) (draft : DraftId) :
    Sends draft before after :=
  ⟨fun _ _ => by rw [h.drafts], fun id other _ hrow => h.row id other hrow, h.plain⟩

section Commits

variable [Unicode]

variable {now : DateTime} {post : Posting} {store done : Sqlite} {ids : SendIds}
  {made : List (Option OutboxId)}

omit [Unicode] in
theorem queueAll_submission {queued : ChangeId} {ids : List (Option OutboxId)}
    (h : store.queueAll account now .afterForward [submission draft post queued] =
      .ok (after, ids)) :
    Aside store after ∧ ∃ id, rowOf after id = some draft := by
  rw [Sqlite.queueAll,
    if_pos (show (submission draft post queued).resolve = .afterForward from rfl)] at h
  split at h
  · cases h
  · rename_i next hone
    rw [if_pos (show (submission draft post queued).unplaced = .rollback from rfl)] at h
    cases h
  · rename_i written id hone
    cases h
    refine ⟨⟨(queueIn_spec hone).1, fun id draft => queueIn_row hone,
      fun hplain => queueIn_plain hplain rfl rfl hone, (Sqlite.queueIn_takes hone).next,
      fun id hbelow hnone => (Sqlite.queueIn_takes hone).absent hbelow hnone⟩, id, ?_⟩
    obtain ⟨entry, hentry, hop⟩ := (queueIn_spec hone).2.2 id rfl
    refine rowOf_eq_some.mpr ⟨entry, hentry, ?_⟩
    have hsame : ProtoOp.submit draft post.raw post.mailFrom post.rcptTo post.delivery = entry.op :=
      Option.some.inj hop
    rw [← hsame]
    rfl

variable {commit : Commit} {leaves : Leaves} {read : Draft}

theorem commitSteps_pieces {ids : List (Option OutboxId)}
    (hlater : ∀ work ∈ commit.queue, work.resolve = .afterForward)
    (h : store.commitSteps commit = .ok (done, ids)) :
    store.expectingAll commit.rows = .ok () ∧
      ∃ written queued made, store.writePatch commit.forward = .ok written ∧
        written.queueAll commit.account commit.now .afterForward commit.queue = .ok (queued, made) ∧
        queued.writeRows commit.now commit.rows = .ok done := by
  have hnothing : ∀ work : List Commit.Queue, (∀ each ∈ work, each.resolve = .afterForward) →
      ∃ made, store.queueAll commit.account commit.now .beforeForward work = .ok (store, made) := by
    intro work hwork
    induction work with
    | nil => exact ⟨[], rfl⟩
    | cons each rest ih =>
      obtain ⟨made, hmade⟩ := ih fun other hother => hwork other (.tail _ hother)
      refine ⟨none :: made, ?_⟩
      rw [Sqlite.queueAll, if_neg (by rw [hwork each List.mem_cons_self]; exact fun h => by cases h),
        hmade]
  obtain ⟨made, hmade⟩ := hnothing commit.queue hlater
  unfold Sqlite.commitSteps at h
  rw [hmade] at h
  split at h
  · cases h
  · rename_i hexpect
    dsimp only at h
    split at h
    · cases h
    · rename_i written hwritten
      split at h
      · cases h
      · rename_i queued after hqueued
        split at h
        · cases h
        · rename_i hdone
          cases h
          exact ⟨hexpect, written, queued, after, hwritten, hqueued, hdone⟩

omit [Unicode] in
theorem frozen_later (read : Draft) (post : Posting) (leaves : Leaves) (now : DateTime)
    (ids : SendIds) : ∀ work ∈ (frozen read post leaves now ids).queue,
      work.resolve = .afterForward := by
  intro work hwork
  cases List.mem_singleton.mp hwork
  rfl

theorem frozen_forward {written : Sqlite}
    (h : store.writePatch (frozen read post leaves now ids).forward = .ok written) :
    Sends read.id store written := by
  cases hstate : read.state with
  | queued | scheduled _ | failed _ _ =>
    simp only [frozen, pulledBack, hstate] at h
    cases h
    exact putBack_sends store { read with state := .editing, updated := now }
  | editing | sending | sent _ _ =>
    simp only [frozen, pulledBack, hstate] at h
    cases h
    exact (Aside.refl store).sends read.id

/-- A send queued leaves its draft with a submission in the outbox. -/
theorem frozen_sends (h : store.commitSteps (frozen read post leaves now ids) = .ok (done, made)) :
    Sends read.id store done ∧ ∃ id, rowOf done id = some read.id := by
  obtain ⟨_, written, queued, after, hwritten, hqueued, hrows⟩ :=
    commitSteps_pieces (frozen_later read post leaves now ids) h
  obtain ⟨haside, id, hrow⟩ := queueAll_submission hqueued
  have hdone : done = markDraft queued read.id leaves.state now := by
    simp only [frozen, Sqlite.writeRows, Sqlite.writeRow] at hrows
    unfold markDraft
    split at hrows
    · cases hrows
    · rename_i marked hmarked
      cases hrows
      rw [hmarked]
      rfl
  subst hdone
  refine ⟨((frozen_forward hwritten).trans (haside.sends read.id)).trans
    (markDraft_sends _ _ _ _), id, ?_⟩
  rw [rowOf_markDraft]
  exact hrow

theorem unattached_aside {id : DraftId} {leaves : DateTime}
    (h : store.commitSteps (unattached account id post leaves ids) = .ok (done, made)) :
    Aside store done := by
  have hlater : ∀ work ∈ (unattached account id post leaves ids).queue,
      work.resolve = .afterForward := by
    intro work hwork
    cases List.mem_singleton.mp hwork
    rfl
  obtain ⟨_, written, queued, after, hwritten, hqueued, hrows⟩ := commitSteps_pieces hlater h
  cases hwritten
  cases hrows
  exact (queueAll_submission hqueued).1

/-- A send taken back leaves its draft as it was written. -/
theorem unsend_sends {stored : Draft} {id : ChangeId} (hunsend : unsend stored now id = .ok commit)
    (h : store.commitSteps commit = .ok (done, made)) :
    Sends stored.id store done ∧
      done.drafts.get stored.id = some { stored with state := .editing, updated := now } := by
  have hmade : commit =
      { account := stored.account
        now := now
        forward :=
          ⟨id, [.draftDelete stored.id,
            .draftUpsert { stored with state := .editing, updated := now }]⟩
        queue := []
        rows := [.expect stored.id stored.updated stored.state] } := by
    unfold unsend at hunsend
    split at hunsend <;> cases hunsend <;> rfl
  subst hmade
  obtain ⟨_, written, queued, after, hwritten, hqueued, hrows⟩ :=
    commitSteps_pieces (fun work hwork => by cases hwork) h
  cases hwritten
  cases hqueued
  cases hrows
  exact ⟨putBack_sends store { stored with state := .editing, updated := now },
    putBack_get store { stored with state := .editing, updated := now }⟩

end Commits

end Mailo.Core
