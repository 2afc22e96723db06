import Mailo.Store.Sqlite.Queueing

/-!
# Which queued entries a write takes out

A patch takes out the submissions of the drafts it deletes, queueing takes out the uploads of a
draft it replaces, a settlement takes out its own entry, and a commit what it withdraws. Every
other entry stays as it was, and a number taken out is not given again.
-/

namespace Mailo.Store

open Domain Library

/-- One entry of the queue, whatever it still holds pending. -/
structure Entry.Alike (a b : Entry) : Prop where
  account : a.account = b.account
  op : a.op = b.op
  undo : a.undo = b.undo
  forward : a.forward = b.forward
  attempts : a.attempts = b.attempts

theorem Entry.Alike.refl (a : Entry) : a.Alike a := ⟨rfl, rfl, rfl, rfl, rfl⟩

variable {a b : Entry} {writes : Change → Prop}

theorem Entry.Alike.trans {c : Entry} (hab : a.Alike b) (hbc : b.Alike c) : a.Alike c :=
  ⟨hab.account.trans hbc.account, hab.op.trans hbc.op, hab.undo.trans hbc.undo,
    hab.forward.trans hbc.forward, hab.attempts.trans hbc.attempts⟩

/-- A submission of a draft that is deleted by one of the changes that `writes` says. -/
def Deletes (writes : Change → Prop) (entry : Entry) : Prop :=
  ∃ draft, writes (.draftDelete draft) ∧ Sqlite.isSubmitOf draft entry.op = true

def Replaces (account : AccountId) (intent : RemoteIntent) (entry : Entry) : Prop :=
  ∃ draft, draftCopyOf intent = some draft ∧ entry.account = account ∧
    isKeepOf draft entry.op = true

/-- An entry not tried that a withdrawal names. -/
def Named (forward : ChangeId) (inverse : Patch) (entry : Entry) : Prop :=
  entry.attempts = 0 ∧
    (entry.forward = some forward ∨ (entry.forward = none ∧ entry.undo = inverse))

theorem Deletes.alike (hab : a.Alike b) (h : Deletes writes b) : Deletes writes a := by
  obtain ⟨draft, hdraft, hsubmit⟩ := h
  exact ⟨draft, hdraft, by rw [hab.op]; exact hsubmit⟩

theorem Deletes.mono {more : Change → Prop} {entry : Entry} (h : Deletes writes entry)
    (hsub : ∀ change, writes change → more change) : Deletes more entry := by
  obtain ⟨draft, hdraft, hsubmit⟩ := h
  exact ⟨draft, hsub _ hdraft, hsubmit⟩

theorem Replaces.alike {account : AccountId} {intent : RemoteIntent} (hab : a.Alike b)
    (h : Replaces account intent b) : Replaces account intent a := by
  obtain ⟨draft, hdraft, haccount, hkeep⟩ := h
  exact ⟨draft, hdraft, hab.account.trans haccount, by rw [hab.op]; exact hkeep⟩

theorem Named.alike {forward : ChangeId} {inverse : Patch} (hab : a.Alike b)
    (h : Named forward inverse b) : Named forward inverse a := by
  obtain ⟨hattempts, hnamed⟩ := h
  exact ⟨hab.attempts.trans hattempts, by rw [hab.forward, hab.undo]; exact hnamed⟩

namespace Sqlite

/-- What a write takes out of the queue: only entries that `out` says, and what it puts in stands
behind everything queued before and is as `new` says. -/
structure Takes (before after : Sqlite) (out : Nat → Entry → Prop) (new : Entry → Prop) : Prop where
  kept : ∀ id entry, before.outbox.get id = some entry →
    (∃ now, after.outbox.get id = some now ∧ entry.Alike now) ∨ out id entry
  made : ∀ id now, after.outbox.get id = some now →
    (∃ entry, before.outbox.get id = some entry ∧ entry.Alike now) ∨
      (before.outbox.next ≤ id ∧ new now)
  next : before.outbox.next ≤ after.outbox.next
  replaced : before.replaced ⊆ after.replaced

namespace Takes

variable {a b c : Sqlite} {out out' : Nat → Entry → Prop} {new new' : Entry → Prop}

theorem of_eq (houtbox : b.outbox = a.outbox) (hreplaced : b.replaced = a.replaced) :
    Takes a b out new where
  kept id entry h := .inl ⟨entry, by rw [houtbox]; exact h, .refl entry⟩
  made id now h := .inl ⟨now, by rw [← houtbox]; exact h, .refl now⟩
  next := by rw [houtbox]
  replaced := by rw [hreplaced]; exact fun _ h => h

theorem refl (a : Sqlite) : Takes a a out new := of_eq rfl rfl

theorem mono (h : Takes a b out new) (hout : ∀ id entry, out id entry → out' id entry)
    (hnew : ∀ entry, new entry → new' entry) : Takes a b out' new' where
  kept id entry hget := (h.kept id entry hget).imp_right (hout id entry)
  made id now hget := (h.made id now hget).imp_right fun hmade => ⟨hmade.1, hnew now hmade.2⟩
  next := h.next
  replaced := h.replaced

/-- A number that is not in the queue is not given again. -/
theorem absent (h : Takes a b out new) {id : Nat} (hid : id < a.outbox.next)
    (hnone : a.outbox.get id = none) : b.outbox.get id = none := by
  cases hget : b.outbox.get id with
  | none => rfl
  | some now =>
    rcases h.made id now hget with ⟨entry, hentry, _⟩ | ⟨hlater, _⟩
    · rw [hnone] at hentry
      cases hentry
    · omega

theorem trans (hab : Takes a b out new) (hbc : Takes b c out new)
    (hout : ∀ id x y, x.Alike y → out id y → out id x)
    (hnew : ∀ x y, x.Alike y → new x → new y) : Takes a c out new where
  kept id entry hget := by
    rcases hab.kept id entry hget with ⟨mid, hmid, halike⟩ | hgone
    · rcases hbc.kept id mid hmid with ⟨now, hnow, halike'⟩ | hgone
      · exact .inl ⟨now, hnow, halike.trans halike'⟩
      · exact .inr (hout id entry mid halike hgone)
    · exact .inr hgone
  made id now hget := by
    rcases hbc.made id now hget with ⟨mid, hmid, halike⟩ | ⟨hlater, hmade⟩
    · rcases hab.made id mid hmid with ⟨entry, hentry, halike'⟩ | ⟨hlater, hmade⟩
      · exact .inl ⟨entry, hentry, halike'.trans halike⟩
      · exact .inr ⟨hlater, hnew mid now halike hmade⟩
    · exact .inr ⟨Nat.le_trans hab.next hlater, hmade⟩
  next := Nat.le_trans hab.next hbc.next
  replaced := fun _ hid => hbc.replaced (hab.replaced hid)

end Takes

/-! ## Patches -/

theorem takes_filter {before after : Sqlite} {p : Nat → Entry → Bool}
    {out : Nat → Entry → Prop} {new : Entry → Prop}
    (houtbox : after.outbox = before.outbox.filter p)
    (hreplaced : after.replaced = before.replaced)
    (hout : ∀ id entry, before.outbox.get id = some entry → p id entry = false → out id entry) :
    Takes before after out new where
  kept id entry hget := by
    cases hp : p id entry with
    | true => exact .inl ⟨entry, by rw [houtbox, Series.get_filter, hget]; simp [hp], .refl entry⟩
    | false => exact .inr (hout id entry hget hp)
  made id now hget := by
    rw [houtbox, Series.get_filter, Option.filter_eq_some_iff] at hget
    exact .inl ⟨now, hget.1, .refl now⟩
  next := by
    rw [houtbox]
    exact Nat.le_refl _
  replaced := by rw [hreplaced]; exact fun _ h => h

variable {after store : Sqlite}

theorem takes_mapRows {before : Sqlite} {f : Nat → Entry → Entry} {out : Nat → Entry → Prop}
    {new : Entry → Prop} (houtbox : after.outbox = before.outbox.mapRows f)
    (hreplaced : after.replaced = before.replaced)
    (hf : ∀ id entry, before.outbox.get id = some entry → entry.Alike (f id entry)) :
    Takes before after out new where
  kept id entry hget := .inl ⟨f id entry, by rw [houtbox, Series.get_mapRows, hget]; rfl,
    hf id entry hget⟩
  made id now hget := by
    rw [houtbox, Series.get_mapRows, Option.map_eq_some_iff] at hget
    obtain ⟨entry, hentry, rfl⟩ := hget
    exact .inl ⟨entry, hentry, hf id entry hentry⟩
  next := by
    rw [houtbox]
    exact Nat.le_refl _
  replaced := by rw [hreplaced]; exact fun _ h => h

variable {new : Entry → Prop}

variable {written : Sqlite} {account : AccountId} {now : DateTime} {undo : Patch}

theorem writeChange_takes {change : Change} {thread : Option ThreadId}
    (h : store.writeChange change = .ok (written, thread)) :
    Takes store written (fun _ entry => Deletes (· ∈ [change]) entry) new := by
  cases change with
  | messageUpsert m =>
    obtain ⟨stored, hstored, heq⟩ := map_ok h
    cases heq
    unfold upsertMessage at hstored
    split at hstored
    · cases hstored
    · dsimp only at hstored
      split at hstored <;> cases hstored
      exact .of_eq rfl rfl
  | messageDelete id =>
    cases h
    have houtbox : (store.deleteMessage id).outbox =
        store.outbox.mapRows fun _ entry => entry.forget id := rfl
    exact takes_mapRows houtbox rfl fun _ _ _ => ⟨rfl, rfl, rfl, rfl, rfl⟩
  | labelUpsert label =>
    obtain ⟨stored, hstored, heq⟩ := map_ok h
    cases heq
    unfold writeLabel at hstored
    dsimp only at hstored
    split at hstored <;> cases hstored
    exact .of_eq rfl rfl
  | draftDelete draft =>
    cases h
    have houtbox : (store.deleteDraft draft).outbox =
        store.outbox.filter fun _ entry => !isSubmitOf draft entry.op := rfl
    refine takes_filter houtbox rfl fun id entry _ hsubmit =>
      ⟨draft, List.mem_singleton_self _, ?_⟩
    simpa using hsubmit
  | messageLabel id label membership =>
    cases membership with
    | «in» =>
      simp only [writeChange] at h
      split at h
      · cases h
        exact .of_eq rfl rfl
      · cases h
    | out =>
      cases h
      exact .of_eq rfl rfl
  | messageRead _ _ | messageStar _ _ | messageFlag _ _ | messageMailbox _ _ | threadSnooze _ _
  | threadPin _ _ | threadMute _ _ | threadFollowUp _ _ | draftUpsert _ =>
    cases h
    exact .of_eq rfl rfl

/-- Two writes of changes, one after the other. -/
theorem Takes.changes {a b c : Sqlite} {changes more : List Change}
    (hab : Takes a b (fun _ entry => Deletes (· ∈ changes) entry) fun _ => False)
    (hbc : Takes b c (fun _ entry => Deletes (· ∈ more) entry) fun _ => False) :
    Takes a c (fun _ entry => Deletes (· ∈ changes ++ more) entry) fun _ => False := by
  have hleft := hab.mono (fun _ _ h => h.mono fun _ => List.mem_append_left more)
    (fun _ h => h)
  have hright := hbc.mono (fun _ _ h => h.mono fun _ => List.mem_append_right changes)
    (fun _ h => h)
  exact hleft.trans hright (fun _ _ _ halike h => h.alike halike) fun _ _ _ h => h

theorem writeChanges_takes {touched threads : List ThreadId} {changes : List Change}
    (h : store.writeChanges touched changes = .ok (written, threads)) :
    Takes store written (fun _ entry => Deletes (· ∈ changes) entry) fun _ => False := by
  induction changes generalizing store touched with
  | nil =>
    cases h
    exact .refl _
  | cons change rest ih =>
    obtain ⟨next, thread, hone, hrest⟩ := writeChanges_cons h
    exact (writeChange_takes hone).changes (ih hrest)

section Summaries

variable [Unicode]

variable {store written : Sqlite}

theorem refreshSummary_takes {thread : ThreadId} {out : Nat → Entry → Prop}
    (h : store.refreshSummary thread = .ok written) :
    Takes store written out new := by
  rw [refreshSummary_eq h]
  exact .of_eq rfl rfl

theorem writePatch_takes {patch : Patch} (h : store.writePatch patch = .ok written) :
    Takes store written (fun _ entry => Deletes (· ∈ patch.changes) entry) fun _ => False := by
  unfold writePatch at h
  split at h
  · cases h
  · rename_i next touched hchanges
    rw [refreshAll_eq h]
    exact (writeChanges_takes hchanges).trans (.of_eq rfl rfl)
      (fun _ _ _ halike hdeletes => hdeletes.alike halike) fun _ _ _ hnew => hnew

theorem writeEach_takes {changes : List Change} (h : store.writeEach changes = .ok written) :
    Takes store written (fun _ entry => Deletes (· ∈ changes) entry) fun _ => False := by
  induction changes generalizing store with
  | nil =>
    cases h
    exact .refl _
  | cons change rest ih =>
    rw [writeEach] at h
    split at h
    · cases h
    · rename_i next hone
      exact (writeChange_takes hone).changes (ih h)
    · rename_i next thread hone
      split at h
      · cases h
      · rename_i refreshed hrefresh
        have hwritten : Takes store refreshed (fun _ entry => Deletes (· ∈ [change]) entry)
            fun _ => False :=
          (writeChange_takes hone).trans (refreshSummary_takes hrefresh)
            (fun _ _ _ halike h => h.alike halike) fun _ _ _ h => h
        exact hwritten.changes (ih h)

end Summaries

/-! ## Queueing -/

theorem queueIn_takes {intent : RemoteIntent} {forward : Option ChangeId} {queued : Option OutboxId}
    (h : store.queueIn account intent undo forward now = .ok (after, queued)) :
    Takes store after (fun id entry => Replaces account intent entry ∧ ⟨id⟩ ∈ after.replaced)
      fun entry => entry.undo = undo := by
  unfold queueIn at h
  split at h
  · cases h
    exact .refl _
  · rename_i op hop
    dsimp only at h
    split at h
    · cases h
      let fresh : Nat → Entry → Bool := fun held _ =>
        !((store.staleCopies account intent).map Prod.fst).contains held
      have hfilter : Takes store { store with outbox := store.outbox.filter fresh }
          (fun id entry => Replaces account intent entry ∧ OutboxId.mk id ∈
            store.replaced ++ ((store.staleCopies account intent).map Prod.fst).map OutboxId.mk)
          fun entry => entry.undo = undo := by
        refine @takes_filter _ _ fresh _ _ rfl rfl fun id entry hget hstale => ?_
        rw [Bool.not_eq_false', List.contains_iff_mem] at hstale
        refine ⟨?_, List.mem_append_right _ (List.mem_map_of_mem hstale)⟩
        obtain ⟨row, hrow, rfl⟩ := List.mem_map.mp hstale
        unfold staleCopies at hrow
        split at hrow
        · cases hrow
        · rename_i draft hdraft
          rw [List.mem_filter, Bool.and_eq_true, decide_eq_true_eq] at hrow
          obtain ⟨hheld, haccount, hkeep⟩ := hrow
          have hsame : some row.2 = some entry := (Series.mem_rows.mp hheld).symm.trans hget
          cases hsame
          exact ⟨draft, hdraft, haccount, hkeep⟩
      refine ⟨fun id entry hget => ?_, fun id now hget => ?_, ?_, List.subset_append_left _ _⟩
      · rcases hfilter.kept id entry hget with ⟨held, hheld, halike⟩ | hgone
        · refine .inl ⟨held, ?_, halike⟩
          rw [Series.get_push, if_neg]
          · exact hheld
          · exact Nat.ne_of_lt (Series.get_lt_next hheld)
        · exact .inr hgone
      · rw [Series.get_push] at hget
        split at hget
        · rename_i hid
          cases hget
          exact .inr ⟨hid ▸ Nat.le_refl _, rfl⟩
        · exact hfilter.made id now hget
      · exact Nat.le_succ _
    · cases h

theorem queueAll_takes {when : Commit.Resolve} {queue : List Commit.Queue}
    {queued : List (Option OutboxId)}
    (h : store.queueAll account now when queue = .ok (after, queued)) :
    Takes store after
      (fun id entry => (∃ work ∈ queue, Replaces account work.intent entry) ∧ ⟨id⟩ ∈ after.replaced)
      fun entry => ∃ work ∈ queue, entry.undo = work.undo := by
  induction queue generalizing store queued with
  | nil =>
    cases h
    exact .refl _
  | cons work rest ih =>
    have hlater : ∀ {next : Sqlite} {more : List (Option OutboxId)},
        next.queueAll account now when rest = .ok (after, more) →
        Takes next after (fun id entry =>
          (∃ each ∈ work :: rest, Replaces account each.intent entry) ∧ ⟨id⟩ ∈ after.replaced)
          fun entry => ∃ each ∈ work :: rest, entry.undo = each.undo := by
      intro next more hrest
      refine (ih hrest).mono (fun id entry hout => ?_) fun entry hnew => ?_
      · obtain ⟨⟨each, heach, hreplaces⟩, hid⟩ := hout
        exact ⟨⟨each, .tail _ heach, hreplaces⟩, hid⟩
      · obtain ⟨each, heach, hundo⟩ := hnew
        exact ⟨each, .tail _ heach, hundo⟩
    have hboth : ∀ {next : Sqlite} {made : Option OutboxId} {more : List (Option OutboxId)},
        store.queueIn account work.intent work.undo work.id now = .ok (next, made) →
        next.queueAll account now when rest = .ok (after, more) →
        Takes store after (fun id entry =>
          (∃ each ∈ work :: rest, Replaces account each.intent entry) ∧ ⟨id⟩ ∈ after.replaced)
          fun entry => ∃ each ∈ work :: rest, entry.undo = each.undo := by
      intro next made more hone hrest
      have hfirst := (queueIn_takes hone).mono
        (fun id entry (hout : Replaces account work.intent entry ∧ ⟨id⟩ ∈ next.replaced) =>
          (⟨⟨work, .head _, hout.1⟩, (hlater hrest).replaced hout.2⟩ :
            (∃ each ∈ work :: rest, Replaces account each.intent entry) ∧
              OutboxId.mk id ∈ after.replaced))
        fun entry (hnew : entry.undo = work.undo) =>
          (⟨work, .head _, hnew⟩ : ∃ each ∈ work :: rest, entry.undo = each.undo)
      refine hfirst.trans (hlater hrest) (fun id x y halike hout => ?_) fun x y halike hnew => ?_
      · obtain ⟨⟨each, heach, hreplaces⟩, hid⟩ := hout
        exact ⟨⟨each, heach, hreplaces.alike halike⟩, hid⟩
      · obtain ⟨each, heach, hundo⟩ := hnew
        exact ⟨each, heach, halike.undo ▸ hundo⟩
    rw [queueAll] at h
    split at h
    · split at h
      · cases h
      · rename_i next hone
        split at h
        · cases h
        · split at h
          · cases h
          · rename_i last more hrest
            cases h
            exact hlater hrest
      · rename_i next made hone
        split at h
        · cases h
        · rename_i last more hrest
          cases h
          exact hboth hone hrest
    · split at h
      · cases h
      · rename_i last more hrest
        cases h
        exact hlater hrest

/-! ## Settling -/

theorem dropEntry_takes (store : Sqlite) (id : OutboxId) :
    Takes store (store.dropEntry id) (fun held _ => held = id.raw) fun _ => False :=
  @takes_filter store (store.dropEntry id) (fun held _ => held != id.raw) _ _ rfl rfl
    fun _ _ _ hid => by simpa using hid

theorem get_dropEntry (store : Sqlite) (id : OutboxId) :
    (store.dropEntry id).outbox.get id.raw = none := by
  unfold dropEntry
  rw [Series.get_erase, if_pos rfl]

/-- What taking an entry out and putting its change back takes out: the entry, and the submissions
of drafts that its undo deletes. -/
def GoesWith (id : OutboxId) (undo : Patch) (held : Nat) (entry : Entry) : Prop :=
  held = id.raw ∨ Deletes (· ∈ undo.changes) entry

theorem GoesWith.alike {id : OutboxId} (held : Nat) (x y : Entry) (halike : x.Alike y)
    (h : GoesWith id undo held y) : GoesWith id undo held x :=
  h.imp_right fun hdeletes => hdeletes.alike halike

section Settle

variable [Unicode]

variable {after store done : Sqlite} {id : OutboxId} {now : DateTime} {forward : ChangeId}
  {inverse : Patch} {rows : List Commit.Row} {commit : Commit} {ids : List (Option OutboxId)}

variable {out : Nat → Entry → Prop} {taken : OutboxId × List Change}

theorem deleteUnaddressed_takes {messages : List MessageId}
    (hout : ∀ id x y, x.Alike y → out id y → out id x)
    (h : store.deleteUnaddressed messages = .ok after) : Takes store after out fun _ => False := by
  induction messages generalizing store with
  | nil =>
    cases h
    exact .refl _
  | cons message rest ih =>
    have hdelete : Takes store (store.deleteMessage message) out fun _ => False := by
      have houtbox : (store.deleteMessage message).outbox =
          store.outbox.mapRows fun _ entry => entry.forget message := rfl
      exact takes_mapRows houtbox rfl fun _ _ _ => ⟨rfl, rfl, rfl, rfl, rfl⟩
    rw [deleteUnaddressed] at h
    split at h
    · split at h
      · exact hdelete.trans (ih h) hout fun _ _ _ hnew => hnew
      · split at h
        · cases h
        · rename_i refreshed hrefresh
          have hrefreshed := hdelete.trans (refreshSummary_takes hrefresh) hout
            fun _ _ _ hnew => hnew
          exact hrefreshed.trans (ih h) hout fun _ _ _ hnew => hnew
    · exact ih h

theorem forgetMailbox_takes {account : AccountId} {path : String}
    (h : store.forgetMailbox account path = .ok after) :
    Takes store after (fun _ _ => False) fun _ => False := by
  unfold forgetMailbox at h
  dsimp only at h
  have hbefore : Takes store
      (({ store.forgetRemotesIn account path with
        syncState := (store.forgetRemotesIn account path).syncState.filter
          fun key _ => key ≠ (account, path) } : Sqlite).forgetDestroyedIn account path)
      (fun _ _ => False) fun _ => False := .of_eq rfl rfl
  exact hbefore.trans (deleteUnaddressed_takes (fun _ _ _ _ hout => hout) h)
    (fun _ _ _ _ hout => hout) fun _ _ _ hnew => hnew

theorem undoEntry_takes {done : List MessageId} {entry : Entry}
    (hentry : store.outbox.get id.raw = some entry) (h : store.undoEntry id done = .ok after) :
    Takes store after (GoesWith id entry.undo) (fun _ => False) ∧
      after.outbox.get id.raw = none := by
  unfold undoEntry at h
  rw [hentry] at h
  dsimp only at h
  have hdrop := dropEntry_takes store id
  have heach := writeEach_takes h
  constructor
  · refine (hdrop.mono (fun _ _ => .inl) fun _ hnew => hnew).trans
      (heach.mono (fun _ _ hdeletes => .inr (hdeletes.mono fun change hchange => ?_))
        fun _ hnew => hnew) GoesWith.alike fun _ _ _ hnew => hnew
    exact (List.mem_filter.mp hchange).1
  · refine heach.absent ?_ (get_dropEntry store id)
    exact Nat.lt_of_lt_of_le (Series.get_lt_next hentry) hdrop.next

def countsTry : Settle → Bool
  | .failed _ .now | .failed _ (.after _) => true
  | _ => false

/-- What recording a failure to try again changes of an entry. -/
structure Retried (settle : Settle) (entry now : Entry) : Prop where
  account : entry.account = now.account
  op : entry.op = now.op
  undo : entry.undo = now.undo
  forward : entry.forward = now.forward
  attempts : entry.attempts ≤ now.attempts
  counted : countsTry settle = true → 0 < now.attempts

/-- An attempt is settled into nothing when its entry was replaced; else the entry leaves, with
what its undo takes out, or it stays and the failure is recorded. -/
theorem settleIn_cases {settle : Settle} (h : store.settleIn id settle now = .ok after) :
    (store.outbox.get id.raw = none ∧ after = store) ∨
    ∃ entry, store.outbox.get id.raw = some entry ∧
      ((leavesQueue settle = true ∧ Takes store after (GoesWith id entry.undo) (fun _ => False) ∧
          after.outbox.get id.raw = none) ∨
        (leavesQueue settle = false ∧ ∃ f : Entry → Entry, (∀ held, Retried settle held (f held)) ∧
          after = { store with outbox := store.outbox.modify id.raw f })) := by
  unfold settleIn at h
  split at h
  · rename_i hnone
    split at h <;> cases h
    exact .inl ⟨hnone, rfl⟩
  · rename_i entry hentry
    refine .inr ⟨entry, hentry, ?_⟩
    have hanswered : ∀ answer, Takes store (store.settleDestroyed id answer) (GoesWith id entry.undo)
        (fun _ => False) ∧ (store.settleDestroyed id answer).outbox = store.outbox := fun answer => by
      rw [settleDestroyed_eq]
      exact ⟨.of_eq rfl rfl, rfl⟩
    have hrefused : ∀ done, (store.settleDestroyed id .refused).undoEntry id done = .ok after →
        Takes store after (GoesWith id entry.undo) (fun _ => False) ∧
          after.outbox.get id.raw = none := by
      intro done hdone
      obtain ⟨hbefore, hsame⟩ := hanswered .refused
      obtain ⟨htakes, hnone⟩ := undoEntry_takes (by rw [hsame]; exact hentry) hdone
      exact ⟨hbefore.trans htakes GoesWith.alike fun _ _ _ hnew => hnew, hnone⟩
    cases settle with
    | ok =>
      refine .inl ⟨rfl, ?_⟩
      dsimp only at h
      have hdrop : ∀ {mid : Sqlite}, Takes store mid (GoesWith id entry.undo) (fun _ => False) →
          mid.dropEntry id = after →
          Takes store after (GoesWith id entry.undo) (fun _ => False) ∧
            after.outbox.get id.raw = none := by
        rintro mid hmid rfl
        refine ⟨hmid.trans ((dropEntry_takes mid id).mono (fun _ _ => .inl) fun _ hnew => hnew)
          GoesWith.alike fun _ _ _ hnew => hnew, get_dropEntry mid id⟩
      split at h
      · cases h
        exact hdrop (hanswered .done).1 rfl
      · obtain ⟨forgot, hforgot, heq⟩ := map_ok h
        refine hdrop ((hanswered .done).1.trans ((forgetMailbox_takes hforgot).mono
          (fun _ _ hout => hout.elim) fun _ hnew => hnew) GoesWith.alike fun _ _ _ hnew => hnew) ?_
        exact heq
    | failed reason retry =>
      cases retry with
      | now | after =>
        cases h
        refine .inr ⟨rfl, _, ?_, rfl⟩
        exact fun held => ⟨rfl, rfl, rfl, rfl, Nat.le_succ _, fun _ => Nat.succ_pos _⟩
      | needsReauth | needsGrant =>
        cases h
        refine .inr ⟨rfl, _, ?_, rfl⟩
        exact fun held => ⟨rfl, rfl, rfl, rfl, Nat.le_refl _, fun hcounted => by cases hcounted⟩
      | fatal text => exact .inl ⟨rfl, hrefused [] h⟩
    | inPart done => exact .inl ⟨rfl, hrefused done h⟩

/-! ## Withdrawing -/

omit [Unicode] in
theorem untried_spec (h : store.untried forward inverse = some id) :
    ∃ entry, store.outbox.get id.raw = some entry ∧ Named forward inverse entry := by
  unfold untried at h
  obtain ⟨row, hrow, rfl⟩ := Option.map_eq_some_iff.mp h
  have hnamed := List.find?_some hrow
  simp only [Bool.and_eq_true, Bool.or_eq_true, decide_eq_true_eq] at hnamed
  exact ⟨row.2, Series.mem_rows.mp (List.mem_of_find?_eq_some hrow), hnamed⟩

theorem withdrawIn_cases (h : store.withdrawIn forward inverse now = .ok after) :
    (store.untried forward inverse = none ∧ after = store) ∨
    ∃ id entry, store.untried forward inverse = some id ∧
      store.outbox.get id.raw = some entry ∧ Named forward inverse entry ∧
      Takes store after (GoesWith id entry.undo) (fun _ => False) ∧
      after.outbox.get id.raw = none := by
  unfold withdrawIn at h
  split at h
  · rename_i hnone
    cases h
    exact .inl ⟨hnone, rfl⟩
  · rename_i id hid
    obtain ⟨entry, hentry, hnamed⟩ := untried_spec hid
    rcases settleIn_cases h with ⟨hnone, _⟩ | ⟨held, hheld, hleft | ⟨hstays, _⟩⟩
    · rw [hentry] at hnone
      cases hnone
    · rw [hentry] at hheld
      cases hheld
      exact .inr ⟨id, entry, hid, hentry, hnamed, hleft.2⟩
    · cases hstays

def PutBackBy (store : Sqlite) (forward : ChangeId) (inverse : Patch) (change : Change) : Prop :=
  ∃ id entry, store.outbox.get id = some entry ∧ Named forward inverse entry ∧
    change ∈ entry.undo.changes

/-- What rows take out: the entries they name, and the submissions of drafts that putting those
back deletes. -/
def TakenBy (store : Sqlite) (rows : List Commit.Row) (entry : Entry) : Prop :=
  ∃ forward inverse, .withdrawn forward inverse ∈ rows ∧
    (Named forward inverse entry ∨ Deletes (store.PutBackBy forward inverse) entry)

omit [Unicode] in
theorem PutBackBy.earlier {before : Sqlite} (htakes : Takes before after out fun _ => False)
    {change : Change} (h : after.PutBackBy forward inverse change) :
    before.PutBackBy forward inverse change := by
  obtain ⟨id, now, hnow, hnamed, hchange⟩ := h
  rcases htakes.made id now hnow with ⟨entry, hentry, halike⟩ | ⟨_, hmade⟩
  · exact ⟨id, entry, hentry, hnamed.alike halike, by rw [halike.undo]; exact hchange⟩
  · exact hmade.elim

omit [Unicode] in
theorem TakenBy.alike {x y : Entry} (halike : x.Alike y) (h : store.TakenBy rows y) :
    store.TakenBy rows x := by
  obtain ⟨forward, inverse, hrow, hout⟩ := h
  exact ⟨forward, inverse, hrow, hout.imp (fun hnamed => hnamed.alike halike)
    fun hdeletes => hdeletes.alike halike⟩

theorem writeRow_takes {row : Commit.Row} (h : store.writeRow now row = .ok after) :
    Takes store after (fun _ entry => store.TakenBy [row] entry) fun _ => False := by
  cases row with
  | withdrawn forward inverse =>
    rcases withdrawIn_cases h with ⟨_, rfl⟩ | ⟨id, entry, _, hentry, hnamed, htakes, _⟩
    · exact .refl _
    · refine ⟨fun held other hother => ?_, fun held now hnow => ?_, htakes.next,
        htakes.replaced⟩
      · refine (htakes.kept held other hother).imp_right fun hgone => ?_
        refine ⟨forward, inverse, List.mem_singleton_self _, ?_⟩
        rcases hgone with rfl | hdeletes
        · rw [hentry] at hother
          cases hother
          exact .inl hnamed
        · exact .inr (hdeletes.mono fun change hchange => ⟨id.raw, entry, hentry, hnamed, hchange⟩)
      · exact htakes.made held now hnow
  | sendState draft state stamp =>
    simp only [writeRow, setSendState] at h
    split at h <;> cases h
    exact .of_eq rfl rfl
  | expect draft updated state =>
    cases h
    exact .refl _

theorem writeRows_takes (h : store.writeRows now rows = .ok after) :
    Takes store after (fun _ entry => store.TakenBy rows entry) fun _ => False := by
  induction rows generalizing store with
  | nil =>
    cases h
    exact .refl _
  | cons row rest ih =>
    rw [writeRows] at h
    split at h
    · cases h
    · rename_i written hone
      have hfirst := writeRow_takes hone
      refine (hfirst.mono (fun _ _ hout => ?_) fun _ hnew => hnew).trans
        ((ih h).mono (fun _ _ hout => ?_) fun _ hnew => hnew)
        (fun _ _ _ halike hout => hout.alike halike) fun _ _ _ hnew => hnew
      · obtain ⟨forward, inverse, hrow, hout⟩ := hout
        exact ⟨forward, inverse, List.mem_cons.mpr (.inl (List.mem_singleton.mp hrow)), hout⟩
      · obtain ⟨forward, inverse, hrow, hout⟩ := hout
        refine ⟨forward, inverse, .tail _ hrow, hout.imp_right fun hdeletes => ?_⟩
        exact hdeletes.mono fun change hchange => hchange.earlier hfirst

def withdrawal (store : Sqlite) : Commit.Row → List (OutboxId × List Change)
  | .withdrawn forward inverse =>
    ((store.untried forward inverse).map fun id =>
      (id, store.writesBack id (.failed "" (.fatal "")))).toList
  | .sendState _ _ _ | .expect _ _ _ => []

def withdrawals (store : Sqlite) (now : DateTime) :
    List Commit.Row → List (OutboxId × List Change)
  | [] => []
  | row :: rest =>
    store.withdrawal row ++
      match store.writeRow now row with
      | .error _ => []
      | .ok written => written.withdrawals now rest

theorem withdrawals_spec (h : store.writeRows now rows = .ok after)
    (htaken : taken ∈ store.withdrawals now rows) :
    (∃ forward inverse entry, .withdrawn forward inverse ∈ rows ∧
      store.outbox.get taken.1.raw = some entry ∧ Named forward inverse entry) ∧
      after.outbox.get taken.1.raw = none := by
  induction rows generalizing store with
  | nil => cases htaken
  | cons row rest ih =>
    rw [writeRows] at h
    split at h
    · cases h
    · rename_i written hone
      rw [withdrawals, hone] at htaken
      rcases List.mem_append.mp htaken with hhere | hlater
      · cases row with
        | withdrawn forward inverse =>
          obtain ⟨id, hid, hpair⟩ := Option.map_eq_some_iff.mp (Option.mem_toList.mp hhere)
          rw [← hpair]
          rcases withdrawIn_cases hone with ⟨hnone, _⟩ |
            ⟨other, entry, hother, hentry, hnamed, _, hgone⟩
          · rw [hid] at hnone
            cases hnone
          · rw [hid] at hother
            cases hother
            refine ⟨⟨forward, inverse, entry, .head _, hentry, hnamed⟩, ?_⟩
            exact (writeRows_takes h).absent (Nat.lt_of_lt_of_le (Series.get_lt_next hentry)
              (writeRow_takes hone).next) hgone
        | sendState | expect => cases hhere
      · obtain ⟨⟨forward, inverse, now, hrow, hnow, hnamed⟩, hgone⟩ := ih h hlater
        refine ⟨?_, hgone⟩
        rcases (writeRow_takes hone).made _ now hnow with ⟨entry, hentry, halike⟩ | ⟨_, hmade⟩
        · exact ⟨forward, inverse, entry, .tail _ hrow, hentry,
            hnamed.alike halike⟩
        · exact hmade.elim

/-! ## Commits -/

theorem commitSteps_split (h : store.commitSteps commit = .ok (done, ids)) :
    ∃ queued, store.commitSteps { commit with rows := [] } = .ok (queued, ids) ∧
      queued.writeRows commit.now commit.rows = .ok done := by
  unfold commitSteps at h
  split at h
  · cases h
  · split at h
    · cases h
    · rename_i addressed before hbefore
      split at h
      · cases h
      · rename_i written hwritten
        split at h
        · cases h
        · rename_i queued after hafter
          split at h
          · cases h
          · rename_i last hrows
            cases h
            refine ⟨queued, ?_, hrows⟩
            simp only [commitSteps, expectingAll, hbefore, hwritten, hafter, writeRows]

def withdrawnBy (store : Sqlite) (commit : Commit) : List (OutboxId × List Change) :=
  match store.commitSteps { commit with rows := [] } with
  | .error _ => []
  | .ok (queued, _) => queued.withdrawals commit.now commit.rows

/-- What a commit takes out by its rows: the entries they name, and the submissions of drafts
deleted by what putting those back writes. -/
def TakenByRows (store : Sqlite) (commit : Commit) (entry : Entry) : Prop :=
  ∃ forward inverse, .withdrawn forward inverse ∈ commit.rows ∧
    (Named forward inverse entry ∨
      Deletes (fun change => store.PutBackBy forward inverse change ∨
        ∃ work ∈ commit.queue, change ∈ work.undo.changes) entry)

def TakenByCommit (store : Sqlite) (commit : Commit) (replaced : List OutboxId) (id : Nat)
    (entry : Entry) : Prop :=
  Deletes (· ∈ commit.forward.changes) entry ∨
    ((∃ work ∈ commit.queue, Replaces commit.account work.intent entry) ∧ ⟨id⟩ ∈ replaced) ∨
    store.TakenByRows commit entry

omit [Unicode] in
theorem TakenByCommit.alike {replaced : List OutboxId} (id : Nat) (x y : Entry) (halike : x.Alike y)
    (h : store.TakenByCommit commit replaced id y) :
    store.TakenByCommit commit replaced id x := by
  rcases h with hdeletes | ⟨⟨work, hwork, hreplaces⟩, hid⟩ | ⟨forward, inverse, hrow, hout⟩
  · exact .inl (hdeletes.alike halike)
  · exact .inr (.inl ⟨⟨work, hwork, hreplaces.alike halike⟩, hid⟩)
  · exact .inr (.inr ⟨forward, inverse, hrow, hout.imp (fun hnamed => hnamed.alike halike)
      fun hdeletes => hdeletes.alike halike⟩)

theorem commitQueued_takes {store queued : Sqlite} {commit : Commit}
    {ids : List (Option OutboxId)} {replaced : List OutboxId}
    (h : store.commitSteps { commit with rows := [] } = .ok (queued, ids))
    (hreplaced : queued.replaced ⊆ replaced) :
    Takes store queued (store.TakenByCommit commit replaced)
      fun entry => ∃ work ∈ commit.queue, entry.undo = work.undo := by
  have hqueue : ∀ {a b : Sqlite} {when : Commit.Resolve} {made : List (Option OutboxId)},
      a.queueAll commit.account commit.now when commit.queue = .ok (b, made) →
      b.replaced ⊆ replaced →
      Takes a b (store.TakenByCommit commit replaced)
        fun entry => ∃ work ∈ commit.queue, entry.undo = work.undo :=
    fun hmade hsub => (queueAll_takes hmade).mono
      (fun _ _ hout => .inr (.inl ⟨hout.1, hsub hout.2⟩)) fun _ hnew => hnew
  have hnew : ∀ x y : Entry, x.Alike y → (∃ work ∈ commit.queue, x.undo = work.undo) →
      ∃ work ∈ commit.queue, y.undo = work.undo := by
    rintro x y halike ⟨work, hwork, hundo⟩
    exact ⟨work, hwork, halike.undo ▸ hundo⟩
  simp only [commitSteps, expectingAll, writeRows] at h
  split at h
  · cases h
  · rename_i addressed before hbefore
    split at h
    · cases h
    · rename_i written hwritten
      split at h
      · cases h
      · rename_i last after hafter
        cases h
        have hpatch : Takes addressed written (store.TakenByCommit commit replaced)
            fun entry => ∃ work ∈ commit.queue, entry.undo = work.undo :=
          (writePatch_takes hwritten).mono (fun _ _ hout => .inl hout) fun _ hfalse => hfalse.elim
        have hlast := hqueue hafter hreplaced
        have hwrote := hpatch.trans hlast TakenByCommit.alike hnew
        refine (hqueue hbefore fun id hid => hreplaced (hwrote.replaced hid)).trans hwrote
          TakenByCommit.alike hnew

theorem commitSteps_takes (h : store.commitSteps commit = .ok (done, ids)) :
    Takes store done (store.TakenByCommit commit done.replaced)
      fun entry => ∃ work ∈ commit.queue, entry.undo = work.undo := by
  obtain ⟨queued, hqueued, hrows⟩ := commitSteps_split h
  have hwritten := writeRows_takes hrows
  have hbefore := commitQueued_takes hqueued hwritten.replaced
  refine hbefore.trans (hwritten.mono (fun id entry hout => ?_) fun _ hfalse => hfalse.elim)
    TakenByCommit.alike ?_
  · obtain ⟨forward, inverse, hrow, hout⟩ := hout
    refine .inr (.inr ⟨forward, inverse, hrow, hout.imp_right fun hdeletes => ?_⟩)
    refine hdeletes.mono fun change hchange => ?_
    obtain ⟨id, now, hnow, hnamed, hmem⟩ := hchange
    rcases hbefore.made id now hnow with ⟨entry, hentry, halike⟩ | ⟨_, work, hwork, hundo⟩
    · exact .inl ⟨id, entry, hentry, hnamed.alike halike, by rw [halike.undo]; exact hmem⟩
    · exact .inr ⟨work, hwork, hundo ▸ hmem⟩
  · rintro x y halike ⟨work, hwork, hundo⟩
    exact ⟨work, hwork, halike.undo ▸ hundo⟩

/-- What a commit takes back is not in the queue after it; before it, it was an entry the commit's
rows name, if it was queued at all. -/
theorem withdrawnBy_spec (h : store.commitSteps commit = .ok (done, ids))
    (htaken : taken ∈ store.withdrawnBy commit) :
    done.outbox.get taken.1.raw = none ∧
      (store.outbox.next ≤ taken.1.raw ∨
        ∃ forward inverse entry, .withdrawn forward inverse ∈ commit.rows ∧
          store.outbox.get taken.1.raw = some entry ∧ Named forward inverse entry) ∧
      taken.1.raw < done.outbox.next := by
  obtain ⟨queued, hqueued, hrows⟩ := commitSteps_split h
  unfold withdrawnBy at htaken
  rw [hqueued] at htaken
  obtain ⟨⟨forward, inverse, now, hrow, hnow, hnamed⟩, hgone⟩ := withdrawals_spec hrows htaken
  have hbefore := commitQueued_takes hqueued (List.Subset.refl _)
  refine ⟨hgone, ?_, Nat.lt_of_lt_of_le (Series.get_lt_next hnow) (writeRows_takes hrows).next⟩
  rcases hbefore.made _ now hnow with ⟨entry, hentry, halike⟩ | ⟨hlater, _⟩
  · exact .inr ⟨forward, inverse, entry, hrow, hentry, hnamed.alike halike⟩
  · exact .inl hlater

end Settle

end Sqlite

end Mailo.Store
