import Mailo.Core.Submissions

/-!
# No send vanishes, and none is sent again

A row is settled as accepted before its draft says so, and a refusal is said in the draft before it
takes the row out. So a drain cut off anywhere leaves a row to try again, or a submission that is
done with; the one thing it can leave unsaid is that an accepted send was sent.
-/

namespace Mailo.Core

open Domain Library Store Runtime.Sending Engine

def UnderWay (state : SendState) : Prop := state = .queued ∨ state = .sending

/-- Where the settlement of a row stands, with what the row and its draft then are. -/
inductive Carrying (s : Outgoing) (id : OutboxId) : List Then → Prop where
  | nothing : Carrying s id []
  | accepted (draft : DraftId) (now : DateTime) (row : rowOf s.store id = some draft)
      (heard : s.answers.head? = some (id, .accepted)) :
      Carrying s id
        [.settleRow .ok, .keepSentCopy, .mark draft (.sent now), .dropDraftCopies draft]
  | settled (draft : DraftId) (now : DateTime) (sent : id ∈ s.sent) :
      Carrying s id [.keepSentCopy, .mark draft (.sent now), .dropDraftCopies draft]
  | copied (draft : DraftId) (now : DateTime) (sent : id ∈ s.sent) :
      Carrying s id [.mark draft (.sent now), .dropDraftCopies draft]
  | marked (draft : DraftId) : Carrying s id [.dropDraftCopies draft]
  | refused (draft : DraftId) (error : RuntimeError) (told : String) (op : ProtoOp)
      (row : rowOf s.store id = some draft)
      (heard : s.answers.head? = some (id, .refused error [] told)) :
      Carrying s id
        [.mark draft (.failed error.text (refusedAs op s.login error)),
          .settleRow (.failed error.text (refusedAs op s.login error))]
  | told (draft : DraftId) (error : RuntimeError) (told : String) (op : ProtoOp)
      (row : rowOf s.store id = some draft)
      (heard : s.answers.head? = some (id, .refused error [] told))
      (said : ∀ held, s.store.drafts.get draft = some held →
        held.state = .failed error.text (refusedAs op s.login error)) :
      Carrying s id [.settleRow (.failed error.text (refusedAs op s.login error))]
  | other (steps : List Then) (row : rowOf s.store id = none)
      (only : ∀ step ∈ steps, (∃ how, step = .settleRow how) ∨ step = .keepUpload) :
      Carrying s id steps

/-- What the row in hand is. -/
def AtWork (s : Outgoing) : Prop :=
  match s.phase with
  | .idle | .walking _ => True
  | .attempting id op _ => id.raw < s.store.outbox.next ∧ submitted op = rowOf s.store id
  | .carrying id steps _ _ _ => id.raw < s.store.outbox.next ∧ Carrying s id steps

/-- A draft that says it is queued or on its way has a row, or its send was accepted and that is
not recorded. -/
def Waiting (store : Sqlite) (sent : List OutboxId) (unsaid : List (OutboxId × DraftId)) : Prop :=
  ∀ draft held, store.drafts.get draft = some held → UnderWay held.state →
    (∃ id, rowOf store id = some draft) ∨ ∃ id ∈ sent, (id, draft) ∈ unsaid

structure Sound (s : Outgoing) : Prop where
  plain : AllPlain s.store
  gone : ∀ id ∈ s.sent, s.store.outbox.get id.raw = none ∧ id.raw < s.store.outbox.next
  waiting : Waiting s.store s.sent (s.cut ++ s.phase.unrecorded)
  working : AtWork s

/-- A store between drains whose entries are as the app queues them. -/
structure Ready (store : Sqlite) : Prop where
  plain : AllPlain store
  waiting : Waiting store [] []

theorem Ready.sound {store : Sqlite} (h : Ready store) (account : AccountId) (login : Login) :
    Sound (.start account login store) where
  plain := h.plain
  gone id hid := by cases hid
  waiting := h.waiting
  working := trivial

variable {sent : List OutboxId} {unsaid : List (OutboxId × DraftId)}

theorem Waiting.more {store : Sqlite} {more : List OutboxId}
    {other : List (OutboxId × DraftId)} (h : Waiting store sent unsaid)
    (hsent : sent ⊆ more) (hunsaid : unsaid ⊆ other) : Waiting store more other := by
  intro draft held hheld hstate
  refine (h draft held hheld hstate).imp_right ?_
  rintro ⟨id, hid, hmem⟩
  exact ⟨id, hsent hid, hunsaid hmem⟩

variable {after before : Sqlite}

theorem Aside.waiting (h : Aside before after) (hwaiting : Waiting before sent unsaid) :
    Waiting after sent unsaid := by
  intro draft held hheld hstate
  rw [h.drafts] at hheld
  refine (hwaiting draft held hheld hstate).imp_left ?_
  rintro ⟨id, hrow⟩
  exact ⟨id, h.row id draft hrow⟩

/-- Once one draft says it is not under way, only the others need a row. -/
theorem Sends.waiting {draft : DraftId} (h : Sends draft before after)
    (hwaiting : Waiting before sent unsaid)
    (hown : ∀ held, after.drafts.get draft = some held → UnderWay held.state →
      ∃ id, rowOf after id = some draft) : Waiting after sent unsaid := by
  intro other held hheld hstate
  by_cases hother : other = draft
  · subst hother
    exact .inl (hown held hheld hstate)
  · rw [h.drafts other hother] at hheld
    refine (hwaiting other held hheld hstate).imp_left ?_
    rintro ⟨id, hrow⟩
    exact ⟨id, h.row id other hother hrow⟩

/-! ## A step -/

section Steps

variable [Unicode]

variable {after store : Sqlite} {how : Settle} {id : OutboxId} {now : DateTime} {s next : Outgoing}
  {event : Event}

theorem settleIn_waiting (hplain : AllPlain store) (h : store.settleIn id how now = .ok after)
    (hrow : rowOf store id = none)
    (hwaiting : Waiting store sent unsaid) : Waiting after sent unsaid := by
  intro draft held hheld hstate
  rw [(settleIn_calm hplain h).drafts] at hheld
  refine (hwaiting draft held hheld hstate).imp_left ?_
  rintro ⟨other, hother⟩
  refine ⟨other, settleIn_other hplain h (fun heq => ?_) hother⟩
  rw [heq, hrow] at hother
  cases hother

theorem settleIn_sent (h : store.settleIn id how now = .ok after)
    (hgone : ∀ other ∈ sent, store.outbox.get other.raw = none ∧ other.raw < store.outbox.next) :
    ∀ other ∈ sent, after.outbox.get other.raw = none ∧ other.raw < after.outbox.next :=
  fun other hother =>
    ⟨settleIn_absent h (hgone other hother).1 (hgone other hother).2,
      Nat.lt_of_lt_of_le (hgone other hother).2 (settleIn_next h)⟩

theorem settleIn_none {other : OutboxId} (hplain : AllPlain store)
    (h : store.settleIn id how now = .ok after) (hrow : rowOf store other = none) :
    rowOf after other = none := by
  cases hafter : rowOf after other with
  | none => rfl
  | some draft =>
    obtain ⟨now', hnow, hdraft⟩ := rowOf_eq_some.mp hafter
    obtain ⟨entry, hentry, hop, _⟩ := (settleIn_calm hplain h).rows other.raw now' hnow
    rw [rowOf_eq_some.mpr ⟨entry, hentry, by rw [← hop]; exact hdraft⟩] at hrow
    cases hrow

theorem sound_settled (sound : Sound s) (hidle : s.phase.unrecorded = [])
    (hrow : rowOf s.store id = none) (how : Settle) (rest : List OutboxId) :
    Sound (s.settled id how (.walking rest)) := by
  have hwaiting := sound.waiting
  rw [hidle] at hwaiting
  unfold Outgoing.settled
  split
  · rename_i after h
    exact ⟨(settleIn_calm sound.plain h).plain sound.plain, settleIn_sent h sound.gone,
      settleIn_waiting sound.plain h hrow hwaiting, trivial⟩
  · exact ⟨sound.plain, sound.gone, hwaiting, trivial⟩

omit [Unicode] in
theorem rowOf_unsent {found : Dispatch} (hplain : AllPlain store)
    (h : store.dispatch id = .ok found) (hfound : ∀ op, found ≠ .send op) :
    rowOf store id = none := by
  cases hrow : rowOf store id with
  | none => rfl
  | some draft =>
    obtain ⟨entry, hentry, hdraft⟩ := rowOf_eq_some.mp hrow
    have hmessages := (hplain id.raw entry hentry).alone (by rw [hdraft]; exact fun h => by cases h)
    exact absurd (dispatch_submission hentry hmessages h) (hfound entry.op)

theorem sound_reach (sound : Sound s) (hidle : s.phase.unrecorded = []) (there : List MessageId)
    (id : OutboxId) (rest : List OutboxId) :
    Sound (s.reach there id rest) := by
  have hwaiting := sound.waiting
  rw [hidle] at hwaiting
  unfold Outgoing.reach
  split
  · exact ⟨sound.plain, sound.gone, hwaiting, trivial⟩
  · exact ⟨sound.plain, sound.gone, hwaiting, trivial⟩
  · rename_i h
    exact sound_settled sound hidle (rowOf_unsent sound.plain h fun op heq => by cases heq) _ _
  · rename_i reason h
    exact sound_settled sound hidle (rowOf_unsent sound.plain h fun op heq => by cases heq) _ _
  · rename_i op h
    obtain ⟨⟨entry, hentry⟩, hsubmits⟩ := dispatch_submits h
    cases hop : submitted op with
    | none =>
      exact ⟨sound.plain, sound.gone, hwaiting,
        ⟨Series.get_lt_next hentry, by rw [← hsubmits]⟩⟩
    | some draft =>
      have hrow : rowOf s.store id = some draft := by rw [← hsubmits, hop]
      refine ⟨markDraft_plain sound.plain _ _ _, fun other hother => ?_, ?_, ?_⟩
      · show (markDraft _ _ _ _).outbox.get other.raw = none ∧ _
        rw [markDraft_outbox]
        exact sound.gone other hother
      · refine (markDraft_sends s.store draft .sending s.now).waiting hwaiting fun _ _ _ => ?_
        exact ⟨id, by rw [rowOf_markDraft]; exact hrow⟩
      · show id.raw < (markDraft _ _ _ _).outbox.next ∧ submitted op = rowOf (markDraft _ _ _ _) id
        rw [markDraft_outbox, rowOf_markDraft]
        exact ⟨Series.get_lt_next hentry, hsubmits⟩

omit [Unicode] in
theorem carrying_settle {op : ProtoOp} {outcome : Outcome} (hrow : submitted op = rowOf s.store id)
    (hheard : s.answers.head? = some (id, heardOf op outcome)) :
    Carrying s id (settle op s.login (heardOf op outcome) s.now).steps := by
  cases hop : submitted op with
  | none => exact .other _ (by rw [← hrow, hop]) (settle_other hop _ _ _)
  | some draft =>
    rw [hop] at hrow
    have hwhole : (Split.perMailbox op).length = 1 := by
      cases op <;> first | rfl | cases hop
    cases outcome with
    | accepted =>
      rw [heardOf, settle_accepted, afterAccepted, hop]
      exact .accepted draft s.now hrow.symm hheard
    | refused error done told =>
      simp only [heardOf, hwhole, if_neg (Nat.lt_irrefl 1)] at hheard ⊢
      by_cases hcut : error = .cancelled
      · rw [hcut, settle_cancelled]
        exact .nothing
      · rw [settle_refused hop s.login hcut]
        exact .refused draft error told op hrow.symm hheard

theorem carry_settleRow (s : Outgoing) (beside : Beside) (id : OutboxId)
    (next : Option MessageId → Phase) (kept : Option MessageId) (how : Settle) :
    (∃ after, s.store.settleIn id how s.now = .ok after ∧
      s.carry beside id next kept (.settleRow how) =
        { s with
          store := after
          phase := next kept
          sent := if how = .ok then id :: s.sent else s.sent }) ∨
      s.carry beside id next kept (.settleRow how) = { s with phase := .idle } := by
  simp only [Outgoing.carry]
  cases h : s.store.settleIn id how s.now with
  | error error => exact .inr rfl
  | ok after => exact .inl ⟨after, rfl, rfl⟩

omit [Unicode] in
theorem gone_aside (sound : Sound s) (haside : Aside s.store after) :
    ∀ other ∈ s.sent, after.outbox.get other.raw = none ∧ other.raw < after.outbox.next := by
  intro other hother
  obtain ⟨hnone, hlow⟩ := sound.gone other hother
  exact ⟨haside.absent other hlow hnone, Nat.lt_of_lt_of_le hlow haside.next⟩

variable {draft : DraftId} {now : Then} {steps : List Then} {kept : Option MessageId} {halt : Bool}
  {rest : List OutboxId} {beside : Beside}

omit [Unicode] in
theorem gone_markDraft (sound : Sound s) (state : SendState) :
    ∀ other ∈ s.sent, (markDraft s.store draft state s.now).outbox.get other.raw = none ∧
      other.raw < (markDraft s.store draft state s.now).outbox.next := by
  rw [markDraft_outbox]
  exact sound.gone

/-- An accepted send is settled: its row goes, and its draft is left to be marked. -/
theorem sound_accepted {stamp : DateTime} (sound : Sound s)
    (hbelow : id.raw < s.store.outbox.next) (hrow : rowOf s.store id = some draft)
    (hwaiting : Waiting s.store s.sent s.cut) :
    Sound (s.carry beside id (fun kept => .carrying id
      [.keepSentCopy, .mark draft (.sent stamp), .dropDraftCopies draft] kept halt rest) kept
      (.settleRow .ok)) := by
  rcases carry_settleRow s beside id _ kept _ with ⟨after, h, heq⟩ | heq <;> rw [heq]
  · have hcalm := settleIn_calm sound.plain h
    refine ⟨hcalm.plain sound.plain, fun other hother => ?_, ?_, ?_⟩
    · rcases List.mem_cons.mp hother with rfl | hother
      · exact ⟨settleIn_gone h, Nat.lt_of_lt_of_le hbelow (settleIn_next h)⟩
      · exact settleIn_sent h sound.gone other hother
    · intro other held hheld hstate
      rw [hcalm.drafts] at hheld
      rcases hwaiting other held hheld hstate with ⟨row, hother⟩ | ⟨row, hmem, hcut⟩
      · by_cases heq : row = id
        · subst heq
          rw [hrow] at hother
          cases hother
          exact .inr ⟨row, .head _, List.mem_append_right _ (.head _)⟩
        · exact .inl ⟨row, settleIn_other sound.plain h heq hother⟩
      · exact .inr ⟨row, .tail _ hmem, List.mem_append_left _ hcut⟩
    · exact ⟨Nat.lt_of_lt_of_le hbelow (settleIn_next h), .settled draft stamp (.head _)⟩
  · exact ⟨sound.plain, sound.gone,
      hwaiting.more (fun _ h => h) (List.subset_append_left _ _), trivial⟩

/-- The draft of an accepted send says that it was sent. -/
theorem sound_sent {stamp : DateTime} (sound : Sound s) (hbelow : id.raw < s.store.outbox.next)
    (hwaiting : Waiting s.store s.sent (s.cut ++ [(id, draft)])) :
    Sound (s.carry beside id (fun kept => .carrying id [.dropDraftCopies draft] kept halt rest) kept
      (.mark draft (.sent stamp))) := by
  refine ⟨markDraft_plain sound.plain _ _ _, gone_markDraft sound _, ?_, ?_, .marked draft⟩
  · intro other held hheld hstate
    rw [Outgoing.carry, markDraft_get] at hheld
    split at hheld
    · obtain ⟨before, _, rfl⟩ := Option.map_eq_some_iff.mp hheld
      rcases hstate with hstate | hstate <;> cases hstate
    · rename_i hother
      rcases hwaiting other held hheld hstate with ⟨row, hrow⟩ | ⟨row, hmem, hunsaid⟩
      · exact .inl ⟨row, by rw [Outgoing.carry, rowOf_markDraft]; exact hrow⟩
      · refine .inr ⟨row, hmem, ?_⟩
        rcases List.mem_append.mp hunsaid with hcut | hlast
        · exact List.mem_append_left _ hcut
        · rw [List.mem_singleton, Prod.mk.injEq] at hlast
          exact absurd hlast.2 hother
  · show id.raw < (markDraft _ _ _ _).outbox.next
    rw [markDraft_outbox]
    exact hbelow

/-- The draft of a refused send says why, before its row is settled. -/
theorem sound_refused {error : RuntimeError} {told : String} {op : ProtoOp} (sound : Sound s)
    (hbelow : id.raw < s.store.outbox.next) (hrow : rowOf s.store id = some draft)
    (hheard : s.answers.head? = some (id, .refused error [] told))
    (hwaiting : Waiting s.store s.sent s.cut) :
    Sound (s.carry beside id (fun kept => .carrying id
      [.settleRow (.failed error.text (refusedAs op s.login error))] kept halt rest) kept
      (.mark draft (.failed error.text (refusedAs op s.login error)))) := by
  refine ⟨markDraft_plain sound.plain _ _ _, gone_markDraft sound _, ?_, ?_,
    .told draft error told op (by rw [Outgoing.carry, rowOf_markDraft]; exact hrow) hheard ?_⟩
  · refine (markDraft_sends s.store draft _ s.now).waiting
      (hwaiting.more (fun _ h => h) (List.subset_append_left _ _)) fun _ _ _ => ?_
    exact ⟨id, by rw [rowOf_markDraft]; exact hrow⟩
  · show id.raw < (markDraft _ _ _ _).outbox.next
    rw [markDraft_outbox]
    exact hbelow
  · intro held hheld
    rw [Outgoing.carry, markDraft_get, if_pos rfl] at hheld
    obtain ⟨before, _, rfl⟩ := Option.map_eq_some_iff.mp hheld
    rfl

/-- The row of a refused send is settled; its draft says why, and does not wait. -/
theorem sound_told {text : String} {why : Retry} (sound : Sound s)
    (hbelow : id.raw < s.store.outbox.next) (hrow : rowOf s.store id = some draft)
    (hsaid : ∀ held, s.store.drafts.get draft = some held → held.state = .failed text why)
    (hwaiting : Waiting s.store s.sent s.cut) :
    Sound (s.carry beside id (fun kept => .carrying id [] kept halt rest) kept
      (.settleRow (.failed text why))) := by
  have hmore : ∀ {store sent}, Waiting store sent s.cut → Waiting store sent (s.cut ++ []) :=
    fun h => h.more (fun _ h => h) (List.subset_append_left _ _)
  rcases carry_settleRow s beside id _ kept _ with ⟨after, h, heq⟩ | heq <;> rw [heq]
  · have hcalm := settleIn_calm sound.plain h
    rw [if_neg (fun heq => by cases heq)]
    refine ⟨hcalm.plain sound.plain, settleIn_sent h sound.gone, hmore ?_,
      Nat.lt_of_lt_of_le hbelow (settleIn_next h), .nothing⟩
    intro other held hheld hstate
    rw [hcalm.drafts] at hheld
    refine (hwaiting other held hheld hstate).imp_left ?_
    rintro ⟨row, hother⟩
    refine ⟨row, settleIn_other sound.plain h (fun heq => ?_) hother⟩
    subst heq
    rw [hrow] at hother
    cases hother
    rcases hstate with hstate | hstate <;> rw [hsaid held hheld] at hstate <;> cases hstate
  · exact ⟨sound.plain, sound.gone, hmore hwaiting, trivial⟩

/-- A row that is no submission is settled as it will. -/
theorem sound_other {how : Settle} (sound : Sound s) (hbelow : id.raw < s.store.outbox.next)
    (hrow : rowOf s.store id = none) (hwaiting : Waiting s.store s.sent s.cut)
    (honly : ∀ step ∈ steps, (∃ how, step = .settleRow how) ∨ step = .keepUpload) :
    Sound (s.carry beside id (fun kept => .carrying id steps kept halt rest) kept
      (.settleRow how)) := by
  rcases carry_settleRow s beside id _ kept how with ⟨after, h, heq⟩ | heq <;> rw [heq]
  · have hlater : Waiting after s.sent s.cut := settleIn_waiting sound.plain h hrow hwaiting
    refine ⟨(settleIn_calm sound.plain h).plain sound.plain, fun other hother => ?_, ?_,
      Nat.lt_of_lt_of_le hbelow (settleIn_next h),
      .other _ (settleIn_none sound.plain h hrow) honly⟩
    · dsimp only at hother
      split at hother
      · rename_i hok
        subst hok
        rcases List.mem_cons.mp hother with rfl | hother
        · exact ⟨settleIn_gone h, Nat.lt_of_lt_of_le hbelow (settleIn_next h)⟩
        · exact settleIn_sent h sound.gone other hother
      · exact settleIn_sent h sound.gone other hother
    · refine hlater.more (fun other hother => ?_) (List.subset_append_left _ _)
      split
      · exact .tail _ hother
      · exact hother
  · exact ⟨sound.plain, sound.gone,
      hwaiting.more (fun _ h => h) (List.subset_append_left _ _), trivial⟩

theorem sound_carry (sound : Sound s)
    (hphase : s.phase = .carrying id (now :: steps) kept halt rest) (beside : Beside) :
    Sound (s.carry beside id (fun kept => .carrying id steps kept halt rest) kept now) := by
  have hworking := sound.working
  have hwaiting := sound.waiting
  rw [AtWork, hphase] at hworking
  rw [hphase] at hwaiting
  obtain ⟨hbelow, hcarrying⟩ := hworking
  generalize hsteps : now :: steps = all at hcarrying
  cases hcarrying with
  | nothing => cases hsteps
  | accepted draft stamp hrow hheard =>
    cases hsteps
    exact sound_accepted sound hbelow hrow (hwaiting.more (fun _ h => h)
      (by simp [Phase.unrecorded, unmarked, isSettleRow]))
  | settled draft stamp hsent =>
    cases hsteps
    have haside := keepSentCopy_aside s.store s.account s.now beside
    have hgone := gone_aside sound haside
    exact ⟨haside.plain sound.plain, hgone, haside.waiting hwaiting,
      Nat.lt_of_lt_of_le hbelow haside.next, .copied draft stamp hsent⟩
  | copied draft stamp hsent =>
    cases hsteps
    exact sound_sent sound hbelow hwaiting
  | marked draft =>
    cases hsteps
    have haside := dropDraftCopies_aside s.store s.now beside draft
    have hgone := gone_aside sound haside
    exact ⟨haside.plain sound.plain, hgone, haside.waiting hwaiting,
      Nat.lt_of_lt_of_le hbelow haside.next, .nothing⟩
  | refused draft error told op hrow hheard =>
    cases hsteps
    exact sound_refused sound hbelow hrow hheard (hwaiting.more (fun _ h => h)
      (by simp [Phase.unrecorded, unmarked, isSettleRow]))
  | told draft error told op hrow hheard hsaid =>
    cases hsteps
    exact sound_told sound hbelow hrow hsaid (hwaiting.more (fun _ h => h)
      (by simp [Phase.unrecorded, unmarked, isSettleRow]))
  | other _ hrow honly =>
    subst hsteps
    have hrest := fun step hstep => honly step (.tail _ hstep)
    have hunmarked : unmarked (now :: steps) = [] := by
      unfold unmarked
      split
      · rfl
      · rw [List.filterMap_eq_nil_iff]
        intro step hstep
        rcases honly step hstep with ⟨how, rfl⟩ | rfl <;> rfl
    have hnone : Waiting s.store s.sent s.cut := hwaiting.more (fun _ h => h)
      (by rw [Phase.unrecorded, hunmarked]; simp)
    rcases honly now (.head _) with ⟨how, rfl⟩ | rfl
    · exact sound_other sound hbelow hrow hnone hrest
    · exact ⟨sound.plain, sound.gone,
        hnone.more (fun _ h => h) (List.subset_append_left _ _), hbelow, .other _ hrow hrest⟩

/-! ## Runs -/

/-- What a commit of a person's leaves sound, where it writes one draft and its submissions. -/
theorem sound_commit (sound : Sound s) (hidle : s.phase = .idle) {commit : Commit} (draft : DraftId)
    (h : ∀ done made, s.store.commitSteps commit = .ok (done, made) →
      Sends draft s.store done ∧ ∀ held, done.drafts.get draft = some held →
        UnderWay held.state → ∃ id, rowOf done id = some draft) :
    Sound (s.commit commit) := by
  unfold Outgoing.commit
  split
  · rename_i done made hdone
    obtain ⟨hsends, hown⟩ := h done made hdone
    have htakes := Sqlite.commitSteps_takes hdone
    refine ⟨hsends.plain sound.plain, fun other hother => ?_, ?_, ?_⟩
    · obtain ⟨hnone, hlow⟩ := sound.gone other hother
      exact ⟨htakes.absent hlow hnone, Nat.lt_of_lt_of_le hlow htakes.next⟩
    · exact hsends.waiting sound.waiting hown
    · show AtWork { s with store := done }
      rw [AtWork, hidle]
      trivial
  · exact sound

omit [Unicode] in
/-- Where the store holds its messages is no matter of what was sent. -/
theorem sound_place (sound : Sound s) (remoteMap : Table (AccountId × RemoteRef) MessageId)
    (unplaced : Table (AccountId × MessageId) Unplaced) :
    Sound { s with
      store := { s.store with remoteMap := remoteMap, unplaced := unplaced } } := by
  refine ⟨sound.plain, sound.gone, sound.waiting, ?_⟩
  have hworking := sound.working
  cases hphase : s.phase with
  | idle | walking rest => simp only [AtWork]
  | attempting id op rest =>
    simp only [AtWork, hphase] at hworking ⊢
    exact hworking
  | carrying id steps kept halt rest =>
    simp only [AtWork, hphase] at hworking ⊢
    refine ⟨hworking.1, ?_⟩
    cases hworking.2 with
    | nothing => exact .nothing
    | accepted draft stamp hrow hheard => exact .accepted draft stamp hrow hheard
    | settled draft stamp hsent => exact .settled draft stamp hsent
    | copied draft stamp hsent => exact .copied draft stamp hsent
    | marked draft => exact .marked draft
    | refused draft error told op hrow hheard => exact .refused draft error told op hrow hheard
    | told draft error told op hrow hheard hsaid =>
      exact .told draft error told op hrow hheard hsaid
    | other _ hrow honly => exact .other _ hrow honly

/-- A mail of no draft leaves every draft's submissions as they were. -/
theorem sound_post (sound : Sound s) (hidle : s.phase = .idle) (id : DraftId) (post : Posting)
    (leaves : DateTime) (ids : SendIds) :
    Sound (s.commit (unattached s.account id post leaves ids)) := by
  unfold Outgoing.commit
  split
  · rename_i done made hdone
    have haside := unattached_aside hdone
    refine ⟨haside.plain sound.plain, fun other hother => ?_, haside.waiting sound.waiting, ?_⟩
    · obtain ⟨hnone, hlow⟩ := sound.gone other hother
      exact ⟨haside.absent other hlow hnone, Nat.lt_of_lt_of_le hlow haside.next⟩
    · rw [AtWork, hidle]
      trivial
  · exact sound

theorem sound_step (sound : Sound s) (h : step s event = some next) : Sound next := by
  cases event with
  | look now =>
    simp only [step] at h
    split at h <;> cases h
    rename_i hphase
    have hwaiting := sound.waiting
    rw [hphase] at hwaiting
    exact ⟨sound.plain, sound.gone, hwaiting, trivial⟩
  | reach there =>
    simp only [step] at h
    split at h
    · rename_i hphase
      cases h
      have hwaiting := sound.waiting
      rw [hphase] at hwaiting
      exact ⟨sound.plain, sound.gone, hwaiting, trivial⟩
    · rename_i id rest hphase
      cases h
      exact sound_reach sound (by rw [hphase]; rfl) there id rest
    · cases h
  | answer outcome =>
    simp only [step] at h
    split at h
    · rename_i id op rest hphase
      cases h
      have hworking := sound.working
      have hwaiting := sound.waiting
      rw [AtWork, hphase] at hworking
      rw [hphase] at hwaiting
      refine ⟨sound.plain, sound.gone, ?_, hworking.1, ?_⟩
      · exact hwaiting.more (fun _ h => h) (by simp [Phase.unrecorded])
      · exact carrying_settle (s := { s with
          phase := .carrying id (settle op s.login (heardOf op outcome) s.now).steps none
            (settle op s.login (heardOf op outcome) s.now).halt rest
          answers := (id, heardOf op outcome) :: s.answers }) hworking.2 rfl
    · cases h
  | carry beside =>
    simp only [step] at h
    split at h
    · rename_i id kept halt rest hphase
      cases h
      have hwaiting := sound.waiting
      rw [hphase] at hwaiting
      have hnone : (if halt then Phase.idle else .walking rest).unrecorded = [] := by
        split <;> rfl
      refine ⟨sound.plain, sound.gone, ?_, ?_⟩
      · rw [hnone]
        exact hwaiting
      · rw [AtWork]
        cases halt <;> trivial
    · rename_i id now steps kept halt rest hphase
      cases h
      exact sound_carry sound hphase beside
    · cases h
  | stop =>
    cases h
    refine ⟨sound.plain, sound.gone, ?_, trivial⟩
    exact sound.waiting.more (fun _ h => h) (List.subset_append_left _ _)
  | place remoteMap unplaced =>
    cases h
    exact sound_place sound remoteMap unplaced
  | send draft post hasServer leaves now ids =>
    simp only [step] at h
    split at h
    · rename_i read hphase hread
      split at h <;> cases h
      · refine sound_commit sound hphase read.id fun done made hdone => ?_
        obtain ⟨hsends, hrow⟩ := frozen_sends hdone
        exact ⟨hsends, fun _ _ _ => hrow⟩
      · exact sound
    · cases h
  | post id post leaves ids =>
    simp only [step] at h
    split at h
    · rename_i hphase
      cases h
      exact sound_post sound hphase id post leaves ids
    · cases h
  | unsend draft now id =>
    simp only [step] at h
    split at h
    · rename_i stored hphase hstored
      split at h <;> cases h
      · rename_i commit hunsend
        refine sound_commit sound hphase stored.id fun done made hdone => ?_
        obtain ⟨hsends, hback⟩ := unsend_sends hunsend hdone
        refine ⟨hsends, fun held hheld hstate => ?_⟩
        rw [hback] at hheld
        cases hheld
        rcases hstate with hstate | hstate <;> cases hstate
      · exact sound
    · cases h

variable {events : List Event} {last : Outgoing}

theorem sound_run (sound : Sound s) (h : run s events = some last) : Sound last := by
  induction events generalizing s with
  | nil =>
    cases h
    exact sound
  | cons event rest ih =>
    obtain ⟨next, hstep, hrest⟩ := Option.bind_eq_some_iff.mp h
    exact ih (sound_step sound hstep) hrest

/-! ## What leaves the outbox, and what is attempted -/

/-- Why a submission's row may leave the outbox: the attempt in hand was accepted, or it was refused
for good and the draft, where there is one, already says why. -/
def Answered (s : Outgoing) (id : OutboxId) (draft : DraftId) : Prop :=
  s.answers.head? = some (id, .accepted) ∨
    ∃ error told op text, s.answers.head? = some (id, .refused error [] told) ∧
      refusedAs op s.login error = .fatal text ∧
      ∀ held, s.store.drafts.get draft = some held → held.state = .failed error.text (.fatal text)

theorem settled_keeps {other : OutboxId} (sound : Sound s) (how : Settle) (phase : Phase)
    (hother : rowOf s.store other = none) (hrow : rowOf s.store id = some draft) :
    rowOf (s.settled other how phase).store id = some draft := by
  unfold Outgoing.settled
  split
  · rename_i after hafter
    exact settleIn_other sound.plain hafter
      (fun heq => by rw [heq, hother] at hrow; cases hrow) hrow
  · exact hrow

theorem reach_keeps {other : OutboxId} (sound : Sound s) (there : List MessageId)
    (hrow : rowOf s.store id = some draft) :
    rowOf (s.reach there other rest).store id = some draft := by
  unfold Outgoing.reach
  split
  · exact hrow
  · exact hrow
  · rename_i hmoot
    exact settled_keeps sound _ _ (rowOf_unsent sound.plain hmoot fun op heq => by cases heq) hrow
  · rename_i reason hlost
    exact settled_keeps sound _ _ (rowOf_unsent sound.plain hlost fun op heq => by cases heq) hrow
  · split
    · rw [rowOf_markDraft]
      exact hrow
    · exact hrow

theorem settleRow_keeps {other : OutboxId} {how : Settle} (sound : Sound s)
    (hrow : rowOf s.store id = some draft) (hother : id ≠ other)
    (next : Option MessageId → Phase) :
    rowOf (s.carry beside other next kept (.settleRow how)).store id = some draft := by
  rcases carry_settleRow s beside other next kept how with ⟨after, hafter, hnext⟩ | hnext <;>
    rw [hnext]
  · exact settleIn_other sound.plain hafter hother hrow
  · exact hrow

/-- One step of a settlement takes no submission's row but the one in hand. -/
theorem carry_answered {other : OutboxId} (sound : Sound s)
    (hphase : s.phase = .carrying other (now :: steps) kept halt rest)
    (hrow : rowOf s.store id = some draft)
    (hgone : rowOf (s.carry beside other (fun kept => .carrying other steps kept halt rest) kept
      now).store id = none) : Answered s id draft := by
  have hworking := sound.working
  rw [AtWork, hphase] at hworking
  obtain ⟨-, hcarrying⟩ := hworking
  have habsurd : ∀ {store : Sqlite}, rowOf store id = some draft → rowOf store id = none →
      Answered s id draft := fun hsome hnone => by
    rw [hsome] at hnone
    cases hnone
  generalize hsteps : now :: steps = all at hcarrying
  cases hcarrying with
  | nothing => cases hsteps
  | accepted owner stamp howner hheard =>
    cases hsteps
    by_cases heq : id = other
    · subst heq
      exact .inl hheard
    · exact habsurd (settleRow_keeps sound hrow heq _) hgone
  | settled owner stamp hsent =>
    cases hsteps
    exact habsurd ((keepSentCopy_aside s.store s.account s.now beside).row id draft hrow) hgone
  | copied owner stamp hsent =>
    cases hsteps
    rw [Outgoing.carry, rowOf_markDraft] at hgone
    exact habsurd hrow hgone
  | marked owner =>
    cases hsteps
    exact habsurd ((dropDraftCopies_aside s.store s.now beside owner).row id draft hrow) hgone
  | refused owner error told op howner hheard =>
    cases hsteps
    rw [Outgoing.carry, rowOf_markDraft] at hgone
    exact habsurd hrow hgone
  | told owner error told op howner hheard hsaid =>
    cases hsteps
    by_cases heq : id = other
    · subst heq
      rcases carry_settleRow s beside id _ kept _ with ⟨after, hafter, hnext⟩ | hnext <;>
        rw [hnext] at hgone
      · rw [hrow] at howner
        cases howner
        cases hretry : refusedAs op s.login error with
        | fatal text =>
          rw [hretry] at hsaid
          exact .inr ⟨error, told, op, text, hheard, hretry, hsaid⟩
        | now | after _ | needsReauth | needsGrant =>
          exact habsurd (settleIn_stays hafter (by rw [hretry]; rfl) hrow) hgone
      · exact habsurd hrow hgone
    · exact habsurd (settleRow_keeps sound hrow heq _) hgone
  | other _ hnone honly =>
    subst hsteps
    have hother : id ≠ other := fun heq => by
      rw [← heq, hrow] at hnone
      cases hnone
    rcases honly now (.head _) with ⟨how, rfl⟩ | rfl
    · exact habsurd (settleRow_keeps sound hrow hother _) hgone
    · exact habsurd hrow hgone

theorem step_answered (sound : Sound s) (h : step s event = some next)
    (hdrains : event.drains = true) (hrow : rowOf s.store id = some draft)
    (hgone : rowOf next.store id = none) :
    Answered s id draft := by
  have hsame : rowOf s.store id = rowOf next.store id → Answered s id draft := fun heq => by
    rw [hrow, hgone] at heq
    cases heq
  cases event with
  | look now | answer outcome =>
    simp only [step] at h
    split at h <;> cases h
    exact hsame rfl
  | stop | place remoteMap unplaced =>
    cases h
    exact hsame rfl
  | send draft post hasServer leaves now ids | post id post leaves ids | unsend draft now id =>
    cases hdrains
  | reach there =>
    simp only [step] at h
    split at h <;> cases h
    · exact hsame rfl
    · exact hsame (hrow.trans (reach_keeps sound there hrow).symm)
  | carry beside =>
    simp only [step] at h
    split at h <;> cases h
    · exact hsame rfl
    · rename_i hphase
      exact carry_answered sound hphase hrow hgone

theorem step_attempts (h : step s event = some next) (hnone : s.store.outbox.get id.raw = none) :
    next.attempts.count id = s.attempts.count id := by
  cases event with
  | look now | answer outcome =>
    simp only [step] at h
    split at h <;> cases h
    rfl
  | stop | place remoteMap unplaced =>
    cases h
    rfl
  | send draft post hasServer leaves now ids | unsend draft now id =>
    simp only [step] at h
    split at h
    · split at h <;> cases h
      · unfold Outgoing.commit
        split <;> rfl
      · rfl
    · cases h
  | post id post leaves ids =>
    simp only [step] at h
    split at h <;> cases h
    unfold Outgoing.commit
    split <;> rfl
  | reach there =>
    simp only [step] at h
    split at h
    · cases h
      rfl
    · rename_i other rest hphase
      cases h
      unfold Outgoing.reach
      split
      · rfl
      · rfl
      · unfold Outgoing.settled
        split <;> rfl
      · unfold Outgoing.settled
        split <;> rfl
      · rename_i op hsend
        obtain ⟨⟨entry, hentry⟩, _⟩ := dispatch_submits hsend
        refine List.count_cons_of_ne (fun heq => ?_)
        rw [heq, hnone] at hentry
        cases hentry
    · cases h
  | carry beside =>
    simp only [step] at h
    split at h
    · cases h
      rfl
    · rename_i other now steps kept halt rest hphase
      cases h
      cases now with
      | settleRow how =>
        rcases carry_settleRow s beside other _ kept how with ⟨after, _, hnext⟩ | hnext <;>
          rw [hnext]
      | keepUpload | keepSentCopy | mark draft mark | dropDraftCopies draft => rfl
    · cases h

theorem step_sent (h : step s event = some next) : s.sent ⊆ next.sent := by
  have hcommit : ∀ commit, (s.commit commit).sent = s.sent := fun commit => by
    unfold Outgoing.commit
    split <;> rfl
  have hsettled : ∀ id how phase, (s.settled id how phase).sent = s.sent := fun id how phase => by
    unfold Outgoing.settled
    split <;> rfl
  cases event with
  | look now | answer outcome =>
    simp only [step] at h
    split at h <;> cases h
    exact fun _ h => h
  | stop | place remoteMap unplaced =>
    cases h
    exact fun _ h => h
  | send draft post hasServer leaves now ids | unsend draft now id =>
    simp only [step] at h
    split at h
    · split at h <;> cases h
      · rw [hcommit]
        exact fun _ h => h
      · exact fun _ h => h
    · cases h
  | post id post leaves ids =>
    simp only [step] at h
    split at h <;> cases h
    rw [hcommit]
    exact fun _ h => h
  | reach there =>
    simp only [step] at h
    split at h
    · cases h
      exact fun _ h => h
    · cases h
      unfold Outgoing.reach
      split
      · exact fun _ h => h
      · exact fun _ h => h
      · rw [hsettled]
        exact fun _ h => h
      · rw [hsettled]
        exact fun _ h => h
      · exact fun _ h => h
    · cases h
  | carry beside =>
    simp only [step] at h
    split at h
    · cases h
      exact fun _ h => h
    · rename_i other now steps kept halt rest hphase
      cases h
      cases now with
      | settleRow how =>
        rcases carry_settleRow s beside other _ kept how with ⟨after, _, hnext⟩ | hnext <;>
          rw [hnext]
        · dsimp only
          split
          · exact List.subset_cons_self _ _
          · exact fun _ h => h
        · exact fun _ h => h
      | keepUpload | keepSentCopy | mark draft mark | dropDraftCopies draft => exact fun _ h => h
    · cases h

theorem run_attempts (sound : Sound s) (h : run s events = some last) (hsent : id ∈ s.sent) :
    last.attempts.count id = s.attempts.count id := by
  induction events generalizing s with
  | nil =>
    cases h
    rfl
  | cons event rest ih =>
    obtain ⟨next, hstep, hrest⟩ := Option.bind_eq_some_iff.mp h
    rw [ih (sound_step sound hstep) hrest (step_sent hstep hsent),
      step_attempts hstep (sound.gone id hsent).1]

/-- No send is attempted again once its row was settled as accepted; a drain takes a row out only
after an accepted attempt, or after a refusal for good that its draft already gives the reason of;
and while nothing is running each draft that says queued or sending has a row, unless its send was
accepted and the process stopped before it said so in the draft. -/
theorem sends_kept {store : Sqlite} (ready : Ready store) {account : AccountId} {login : Login}
    {events : List Event} {s : Outgoing} (h : run (.start account login store) events = some s) :
    (∀ id ∈ s.sent, ∀ more last, run s more = some last →
      last.attempts.count id = s.attempts.count id) ∧
    (∀ event next id draft, step s event = some next → event.drains = true →
      rowOf s.store id = some draft → rowOf next.store id = none → Answered s id draft) ∧
    (s.phase = .idle → Waiting s.store s.sent s.cut) := by
  have sound := sound_run (ready.sound account login) h
  refine ⟨fun id hid more last hmore => run_attempts sound hmore hid,
    fun event next id draft hstep hdrains hrow hgone =>
      step_answered sound hstep hdrains hrow hgone, fun hidle => ?_⟩
  have hwaiting := sound.waiting
  rw [hidle] at hwaiting
  exact hwaiting.more (fun _ h => h) (by simp [Phase.unrecorded])

end Steps

/-- A draft not sent yet, and nothing queued. -/
def drafted : Sqlite :=
  { Sqlite.empty with drafts := Table.empty.set ⟨1⟩ ⟨⟨1⟩, ⟨1⟩, .editing, 0⟩ }

theorem drafted_ready : Ready drafted where
  plain id entry hentry := by cases hentry
  waiting draft held hheld hstate := by
    change (Table.empty.set _ _).get draft = _ at hheld
    rw [Table.get_set] at hheld
    split at hheld
    · cases hheld
      rcases hstate with hstate | hstate <;> cases hstate
    · cases hheld

def nothingBeside : Beside := ⟨none, none, none⟩

def sentAndAccepted : List Event :=
  [.send ⟨1⟩ ⟨⟨7⟩, "me@example.test", ["bea@example.test"], .unrequested⟩ true .now 10 ⟨⟨1⟩, ⟨2⟩⟩,
    .look 20, .reach [], .answer .accepted]

def carriedOut : List Event :=
  [.carry nothingBeside, .carry nothingBeside, .carry nothingBeside, .carry nothingBeside,
    .carry nothingBeside, .reach []]

theorem sends_kept_accepted :
    ∃ s, @run Unicode.ascii (.start ⟨1⟩ .apart drafted) (sentAndAccepted ++ carriedOut) = some s ∧
      s.sent = [⟨1⟩] ∧ s.phase = .idle ∧ Waiting s.store s.sent s.cut := by
  have hrun : ((@run Unicode.ascii (.start ⟨1⟩ .apart drafted)
      (sentAndAccepted ++ carriedOut)).map fun s => (s.sent, s.phase)) =
      some ([⟨1⟩], .idle) := by decide +kernel
  obtain ⟨s, hs, hends⟩ := Option.map_eq_some_iff.mp hrun
  rw [Prod.mk.injEq] at hends
  exact ⟨s, hs, hends.1, hends.2, (@sends_kept Unicode.ascii _ drafted_ready _ _ _ _ hs).2.2 hends.2⟩

/-- The process stops once the row of an accepted send is settled: the draft says that it is on its
way, and no row is left to send it. -/
theorem accepted_and_cut_off : Ready drafted ∧
      ∃ s, @run Unicode.ascii (.start ⟨1⟩ .apart drafted)
          (sentAndAccepted ++ [.carry nothingBeside, .stop]) = some s ∧ s.phase = .idle ∧
        (s.store.drafts.get ⟨1⟩).map Draft.state = some .sending ∧
        ∀ id, rowOf s.store id = none := by
  have hrun : ((@run Unicode.ascii (.start ⟨1⟩ .apart drafted) (sentAndAccepted ++
      [.carry nothingBeside, .stop])).map fun s =>
        (s.phase, (s.store.drafts.get ⟨1⟩).map Draft.state, s.store.outbox.rows.length)) =
      some (.idle, some .sending, 0) := by decide +kernel
  obtain ⟨s, hs, hends⟩ := Option.map_eq_some_iff.mp hrun
  simp only [Prod.mk.injEq] at hends
  refine ⟨drafted_ready, s, hs, hends.1, hends.2.1, fun id => ?_⟩
  rw [rowOf, Series.get, List.length_eq_zero_iff.mp hends.2.2]
  rfl

end Mailo.Core
