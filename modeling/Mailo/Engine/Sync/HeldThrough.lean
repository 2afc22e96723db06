import Mailo.Engine.Sync.Pass

/-!
# What lies under the held-through mark

A survey resumes at the mark the store keeps, and never asks again for what lies below it. While the
server keeps what UIDNEXT and UIDVALIDITY promise, everything there below the mark is held, or was
marked unreadable, whatever the passes in between came to.
-/

namespace Mailo.Engine.Sync

open Domain
open Logic (Duration)

/-- An arrival takes no UID below a UIDNEXT that was reported, and a UIDVALIDITY given up is not
taken again. -/
def Promises (server : Server) : ServerEvent → Prop
  | .arrive uid => server.now.promised ≤ uid
  | .expunge _ => True
  | .renumber validity => ∀ epoch ∈ server.past, epoch.validity ≠ validity

instance (server : Server) (event : ServerEvent) : Decidable (Promises server event) := by
  cases event <;> unfold Promises <;> infer_instance

def Kept (world : World) : Event → Prop
  | .server event => Promises world.server event
  | _ => True

instance (world : World) (event : Event) : Decidable (Kept world event) := by
  cases event <;> unfold Kept <;> infer_instance

def Promised (mailbox : String) (every : Duration) (world : World) : List Event → Prop
  | [] => True
  | event :: rest =>
    Kept world event ∧
      ∀ next ∈ step mailbox every world event, Promised mailbox every next rest

instance decidablePromised (mailbox : String) (every : Duration) :
    (events : List Event) → (world : World) → Decidable (Promised mailbox every world events)
  | [], _ => .isTrue trivial
  | event :: rest, world =>
    have : DecidablePred fun next => Promised mailbox every next rest :=
      decidablePromised mailbox every rest
    inferInstanceAs (Decidable (Kept world event ∧
      ∀ next ∈ step mailbox every world event, Promised mailbox every next rest))

/-- A message whose address is in the store, or that could not be read. -/
def Known (rows : Rows) (remote : RemoteRef) : Prop :=
  remote ∈ rows.refs ∨ ∃ time, (remote, time) ∈ rows.unreadable

def HeldThrough (mailbox : String) (world : World) : Prop :=
  ∀ validity uidnext modseq, world.rows.heldThrough = some (.imap validity uidnext modseq) →
    world.server.now.validity = validity →
      ∀ uid ∈ world.server.now.present, uid < uidnext →
        Known world.rows (.imap mailbox validity uid)

/-! ## Bounds on a server's messages -/

variable {mailbox : String} {every : Duration}

/-- A place the server named, below which every message still there satisfies `P`. -/
structure Bound (mailbox : String) (server : Server) (validity uidnext : UInt32)
    (P : RemoteRef → Prop) : Prop where
  seen : validity = 0 ∨ validity = server.now.validity ∨
    ∃ epoch ∈ server.past, epoch.validity = validity
  promised : validity = server.now.validity → uidnext ≤ server.now.promised
  covers : validity = server.now.validity →
    ∀ uid ∈ server.now.present, uid < uidnext → P (.imap mailbox validity uid)

variable {P : RemoteRef → Prop} {server next : Server} {uidnext validity : UInt32}
  {event : ServerEvent} {cursor : Option SyncCursor} {fresh : SyncCursor} {modseq : Option Nat}
  {world : World} {pass : Pass} {survey : Survey} {rows : Rows} {listed : List (RemoteRef × UInt64)}
  {remote : RemoteRef}

theorem Bound.mono {Q : RemoteRef → Prop} (hbound : Bound mailbox server validity uidnext P)
    (h : validity = server.now.validity → ∀ uid ∈ server.now.present,
      P (.imap mailbox validity uid) → Q (.imap mailbox validity uid)) :
    Bound mailbox server validity uidnext Q where
  seen := hbound.seen
  promised := hbound.promised
  covers hnow uid hpresent hbelow := h hnow uid hpresent (hbound.covers hnow uid hpresent hbelow)

theorem renumbered_validity (server : Server) (validity : UInt32) (named : validity ≠ 0) :
    ((server.past.find? fun epoch => epoch.validity == validity).getD
      (Epoch.fresh validity named)).validity = validity := by
  cases hfind : server.past.find? fun epoch => epoch.validity == validity with
  | none => rfl
  | some epoch => simpa using List.find?_some hfind

/-- What a server that keeps its promises does to its mailbox, seen from a validity it named. -/
theorem step_now (hstep : server.step event = some next) (hpromises : Promises server event)
    (hseen : validity = 0 ∨ validity = server.now.validity ∨
      ∃ epoch ∈ server.past, epoch.validity = validity) :
    (validity = 0 ∨ validity = next.now.validity ∨ ∃ epoch ∈ next.past, epoch.validity = validity) ∧
    (validity = next.now.validity →
      validity = server.now.validity ∧ next.now.promised = server.now.promised ∧
      ∀ uid ∈ next.now.present, uid ∈ server.now.present ∨ server.now.promised ≤ uid) := by
  cases event with
  | arrive uid =>
    simp only [Server.step] at hstep
    split at hstep
    · cases hstep
      refine ⟨hseen, fun hnow => ⟨hnow, rfl, fun other hother => ?_⟩⟩
      rcases List.mem_append.mp hother with hold | hnew
      · exact .inl hold
      · obtain rfl := List.mem_singleton.mp hnew
        exact .inr hpromises
    · cases hstep
  | expunge uid =>
    cases hstep
    exact ⟨hseen, fun hnow => ⟨hnow, rfl, fun other hother => .inl (List.mem_filter.mp hother).1⟩⟩
  | renumber fresh =>
    simp only [Server.step] at hstep
    split at hstep
    · next hguard =>
        cases hstep
        constructor
        · rcases hseen with hzero | hnow | ⟨epoch, hmem, hvalidity⟩
          · exact .inl hzero
          · exact .inr (.inr ⟨server.now, .head _, hnow.symm⟩)
          · exact .inr (.inr ⟨epoch, .tail _ hmem, hvalidity⟩)
        · intro hnow
          have hfresh : validity = fresh := by
            rw [hnow]
            exact renumbered_validity server fresh hguard.1
          exfalso
          rcases hseen with hzero | hnow | ⟨epoch, hmem, hvalidity⟩
          · exact hguard.1 (hfresh ▸ hzero)
          · exact hguard.2 (hfresh ▸ hnow)
          · exact hpromises epoch hmem (hvalidity.trans hfresh)
    · cases hstep

theorem Bound.step (hbound : Bound mailbox server validity uidnext P)
    (hstep : server.step event = some next) (hpromises : Promises server event) :
    Bound mailbox next validity uidnext P := by
  obtain ⟨hseen, hnow⟩ := step_now hstep hpromises hbound.seen
  refine ⟨hseen, fun hsame => ?_, fun hsame uid hpresent hbelow => ?_⟩
  · obtain ⟨hwas, hpromised, _⟩ := hnow hsame
    rw [hpromised]
    exact hbound.promised hwas
  · obtain ⟨hwas, _, hmessages⟩ := hnow hsame
    rcases hmessages uid hpresent with hold | harrived
    · exact hbound.covers hwas uid hold hbelow
    · have hle := hbound.promised hwas
      grind

theorem le_promise (epoch : Epoch) (uidnext : UInt32) :
    epoch.promised ≤ (epoch.promise uidnext).promised ∧ uidnext ≤ (epoch.promise uidnext).promised := by
  simp only [Epoch.promise]
  grind

theorem Bound.promise (hbound : Bound mailbox server validity uidnext P) (fresh : SyncCursor) :
    Bound mailbox (server.promise fresh) validity uidnext P := by
  cases fresh with
  | imap other next modseq =>
    refine ⟨hbound.seen, fun hsame => ?_, hbound.covers⟩
    exact UInt32.le_trans (hbound.promised hsame) (le_promise server.now next).1
  | pop | graph | jmap => exact hbound

/-- A cursor that names the validity of a mark, or names none. -/
def Agrees (server : Server) (mark cursor : Option SyncCursor) : Prop :=
  ∀ validity uidnext modseq, mark = some (.imap validity uidnext modseq) →
    validity = server.now.validity →
      ∃ named next seq, cursor = some (.imap named next seq) ∧ (named = validity ∨ named = 0)

/-- Between two cursors that agree with a mark of the validity there is now, nothing was
renumbered. -/
theorem between_agrees (hnow : validity = server.now.validity)
    (hcursor : Agrees server (some (.imap validity uidnext modseq)) cursor)
    (hfresh : Agrees server (some (.imap validity uidnext modseq)) (some fresh)) :
    UidValidity.between cursor fresh = .same := by
  obtain ⟨was, wasNext, wasSeq, hwas, hwasSame⟩ := hcursor validity uidnext modseq rfl hnow
  obtain ⟨named, next, seq, hnamed, hsame⟩ := hfresh validity uidnext modseq rfl hnow
  cases hwas
  cases hnamed
  apply between_same
  grind

/-- A survey that resumes does so at the mark. -/
def Starts (rows : Rows) (survey : Survey) : Prop :=
  ∀ start, survey = .since start →
    ∃ validity uidnext modseq, start = .imap validity uidnext modseq ∧
      rows.heldThrough = some start ∧ validity ≠ 0

/-- The server's answer to the survey's SELECT, and what is known of the messages below it. -/
structure Answered (mailbox : String) (server : Server) (rows : Rows) (pass : Pass)
    (survey : Survey) (fresh : SyncCursor) (P : RemoteRef → Prop) : Prop where
  starts : Starts rows survey
  cursor : pass.state.cursor = rows.cursor
  agrees : Agrees server rows.heldThrough (some fresh)
  bound : ∃ validity uidnext modseq, fresh = .imap validity uidnext modseq ∧
    Bound mailbox server validity uidnext P

def PassSound (mailbox : String) (server : Server) (rows : Rows) (pass : Pass) : Prop :=
  match pass.phase with
  | .asking survey => Starts rows survey ∧ pass.state.cursor = rows.cursor
  | .listing survey fresh => Answered mailbox server rows pass survey fresh fun _ => True
  | .keeping survey fresh listed =>
    survey.redo (some fresh) = false ∧
    Answered mailbox server rows pass survey fresh fun remote =>
      remote ∈ listed.map Prod.fst ∨ (survey.resumed = true ∧ Known rows remote)
  | .fetching wanted _ _ =>
    ∃ validity uidnext modseq, rows.cursor = some (.imap validity uidnext modseq) ∧
      Bound mailbox server validity uidnext fun remote =>
        Known rows remote ∨ remote ∈ wanted.map Prod.fst

structure Sound (mailbox : String) (world : World) : Prop where
  mark : ∀ validity uidnext modseq,
    world.rows.heldThrough = some (.imap validity uidnext modseq) →
      Bound mailbox world.server validity uidnext (Known world.rows)
  agrees : Agrees world.server world.rows.heldThrough world.rows.cursor
  pass : ∀ pass, world.pass = some pass → PassSound mailbox world.server world.rows pass

theorem sound_empty (epoch : Epoch) : Sound mailbox (World.start epoch) where
  mark := by intro _ _ _ h; cases h
  agrees := by intro _ _ _ h; cases h
  pass := by intro _ h; cases h

variable {mark : Option SyncCursor} {gone remotes skipped : List RemoteRef} {time : DateTime}
  {fetched : Nat} {rest : List UInt64} {wanted : List (RemoteRef × UInt64)}

theorem Agrees.step (hagrees : Agrees server mark cursor) (hstep : server.step event = some next)
    (hpromises : Promises server event)
    (hseen : ∀ validity uidnext modseq, mark = some (.imap validity uidnext modseq) →
      validity = 0 ∨ validity = server.now.validity ∨
        ∃ epoch ∈ server.past, epoch.validity = validity) :
    Agrees next mark cursor := by
  intro validity uidnext modseq hmark hnow
  have hwas := (step_now hstep hpromises (hseen validity uidnext modseq hmark)).2 hnow
  exact hagrees validity uidnext modseq hmark hwas.1

theorem sound_server (hsound : Sound mailbox world) (hstep : world.server.step event = some server)
    (hpromises : Promises world.server event) :
    Sound mailbox { world with server := server } := by
  have hseen : ∀ validity uidnext modseq,
      world.rows.heldThrough = some (.imap validity uidnext modseq) →
        validity = 0 ∨ validity = world.server.now.validity ∨
          ∃ epoch ∈ world.server.past, epoch.validity = validity :=
    fun validity uidnext modseq hmark => (hsound.mark validity uidnext modseq hmark).seen
  have hanswered : ∀ {pass survey fresh P},
      Answered mailbox world.server world.rows pass survey fresh P →
        Answered mailbox server world.rows pass survey fresh P := by
    intro pass survey fresh P hwas
    obtain ⟨validity, uidnext, modseq, hfresh, hbound⟩ := hwas.bound
    exact ⟨hwas.starts, hwas.cursor, hwas.agrees.step hstep hpromises hseen,
      validity, uidnext, modseq, hfresh, hbound.step hstep hpromises⟩
  constructor
  · intro validity uidnext modseq hmark
    exact (hsound.mark validity uidnext modseq hmark).step hstep hpromises
  · exact hsound.agrees.step hstep hpromises hseen
  · intro pass hpass
    have hwas := hsound.pass pass hpass
    unfold PassSound at hwas ⊢
    cases hphase : pass.phase with
    | asking survey => simpa only [hphase] using hwas
    | listing survey fresh =>
      simp only [hphase] at hwas ⊢
      exact hanswered hwas
    | keeping survey fresh listed =>
      simp only [hphase] at hwas ⊢
      exact ⟨hwas.1, hanswered hwas.2⟩
    | fetching wanted rest fetched =>
      simp only [hphase] at hwas ⊢
      obtain ⟨validity, uidnext, modseq, hcursor, hbound⟩ := hwas
      exact ⟨validity, uidnext, modseq, hcursor, hbound.step hstep hpromises⟩

/-! ## The steps of a pass -/

theorem sound_start (hsound : Sound mailbox world) (now : DateTime) (budget : Nat) :
    Sound mailbox { world with
      pass := some ⟨now, budget, world.rows.state,
        .asking (surveyKind world.rows.state every now)⟩ } where
  mark := hsound.mark
  agrees := hsound.agrees
  pass := by
    rintro pass ⟨⟩
    exact ⟨fun start hstart => surveyKind_since hstart, rfl⟩

theorem promise_now (server : Server) (fresh : SyncCursor) :
    (server.promise fresh).now.validity = server.now.validity ∧
      (server.promise fresh).now.present = server.now.present ∧
      (server.promise fresh).past = server.past := by
  cases fresh <;> exact ⟨rfl, rfl, rfl⟩

theorem Agrees.promise (hagrees : Agrees server mark cursor) (fresh : SyncCursor) :
    Agrees (server.promise fresh) mark cursor := by
  intro validity uidnext modseq hmark hnow
  exact hagrees validity uidnext modseq hmark (hnow.trans (promise_now server fresh).1)

theorem reported_agrees (hreports : server.now.Reports fresh) (mark : Option SyncCursor) :
    Agrees (server.promise fresh) mark (some fresh) := by
  cases fresh with
  | imap validity uidnext modseq =>
    intro other next seq _ hnow
    refine ⟨validity, uidnext, modseq, rfl, ?_⟩
    rw [hnow]
    exact hreports.1
  | pop | graph | jmap => exact hreports.elim

theorem reported_bound (hreports : server.now.Reports fresh) :
    ∃ validity uidnext modseq, fresh = .imap validity uidnext modseq ∧
      Bound mailbox (server.promise fresh) validity uidnext fun _ => True := by
  cases fresh with
  | imap validity uidnext modseq =>
    refine ⟨validity, uidnext, modseq, rfl, ?_, ?_, fun _ _ _ _ => trivial⟩
    · exact hreports.1.elim (fun h => .inr (.inl h)) .inl
    · exact fun _ => (le_promise server.now uidnext).2
  | pop | graph | jmap => exact hreports.elim

theorem sound_selected (hsound : Sound mailbox world) (hpass : world.pass = some pass)
    (hphase : pass.phase = .asking survey) (hreports : world.server.now.Reports fresh) :
    Sound mailbox { world with
      server := world.server.promise fresh
      pass := some { pass with phase := .listing survey fresh } } where
  mark := fun validity uidnext modseq hmark =>
    (hsound.mark validity uidnext modseq hmark).promise fresh
  agrees := hsound.agrees.promise fresh
  pass := by
    rintro next ⟨⟩
    have hwas := hsound.pass pass hpass
    simp only [PassSound, hphase] at hwas
    exact ⟨hwas.1, hwas.2, reported_agrees hreports world.rows.heldThrough,
      reported_bound hreports⟩

theorem resumed_at (hstarts : Starts rows survey) (hresumed : survey.resumed = true)
    (hredo : survey.redo (some (.imap validity uidnext modseq)) = false) (hnamed : validity ≠ 0) :
    ∃ from_ seq, rows.heldThrough = some (.imap validity from_ seq) ∧
      survey.fetchSince.firstUid = some from_ := by
  cases survey with
  | whole => cases hresumed
  | since start =>
    obtain ⟨was, from_, seq, rfl, hmark, hwas⟩ := hstarts start rfl
    have hsame := same_of_between (of_decide_eq_false hredo)
    obtain rfl : was = validity := by grind
    exact ⟨from_, seq, hmark, rfl⟩

theorem sound_listed {first : UInt32} (hsound : Sound mailbox world)
    (hpass : world.pass = some pass) (hphase : pass.phase = .listing survey fresh)
    (hfirst : survey.fetchSince.firstUid = some first)
    (hlists : Lists mailbox world.server.now first fresh (listed.map Prod.fst)) :
    Sound mailbox { world with pass := some (pass.listed survey fresh listed) } where
  mark := hsound.mark
  agrees := hsound.agrees
  pass := by
    rintro next ⟨⟩
    have hwas := hsound.pass pass hpass
    simp only [PassSound, hphase] at hwas
    unfold Pass.listed
    split
    · exact ⟨fun start hstart => (by cases hstart), hwas.cursor⟩
    · next hredo =>
        have hredo : survey.redo (some fresh) = false := by simpa using hredo
        refine ⟨hredo, hwas.starts, hwas.cursor, hwas.agrees, ?_⟩
        obtain ⟨validity, uidnext, modseq, rfl, hbound⟩ := hwas.bound
        refine ⟨validity, uidnext, modseq, rfl, hbound.seen, hbound.promised, ?_⟩
        intro hnow uid hpresent hbelow
        by_cases hreached : first ≤ uid
        · exact .inl (hlists hnow uid hpresent hreached)
        · right
          cases survey with
          | whole =>
            cases hfirst
            have hpositive := (world.server.now.numbered uid hpresent).1
            exact absurd (by grind) hreached
          | since start =>
            have hnamed : validity ≠ 0 := hnow ▸ world.server.now.named
            obtain ⟨from_, seq, hmark, hfrom⟩ := resumed_at hwas.starts rfl hredo hnamed
            obtain rfl : from_ = first := Option.some.inj (hfrom.symm.trans hfirst)
            exact ⟨rfl, (hsound.mark validity from_ seq hmark).covers hnow uid hpresent
              (by grind)⟩

/-! ## Keeping a survey -/

theorem unreset (hagrees : Agrees server rows.heldThrough rows.cursor)
    (hanswered : Answered mailbox server rows pass survey fresh P)
    (hmark : rows.heldThrough = some (.imap validity uidnext modseq))
    (hnow : validity = server.now.validity) :
    UidValidity.between pass.state.cursor fresh = .same := by
  rw [hanswered.cursor]
  have hfresh := hanswered.agrees
  rw [hmark] at hagrees hfresh
  exact between_agrees hnow hagrees hfresh

theorem known_ingest (hknown : Known rows remote) (hgone : remote ∉ gone) :
    Known (rows.ingest .same cursor gone) remote := by
  rcases hknown with hheld | hunreadable
  · left
    simp [Rows.ingest, hheld, hgone]
  · exact .inr hunreadable

/-- The rows of a kept survey: the mark stays, the cursor is the survey's, and every address stays
unless the mailbox was renumbered. -/
theorem keep_rows {pass : Pass} {rows : Rows} {survey : Survey} {fresh : SyncCursor}
    {listed : List (RemoteRef × UInt64)} (hcursor : pass.state.cursor = rows.cursor) :
    (pass.keep rows survey fresh listed).heldThrough = rows.heldThrough ∧
    (pass.keep rows survey fresh listed).cursor = some fresh ∧
    (UidValidity.between pass.state.cursor fresh = .same →
      ∀ remote, Known rows remote → Known (pass.keep rows survey fresh listed) remote) := by
  unfold Pass.keep
  split
  · next hnothing =>
      simp only [mayHaveFoundNothing, Bool.and_eq_true, decide_eq_true_eq] at hnothing
      exact ⟨rfl, hcursor ▸ hnothing.1.2.symm, fun _ _ hknown => hknown⟩
  · refine ⟨rfl, rfl, fun hsame remote hknown => ?_⟩
    rw [hsame]
    exact known_ingest hknown List.not_mem_nil

theorem known_or_wanted {backlog : List (RemoteRef × UInt64)}
    (hlisted : remote ∈ listed.map Prod.fst) :
    Known rows remote ∨ remote ∈ (pass.wanted rows listed backlog).map Prod.fst := by
  obtain ⟨row, hrow, rfl⟩ := List.mem_map.mp hlisted
  have hnonempty : listed.isEmpty = false := by
    cases listed with
    | nil => cases hrow
    | cons _ _ => rfl
  by_cases hheld : row.1 ∈ rows.refs
  · exact .inl (.inl hheld)
  · by_cases hresting : row.1 ∈ rows.unreadableSince (restingSince pass.now)
    · obtain ⟨mark, hmark, hname⟩ := List.mem_map.mp hresting
      exact .inl (.inr ⟨mark.2, hname ▸ (List.mem_filter.mp hmark).1⟩)
    · right
      apply List.mem_map_of_mem
      unfold Pass.wanted
      rw [hnonempty]
      exact mem_headersWanted.mpr ⟨hrow, hheld, hresting⟩

theorem sound_kept (hsound : Sound mailbox world) (hpass : world.pass = some pass)
    (hphase : pass.phase = .keeping survey fresh listed) (backlog : List (RemoteRef × UInt64)) :
    Sound mailbox { world with
      rows := pass.keep world.rows survey fresh listed
      pass := some { pass with
        phase := .fetching (pass.wanted (pass.keep world.rows survey fresh listed) listed backlog)
          bands 0 } } := by
  have hwas := hsound.pass pass hpass
  simp only [PassSound, hphase] at hwas
  obtain ⟨hredo, hanswered⟩ := hwas
  obtain ⟨hmarkKept, hcursorKept, hknownKept⟩ :=
    @keep_rows pass world.rows survey fresh listed hanswered.cursor
  constructor
  · intro validity uidnext modseq hmark
    have hmark : world.rows.heldThrough = some (.imap validity uidnext modseq) :=
      hmarkKept.symm.trans hmark
    apply (hsound.mark validity uidnext modseq hmark).mono
    intro hnow uid _ hknown
    exact hknownKept (unreset hsound.agrees hanswered hmark hnow) _ hknown
  · show Agrees _ (pass.keep world.rows survey fresh listed).heldThrough
      (pass.keep world.rows survey fresh listed).cursor
    rw [hmarkKept, hcursorKept]
    exact hanswered.agrees
  · rintro next ⟨⟩
    obtain ⟨validity, uidnext, modseq, rfl, hbound⟩ := hanswered.bound
    refine ⟨validity, uidnext, modseq, hcursorKept, hbound.mono ?_⟩
    intro hnow uid _ hfound
    rcases hfound with hlisted | ⟨hresumed, hknown⟩
    · exact known_or_wanted hlisted
    · have hnamed : validity ≠ 0 := hnow ▸ world.server.now.named
      obtain ⟨from_, seq, hmark, _⟩ := resumed_at hanswered.starts hresumed hredo hnamed
      exact .inl (hknownKept (unreset hsound.agrees hanswered hmark hnow) _ hknown)

theorem sound_unkept (hsound : Sound mailbox world) (hpass : world.pass = some pass)
    (hphase : pass.phase = .keeping survey fresh listed) (moved : Bool) :
    Sound mailbox { world with
      rows := if moved && UidValidity.between pass.state.cursor fresh = .same
        then world.rows.ingest .same (some fresh) [] else world.rows
      pass := none } := by
  have hwas := hsound.pass pass hpass
  simp only [PassSound, hphase] at hwas
  split
  · constructor
    · intro validity uidnext modseq hmark
      apply (hsound.mark validity uidnext modseq hmark).mono
      exact fun _ _ _ hknown => known_ingest hknown List.not_mem_nil
    · exact hwas.2.agrees
    · rintro next ⟨⟩
  · exact ⟨hsound.mark, hsound.agrees, fun next hnext => (by cases hnext)⟩

/-! ## Fetching, and the end of a pass -/

theorem known_markUnreadable (h : Known rows remote ∨ remote ∈ remotes) :
    Known (rows.markUnreadable remotes time) remote := by
  by_cases hmarked : remote ∈ remotes
  · exact .inr ⟨time, List.mem_append_right _ (List.mem_map.mpr ⟨remote, hmarked, rfl⟩)⟩
  · rcases h with (hheld | ⟨was, hwas⟩) | hin
    · exact .inl hheld
    · exact .inr ⟨was, List.mem_append_left _ (List.mem_filter.mpr ⟨hwas, by simpa using hmarked⟩)⟩
    · exact absurd hin hmarked

theorem known_hold (h : Known rows remote ∨ remote ∈ remotes) :
    Known (rows.hold remotes) remote := by
  by_cases hheld : remote ∈ rows.refs
  · exact .inl (List.mem_append_left _ hheld)
  · rcases h with (hrefs | hunreadable) | hin
    · exact absurd hrefs hheld
    · exact .inr hunreadable
    · exact .inl (List.mem_append_right _ (List.mem_filter.mpr ⟨hin, by simpa using hheld⟩))

/-- Storing headers and marking what could not be read leaves everything known known. -/
theorem known_stored {stored : List RemoteRef}
    (h : Known rows remote ∨ remote ∈ stored ∨ remote ∈ skipped) :
    Known ((rows.hold stored).markUnreadable skipped time) remote := by
  apply known_markUnreadable
  rcases h with hknown | hstored | hskipped
  · exact .inl (known_hold (.inl hknown))
  · exact .inl (known_hold (.inr hstored))
  · exact .inr hskipped

theorem sound_fetched {left : List UInt64} {batch items : List RemoteRef}
    (hsound : Sound mailbox world) (hpass : world.pass = some pass)
    (hphase : pass.phase = .fetching wanted rest fetched)
    (hanswers : Answers mailbox world.server.now batch items) :
    Sound mailbox { world with
      rows := (world.rows.hold (items.filter (· ∉ skipped))).markUnreadable skipped pass.now
      pass := some { pass with
        phase := .fetching (wanted.filter fun row => row.1 ∉ batch) left
          (fetched + items.length) } } where
  mark := fun validity uidnext modseq hmark =>
    (hsound.mark validity uidnext modseq hmark).mono fun _ _ _ hknown =>
      known_stored (.inl hknown)
  agrees := hsound.agrees
  pass := by
    rintro next ⟨⟩
    have hwas := hsound.pass pass hpass
    simp only [PassSound, hphase] at hwas
    obtain ⟨validity, uidnext, modseq, hcursor, hbound⟩ := hwas
    refine ⟨validity, uidnext, modseq, hcursor, hbound.mono ?_⟩
    intro hnow uid hpresent hfound
    rcases hfound with hknown | hwanted
    · exact .inl (known_stored (.inl hknown))
    · obtain ⟨row, hrow, hname⟩ := List.mem_map.mp hwanted
      by_cases hbatch : row.1 ∈ batch
      · left
        apply known_stored
        rw [hname] at hbatch
        have hitem : RemoteRef.imap mailbox validity uid ∈ items := by
          subst hnow
          exact hanswers.2 uid hpresent hbatch
        by_cases hskipped : RemoteRef.imap mailbox validity uid ∈ skipped
        · exact .inr (.inr hskipped)
        · exact .inr (.inl (List.mem_filter.mpr ⟨hitem, by simpa using hskipped⟩))
      · exact .inr (List.mem_map.mpr
          ⟨row, List.mem_filter.mpr ⟨hrow, by simpa using hbatch⟩, hname⟩)

theorem sound_stopped (hsound : Sound mailbox world) (stored skipped : List RemoteRef)
    (time : DateTime) :
    Sound mailbox { world with
      rows := (world.rows.hold stored).markUnreadable skipped time
      pass := none } where
  mark := fun validity uidnext modseq hmark =>
    (hsound.mark validity uidnext modseq hmark).mono fun _ _ _ hknown =>
      known_stored (.inl hknown)
  agrees := hsound.agrees
  pass := by rintro next ⟨⟩

theorem markHeld_cases (rows : Rows) :
    rows.markHeld = rows ∨
    ∃ validity uidnext modseq, rows.cursor = some (.imap validity uidnext modseq) ∧
      rows.markHeld = { rows with heldThrough := some (.imap validity uidnext none) } := by
  unfold Rows.markHeld heldMark
  cases hcursor : rows.cursor with
  | none => exact .inl rfl
  | some cursor =>
    cases cursor with
    | imap validity uidnext modseq =>
      by_cases hheld : rows.heldThrough = some (.imap validity uidnext none)
      · left
        simp only [hheld, if_true]
      · simp only [hheld, if_false, Rows.markHeldThrough, hcursor, Option.isSome_some, if_true]
        exact .inr ⟨validity, uidnext, modseq, rfl, rfl⟩
    | pop | graph | jmap => exact .inl rfl

theorem sound_idle (hsound : Sound mailbox world) :
    Sound mailbox { world with pass := none } :=
  ⟨hsound.mark, hsound.agrees, fun next hnext => (by cases hnext)⟩

theorem sound_finished (hsound : Sound mailbox world) (hpass : world.pass = some pass)
    (hphase : pass.phase = .fetching wanted rest fetched) :
    Sound mailbox { world with
      rows := if wanted.isEmpty then world.rows.markHeld else world.rows
      pass := none } := by
  cases wanted with
  | cons row others => exact sound_idle hsound
  | nil =>
    have hwas := hsound.pass pass hpass
    simp only [PassSound, hphase] at hwas
    obtain ⟨validity, uidnext, modseq, hcursor, hbound⟩ := hwas
    rcases markHeld_cases world.rows with hsame | ⟨named, next, seq, hnamed, hmarked⟩
    · rw [hsame]
      exact sound_idle hsound
    · rw [hmarked]
      cases hnamed.symm.trans hcursor
      constructor
      · intro held through mod hmark
        cases hmark
        apply hbound.mono
        intro _ _ _ hfound
        exact hfound.resolve_right (by simp)
      · intro held through mod hmark _
        cases hmark
        exact ⟨validity, uidnext, modseq, hcursor, .inl rfl⟩
      · rintro next ⟨⟩

theorem markExpungesSwept_kept (rows : Rows) (expunges : Option DateTime) :
    (expunges.elim rows rows.markExpungesSwept).heldThrough = rows.heldThrough ∧
    (expunges.elim rows rows.markExpungesSwept).cursor = rows.cursor ∧
    ∀ remote, Known rows remote → Known (expunges.elim rows rows.markExpungesSwept) remote := by
  cases expunges with
  | none => exact ⟨rfl, rfl, fun _ hknown => hknown⟩
  | some time =>
    unfold Rows.markExpungesSwept
    split <;> exact ⟨rfl, rfl, fun _ hknown => hknown⟩

theorem sound_swept (hsound : Sound mailbox world) (hidle : world.pass = none)
    (expunges : Option DateTime) (hreports : ∀ fresh ∈ cursor, world.server.now.Reports fresh)
    (hgone : ∀ uid ∈ world.server.now.present,
      .imap mailbox world.server.now.validity uid ∉ gone) :
    Sound mailbox { world with
      server := cursor.elim world.server world.server.promise
      rows := expunges.elim (world.rows.ingest .same cursor gone)
        (world.rows.ingest .same cursor gone).markExpungesSwept } := by
  obtain ⟨hmarkKept, hcursorKept, hknownKept⟩ :=
    markExpungesSwept_kept (world.rows.ingest .same cursor gone) expunges
  have hbelow : ∀ validity uidnext modseq,
      world.rows.heldThrough = some (.imap validity uidnext modseq) →
        Bound mailbox world.server validity uidnext
          (Known (expunges.elim (world.rows.ingest .same cursor gone)
            (world.rows.ingest .same cursor gone).markExpungesSwept)) := by
    intro validity uidnext modseq hmark
    apply (hsound.mark validity uidnext modseq hmark).mono
    intro hnow uid hpresent hknown
    subst hnow
    exact hknownKept _ (known_ingest hknown (hgone uid hpresent))
  constructor
  · intro validity uidnext modseq hmark
    have hwas := hbelow validity uidnext modseq (hmarkKept.symm.trans hmark)
    cases cursor with
    | none => exact hwas
    | some fresh => exact hwas.promise fresh
  · show Agrees _ _ _
    rw [hmarkKept, hcursorKept]
    cases cursor with
    | none => exact hsound.agrees
    | some fresh => exact reported_agrees (hreports fresh rfl) _
  · intro pass hpass
    exact absurd (hidle.symm.trans hpass) (by simp)

/-! ## Runs -/

theorem sound_step {next : World} {event : Event} (hsound : Sound mailbox world)
    (hkept : Kept world event) (hstep : step mailbox every world event = some next) :
    Sound mailbox next := by
  cases event with
  | server happening =>
    simp only [step, Option.map_eq_some_iff] at hstep
    obtain ⟨server, hserver, rfl⟩ := hstep
    exact sound_server hsound hserver hkept
  | start now budget =>
    simp only [step] at hstep
    split at hstep
    · cases hstep
    · cases hstep
      exact sound_start hsound now budget
  | selected fresh =>
    simp only [step] at hstep
    split at hstep
    · next pass hpass =>
        split at hstep
        · next survey hphase =>
            split at hstep
            · next hreports =>
                cases hstep
                exact sound_selected hsound hpass hphase hreports
            · cases hstep
        · cases hstep
    · cases hstep
  | listed listed =>
    simp only [step] at hstep
    split at hstep
    · next pass hpass =>
        split at hstep
        · next survey fresh hphase =>
            split at hstep
            · cases hstep
            · next first hfirst =>
                split at hstep
                · next hlists =>
                    cases hstep
                    exact sound_listed hsound hpass hphase hfirst hlists
                · cases hstep
        · cases hstep
    · cases hstep
  | kept backlog =>
    simp only [step] at hstep
    split at hstep
    · next pass hpass =>
        split at hstep
        · next survey fresh listed hphase =>
            cases hstep
            exact sound_kept hsound hpass hphase backlog
        · cases hstep
    · cases hstep
  | unkept moved =>
    simp only [step] at hstep
    split at hstep
    · next pass hpass =>
        split at hstep
        · next survey fresh listed hphase =>
            cases hstep
            exact sound_unkept hsound hpass hphase moved
        · cases hstep
    · cases hstep
  | fetched items skipped =>
    simp only [step] at hstep
    split at hstep
    · next pass hpass =>
        split at hstep
        · next wanted rest fetched hphase =>
            split at hstep
            · next hguard =>
                cases hstep
                exact sound_fetched hsound hpass hphase hguard.2.1
            · cases hstep
        · cases hstep
    · cases hstep
  | stopped stored skipped =>
    simp only [step] at hstep
    split at hstep
    · next pass hpass =>
        split at hstep
        · cases hstep
          exact sound_stopped hsound stored skipped pass.now
        · cases hstep
    · cases hstep
  | finished =>
    simp only [step] at hstep
    split at hstep
    · next pass hpass =>
        split at hstep
        · next wanted rest fetched hphase =>
            split at hstep
            · cases hstep
              exact sound_finished hsound hpass hphase
            · cases hstep
        · cases hstep
    · cases hstep
  | swept cursor gone expunges =>
    simp only [step] at hstep
    split at hstep
    · cases hstep
    · next hidle =>
        split at hstep
        · next hguard =>
            cases hstep
            exact sound_swept hsound hidle expunges hguard.1 hguard.2
        · cases hstep

theorem sound_run {last : World} {events : List Event} (hsound : Sound mailbox world)
    (hpromised : Promised mailbox every world events)
    (hrun : run mailbox every world events = some last) : Sound mailbox last := by
  induction events generalizing world with
  | nil =>
    cases hrun
    exact hsound
  | cons event rest ih =>
    obtain ⟨next, hstep, hrest⟩ := Option.bind_eq_some_iff.mp hrun
    exact ih (sound_step hsound hpromised.1 hstep) (hpromised.2 next hstep) hrest

/-- Whatever passes a mailbox had, everything there below its mark is held or was marked unreadable,
while its server keeps its promises. -/
theorem held_through_holds (epoch : Epoch) (events : List Event) (world : World)
    (hpromised : Promised mailbox every (World.start epoch) events)
    (hrun : run mailbox every (World.start epoch) events = some world) :
    HeldThrough mailbox world := by
  intro validity uidnext modseq hmark hnow
  have hsound := sound_run (sound_empty epoch) hpromised hrun
  exact (hsound.mark validity uidnext modseq hmark).covers hnow.symm

/-- A first pass, a sweep, and a second pass that resumes at the mark, is cut, and is made again. -/
def resumedEvents : List Event :=
  [.server (.arrive 1), .start 0 200, .selected (.imap 7 2 none),
    .listed [(.imap "INBOX" 7 1, 900)], .kept [], .fetched [.imap "INBOX" 7 1] [], .finished,
    .swept none [] (some 0), .server (.arrive 2), .start 10 200, .selected (.imap 7 3 none),
    .listed [(.imap "INBOX" 7 2, 900)], .kept [], .stopped [] [], .start 20 200,
    .selected (.imap 7 3 none), .listed [(.imap "INBOX" 7 2, 900)], .kept [],
    .fetched [.imap "INBOX" 7 2] [], .finished]

theorem held_through_resumed :
    ∃ world, run "INBOX" 1000 (World.start (Epoch.fresh 7 (by decide))) resumedEvents = some world ∧
      world.rows.heldThrough = some (.imap 7 3 none) ∧ HeldThrough "INBOX" world := by
  have hmark : (run "INBOX" 1000 (World.start (Epoch.fresh 7 (by decide))) resumedEvents).map
      (fun world => world.rows.heldThrough) = some (some (.imap 7 3 none)) := by
    decide +kernel
  obtain ⟨world, hrun, hheld⟩ := Option.map_eq_some_iff.mp hmark
  exact ⟨world, hrun, hheld, held_through_holds _ _ _ (by decide +kernel) hrun⟩

/-- A message there below the mark, with no address in the store and not marked unreadable. -/
def missing (mailbox : String) (world : World) (uid : UInt32) : Bool :=
  match world.rows.heldThrough with
  | some (.imap validity uidnext _) =>
    validity = world.server.now.validity && uid ∈ world.server.now.present && uid < uidnext &&
      .imap mailbox validity uid ∉ world.rows.refs &&
      .imap mailbox validity uid ∉ world.rows.unreadable.map Prod.fst
  | _ => false

theorem not_heldThrough_of_missing {uid : UInt32} (h : missing mailbox world uid = true) :
    ¬ HeldThrough mailbox world := by
  intro hheld
  unfold missing at h
  split at h
  · next validity uidnext modseq hmark =>
      simp only [Bool.and_eq_true, decide_eq_true_eq] at h
      obtain ⟨⟨⟨⟨hnow, hpresent⟩, hbelow⟩, hrefs⟩, hunreadable⟩ := h
      rcases hheld validity uidnext modseq hmark hnow.symm uid hpresent hbelow with hin | ⟨time, hin⟩
      · exact hrefs hin
      · exact hunreadable (List.mem_map.mpr ⟨_, hin, rfl⟩)
  · cases h

/-- A message given a UID below the UIDNEXT the mark was set at is never asked for, and so is one of a
mailbox that goes back to a UIDVALIDITY it had been marked under: the survey of the numbering in
between dropped its addresses and left the mark. -/
theorem mark_outlives_promises :
    (∃ world, run "INBOX" 1000 (World.start (Epoch.fresh 7 (by decide)))
      [.start 0 200, .selected (.imap 7 9 none), .listed [], .kept [], .finished,
        .server (.arrive 5)] = some world ∧
      ¬ HeldThrough "INBOX" world) ∧
    ∃ world, run "INBOX" 1000 (World.start (Epoch.fresh 7 (by decide)))
      [.server (.arrive 1), .start 0 200, .selected (.imap 7 2 none),
        .listed [(.imap "INBOX" 7 1, 900)], .kept [], .fetched [.imap "INBOX" 7 1] [], .finished,
        .swept none [] (some 0), .server (.renumber 8), .start 10 200, .selected (.imap 8 1 none),
        .listed [], .selected (.imap 8 1 none), .listed [], .kept [], .stopped [] [],
        .server (.renumber 7)] = some world ∧
      ¬ HeldThrough "INBOX" world := by
  constructor
  · exact ⟨_, rfl, not_heldThrough_of_missing (show missing "INBOX" _ 5 = true by decide)⟩
  · exact ⟨_, rfl, not_heldThrough_of_missing (show missing "INBOX" _ 1 = true by decide)⟩

end Mailo.Engine.Sync
