import Mailo.Logic.Link

/-!
# What a sync pass decides

Where the survey of a mailbox starts, what of its listing is fetched and in which order, and which
state is remembered once everything listed is held.
-/

namespace Mailo.Domain

/-- Whether the mailbox the server just described is the one rows are held for. A zero is the
server not saying. -/
def UidValidity.between (stored : Option SyncCursor) (fresh : SyncCursor) : UidValidity :=
  match stored, fresh with
  | some (.imap was _ _), .imap now _ _ =>
    if was ≠ 0 ∧ now ≠ 0 ∧ was ≠ now then .reset else .same
  | _, _ => .same

/-- The first UID a survey asks for, none where a cursor of another protocol is given. -/
def FetchSince.firstUid : FetchSince → Option UInt32
  | .beginning => some 1
  | .after (.imap _ uidnext _) => some uidnext
  | .after _ => none

end Mailo.Domain

namespace Mailo.Engine.Sync

open Domain
open Logic (Duration timeDeltaMax)

/-- What the store holds of one mailbox, and what a pass decides its survey from. -/
structure MailboxState where
  heldThrough : Option SyncCursor
  cursor : Option SyncCursor
  expungesSwept : Option DateTime
deriving DecidableEq

inductive Survey where
  | whole
  | since (cursor : SyncCursor)
deriving DecidableEq

namespace Survey

def fetchSince : Survey → FetchSince
  | .since cursor => .after cursor
  | .whole => .beginning

def resumed : Survey → Bool
  | .since _ => true
  | .whole => false

/-- Whether the server's answer says the survey has to be made again, whole. -/
def redo : Survey → Option SyncCursor → Bool
  | .since start, some fresh => UidValidity.between (some start) fresh = .reset
  | _, _ => false

end Survey

def due (last : Option DateTime) (every : Duration) (now : DateTime) : Bool :=
  match last with
  | none => true
  | some last => every ≤ timeDeltaMax && every ≤ now - last

/-- Where the next survey of a mailbox may start from, rather than at the beginning. -/
def resumePoint (state : MailboxState) (expungesEvery : Duration) (now : DateTime) :
    Option SyncCursor :=
  match state.heldThrough with
  | some (.imap uidvalidity uidnext modseq) =>
    let held : SyncCursor := .imap uidvalidity uidnext modseq
    if uidvalidity = 0 ∨ uidnext = 0 then none
    else if UidValidity.between state.cursor held = .reset then none
    else if due state.expungesSwept expungesEvery now then none
    else some held
  | _ => none

def surveyKind (state : MailboxState) (expungesEvery : Duration) (now : DateTime) : Survey :=
  match resumePoint state expungesEvery now with
  | none => .whole
  | some held => .since held

def mayHaveFoundNothing (survey : Survey) (fresh heldBefore : Option SyncCursor) : Bool :=
  survey.resumed && fresh = heldBefore

def allHeld (listed : List (RemoteRef × UInt64)) (held : List RemoteRef) : Bool :=
  listed.all fun row => row.1 ∈ held

/-- The edges of the size bands, the last of which takes any size. -/
def bands : List UInt64 := [64 * 1024, 1024 * 1024, 18446744073709551615]

/-- The smallest band first, and within a band the order it came in. -/
def byBand (wanted : List (RemoteRef × UInt64)) : List (RemoteRef × UInt64) :=
  wanted.insertionSort fun a b =>
    bands.findIdx (fun band => a.2 ≤ band) ≤ bands.findIdx (fun band => b.2 ≤ band)

def headersWanted (listed : List (RemoteRef × UInt64)) (held resting : List RemoteRef) :
    List (RemoteRef × UInt64) :=
  byBand (listed.filter fun row => row.1 ∉ held && row.1 ∉ resting).reverse

def headerBatch (wanted : List (RemoteRef × UInt64)) (edge : UInt64) (left : Nat) :
    List RemoteRef :=
  ((wanted.filter fun row => row.2 ≤ edge).take left).map Prod.fst

def firstSlice : Nat := 25

def slice : Nat := 50

def headerSlice (fetched left : Nat) : Nat :=
  min (if fetched = 0 then firstSlice else slice) left

/-- The next operation's messages, with the bands still to go; a band with none left is done. -/
def nextBatch (wanted : List (RemoteRef × UInt64)) (size : Nat) :
    List UInt64 → List RemoteRef × List UInt64
  | [] => ([], [])
  | band :: rest =>
    let batch := headerBatch wanted band size
    if batch.isEmpty then nextBatch wanted size rest else (batch, band :: rest)

def restingSince (now : DateTime) : DateTime := now - 86400000000000

def heldMark (cursor heldThrough : Option SyncCursor) : Option SyncCursor :=
  match cursor with
  | some (.imap uidvalidity uidnext _) =>
    let through : SyncCursor := .imap uidvalidity uidnext none
    if heldThrough = some through then none else some through
  | _ => none

variable {now nowNext was wasNext : UInt32} {nowSeq wasSeq : Option Nat} {every : Duration}
  {row : RemoteRef × UInt64}

theorem between_same (h : was = now ∨ was = 0 ∨ now = 0) :
    UidValidity.between (some (.imap was wasNext wasSeq)) (.imap now nowNext nowSeq) = .same := by
  have hno : ¬ (was ≠ 0 ∧ now ≠ 0 ∧ was ≠ now) := by tauto
  simp only [UidValidity.between, hno, if_false]

theorem same_of_between
    (h : UidValidity.between (some (.imap was wasNext wasSeq))
    (.imap now nowNext nowSeq) ≠ .reset) :
    was = now ∨ was = 0 ∨ now = 0 := by
  by_contra hno
  apply h
  have hall : was ≠ 0 ∧ now ≠ 0 ∧ was ≠ now := by tauto
  simp only [UidValidity.between, hall, ne_eq, not_false_eq_true, and_self, if_true]

theorem resumePoint_some {state : MailboxState} {now : DateTime} {start : SyncCursor}
    (h : resumePoint state every now = some start) :
    ∃ validity uidnext modseq, start = .imap validity uidnext modseq ∧
      state.heldThrough = some start ∧ validity ≠ 0 := by
  unfold resumePoint at h
  cases hheld : state.heldThrough with
  | none => simp [hheld] at h
  | some held =>
    cases held with
    | imap validity uidnext modseq =>
      simp only [hheld, ite_eq_iff, reduceCtorEq, and_false, false_or, not_or] at h
      obtain ⟨⟨hvalidity, _⟩, _, _, hstart⟩ := h
      cases hstart
      exact ⟨validity, uidnext, modseq, rfl, rfl, hvalidity⟩
    | pop | graph | jmap => simp [hheld] at h

/-- A survey that resumes does so at the mark, under a validity the server named. -/
theorem surveyKind_since {state : MailboxState} {now : DateTime} {start : SyncCursor}
    (h : surveyKind state every now = .since start) :
    ∃ validity uidnext modseq, start = .imap validity uidnext modseq ∧
      state.heldThrough = some start ∧ validity ≠ 0 := by
  unfold surveyKind at h
  cases hpoint : resumePoint state every now with
  | none => simp [hpoint] at h
  | some held =>
    simp only [hpoint, Survey.since.injEq] at h
    exact h ▸ resumePoint_some hpoint

@[simp] theorem mem_byBand {wanted : List (RemoteRef × UInt64)} :
    row ∈ byBand wanted ↔ row ∈ wanted :=
  List.mem_insertionSort _

theorem mem_headersWanted {listed : List (RemoteRef × UInt64)} {held resting : List RemoteRef} :
    row ∈ headersWanted listed held resting ↔
      row ∈ listed ∧ row.1 ∉ held ∧ row.1 ∉ resting := by
  simp [headersWanted]

/-! ## A sync pass over one mailbox, and its server

The server's side of one mailbox, the rows the store keeps of it, and `AccountEngine::sync` as a
machine that can be cut wherever it waits. The scheduled sweeps run between passes.
-/

/-- A mailbox under one UIDVALIDITY: what is there, the last UID given, and the highest UIDNEXT a
SELECT has reported. -/
structure Epoch where
  validity : UInt32
  present : List UInt32
  top : UInt32
  promised : UInt32
  named : validity ≠ 0
  numbered : ∀ uid ∈ present, 0 < uid ∧ uid ≤ top

namespace Epoch

def fresh (validity : UInt32) (named : validity ≠ 0) : Epoch where
  validity := validity
  present := []
  top := 0
  promised := 0
  named := named
  numbered := by simp

/-- A message arrives under the next UID given. -/
def arrive (epoch : Epoch) (uid : UInt32) (h : epoch.top < uid) : Epoch where
  validity := epoch.validity
  present := epoch.present ++ [uid]
  top := uid
  promised := epoch.promised
  named := epoch.named
  numbered := by
    intro other hother
    rcases List.mem_append.mp hother with hold | hnew
    · have hbounds := epoch.numbered other hold
      exact ⟨hbounds.1, UInt32.le_of_lt (UInt32.lt_of_le_of_lt hbounds.2 h)⟩
    · obtain rfl := List.mem_singleton.mp hnew
      exact ⟨by grind, UInt32.le_refl other⟩

def expunge (epoch : Epoch) (uid : UInt32) : Epoch where
  validity := epoch.validity
  present := epoch.present.filter (· ≠ uid)
  top := epoch.top
  promised := epoch.promised
  named := epoch.named
  numbered := fun other hother => epoch.numbered other (List.mem_filter.mp hother).1

def promise (epoch : Epoch) (uidnext : UInt32) : Epoch :=
  { epoch with
    promised := if epoch.promised < uidnext then uidnext else epoch.promised }

/-- What a SELECT may answer: a zero is the server not saying. -/
def Reports (epoch : Epoch) : SyncCursor → Prop
  | .imap validity uidnext _ =>
    (validity = epoch.validity ∨ validity = 0) ∧
      (uidnext = 0 ∨ ∀ uid ∈ epoch.present, uid < uidnext)
  | _ => False

instance (epoch : Epoch) (cursor : SyncCursor) : Decidable (epoch.Reports cursor) := by
  cases cursor <;> unfold Reports <;> infer_instance

end Epoch

/-- The mailbox as it is numbered now, and as it was numbered before, the last first. -/
structure Server where
  now : Epoch
  past : List Epoch

inductive ServerEvent where
  | arrive (uid : UInt32)
  | expunge (uid : UInt32)
  | renumber (validity : UInt32)
deriving DecidableEq

namespace Server

/-- UIDs only grow within a UIDVALIDITY; one that comes back comes back with what it named. -/
def step (server : Server) : ServerEvent → Option Server
  | .arrive uid =>
    if h : server.now.top < uid then some { server with now := server.now.arrive uid h } else none
  | .expunge uid => some { server with now := server.now.expunge uid }
  | .renumber validity =>
    if h : validity ≠ 0 ∧ validity ≠ server.now.validity then
      some {
        now := (server.past.find? fun epoch => epoch.validity == validity).getD
          (Epoch.fresh validity h.1)
        past := server.now :: server.past }
    else none

def promise (server : Server) : SyncCursor → Server
  | .imap _ uidnext _ => { server with now := server.now.promise uidnext }
  | _ => server

end Server

/-- What the store holds of one mailbox; `refs` is every address held in it. -/
structure Rows where
  cursor : Option SyncCursor
  heldThrough : Option SyncCursor
  expungesSwept : Option DateTime
  refs : List RemoteRef
  unreadable : List (RemoteRef × DateTime)
deriving DecidableEq

namespace Rows

def empty : Rows := ⟨none, none, none, [], []⟩

def state (rows : Rows) : MailboxState := ⟨rows.heldThrough, rows.cursor, rows.expungesSwept⟩

/-- A survey or a sweep kept: a renumbered mailbox loses every address it had. -/
def ingest (rows : Rows) (validity : UidValidity) (cursor : Option SyncCursor)
    (gone : List RemoteRef) : Rows :=
  let refs := if validity = .reset then [] else rows.refs
  { rows with
    cursor := cursor <|> rows.cursor
    refs := refs.filter (· ∉ gone) }

def hold (rows : Rows) (remotes : List RemoteRef) : Rows :=
  { rows with refs := rows.refs ++ remotes.filter (· ∉ rows.refs) }

def markUnreadable (rows : Rows) (remotes : List RemoteRef) (time : DateTime) : Rows :=
  { rows with
    unreadable := (rows.unreadable.filter fun row => row.1 ∉ remotes) ++
      remotes.map fun remote => (remote, time) }

def unreadableSince (rows : Rows) (since : DateTime) : List RemoteRef :=
  (rows.unreadable.filter fun row => since ≤ row.2).map Prod.fst

def markHeldThrough (rows : Rows) (through : SyncCursor) : Rows :=
  if rows.cursor.isSome then { rows with heldThrough := some through } else rows

def markExpungesSwept (rows : Rows) (time : DateTime) : Rows :=
  if rows.cursor.isSome then { rows with expungesSwept := some time } else rows

def markHeld (rows : Rows) : Rows :=
  match heldMark rows.cursor rows.heldThrough with
  | none => rows
  | some through => rows.markHeldThrough through

end Rows

/-! ## The pass -/

inductive Phase where
  /-- The survey is sent. -/
  | asking (survey : Survey)
  /-- The mailbox is selected, and its messages are being listed. -/
  | listing (survey : Survey) (fresh : SyncCursor)
  | keeping (survey : Survey) (fresh : SyncCursor) (listed : List (RemoteRef × UInt64))
  | fetching (wanted : List (RemoteRef × UInt64)) (rest : List UInt64) (fetched : Nat)
deriving DecidableEq

structure Pass where
  now : DateTime
  budget : Nat
  /-- What the store held when the pass began. -/
  state : MailboxState
  phase : Phase
deriving DecidableEq

/-- The messages the next operation fetches headers for, with the bands still to go. -/
def Pass.batch (pass : Pass) : List RemoteRef × List UInt64 :=
  match pass.phase with
  | .fetching wanted rest fetched =>
    nextBatch wanted (headerSlice fetched (pass.budget - fetched)) rest
  | _ => ([], [])

structure World where
  server : Server
  rows : Rows
  pass : Option Pass

def World.start (epoch : Epoch) : World := ⟨⟨epoch, []⟩, .empty, none⟩

inductive Event where
  | server (event : ServerEvent)
  | start (now : DateTime) (budget : Nat)
  | selected (fresh : SyncCursor)
  | listed (listed : List (RemoteRef × UInt64))
  /-- The survey is kept; `backlog` is what the store says lacks a body, asked where nothing is
  listed. -/
  | kept (backlog : List (RemoteRef × UInt64))
  /-- Keeping the survey fails, with its cursor written or not. -/
  | unkept (moved : Bool)
  | fetched (items skipped : List RemoteRef)
  /-- The pass is cancelled or fails, with some of what it was fetching kept. -/
  | stopped (stored skipped : List RemoteRef)
  | finished
  /-- A scheduled sweep between passes. -/
  | swept (cursor : Option SyncCursor) (gone : List RemoteRef) (expunges : Option DateTime)

section Step

variable (mailbox : String) (expungesEvery : Duration)

/-- The server's listing from `first` on, under the validity its SELECT named, misses none of the
messages there. -/
def Lists (epoch : Epoch) (first : UInt32) (fresh : SyncCursor) (listed : List RemoteRef) : Prop :=
  match fresh with
  | .imap validity _ _ =>
    validity = epoch.validity →
      ∀ uid ∈ epoch.present, first ≤ uid → .imap mailbox validity uid ∈ listed
  | _ => True

instance (epoch : Epoch) (first : UInt32) (fresh : SyncCursor) (listed : List RemoteRef) :
    Decidable (Lists mailbox epoch first fresh listed) := by
  cases fresh <;> unfold Lists <;> infer_instance

/-- A header FETCH answers for every message of the batch still there, and for no other. -/
def Answers (epoch : Epoch) (batch items : List RemoteRef) : Prop :=
  (∀ remote ∈ items, remote ∈ batch) ∧
    ∀ uid ∈ epoch.present, .imap mailbox epoch.validity uid ∈ batch →
      .imap mailbox epoch.validity uid ∈ items

instance (epoch : Epoch) (batch items : List RemoteRef) :
    Decidable (Answers mailbox epoch batch items) := by
  unfold Answers
  infer_instance

/-- What a pass does once its survey's listing is in: make it again, or keep it. -/
def Pass.listed (pass : Pass) (survey : Survey) (fresh : SyncCursor)
    (listed : List (RemoteRef × UInt64)) : Pass :=
  if survey.redo (some fresh) then { pass with phase := .asking .whole }
  else { pass with phase := .keeping survey fresh listed }

/-- The rows after a survey is kept. One that found nothing not held, and left the cursor where it
was, has nothing to write. -/
def Pass.keep (pass : Pass) (rows : Rows) (survey : Survey) (fresh : SyncCursor)
    (listed : List (RemoteRef × UInt64)) : Rows :=
  if mayHaveFoundNothing survey (some fresh) pass.state.cursor && allHeld listed rows.refs then rows
  else rows.ingest (UidValidity.between pass.state.cursor fresh) (some fresh) []

def Pass.wanted (pass : Pass) (rows : Rows) (listed backlog : List (RemoteRef × UInt64)) :
    List (RemoteRef × UInt64) :=
  if listed.isEmpty then backlog
  else headersWanted listed rows.refs (rows.unreadableSince (restingSince pass.now))

/-- One step, `none` for one that cannot be taken there. -/
def step (world : World) : Event → Option World
  | .server event => (world.server.step event).map fun server => { world with server := server }
  | .start now budget =>
    match world.pass with
    | some _ => none
    | none =>
      let survey := surveyKind world.rows.state expungesEvery now
      some { world with pass := some ⟨now, budget, world.rows.state, .asking survey⟩ }
  | .selected fresh =>
    match world.pass with
    | some pass =>
      match pass.phase with
      | .asking survey =>
        if world.server.now.Reports fresh then
          some { world with
            server := world.server.promise fresh
            pass := some { pass with phase := .listing survey fresh } }
        else none
      | _ => none
    | none => none
  | .listed listed =>
    match world.pass with
    | some pass =>
      match pass.phase with
      | .listing survey fresh =>
        match survey.fetchSince.firstUid with
        | none => none
        | some first =>
          if Lists mailbox world.server.now first fresh (listed.map Prod.fst) then
            some { world with pass := some (pass.listed survey fresh listed) }
          else none
      | _ => none
    | none => none
  | .kept backlog =>
    match world.pass with
    | some pass =>
      match pass.phase with
      | .keeping survey fresh listed =>
        let rows := pass.keep world.rows survey fresh listed
        some { world with
          rows := rows
          pass := some { pass with
            phase := .fetching (pass.wanted rows listed backlog) bands 0 } }
      | _ => none
    | none => none
  | .unkept moved =>
    match world.pass with
    | some pass =>
      match pass.phase with
      | .keeping _ fresh _ =>
        let validity := UidValidity.between pass.state.cursor fresh
        some { world with
          rows := if moved && validity = .same then world.rows.ingest .same (some fresh) []
            else world.rows
          pass := none }
      | _ => none
    | none => none
  | .fetched items skipped =>
    match world.pass with
    | some pass =>
      match pass.phase with
      | .fetching wanted _ fetched =>
        let (batch, rest) := pass.batch
        if batch ≠ [] ∧ Answers mailbox world.server.now batch items ∧ skipped ⊆ items then
          let rows := world.rows.hold (items.filter (· ∉ skipped))
          some { world with
            rows := rows.markUnreadable skipped pass.now
            pass := some { pass with
              phase := .fetching (wanted.filter fun row => row.1 ∉ batch) rest
                (fetched + items.length) } }
        else none
      | _ => none
    | none => none
  | .stopped stored skipped =>
    match world.pass with
    | some pass =>
      if stored ⊆ pass.batch.1 ∧ skipped ⊆ pass.batch.1 then
        some { world with
          rows := (world.rows.hold stored).markUnreadable skipped pass.now
          pass := none }
      else none
    | none => none
  | .finished =>
    match world.pass with
    | some pass =>
      match pass.phase with
      | .fetching wanted _ _ =>
        if pass.batch.1 = [] then
          some { world with
            rows := if wanted.isEmpty then world.rows.markHeld else world.rows
            pass := none }
        else none
      | _ => none
    | none => none
  | .swept cursor gone expunges =>
    match world.pass with
    | some _ => none
    | none =>
      if (∀ fresh ∈ cursor, world.server.now.Reports fresh) ∧
          ∀ uid ∈ world.server.now.present,
            .imap mailbox world.server.now.validity uid ∉ gone then
        let rows := world.rows.ingest .same cursor gone
        some { world with
          server := cursor.elim world.server world.server.promise
          rows := expunges.elim rows rows.markExpungesSwept }
      else none

def run (world : World) : List Event → Option World
  | [] => some world
  | event :: rest => (step mailbox expungesEvery world event).bind fun next => run next rest

end Step

end Mailo.Engine.Sync
