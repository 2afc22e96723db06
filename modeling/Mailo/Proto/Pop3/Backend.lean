import Mailo.Proto.Pop3.Session

/-!
# POP3 as a backend

An operation becomes a walk of commands, chosen before it connects and from the survey an earlier
session took. A message number names a message only within the session that listed it.
-/

namespace Mailo.Proto.Pop3

open Domain Library

inductive Supported where
  | yes | absent | withdrawn
deriving DecidableEq

def Supported.usable : Supported → Bool
  | .yes => true
  | _ => false

/-- What this backend reads and learns of the capabilities. -/
structure Caps where
  top : Supported
  pipelining : Supported
deriving DecidableEq

inductive Authenticate where
  | first | no
deriving DecidableEq

/-- Builds a session for a walk: the credential, the mechanisms and whether to upgrade. -/
structure Factory where
  username : String
  password : String
  sasl : List SaslMech
  starttls : Option (String × Nat)
deriving DecidableEq

namespace Factory

def authPrelude (factory : Factory) : List Pop3Command :=
  if factory.sasl.contains .plain then [.authPlain] else [.user, .pass]

theorem single_prelude (factory : Factory) :
    ∀ cmd ∈ factory.authPrelude, shape cmd = .single ∧ cmd ≠ .quit := by
  intro cmd hcmd
  unfold authPrelude at hcmd
  split at hcmd
  · rw [List.mem_singleton.mp hcmd]
    exact ⟨rfl, by simp⟩
  · rcases List.mem_cons.mp hcmd with rfl | hpass
    · exact ⟨rfl, by simp⟩
    · rw [List.mem_singleton.mp hpass]
      exact ⟨rfl, by simp⟩

def build (factory : Factory) (auth : Authenticate) (commands : List Pop3Command) :
    Except ProtoError Session :=
  let all :=
    match auth with
    | .first => factory.authPrelude ++ commands
    | .no => commands
  (Session.new factory.username factory.password all).map fun session =>
    match factory.starttls with
    | some (host, port) => session.withStarttls host port
    | none => session

end Factory

/-- What the backend is in the middle of. -/
inductive Job where
  | idle
  | caps
  | survey (mailbox : MailboxRef)
  | headers (remotes : List RemoteRef)
  | body (remotes : List RemoteRef)
  | remove
deriving DecidableEq

/-- Whether deleting a message here may remove the server's copy too. -/
inductive ServerCopies where
  | kept | removable
deriving DecidableEq

structure Backend where
  caps : Caps
  build : Factory
  session : Option Session
  job : Job
  /-- What the last survey numbered. -/
  uidls : List (UInt32 × String)
  sizes : List (UInt32 × UInt64)
  copies : ServerCopies
deriving DecidableEq

abbrev Outcome := ProtoOutcome Caps

namespace Backend

def numberFor (backend : Backend) (uidl : String) : Option UInt32 :=
  (backend.uidls.find? fun row => row.2 = uidl).map Prod.fst

def removing (backend : Backend) : RemoteRef → List Pop3Command
  | .pop uidl =>
    match backend.numberFor uidl with
    | some number => [.check number uidl, .dele number]
    | none => []
  | _ => []

/-- The walk that removes messages, `none` when the survey listed none of them. -/
def removal (backend : Backend) (remotes : List RemoteRef) : Option (List Pop3Command) :=
  let commands := remotes.flatMap backend.removing
  if commands.isEmpty then none else some (commands ++ [.quit])

def numbersFor (backend : Backend) (remotes : List RemoteRef) (command : UInt32 → Pop3Command) :
    Option (List Pop3Command) :=
  remotes.mapM fun remote =>
    match remote with
    | .pop uidl => (backend.numberFor uidl).map command
    | _ => none

def emptyIngest (mailbox : MailboxRef) : Ingest :=
  { Ingest.silent mailbox with cursor := some .pop }

def queue (backend : Backend) (auth : Authenticate) (commands : List Pop3Command) :
    Backend × Progress Outcome :=
  match backend.build.build auth commands with
  | .error error => (backend, .failed error)
  | .ok session =>
    let started := session.start
    ({ backend with session := some started.1 },
      match started.2 with
      | .need needs => .need needs
      | .done _ => .failed (.malformed "session finished before the backend asked for anything")
      | .failed error => .failed error)

def answered (backend : Backend) (outcome : Outcome) : Backend × Progress Outcome :=
  ({ backend with job := .idle }, .done outcome)

def refuse (backend : Backend) (error : ProtoError) : Backend × Progress Outcome :=
  (backend, .failed error)

def notSurveyed : ProtoError := .refused .permanent "a message is not in the current survey"

/-- Begin an operation. What POP3 has no word for is confirmed at once: the local change is the
whole change. -/
def start (backend : Backend) : ProtoOp → Backend × Progress Outcome
  | .fetchCaps =>
    { backend with job := .caps }.queue .no [.capa, .user, .pass, .capa]
  | .fetchEnvelopes mailbox _ =>
    { backend with job := .survey mailbox, uidls := [], sizes := [] }.queue .first
      [.stat, .uidl, .list]
  | .fetchHeaders remotes =>
    if !backend.caps.top.usable then
      backend.refuse (.unsupported "TOP is unavailable, and RETR would mark the message read")
    else
      match backend.numbersFor remotes fun number => .top number 0 with
      | none => backend.refuse notSurveyed
      | some commands => { backend with job := .headers remotes }.queue .first commands
  | .fetchBody remotes =>
    match backend.numbersFor remotes .retr with
    | none => backend.refuse notSurveyed
    | some commands => { backend with job := .body remotes }.queue .first commands
  | .setFlags _ _ _ | .setFlag _ _ | .setMailbox _ _ | .setLabels _ _ _ | .file _ _ | .copy _ _
  | .addKeyword _ _ | .expunge _ => backend.answered .applied
  | .destroy remotes =>
    match backend.copies with
    | .kept => backend.answered .applied
    | .removable =>
      match backend.removal remotes with
      | none => backend.answered .applied
      | some commands => { backend with job := .remove }.queue .first commands
  | .fetchStructure _ | .fetchSections _ _ =>
    backend.refuse (.unsupported "fetching part of a message over POP3")
  | .keepDraft _ _ _ | .dropDraft _ _ _ => backend.answered .applied
  | .fetchFlags _ _ => backend.answered .applied
  | .listRemote mailbox _ =>
    { backend with job := .survey mailbox, uidls := [], sizes := [] }.queue .first [.uidl]
  | .listFolders => backend.answered .applied
  | .watch _ _ _ => backend.answered .woken
  | .append _ _ _ _ | .submit _ _ _ _ _ =>
    backend.refuse (.unsupported "POP3 cannot store or send a message")
  | .folder _ => backend.refuse (.unsupported "POP3 has one mailbox; it has no folders to change")

def supported (lines : List String) (name : String) : Supported :=
  if lines.any fun line => (Text.splitWhitespace line.toList).head? = some name.toList then .yes
  else .absent

def learn (caps : Caps) : Pop3Reply → Caps
  | .capabilities lines => ⟨supported lines "TOP", supported lines "PIPELINING"⟩
  | _ => caps

def survey (backend : Backend) : Pop3Reply → Backend
  | .uidl rows => { backend with uidls := rows.map fun row => (row.number, row.uidl) }
  | .list rows => { backend with sizes := rows.map fun row => (row.number, row.octets) }
  | _ => backend

def headersIn (replies : List Pop3Reply) : List Bytes :=
  replies.filterMap fun reply =>
    match reply with
    | .headers bytes => some bytes
    | _ => none

def bodiesIn (replies : List Pop3Reply) : List Bytes :=
  replies.filterMap fun reply =>
    match reply with
    | .retrieved bytes => some bytes
    | _ => none

/-- What the replies of a finished session come to. -/
def finish (backend : Backend) (replies : List Pop3Reply) : Backend × Progress Outcome :=
  let idle := { backend with job := .idle }
  match backend.job with
  | .idle => (idle, .failed (.malformed "a reply arrived with no operation in flight"))
  | .caps =>
    let caps := replies.foldl learn idle.caps
    ({ idle with caps := caps }, .done (.caps caps))
  | .survey mailbox => (replies.foldl survey idle, .done (.ingested (emptyIngest mailbox)))
  | .headers remotes => (idle, .done (.fetched (remotes.zip (headersIn replies))))
  | .body remotes => (idle, .done (.fetched (remotes.zip (bodiesIn replies))))
  | .remove => (idle, .done .applied)

def feed (backend : Backend) (ready : IoReady) : Backend × Progress Outcome :=
  match backend.session with
  | none => (backend, .failed (.malformed "bytes arrived with no session in flight"))
  | some session =>
    let fed := session.feed ready
    let held := { backend with session := some fed.1 }
    match fed.2 with
    | .need needs => (held, .need needs)
    | .failed error => (held, .failed error)
    | .done replies => held.finish replies

/-- What the backend's session holds and has not read. -/
def unread (backend : Backend) : Bytes :=
  (backend.session.map fun session => session.state.buf).getD []

def machine : Machine Backend Outcome := ⟨feed, unread⟩

end Backend

/-! ## A session built and queued -/

def Factory.auth (factory : Factory) : Auth := ⟨factory.username, factory.password⟩

/-- A session as it is built, before anything is fed to it. -/
def Factory.fresh (factory : Factory) (commands : List Pop3Command) : Session :=
  ⟨factory.auth, ⟨commands, .greeting, [], [], .run, factory.starttls⟩⟩

theorem Factory.build_cases (factory : Factory) (commands : List Pop3Command) :
    (∃ error, factory.build .first commands = .error error) ∨
    factory.build .first commands = .ok (factory.fresh (factory.authPrelude ++ commands)) := by
  unfold Factory.build
  dsimp only
  cases hnew : Session.new factory.username factory.password (factory.authPrelude ++ commands) with
  | error error => exact .inl ⟨error, rfl⟩
  | ok session =>
    right
    unfold Session.new at hnew
    split at hnew
    · cases hnew
    · split at hnew
      · cases hnew
      · cases hnew
        unfold Factory.fresh
        cases hstarttls : factory.starttls with
        | none | some => rfl

theorem Backend.queue_cases (backend : Backend) (commands : List Pop3Command) :
    (∃ error, backend.queue .first commands = (backend, .failed error)) ∨
    backend.queue .first commands =
      ({ backend with
          session := some (backend.build.fresh (backend.build.authPrelude ++ commands)) },
        .need [.read]) := by
  unfold Backend.queue
  rcases backend.build.build_cases commands with ⟨error, hbuild⟩ | hbuild
  · rw [hbuild]
    exact .inl ⟨error, rfl⟩
  · rw [hbuild]
    exact .inr rfl

/-- What the backend makes of its session's progress. -/
def Backend.report (backend : Backend) : Progress (List Pop3Reply) → Progress Outcome
  | .need needs => .need needs
  | .failed error => .failed error
  | .done replies => (backend.finish replies).2

namespace Backend

variable (backend : Backend)

theorem isNeed_report {progress : Progress (List Pop3Reply)}
    (h : (backend.report progress).isNeed = true) : progress.isNeed = true := by
  cases progress with
  | need needs => rfl
  | failed error => cases h
  | done replies =>
    unfold report finish at h
    dsimp only at h
    split at h <;> cases h

theorem needs_report (progress : Progress (List Pop3Reply)) :
    (backend.report progress).needs = progress.needs := by
  cases progress with
  | need | failed => rfl
  | done replies =>
    unfold report finish
    dsimp only
    split <;> rfl

theorem finish_frame (replies : List Pop3Reply) :
    (backend.finish replies).1.session = backend.session ∧
      (backend.finish replies).1.build = backend.build := by
  have hsurvey : ∀ (rows : List Pop3Reply) (idle : Backend),
      (rows.foldl survey idle).session = idle.session ∧
        (rows.foldl survey idle).build = idle.build := by
    intro rows
    induction rows with
    | nil => exact fun _ => ⟨rfl, rfl⟩
    | cons reply rest ih =>
      intro idle
      rw [List.foldl_cons, (ih _).1, (ih _).2]
      cases reply <;> exact ⟨rfl, rfl⟩
  unfold finish
  split
  · exact ⟨rfl, rfl⟩
  · exact ⟨rfl, rfl⟩
  · exact hsurvey replies _
  · exact ⟨rfl, rfl⟩
  · exact ⟨rfl, rfl⟩
  · exact ⟨rfl, rfl⟩

/-- A backend does what its session does, and reports what that comes to. -/
theorem feed_session {backend : Backend} {auth : Auth} {state : State}
    (session : backend.session = some ⟨auth, state⟩) (ready : IoReady) :
    (backend.feed ready).2 = backend.report (state.step auth ready).2 ∧
    (backend.feed ready).1.session = some ⟨auth, (state.step auth ready).1⟩ ∧
    (backend.feed ready).1.build = backend.build ∧
    ((backend.report (state.step auth ready).2).isNeed = true →
      (backend.feed ready).1.job = backend.job) := by
  unfold feed
  rw [session]
  dsimp only
  unfold Session.feed
  cases hstep : state.step auth ready with
  | mk after progress =>
    cases progress with
    | need | failed => exact ⟨rfl, rfl, rfl, fun _ => rfl⟩
    | done replies =>
      refine ⟨?_, (finish_frame _ replies).1, (finish_frame _ replies).2,
        fun h => by cases isNeed_report _ h⟩
      unfold report finish
      cases backend.job <;> rfl

end Backend

end Mailo.Proto.Pop3
