import Mailo.Proto.Imap.Printed
import Mailo.Proto.Imap.Trail

/-!
# A walk over a run

An operation is begun and then fed whatever happens. What its session deals with is the walk
the operation begins as, signing in first where it does not go on a connection already made.
-/

namespace Mailo.Proto.Imap

open Domain Library Proto.Search
open Proto.Pop3 (Authenticate)

/-- The commands of a session built to sign in, or not to. -/
def Factory.all (factory : Factory) (auth : Authenticate) (commands : List ImapCommand) :
    List ImapCommand :=
  match auth with
  | .first => factory.mechanism :: commands
  | .no => commands

theorem Factory.build_ok {factory : Factory} {auth : Authenticate} {commands : List ImapCommand}
    {session : Session} (h : factory.build auth commands = .ok session) :
    session.commands = factory.all auth commands ∧ session.trail = [] ∧
      session.phase = .greeting := by
  unfold Factory.build at h
  rcases map_eq_ok h with ⟨made, hmade, hsession⟩
  unfold Session.new at hmade
  split at hmade
  · cases hmade
  · cases hmade
    rw [← hsession]
    split
    · exact ⟨rfl, rfl, rfl⟩
    · exact ⟨rfl, rfl, rfl⟩

namespace Backend

/-- The connection an operation goes on, if it goes on one. -/
def kept (backend : Backend) : Option Resume :=
  if backend.resuming then backend.left.orElse fun _ => backend.goingOn else none

/-- A walk as it is queued. -/
def whole (backend : Backend) (commands : List ImapCommand) : List ImapCommand :=
  if backend.kept.isSome then commands else backend.build.mechanism :: .compress :: commands

variable [TextTables] [ImapDates] [ResponseParser]

def machine : Machine Backend Answer :=
  ⟨fun backend => backend.feed, fun backend => (backend.session.map fun session => session.buf).getD []⟩

/-- An operation begun, and everything that happened to it then. -/
def talk (backend : Backend) (describe : Describe) (op : ProtoOp) (events : List IoReady) :
    Talk Backend Answer :=
  Talk.run machine (Talk.begin (backend.begin describe op).1 (backend.begin describe op).2) events

/-- The commands dealt with for an operation, none where it asked nothing of the server. -/
def dealt (backend : Backend) (describe : Describe) (op : ProtoOp) (events : List IoReady) :
    List Decided :=
  match (backend.begin describe op).2 with
  | .need _ =>
    ((backend.talk describe op events).state.session.map fun session => session.trail).getD []
  | _ => []

/-- A session as a talk leaves it. -/
structure Kept (commands : List ImapCommand) (session : Session) (progress : Progress Answer) :
    Prop where
  tracks : Session.Tracks commands session
  stands : progress.isNeed = true → Session.Stands commands session

/-- A talk in which a walk is under way or over. -/
def Engaged (commands : List ImapCommand) (talk : Talk Backend Answer) : Prop :=
  ∃ session, talk.state.session = some session ∧ Kept commands session talk.progress

variable {backend : Backend} {commands : List ImapCommand} {needs : List IoNeed} {session : Session}

omit [ResponseParser] in
theorem queue_engaged (h : (backend.queue commands).2 = .need needs) :
    Engaged (if backend.goingOn.isSome then commands else
      backend.build.mechanism :: .compress :: commands)
      (Talk.begin (backend.queue commands).1 (backend.queue commands).2) := by
  unfold queue at h ⊢
  dsimp only at h ⊢
  split at h
  · cases h
  · rename_i session hbuild
    rcases Factory.build_ok hbuild with ⟨hcommands, htrail, hphase⟩
    cases hgoing : backend.goingOn with
    | none =>
      rw [hgoing] at hcommands
      have hlands := Session.start_lands htrail hphase
      rw [hcommands] at hlands
      refine ⟨_, rfl, hlands.tracks, fun _ => hlands.stands ?_⟩
      rw [hgoing] at h
      dsimp only at h
      split at h
      · rename_i hstart
        rw [hstart]
        rfl
      · cases h
      · cases h
    | some earlier =>
      rw [hgoing] at hcommands
      have hlands : Session.Lands (session.resuming earlier).commands
          (session.resuming earlier).start := Session.start_lands htrail hphase
      have hsame : (session.resuming earlier).commands = commands := hcommands
      rw [hsame] at hlands
      refine ⟨_, rfl, hlands.tracks, fun _ => hlands.stands ?_⟩
      rw [hgoing] at h
      dsimp only at h
      split at h
      · rename_i hstart
        rw [hstart]
        rfl
      · cases h
      · cases h

omit [ResponseParser] in
theorem queue_going {earlier : Resume} {after : Session} (hgoing : backend.goingOn = some earlier)
    (hbuild : backend.build.build .no commands = .ok session)
    (hstart : (session.resuming earlier).start = (after, .need needs)) :
    backend.queue commands =
      ({ backend with goingOn := none, session := some after }, .need needs) := by
  unfold queue
  simp only [hgoing, Option.isSome_some, if_true, hbuild, hstart]

omit [ResponseParser] in
theorem begin_need {describe : Describe} {op : ProtoOp}
    (h : (backend.begin describe op).2 = .need needs) :
    ∃ job commands, backend.begun describe op = .walk job commands ∧
      Engaged (backend.whole commands)
        (Talk.begin (backend.begin describe op).1 (backend.begin describe op).2) := by
  unfold begin at h ⊢
  dsimp only at h ⊢
  split at h
  · cases h
  · cases h
  · rename_i job commands hbegun
    exact ⟨job, commands, hbegun, queue_engaged h⟩

theorem feed_kept (hsession : backend.session = some session) (h : Session.Stands commands session)
    (ready : IoReady) : ∃ after, (backend.feed ready).1.session = some after ∧
      Kept commands after (backend.feed ready).2 := by
  have htracks := Session.feed_tracks h ready
  unfold feed
  rw [hsession]
  dsimp only
  split
  · rename_i needs hneed
    refine ⟨_, rfl, htracks, fun _ => Session.feed_stands h ?_⟩
    rw [hneed]
    rfl
  · split
    · split
      · exact ⟨_, rfl, htracks, fun hneed => by cases hneed⟩
      · exact ⟨_, rfl, htracks, fun hneed => by cases hneed⟩
    · exact ⟨_, rfl, htracks, fun hneed => by cases hneed⟩
  · have hlast := (Session.buf_stays (session.feed ready).1 []).tracks htracks
    split
    · exact ⟨_, rfl, hlast, fun hneed => by cases hneed⟩
    · exact ⟨_, rfl, hlast, fun hneed => by cases hneed⟩

theorem feed_trail (hsession : backend.session = some session) (ready : IoReady) :
    (backend.feed ready).1.session.map (fun session => session.trail) =
      some (session.feed ready).1.trail := by
  unfold feed
  rw [hsession]
  dsimp only
  split
  · rfl
  · split
    · split
      · rfl
      · rfl
    · rfl
  · split
    · rfl
    · rfl

theorem next_engaged {talk : Talk Backend Answer} (h : Engaged commands talk) (ready : IoReady) :
    Engaged commands (talk.next machine ready) := by
  cases hneed : talk.progress.isNeed with
  | false =>
    rw [Talk.next_over hneed]
    exact h
  | true =>
    rcases h with ⟨session, hsession, hkept⟩
    have hfed := feed_kept hsession (hkept.stands hneed) ready
    unfold Talk.next
    split
    · exact hfed
    · exact ⟨session, hsession, hkept⟩

theorem run_engaged {talk : Talk Backend Answer} (h : Engaged commands talk)
    (events : List IoReady) :
    Engaged commands (Talk.run machine talk events) := by
  induction events generalizing talk with
  | nil => exact h
  | cons ready events ih => exact ih (next_engaged h ready)

/-- Whatever the server sends, and whenever it is interrupted, an operation deals with the
commands of its walk, in their order, each as the server's words decided. -/
theorem dealt_trailed (backend : Backend) (describe : Describe) (op : ProtoOp)
    (events : List IoReady) :
    backend.dealt describe op events = [] ∨
      ∃ job commands, backend.begun describe op = .walk job commands ∧
        Session.Trailed (backend.whole commands) (backend.dealt describe op events) := by
  unfold dealt
  split
  · rename_i needs hneed
    rcases begin_need hneed with ⟨job, commands, hbegun, hengaged⟩
    rcases run_engaged hengaged events with ⟨session, hsession, hkept⟩
    refine .inr ⟨job, commands, hbegun, ?_⟩
    have hstate : (backend.talk describe op events).state.session = some session := hsession
    rw [hstate]
    exact hkept.tracks.trailed
  · exact .inl rfl

end Backend

/-! ## A server that agrees -/

namespace Session

theorem secured_trail (next : Session × Option (Progress Transcript)) :
    (secured next).1.trail = next.1.trail := by
  unfold secured
  split
  · rfl
  · split
    · unfold handOver
      split
      · split
        · rfl
        · rfl
      · rfl
    · rfl

theorem secured_some (session : Session) (progress : Progress Transcript) :
    ∃ after, (secured (session, some progress)).2 = some after := by
  unfold secured
  split
  · exact ⟨_, rfl⟩
  · exact ⟨_, rfl⟩

variable [TextTables] [ImapDates] [ResponseParser]

/-- A line that is one tagged `OK` and nothing else. -/
structure Agrees (line : Bytes) (tag : String) : Prop where
  parse : ResponseParser.parse line = .ok line.length (.done tag.toList .ok none)
  long : 9 ≤ line.length
  plus : line.head? ≠ some 43
  search : startsWithIgnoreCase line "* ESEARCH" = false
  silent : codeList (Text.trimEnd (Utf8.decodeLossy line)) = none

variable {index : Nat} {session : Session}

/-- A tagged `OK` completes the command waited on. -/
theorem feed_agrees {line : Bytes} {tag : String} (h : Agrees line tag)
    (hphase : session.phase = .running index tag) (hbuf : session.buf = []) :
    (session.feed (.bytes line)).1.trail =
      (session.completed index (Text.trimEnd (Utf8.decodeLossy line))).1.trail := by
  have hsession : { session with buf := session.buf ++ line } = { session with buf := line } := by
    rw [hbuf]
    rfl
  have hempty : { session with buf := [] } = session := by
    rw [← hbuf]
  have hlong := h.long
  have hfresh : line ≠ [] := by
    rintro rfl
    exact absurd hlong (by decide)
  have habsorb : absorb { session with buf := [] } (.done tag.toList .ok none) line =
      ((session.completed index (Text.trimEnd (Utf8.decodeLossy line))).1,
        some (session.completed index (Text.trimEnd (Utf8.decodeLossy line))).2) := by
    rw [hempty]
    unfold absorb
    simp only [capabilitiesSaid, h.silent, Option.map_none]
    unfold absorbDone
    simp [hphase, Phase.tag, Phase.index]
  have hone : drainOne { session with buf := line } = secured
      ({ (session.completed index (Text.trimEnd (Utf8.decodeLossy line))).1 with buf := [] },
        some (session.completed index (Text.trimEnd (Utf8.decodeLossy line))).2) := by
    unfold drainOne
    dsimp only
    rw [if_neg h.plus, if_neg (by omega), h.search, h.parse]
    dsimp only
    rw [List.take_length, habsorb]
    simp
  have hlive : session.phase ≠ .greeting := by
    rw [hphase]
    simp
  unfold feed
  dsimp only
  rw [if_neg hlive, hsession]
  unfold drain
  cases hlength : line.length with
  | zero =>
    rw [hlength] at hlong
    exact absurd hlong (by decide)
  | succ fuel =>
    have hfilled : line.isEmpty = false := by simpa using hfresh
    unfold drainFrom
    rw [hfilled, hone]
    rcases secured_some { (session.completed index
      (Text.trimEnd (Utf8.decodeLossy line))).1 with buf := [] }
      (session.completed index (Text.trimEnd (Utf8.decodeLossy line))).2 with ⟨after, hafter⟩
    simp only [hafter, Bool.false_eq_true, if_false]
    rw [secured_trail]

/-- A command whose line is written at once. -/
def isLine : ImapCommand → Bool
  | .search _ | .idle | .idleAfter _ | .append _ _ _ _ => false
  | _ => true

omit [ResponseParser] in
theorem send_line {command : ImapCommand} {line : Bytes} (hline : isLine command = true)
    (hrender : render session.auth session.transcript.capabilities command
      (tagText (session.counter + 1)) = .ok line) :
    session.send index command =
      ({ session with
        counter := session.counter + 1
        held := 0
        phase := .running index (tagText (session.counter + 1))
        trail := session.trail ++ [⟨some command, session.transcript⟩] },
        .need [.write line, .read]) := by
  have hwritten : session.written index (tagText (session.counter + 1)) command =
      .ok (.running index (tagText (session.counter + 1)), line) := by
    unfold written
    cases command with
    | search | idle | idleAfter | append => cases hline
    | _ =>
      dsimp only
      rw [hrender]
      rfl
  unfold send
  dsimp only
  rw [hwritten]

/-- Once a mailbox is selected the next command's turn has come. -/
theorem completed_select {text : List Char} {mailbox : String} {access : Access}
    {resync : Option Resync} (h : session.commands[index]? = some (.select mailbox access resync)) :
    session.completed index text = issue { session with
      selected := some access
      transcript := { session.transcript with
        completed := session.transcript.completed ++ [Completed.mk index text] } }
      (index + 1) := by
  unfold completed
  rw [h]
  rfl

/-- The next command is written once the selection is agreed to. -/
theorem feed_sends {line out : Bytes} {mailbox : String} {access : Access} {first : ImapCommand}
    {rest : List ImapCommand} {tag : String} (h : Agrees line tag)
    (hphase : session.phase = .running 0 tag) (hbuf : session.buf = [])
    (hcommands : session.commands = selecting mailbox access :: first :: rest)
    (hline : isLine first = true)
    (hsend : ∀ commands knew, decision commands knew 1 first = .send first)
    (hrender : render session.auth session.transcript.capabilities first
      (tagText (session.counter + 1)) = .ok out) :
    ∃ knew, (session.feed (.bytes line)).1.trail = session.trail ++ [⟨some first, knew⟩] ∧
      knew.untagged = session.transcript.untagged := by
  have hselect : session.commands[0]? = some (.select mailbox access none) := by
    rw [hcommands]
    rfl
  have hissue : ∀ after : Session, after.commands = session.commands →
      after.auth = session.auth → after.counter = session.counter →
      after.transcript.capabilities = session.transcript.capabilities →
      (after.issue (0 + 1)).1.trail = after.trail ++ [⟨some first, after.transcript⟩] := by
    intro after hsame hauth hcounter hcapabilities
    rw [← hauth, ← hcounter, ← hcapabilities] at hrender
    unfold issue
    rw [hsame, hcommands]
    simp only [Nat.zero_add, List.drop_succ_cons, List.drop_zero]
    unfold issueFrom
    rw [hsend]
    dsimp only
    rw [send_line hline hrender]
  rw [feed_agrees h hphase hbuf, completed_select hselect]
  exact ⟨_, hissue _ rfl rfl rfl rfl, rfl⟩

/-- A line that is one untagged `OK` and nothing else. -/
structure Tells (line : Bytes) : Prop where
  parse : ResponseParser.parse line = .ok line.length (.data .ok none)
  long : 9 ≤ line.length
  plus : line.head? ≠ some 43
  search : startsWithIgnoreCase line "* ESEARCH" = false
  silent : codeList (Text.trimEnd (Utf8.decodeLossy line)) = none
  short : line.length + (Utf8.encode (Text.trimEnd (Utf8.decodeLossy line))).length ≤
    Imap.maxTranscript

/-- An untagged `OK` is kept, and the session waits on. -/
theorem feed_tells {line : Bytes} {tag : String} (h : Tells line)
    (hphase : session.phase = .running index tag) (hbuf : session.buf = [])
    (hheld : session.held = 0) (hroom : session.maxTranscript = Imap.maxTranscript) :
    session.feed (.bytes line) =
      ({ session with
        held := line.length + (Utf8.encode (Text.trimEnd (Utf8.decodeLossy line))).length
        transcript := { session.transcript with untagged := session.transcript.untagged ++
          [⟨index, Text.trimEnd (Utf8.decodeLossy line), line⟩] } }, .need [.read]) := by
  have hsession : { session with buf := session.buf ++ line } = { session with buf := line } := by
    rw [hbuf]
    rfl
  have hempty : { session with buf := [] } = session := by
    rw [← hbuf]
  have hlong := h.long
  have hkeep : ¬ session.held + (line.length +
      (Utf8.encode (Text.trimEnd (Utf8.decodeLossy line))).length) > session.maxTranscript := by
    have hshort := h.short
    rw [hheld, hroom]
    omega
  have habsorb : absorb { session with buf := [] } (.data .ok none) line =
      ({ session with
        held := line.length + (Utf8.encode (Text.trimEnd (Utf8.decodeLossy line))).length
        transcript := { session.transcript with untagged := session.transcript.untagged ++
          [⟨index, Text.trimEnd (Utf8.decodeLossy line), line⟩] } }, none) := by
    rw [hempty]
    unfold absorb
    simp only [capabilitiesSaid, h.silent, Option.map_none]
    unfold absorbUntagged keep
    rw [if_neg (by simp [hphase, Phase.deaf])]
    dsimp only
    rw [if_neg hkeep]
    simp [hphase, hheld, Phase.during]
  have hlive : session.phase ≠ .greeting := by
    rw [hphase]
    simp
  have hone : drainOne { session with buf := line } =
      ({ session with
        buf := []
        held := line.length + (Utf8.encode (Text.trimEnd (Utf8.decodeLossy line))).length
        transcript := { session.transcript with untagged := session.transcript.untagged ++
          [⟨index, Text.trimEnd (Utf8.decodeLossy line), line⟩] } }, none) := by
    unfold drainOne
    dsimp only
    rw [if_neg h.plus, if_neg (by omega), h.search, h.parse]
    dsimp only
    rw [List.take_length, habsorb]
    unfold secured
    simp [hphase]
  unfold feed
  dsimp only
  rw [if_neg hlive, hsession]
  unfold drain
  cases hlength : line.length with
  | zero =>
    rw [hlength] at hlong
    exact absurd hlong (by decide)
  | succ fuel =>
    have hfilled : line.isEmpty = false := by
      rw [List.isEmpty_eq_false_iff]
      rintro rfl
      cases hlength
    rw [hlength] at hone
    unfold drainFrom
    rw [hfilled, hone]
    simp only [Bool.false_eq_true, if_false]
    rw [← hbuf]
    cases fuel with
    | zero => rfl
    | succ fuel =>
      unfold drainFrom
      simp [hbuf]

end Session

/-- A response that is one line: tagged, the capabilities, or a status. -/
def lineResponse (line : List Char) : Option Response :=
  match Text.splitOnce ' ' line with
  | none => none
  | some (tag, rest) =>
    let word := rest.takeWhile (· ≠ ' ')
    let status := if word = "OK".toList then some Status.ok
      else if word = "NO".toList then some .no
      else if word = "BAD".toList then some .bad
      else if word = "PREAUTH".toList then some .preAuth
      else if word = "BYE".toList then some .bye
      else none
    if tag = ['*'] then
      if word = "CAPABILITY".toList then
        some (.capabilities (Text.splitWhitespace (rest.drop word.length)))
      else match status with
        | some status => some (.data status none)
        | none => some .other
    else if tag = [] then none
    else status.map fun status => .done tag status none

theorem lineResponse_tag {line tag : List Char} {status : Status}
    {capabilities : Option (List (List Char))}
    (h : lineResponse line = some (.done tag status capabilities)) : tag ≠ [] := by
  unfold lineResponse at h
  split at h
  · cases h
  · rename_i before rest _
    dsimp only at h
    split at h
    · split at h
      · cases h
      · split at h
        · cases h
        · cases h
    · split at h
      · cases h
      · rename_i hne
        rcases Option.map_eq_some_iff.mp h with ⟨found, _, hfound⟩
        cases hfound
        exact hne

def lineParse (buf : Bytes) : Parsed :=
  match Crlf.split buf with
  | none => .incomplete
  | some (line, rest) =>
    match lineResponse (Utf8.decodeLossy line) with
    | some response => .ok (buf.length - rest.length) response
    | none => .error

/-- A parser for a server that sends no literals. -/
@[reducible] def lineParser : ResponseParser where
  parse := lineParse
  used_some := by
    intro buf used response h
    unfold lineParse at h
    split at h
    · cases h
    · rename_i line rest hsplit
      have hlength := congrArg List.length (Crlf.split_eq hsplit)
      split at h
      · cases h
        simp only [List.length_append, List.length_cons] at hlength
        omega
      · cases h
  tag_some := by
    intro buf used tag status capabilities h
    unfold lineParse at h
    split at h
    · cases h
    · split at h
      · rename_i response hresponse
        cases h
        exact lineResponse_tag hresponse
      · cases h

/-! ## A connection gone on -/

def goer : Smtp.SignIn := ⟨"ada", .password "secret", []⟩

/-- A backend going on a connection with nothing selected. -/
def connected (caps : Caps) : Backend where
  account := ⟨0⟩
  caps := caps
  build := ⟨goer, none⟩
  session := none
  staged := none
  job := .idle
  left := some ⟨[], 0, none, []⟩
  resuming := true
  goingOn := none

/-- The session of a walk on that connection. -/
def going (commands : List ImapCommand) : Session where
  auth := goer
  commands := commands
  phase := .greeting
  buf := []
  transcript := .empty
  counter := 0
  maxResponse := maxResponse
  maxTranscript := maxTranscript
  held := 0
  resumed := true
  selected := none
  starttls := none
  compressing := false
  trail := []

/-- The session waits for its mailbox to be selected. -/
def opening (mailbox : String) (access : Access) (rest : List ImapCommand) : Session :=
  { going (selecting mailbox access :: rest) with
    counter := 1
    phase := .running 0 "a001"
    trail := [⟨some (selecting mailbox access), .empty⟩] }

section Going

variable [TextTables] [ImapDates] {caps : Caps} {op : ProtoOp} {mailbox : String}
  {access : Access} {rest : List ImapCommand} {job : Job}

theorem going_issue (mailbox : String) (access : Access) (rest : List ImapCommand) :
    ∃ line, (going (selecting mailbox access :: rest)).issue 0 =
      (opening mailbox access rest, .need [.write line, .read]) := by
  have htag : tagText 1 = "a001" := by decide
  rcases render_select goer [] mailbox access (tagText 1) with ⟨line, hline⟩
  refine ⟨line, ?_⟩
  have hsend : (going (selecting mailbox access :: rest)).issue 0 =
      (going (selecting mailbox access :: rest)).send 0 (selecting mailbox access) := rfl
  rw [hsend, Session.send_line rfl hline]
  unfold opening
  rw [← htag]
  rfl

/-- A walk that selects first begins by selecting, on that connection. -/
theorem begin_going {describe : Backend.Describe}
    (hwalk : (connected caps).begun describe op = .walk job (selecting mailbox access :: rest)) :
    ∃ backend needs, (connected caps).begin describe op = (backend, .need needs) ∧
      backend.session = some (opening mailbox access rest) := by
  rcases going_issue mailbox access rest with ⟨line, hissue⟩
  generalize hcommands : selecting mailbox access :: rest = commands at hwalk hissue
  have hnew : Session.new goer commands = .ok { going commands with resumed := false } := by
    unfold Session.new
    rw [if_neg (by decide)]
    rfl
  have hbuild : (connected caps).build.build .no commands =
      .ok { going commands with resumed := false } := by
    unfold Factory.build
    dsimp only
    have hgoer : (connected caps).build.signIn = goer := rfl
    rw [hgoer, hnew]
    rfl
  have hstart : (({ going commands with resumed := false } : Session).resuming
      ⟨[], 0, none, []⟩).start = (opening mailbox access rest, .need [.write line, .read]) := hissue
  have hready : ∃ ready : Backend, (connected caps).begin describe op = ready.queue commands ∧
      ready.goingOn = some ⟨[], 0, none, []⟩ ∧ ready.build = (connected caps).build := by
    unfold Backend.begin
    rw [hwalk]
    exact ⟨_, rfl, rfl, rfl⟩
  rcases hready with ⟨ready, hbegin, hgoing, hbuilt⟩
  rw [← hbuilt] at hbuild
  have hqueue := Backend.queue_going hgoing hbuild hstart
  exact ⟨_, _, hbegin.trans hqueue, rfl⟩

end Going

end Mailo.Proto.Imap
