import Mailo.Proto.Imap.Walk

/-!
# What a session says

Everything written on the connection is the line of a command dealt with, what the server asked
for of one, or one of the few commands a session has of its own.
-/

namespace Mailo.Proto.Imap

open Domain Library Proto.Search

def ownCommands : List String := ["UNSELECT", "CAPABILITY", "STARTTLS"]

section Said

variable [TextTables] [ImapDates]

/-- What may be written where some commands were dealt with. -/
inductive Utterance (auth : Smtp.SignIn) (trail : List Decided) : Bytes → Prop where
  | own {tag what : String} (h : what ∈ ownCommands) :
      Utterance auth trail (wire (tag ++ " " ++ what ++ "\r\n"))
  | done : Utterance auth trail (wire "DONE\r\n")
  /-- A command's line, or what of it is sent before the server asks for more. -/
  | line {d : Decided} {command : ImapCommand} {session : Session} {index : Nat} {tag : String}
      {phase : Phase} {bytes : Bytes} (hd : d ∈ trail) (hsent : d.sent = some command)
      (hauth : session.auth = auth) (hknew : session.transcript = d.knew)
      (h : session.written index tag command = .ok (phase, bytes)) : Utterance auth trail bytes
  /-- The message an `APPEND` was asked for. -/
  | body {d : Decided} {mailbox : String} {flags : List String} {date : Option DateTime}
      {raw : Bytes} (hd : d ∈ trail) (hsent : d.sent = some (.append mailbox flags date raw)) :
      Utterance auth trail (raw ++ [13, 10])
  /-- The part of a search after a literal. -/
  | part {d : Decided} {keys : List SearchKey} {tag : String} {cut : Bytes × List Bytes}
      {part : Bytes} (hd : d ∈ trail) (hsent : d.sent = some (.search keys))
      (hcut : Search.command tag keys d.knew.capabilities = .ok cut) (hpart : part ∈ cut.2) :
      Utterance auth trail part

theorem Utterance.mono {auth : Smtp.SignIn} {a b : List Decided} {bytes : Bytes}
    (h : Utterance auth a bytes) (hab : a ⊆ b) : Utterance auth b bytes := by
  cases h with
  | own h => exact .own h
  | done => exact .done
  | line hd hsent hauth hknew h => exact .line (hab hd) hsent hauth hknew h
  | body hd hsent => exact .body (hab hd) hsent
  | part hd hsent hcut hpart => exact .part (hab hd) hsent hcut hpart

namespace Session

/-- What waits to be sent is of a command dealt with. -/
def Waiting (session : Session) : Prop :=
  match session.phase with
  | .appendPending _ _ raw => ∃ d ∈ session.trail, ∃ mailbox flags date,
      d.sent = some (.append mailbox flags date raw)
  | .literalPending _ _ part rest => ∃ d ∈ session.trail, ∃ keys tag cut,
      d.sent = some (.search keys) ∧ Search.command tag keys d.knew.capabilities = .ok cut ∧
        part ∈ cut.2 ∧ rest ⊆ cut.2
  | _ => True

/-- What a step says, and what it leaves to be said. -/
structure Voiced (before after : Session) (needs : List IoNeed) : Prop where
  auth : after.auth = before.auth
  trail : before.trail ⊆ after.trail
  waits : Waiting after
  spoke : needs.any isWrite = true → Utterance after.auth after.trail (writes needs)

variable {needs : List IoNeed} {after before session : Session}

theorem Voiced.trans {a b c : Session} (hab : Voiced a b []) (hbc : Voiced b c needs) :
    Voiced a c needs where
  auth := hbc.auth.trans hab.auth
  trail := List.Subset.trans hab.trail hbc.trail
  waits := hbc.waits
  spoke := hbc.spoke

/-- A step that writes nothing. -/
theorem Voiced.silent (hauth : after.auth = before.auth) (htrail : after.trail = before.trail)
    (hwaits : Waiting after) (hneeds : needs.any isWrite = false) :
    Voiced before after needs where
  auth := hauth
  trail := by rw [htrail]; exact List.Subset.refl _
  waits := hwaits
  spoke hwrites := by
    rw [hneeds] at hwrites
    cases hwrites

theorem fail_voiced (session : Session) (error : ProtoError) :
    Voiced session (session.fail error).1 (session.fail error).2.needs :=
  .silent rfl rfl trivial rfl

theorem ask_voiced (session : Session) {what : String} {phase : String → Phase}
    (hwhat : what ∈ ownCommands) (hwaits : ∀ tag, Waiting { session with phase := phase tag }) :
    Voiced session (session.ask what phase).1 (session.ask what phase).2.needs where
  auth := rfl
  trail := List.Subset.refl _
  waits := hwaits _
  spoke _ := by
    have hone : writes (session.ask what phase).2.needs =
        wire (tagText (session.counter + 1) ++ " " ++ what ++ "\r\n") := by
      simp [ask, Progress.needs, writes]
    rw [hone]
    exact .own hwhat

variable {bytes : Bytes} {index : Nat} {mid : Session} {next : Session × Progress Transcript}

/-- A step that says one thing. -/
theorem Voiced.one (hauth : after.auth = before.auth) (htrail : before.trail ⊆ after.trail)
    (hwaits : Waiting after) (hbytes : Utterance after.auth after.trail bytes) :
    Voiced before after [.write bytes, .read] where
  auth := hauth
  trail := htrail
  waits := hwaits
  spoke _ := by
    have hone : writes [.write bytes, .read] = bytes := by simp [writes]
    rw [hone]
    exact hbytes

/-! ## One step -/

theorem written_waits {tag : String} {command : ImapCommand} {phase : Phase}
    (h : session.written index tag command = .ok (phase, bytes)) {d : Decided}
    (hd : d ∈ after.trail) (hsent : d.sent = some command) (hknew : d.knew = session.transcript)
    (hphase : after.phase = phase) : Waiting after := by
  unfold written at h
  unfold Waiting
  rw [hphase]
  split at h
  · rename_i keys
    rcases map_eq_ok h with ⟨cut, hcut, hbytes⟩
    rw [← hknew] at hcut
    split at hbytes
    · cases hbytes
      trivial
    · rename_i part rest hparts
      cases hbytes
      refine ⟨d, hd, keys, tag, cut, hsent, hcut, ?_, ?_⟩
      · rw [hparts]
        exact .head _
      · rw [hparts]
        exact List.subset_cons_self _ _
  · rcases map_eq_ok h with ⟨line, _, hbytes⟩
    split at hbytes
    · cases hbytes
      trivial
    · cases hbytes
      trivial
    · split at hbytes
      · cases hbytes
        trivial
      · cases hbytes
        exact ⟨d, hd, _, _, _, hsent⟩
    · cases hbytes
      trivial

theorem send_voiced (session : Session) (index : Nat) (command : ImapCommand) :
    Voiced session (session.send index command).1 (session.send index command).2.needs := by
  unfold send
  dsimp only
  split
  · exact .silent rfl rfl trivial rfl
  · rename_i phase bytes hwritten
    have hlast : (⟨some command, session.transcript⟩ : Decided) ∈
        session.trail ++ [⟨some command, session.transcript⟩] := by simp
    exact .one rfl (List.subset_append_left _ _) (written_waits hwritten hlast rfl rfl rfl)
      (.line hlast rfl rfl rfl hwritten)

theorem issueFrom_voiced (session : Session) (index : Nat) (rest : List ImapCommand) :
    Voiced session (session.issueFrom index rest).1 (session.issueFrom index rest).2.needs := by
  induction rest generalizing session index with
  | nil => exact .silent rfl rfl trivial rfl
  | cons command rest ih =>
    unfold issueFrom
    split
    · have hrest := ih { session with
        trail := session.trail ++ [⟨none, session.transcript⟩] } (index + 1)
      exact ⟨hrest.auth, fun d hd => hrest.trail (List.mem_append_left _ hd), hrest.waits,
        hrest.spoke⟩
    · exact fail_voiced session _
    · exact send_voiced session index _

theorem issue_voiced (session : Session) (index : Nat) :
    Voiced session (session.issue index).1 (session.issue index).2.needs :=
  issueFrom_voiced session index _

/-- A change of what nothing is said by. -/
theorem Voiced.from (h : Voiced mid after needs) (hauth : mid.auth = before.auth)
    (htrail : mid.trail = before.trail) : Voiced before after needs where
  auth := h.auth.trans hauth
  trail := by
    rw [← htrail]
    exact h.trail
  waits := h.waits
  spoke := h.spoke

theorem issue_after (hauth : mid.auth = before.auth) (htrail : mid.trail = before.trail) :
    Voiced before (mid.issue index).1 (mid.issue index).2.needs :=
  .from (issue_voiced mid index) hauth htrail

theorem greeted_voiced (session : Session) (preauth : Bool) :
    Voiced session (session.greeted preauth).1 (session.greeted preauth).2.needs := by
  unfold greeted
  split
  · exact issue_voiced session 0
  · split
    · exact fail_voiced session _
    · exact ask_voiced session (by decide) fun _ => trivial

theorem readMore_voiced (h : Waiting session) :
    Voiced session session.readMore.1 session.readMore.2.needs := by
  unfold readMore
  split
  · exact fail_voiced session _
  · exact .silent rfl rfl h rfl

/-- What an optional progress asks for. -/
def needsOf (progress : Option (Progress Transcript)) : List IoNeed :=
  (progress.map fun progress => progress.needs).getD []

theorem keep_voiced (h : Waiting session) (untagged : Untagged) :
    Voiced session (session.keep untagged).1 (needsOf (session.keep untagged).2) := by
  unfold keep
  dsimp only
  split
  · exact .silent rfl rfl trivial rfl
  · exact .silent rfl rfl h rfl

theorem absorbUntagged_voiced (h : Waiting session) (raw : Bytes) (text : List Char) :
    Voiced session (session.absorbUntagged raw text).1
      (needsOf (session.absorbUntagged raw text).2) := by
  unfold absorbUntagged
  split
  · exact .silent rfl rfl h rfl
  · have hkept := keep_voiced h ⟨session.phase.during, text, raw⟩
    dsimp only
    split
    · rename_i failed hfailed
      rw [hfailed] at hkept
      exact hkept
    · rename_i hnone
      rw [hnone] at hkept
      split
      · split
        · exact .one hkept.auth hkept.trail trivial .done
        · exact hkept
      · exact hkept

theorem switching_voiced (h : Voiced before next.1 next.2.needs) :
    Voiced before (switching next).1 (switching next).2.needs := by
  unfold switching
  split
  · rename_i needs hneeds
    rw [hneeds] at h
    exact ⟨h.auth, h.trail, h.waits, h.spoke⟩
  · exact ⟨h.auth, h.trail, h.waits, fun hwrites => (by cases hwrites)⟩
  · exact ⟨h.auth, h.trail, h.waits, fun hwrites => (by cases hwrites)⟩

theorem completed_voiced [ResponseParser] (session : Session) (index : Nat) (text : List Char) :
    Voiced session (session.completed index text).1 (session.completed index text).2.needs := by
  unfold completed
  dsimp only
  split
  · exact .silent rfl rfl trivial rfl
  · split
    · apply switching_voiced
      apply issue_after
      · rfl
      · rfl
    · apply issue_after
      · rfl
      · rfl

theorem absorbDone_voiced [ResponseParser] (session : Session) (tag : List Char)
    (status : Status) (text : List Char) :
    Voiced session (session.absorbDone tag status text).1
      (session.absorbDone tag status text).2.needs := by
  unfold absorbDone
  dsimp only
  split
  · exact fail_voiced session _
  · split
    · split
      · split
        · exact fail_voiced session _
        · exact .silent rfl rfl trivial rfl
      · exact fail_voiced session _
    · split
      · exact issue_voiced session 0
      · exact fail_voiced session _
    · split
      · apply issue_after
        · rfl
        · rfl
      · exact fail_voiced session _
    · split
      · exact completed_voiced session _ _
      · split
        · exact issue_voiced session _
        · split
          · exact fail_voiced session _
          · exact fail_voiced session _

theorem absorb_voiced [ResponseParser] (h : Waiting session) (response : Response) (raw : Bytes) :
    Voiced session (session.absorb response raw).1 (needsOf (session.absorb response raw).2) := by
  unfold absorb
  generalize Text.trimEnd (Utf8.decodeLossy raw) = text
  cases response with
  | done tag status capabilities =>
    dsimp only
    split
    · exact .from (absorbDone_voiced _ _ _ _) rfl rfl
    · exact absorbDone_voiced _ _ _ _
  | _ =>
    dsimp only
    split
    · rename_i atoms _
      have hlearned : Waiting { session with
          transcript := { session.transcript with capabilities := atoms } } := h
      exact .from (absorbUntagged_voiced hlearned _ _) rfl rfl
    · exact absorbUntagged_voiced h _ _

theorem handOver_voiced (h : Voiced before next.1 next.2.needs) :
    Voiced before (handOver next).1 (handOver next).2.needs := by
  unfold handOver
  split
  · split
    · rename_i leftover needs hneeds
      rw [hneeds] at h
      exact ⟨h.auth, h.trail, h.waits, h.spoke⟩
    · exact ⟨h.auth, h.trail, h.waits, h.spoke⟩
  · exact h

theorem secured_voiced {next : Session × Option (Progress Transcript)}
    (h : Voiced before next.1 (needsOf next.2)) :
    Voiced before (secured next).1 (needsOf (secured next).2) := by
  unfold secured
  split
  · exact ⟨h.auth, h.trail, trivial, fun hwrites => (by cases hwrites)⟩
  · split
    · rename_i progress hprogress
      rw [hprogress] at h
      exact handOver_voiced h
    · exact h

theorem continued_voiced (h : Waiting session) :
    Voiced session session.continued.1 (needsOf session.continued.2) := by
  unfold continued
  split
  · dsimp only
    split
    · exact .silent rfl rfl trivial rfl
    · exact .silent rfl rfl trivial rfl
  · rename_i index tag body hphase
    unfold Waiting at h
    rw [hphase] at h
    rcases h with ⟨d, hd, mailbox, flags, date, hsent⟩
    exact .one rfl (List.Subset.refl _) trivial (.body hd hsent)
  · rename_i index tag part rest hphase
    unfold Waiting at h
    rw [hphase] at h
    rcases h with ⟨d, hd, keys, tag', cut, hsent, hcut, hpart, hrest⟩
    refine .one rfl (List.Subset.refl _) ?_ (.part hd hsent hcut hpart)
    cases rest with
    | nil => trivial
    | cons next rest =>
      exact ⟨d, hd, keys, tag', cut, hsent, hcut, hrest (.head _),
        fun p hp => hrest (.tail _ hp)⟩
  · exact .silent rfl rfl trivial rfl

/-! ## Events -/

section Heard

variable [ResponseParser]

variable {session : Session}

theorem drainOne_voiced (h : Waiting session) :
    Voiced session session.drainOne.1 (needsOf session.drainOne.2) := by
  unfold drainOne
  split
  · split
    · exact readMore_voiced h
    · rename_i rest _
      have hbuf : Waiting { session with buf := rest } := h
      exact .from (continued_voiced hbuf) rfl rfl
  · split
    · exact .silent rfl rfl h rfl
    · split
      · split
        · exact readMore_voiced h
        · rename_i line rest _
          have hbuf : Waiting { session with buf := rest } := h
          split
          · exact .silent rfl rfl h rfl
          · exact .from (keep_voiced hbuf _) rfl rfl
      · split
        · rename_i used response _
          have hbuf : Waiting { session with buf := [] } := h
          have habsorbed := absorb_voiced hbuf response (session.buf.take used)
          exact secured_voiced ⟨habsorbed.auth, habsorbed.trail, habsorbed.waits, habsorbed.spoke⟩
        · exact readMore_voiced h
        · split
          · split
            · exact readMore_voiced h
            · exact secured_voiced (.silent rfl rfl h rfl)
          · exact .silent rfl rfl trivial rfl

theorem drainFrom_voiced (fuel : Nat) (h : Waiting session) :
    Voiced session (drainFrom fuel session).1 (drainFrom fuel session).2.needs := by
  induction fuel generalizing session with
  | zero => exact .silent rfl rfl h rfl
  | succ fuel ih =>
    unfold drainFrom
    split
    · exact .silent rfl rfl h rfl
    · have hone := drainOne_voiced h
      dsimp only
      split
      · rename_i progress hprogress
        rw [hprogress] at hone
        exact hone
      · rename_i hnone
        rw [hnone] at hone
        exact hone.trans (ih hone.waits)

omit [ResponseParser] in
theorem start_voiced (h : Waiting session) :
    Voiced session session.start.1 session.start.2.needs := by
  unfold start
  split
  · split
    · unfold deselect
      split
      · exact ask_voiced session (by decide) fun _ => trivial
      · exact fail_voiced session _
    · exact issue_voiced session 0
  · exact .silent rfl rfl h rfl

theorem greet_voiced (h : Waiting session) :
    Voiced session session.greet.1 session.greet.2.needs := by
  unfold greet
  split
  · exact .from (greeted_voiced _ _) rfl rfl
  · exact readMore_voiced h
  · exact fail_voiced session _

theorem feed_voiced (h : Waiting session) (ready : IoReady) :
    Voiced session (session.feed ready).1 (session.feed ready).2.needs := by
  unfold feed
  split
  · exact fail_voiced session _
  · split
    · exact .from (ask_voiced _ (by decide) fun _ => trivial) rfl rfl
    · exact .silent rfl rfl h rfl
  · split
    · exact .silent rfl rfl trivial rfl
    · exact .silent rfl rfl h rfl
  · split
    · exact .one rfl (List.Subset.refl _) trivial .done
    · exact .silent rfl rfl trivial rfl
  · rename_i fed
    have hbuf : Waiting { session with buf := session.buf ++ fed } := h
    dsimp only
    split
    · exact .from (greet_voiced hbuf) rfl rfl
    · exact .from (drainFrom_voiced _ hbuf) rfl rfl

end Heard

end Session

/-! ## Runs -/

namespace Backend

variable [ResponseParser]

/-- A talk in which everything written so far was of the commands dealt with. -/
def Voices (auth : Smtp.SignIn) (talk : Talk Backend Answer) : Prop :=
  ∃ session, talk.state.session = some session ∧ session.auth = auth ∧ session.Waiting ∧
    ∀ turn ∈ talk.turns, ∀ bytes, turn.did = .wrote bytes → Utterance auth session.trail bytes

variable {turn : Turn} {needs : List IoNeed} {auth : Smtp.SignIn} {backend : Backend}
  {session : Session}

variable {heard bytes : Bytes} {turns : List Turn} {talk : Talk Backend Answer}
  {commands : List ImapCommand}

omit [TextTables] [ImapDates] [ResponseParser] in
/-- What a turn does is not changed by what is heard in it. -/
theorem did_hear (h : turn ∈ Talk.hear heard turns) :
    turn.did = .listened ∨ ∃ old ∈ turns, old.did = turn.did := by
  cases turns with
  | nil =>
    rw [List.mem_singleton.mp h]
    exact .inl rfl
  | cons first rest =>
    rcases List.mem_cons.mp h with rfl | hrest
    · exact .inr ⟨first, .head _, rfl⟩
    · exact .inr ⟨turn, .tail _ hrest, rfl⟩

omit [TextTables] [ImapDates] [ResponseParser] in
theorem did_next {waits : List IoNeed} {ready : IoReady}
    (h : turn ∈ Talk.speak needs (Talk.hear heard (Talk.secure waits ready turns)))
    (hdid : turn.did = .wrote bytes) :
    (needs.any isWrite = true ∧ bytes = writes needs) ∨
      ∃ old ∈ turns, old.did = .wrote bytes := by
  have hheard : turn ∈ Talk.hear heard (Talk.secure waits ready turns) →
      ∃ old ∈ turns, old.did = .wrote bytes := by
    intro hturn
    rcases did_hear hturn with hlistened | ⟨old, hold, hsame⟩
    · rw [hlistened] at hdid
      cases hdid
    · unfold Talk.secure at hold
      split at hold
      · rcases List.mem_cons.mp hold with rfl | hold
        · rw [← hsame] at hdid
          cases hdid
        · exact ⟨old, hold, hsame.trans hdid⟩
      · exact ⟨old, hold, hsame.trans hdid⟩
  unfold Talk.speak at h
  split at h
  · rename_i hwrites
    rcases List.mem_cons.mp h with rfl | hturn
    · cases hdid
      exact .inl ⟨hwrites, rfl⟩
    · exact .inr (hheard hturn)
  · exact .inr (hheard h)

theorem feed_voices (hsession : backend.session = some session) (hauth : session.auth = auth)
    (h : session.Waiting) (ready : IoReady) :
    ∃ after, (backend.feed ready).1.session = some after ∧ after.auth = auth ∧ after.Waiting ∧
      session.trail ⊆ after.trail ∧
      ((backend.feed ready).2.needs.any isWrite = true →
        Utterance auth after.trail (writes (backend.feed ready).2.needs)) := by
  have hfed := Session.feed_voiced h ready
  have hsame : (session.feed ready).1.auth = auth := hfed.auth.trans hauth
  have hspoke := hfed.spoke
  rw [hsame] at hspoke
  unfold feed
  rw [hsession]
  dsimp only
  split
  · rename_i needs hneeds
    rw [hneeds] at hspoke
    exact ⟨_, rfl, hsame, hfed.waits, hfed.trail, hspoke⟩
  · split
    · split
      · exact ⟨_, rfl, hsame, hfed.waits, hfed.trail, fun hwrites => (by cases hwrites)⟩
      · exact ⟨_, rfl, hsame, hfed.waits, hfed.trail, fun hwrites => (by cases hwrites)⟩
    · exact ⟨_, rfl, hsame, hfed.waits, hfed.trail, fun hwrites => (by cases hwrites)⟩
  · split
    · exact ⟨_, rfl, hsame, hfed.waits, hfed.trail, fun hwrites => (by cases hwrites)⟩
    · exact ⟨_, rfl, hsame, hfed.waits, hfed.trail, fun hwrites => (by cases hwrites)⟩

theorem next_voices (h : Voices auth talk) (ready : IoReady) :
    Voices auth (talk.next machine ready) := by
  rcases h with ⟨session, hsession, hauth, hwaits, hturns⟩
  unfold Talk.next
  split
  · rename_i needs hneeds
    rcases feed_voices hsession hauth hwaits ready with
      ⟨after, hafter, hsame, hwaiting, htrail, hspoke⟩
    refine ⟨after, hafter, hsame, hwaiting, fun turn hturn bytes hdid => ?_⟩
    rcases did_next hturn hdid with ⟨hwrites, hbytes⟩ | ⟨old, hold, hdid⟩
    · rw [hbytes]
      exact hspoke hwrites
    · exact (hturns old hold bytes hdid).mono htrail
  · exact ⟨session, hsession, hauth, hwaits, hturns⟩

theorem run_voices (h : Voices auth talk) (events : List IoReady) :
    Voices auth (Talk.run machine talk events) := by
  induction events generalizing talk with
  | nil => exact h
  | cons ready events ih => exact ih (next_voices h ready)

omit [TextTables] [ImapDates] [ResponseParser] in
theorem build_auth {factory : Factory} {auth : Pop3.Authenticate}
    (h : factory.build auth commands = .ok session) :
    session.auth = factory.signIn := by
  unfold Factory.build at h
  rcases map_eq_ok h with ⟨made, hmade, hsession⟩
  unfold Session.new at hmade
  split at hmade
  · cases hmade
  · cases hmade
    rw [← hsession]
    split
    · rfl
    · rfl

omit [ResponseParser] in
theorem started_voices (backend : Backend) (hphase : session.phase = .greeting)
    (hstart : session.start.2 = .need needs) :
    Voices session.auth
      (Talk.begin { backend with session := some session.start.1 } (.need needs)) := by
  have hwaits : session.Waiting := by
    unfold Session.Waiting
    rw [hphase]
    trivial
  have hvoiced := Session.start_voiced hwaits
  rw [hstart] at hvoiced
  refine ⟨session.start.1, rfl, hvoiced.auth, hvoiced.waits, fun turn hturn bytes hdid => ?_⟩
  have hspeak : turn ∈ Talk.speak needs [⟨.listened, []⟩] := hturn
  unfold Talk.speak at hspeak
  split at hspeak
  · rename_i hwrites
    rcases List.mem_cons.mp hspeak with rfl | hlistened
    · cases hdid
      have hspoke := hvoiced.spoke hwrites
      rw [hvoiced.auth] at hspoke
      exact hspoke
    · rw [List.mem_singleton.mp hlistened] at hdid
      cases hdid
  · rw [List.mem_singleton.mp hspeak] at hdid
    cases hdid

omit [ResponseParser] in
theorem queue_voices (h : (backend.queue commands).2 = .need needs) :
    Voices backend.build.signIn
      (Talk.begin (backend.queue commands).1 (backend.queue commands).2) := by
  unfold queue at h ⊢
  dsimp only at h ⊢
  split at h
  · cases h
  · rename_i session hbuild
    have hphase := (Factory.build_ok hbuild).2.2
    rw [← build_auth hbuild]
    cases hgoing : backend.goingOn with
    | none =>
      rw [hgoing] at h
      dsimp only at h ⊢
      split at h
      · rename_i found hfound
        cases h
        exact started_voices { backend with goingOn := none } hphase hfound
      · cases h
      · cases h
    | some earlier =>
      rw [hgoing] at h
      dsimp only at h ⊢
      have hresumed : (session.resuming earlier).phase = .greeting := hphase
      split at h
      · rename_i found hfound
        cases h
        exact started_voices { backend with goingOn := none } hresumed hfound
      · cases h
      · cases h

theorem over_turns {describe : Describe} {op : ProtoOp} {events : List IoReady}
    (h : (backend.begin describe op).2.isNeed = false) :
    (backend.talk describe op events).turns = [⟨.listened, []⟩] := by
  have hover : ∀ talk : Talk Backend Answer, talk.progress.isNeed = false →
      Talk.run machine talk events = talk := by
    induction events with
    | nil => exact fun talk _ => rfl
    | cons ready events ih =>
      intro talk htalk
      have hnext : talk.next machine ready = talk := Talk.next_over htalk ready
      have hrun : Talk.run machine talk (ready :: events) =
          Talk.run machine (talk.next machine ready) events := rfl
      rw [hrun, hnext, ih talk htalk]
  unfold talk
  rw [hover _ h]
  cases hprogress : (backend.begin describe op).2 with
  | need needs =>
    rw [hprogress] at h
    cases h
  | done | failed => rfl

/-- Whatever the server sends, everything written for an operation is of the commands it dealt
with. -/
theorem talk_voices (backend : Backend) (describe : Describe) (op : ProtoOp) (events : List IoReady)
    (hturn : turn ∈ (backend.talk describe op events).turns) (hdid : turn.did = .wrote bytes) :
    Utterance backend.build.signIn (backend.dealt describe op events) bytes := by
  cases hbegin : (backend.begin describe op).2 with
  | need needs =>
    have hvoices : Voices backend.build.signIn
        (Talk.begin (backend.begin describe op).1 (backend.begin describe op).2) := by
      unfold begin at hbegin ⊢
      dsimp only at hbegin ⊢
      split at hbegin
      · cases hbegin
      · cases hbegin
      · exact queue_voices hbegin
    rcases run_voices hvoices events with ⟨session, hsession, _, _, hturns⟩
    have hstate : (backend.talk describe op events).state.session = some session := hsession
    unfold dealt
    rw [hbegin, hstate]
    exact hturns turn hturn bytes hdid
  | done | failed =>
    rw [over_turns (by rw [hbegin]; rfl)] at hturn
    rw [List.mem_singleton.mp hturn] at hdid
    cases hdid

end Backend

end Said

end Mailo.Proto.Imap
