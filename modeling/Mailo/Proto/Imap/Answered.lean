import Mailo.Proto.Imap.Walk

/-!
# What was answered

The tagged replies a session takes are gathered beside it, each with the command it answers. An
operation succeeds only once every command it wrote is among them with an `OK`, or with a refusal
the walk passes over.
-/

namespace Mailo.Proto.Imap

open Domain Library Proto.Search

/-- A tagged reply, and the command it answers. -/
structure Reply where
  index : Nat
  status : Status
deriving DecidableEq

def Answered (commands : List ImapCommand) (replies : List Reply) (i : Nat) : Prop :=
  ∃ reply ∈ replies, reply.index = i ∧
    (reply.status = .ok ∨ Session.tolerates commands[i]? = true)

theorem Answered.mono {commands : List ImapCommand} {a b : List Reply} {i : Nat}
    (h : Answered commands a i) (hab : a ⊆ b) : Answered commands b i := by
  rcases h with ⟨reply, hreply, hrest⟩
  exact ⟨reply, hab hreply, hrest⟩

/-- Every command written is one of those `P` holds of. -/
def Every (P : Nat → Prop) (trail : List Decided) : Prop :=
  ∀ (i : Nat) (d : Decided), trail[i]? = some d → d.sent ≠ none → P i

theorem Every.pass {P : Nat → Prop} {trail : List Decided} (h : Every P trail)
    (knew : Transcript) : Every P (trail ++ [⟨none, knew⟩]) := by
  intro i d hd hsent
  rcases Session.getElem?_concat hd with hd | ⟨_, rfl⟩
  · exact h i d hd hsent
  · exact absurd rfl hsent

namespace Session

section Replies

variable [ResponseParser]

/-- The reply a response is, where it answers a command of the walk. -/
def replyIn (session : Session) : Response → List Reply
  | .done tag status _ =>
    if String.ofList tag = session.phase.tag then
      (session.phase.place.map fun index => Reply.mk index status).toList
    else []
  | _ => []

def replyOne (session : Session) : List Reply :=
  if session.buf.head? = some 43 then []
  else if startsWithIgnoreCase session.buf "* ESEARCH" then []
  else
    match ResponseParser.parse session.buf with
    | .ok _ response => session.replyIn response
    | _ => []

variable [TextTables] [ImapDates]

def repliesFrom : Nat → Session → List Reply
  | 0, _ => []
  | fuel + 1, session =>
    if session.buf.isEmpty then []
    else
      session.replyOne ++
        match session.drainOne.2 with
        | some _ => []
        | none => repliesFrom fuel session.drainOne.1

/-- The replies taken as one event is fed. -/
def replies (session : Session) (ready : IoReady) : List Reply :=
  match ready with
  | .bytes fed =>
    if session.phase = .greeting then []
    else repliesFrom (session.buf ++ fed).length { session with buf := session.buf ++ fed }
  | _ => []

end Replies

/-! ## What a step comes to -/

/-- Every command written but the one waited on is one of those `P` holds of. -/
def Awaits (P : Nat → Prop) (session : Session) : Prop :=
  ∀ (i : Nat) (d : Decided), session.trail[i]? = some d → d.sent ≠ none →
    session.phase.place ≠ some i → P i

variable {P : Nat → Prop} {session : Session}

theorem Awaits.of_every (h : Every P session.trail) :
    Awaits P session :=
  fun i d hd hsent _ => h i d hd hsent

theorem Awaits.mono {Q : Nat → Prop} (h : Awaits P session) (hmore : ∀ i, P i → Q i) :
    Awaits Q session :=
  fun i d hd hsent hplace => hmore i (h i d hd hsent hplace)

theorem Awaits.stays {before after : Session} (h : Awaits P before) (hstays : Stays before after) :
    Awaits P after := by
  intro i d hd hsent hplace
  rw [hstays.trail] at hd
  rw [hstays.place] at hplace
  exact h i d hd hsent hplace

/-- The command waited on is one too, or none is waited on. -/
theorem Awaits.every (h : Awaits P session)
    (hplace : ∀ index, session.phase.place = some index → P index) : Every P session.trail := by
  intro i d hd hsent
  by_cases hat : session.phase.place = some i
  · exact hplace i hat
  · exact h i d hd hsent hat

/-- What one event comes to, by the commands that were answered. -/
structure Comes (P : Nat → Prop) (next : Session × Progress Transcript) : Prop where
  awaits : next.2.isNeed = true → Awaits P next.1
  done : ∀ out, next.2 = .done out → Every P next.1.trail

theorem Comes.need (h : Awaits P session) (needs : List IoNeed) :
    Comes P (session, .need needs) where
  awaits _ := h
  done out hout := by cases hout

theorem Comes.fail (P : Nat → Prop) (session : Session) (error : ProtoError) :
    Comes P (session.fail error) where
  awaits hneed := by cases hneed
  done out hout := by cases hout

theorem Comes.of_trail {a b : Session × Progress Transcript} (h : Comes P a)
    (htrail : b.1.trail = a.1.trail) (hphase : b.1.phase = a.1.phase) (hsame : b.2 = a.2) :
    Comes P b where
  awaits hneed i d hd hsent hplace := by
    rw [hsame] at hneed
    rw [htrail] at hd
    rw [hphase] at hplace
    exact h.awaits hneed i d hd hsent hplace
  done out hout := by
    rw [hsame] at hout
    rw [htrail]
    exact h.done out hout

theorem ask_comes (h : Every P session.trail) (what : String) (phase : String → Phase) :
    Comes P (session.ask what phase) := by
  apply Comes.need
  exact .of_every h

section Machine

variable [TextTables] [ImapDates]

variable {P : Nat → Prop} {index : Nat} {session : Session} {next : Session × Progress Transcript}
  {commands : List ImapCommand}

theorem send_comes (h : Every P session.trail) (hlength : session.trail.length = index)
    (command : ImapCommand) : Comes P (session.send index command) := by
  unfold send
  dsimp only
  split
  · exact .fail P _ _
  · rename_i phase bytes hwritten
    apply Comes.need
    intro i d hd hsent hplace
    rcases getElem?_concat hd with hd | ⟨hi, _⟩
    · exact h i d hd hsent
    · have hwaits : phase.place = some i := by
        rw [hi, hlength]
        exact written_place hwritten
      exact absurd hwaits hplace

theorem issueFrom_comes (h : Every P session.trail) (hlength : session.trail.length = index)
    (rest : List ImapCommand) : Comes P (session.issueFrom index rest) := by
  induction rest generalizing session index with
  | nil =>
    refine ⟨?_, ?_⟩
    · intro hneed
      cases hneed
    · intro out _
      exact h
  | cons command rest ih =>
    unfold issueFrom
    split
    · apply ih (h.pass _)
      simp [hlength]
    · exact .fail P _ _
    · exact send_comes h hlength _

theorem issue_comes (h : Every P session.trail) (hlength : session.trail.length = index) :
    Comes P (session.issue index) :=
  issueFrom_comes h hlength _

theorem greeted_comes (h : session.trail = []) (preauth : Bool) :
    Comes P (session.greeted preauth) := by
  have hevery : Every P session.trail := by
    intro i d hd
    simp [h] at hd
  unfold greeted
  split
  · exact issue_comes hevery (by simp [h])
  · split
    · exact .fail P _ _
    · exact ask_comes hevery _ _

omit [TextTables] [ImapDates] in
theorem switching_comes (h : Comes P next) : Comes P (switching next) := by
  unfold switching
  split
  · rename_i needs hneed
    have hwaits : next.2.isNeed = true := by
      rw [hneed]
      rfl
    apply Comes.need
    exact h.awaits hwaits
  · rename_i out hout
    apply Comes.need
    exact .of_every (h.done out hout)
  · refine ⟨?_, ?_⟩
    · intro hneed
      cases hneed
    · intro out hout
      cases hout

omit [TextTables] [ImapDates] in
theorem handOver_comes (h : Comes P next) : Comes P (handOver next) := by
  unfold handOver
  split
  · split
    · rename_i leftover needs hneed
      have hwaits : next.2.isNeed = true := by
        rw [hneed]
        rfl
      apply Comes.need
      exact h.awaits hwaits
    · exact h.of_trail rfl rfl rfl
  · exact h

variable [ResponseParser]

theorem completed_comes (h : Every P session.trail) (hlength : session.trail.length = index + 1)
    (text : List Char) : Comes P (session.completed index text) := by
  unfold completed
  dsimp only
  split
  · exact .fail P _ _
  · split
    · apply switching_comes
      exact issue_comes h hlength
    · exact issue_comes h hlength

theorem absorbDone_comes (h : Awaits P session) (htracks : Tracks commands session)
    {tag : List Char} (htag : tag ≠ []) (status : Status) (text : List Char)
    (hanswer : ∀ index, String.ofList tag = session.phase.tag →
      session.phase.place = some index →
        (status = .ok ∨ tolerates commands[index]? = true) → P index) :
    Comes P (session.absorbDone tag status text) := by
  unfold absorbDone
  dsimp only
  split
  · exact .fail P _ _
  · rename_i hsame
    rw [ne_eq, not_not] at hsame
    have hfirst : session.phase.place = none → session.phase ≠ .finished →
        Every P session.trail ∧ session.trail.length = 0 := by
      intro hplace hlive
      have hnil := htracks.fresh hplace hlive
      constructor
      · intro i d hd
        simp [hnil] at hd
      · simp [hnil]
    split
    · rename_i hphase
      have hplace : session.phase.place = none := by rw [hphase]; rfl
      have hlive : session.phase ≠ .finished := by rw [hphase]; simp
      split
      · split
        · exact .fail P _ _
        · apply Comes.need
          exact .of_every (hfirst hplace hlive).1
      · exact .fail P _ _
    · rename_i hphase
      have hplace : session.phase.place = none := by rw [hphase]; rfl
      have hlive : session.phase ≠ .finished := by rw [hphase]; simp
      split
      · exact issue_comes (hfirst hplace hlive).1 (hfirst hplace hlive).2
      · exact .fail P _ _
    · rename_i hphase
      have hplace : session.phase.place = none := by rw [hphase]; rfl
      have hlive : session.phase ≠ .finished := by rw [hphase]; simp
      split
      · exact issue_comes (hfirst hplace hlive).1 (hfirst hplace hlive).2
      · exact .fail P _ _
    · rename_i hstart hrecap hleave
      have hspoken : session.phase.tag ≠ "" := by
        rw [← hsame]
        intro hnil
        exact htag (String.ofList_injective hnil)
      have hplace := place_of_index hstart hrecap hleave hspoken
      have hlength := htracks.waits _ hplace
      have hevery : (status = .ok ∨ tolerates commands[session.phase.index]? = true) →
          Every P session.trail := by
        intro hpasses
        apply h.every
        intro index hindex
        rw [hplace, Option.some.injEq] at hindex
        rw [← hindex]
        exact hanswer _ hsame hplace hpasses
      split
      · rename_i hok
        exact completed_comes (hevery (.inl hok)) hlength text
      · split
        · rename_i htolerated
          rw [htracks.same] at htolerated
          exact issue_comes (hevery (.inr htolerated)) hlength
        · split
          · exact .fail P _ _
          · exact .fail P _ _

/-- What one response comes to, where the session does something for it. -/
def Turns (P : Nat → Prop) (next : Session × Option (Progress Transcript)) : Prop :=
  ∀ progress, next.2 = some progress → Comes P (next.1, progress)

omit [TextTables] [ImapDates] [ResponseParser] in
theorem Turns.of_comes (h : Comes P next) : Turns P (next.1, some next.2) := by
  intro progress hprogress
  cases hprogress
  exact h

omit [TextTables] [ImapDates] [ResponseParser] in
theorem Turns.none (P : Nat → Prop) (session : Session) : Turns P (session, .none) := by
  intro progress hprogress
  cases hprogress

omit [TextTables] [ImapDates] [ResponseParser] in
theorem keep_turns (P : Nat → Prop) (session : Session) (untagged : Untagged) :
    Turns P (session.keep untagged) := by
  unfold keep
  dsimp only
  split
  · exact .of_comes (.fail P _ _)
  · exact .none P _

omit [ImapDates] [ResponseParser] in
theorem absorbUntagged_turns (h : Awaits P session) (raw : Bytes) (text : List Char) :
    Turns P (session.absorbUntagged raw text) := by
  unfold absorbUntagged
  split
  · exact .none P _
  · have hkept := keep_turns P session ⟨session.phase.during, text, raw⟩
    dsimp only
    split
    · rename_i failed hfailed
      exact .of_comes (hkept failed hfailed)
    · rename_i hnone
      have hstays : Stays session (session.keep ⟨session.phase.during, text, raw⟩).1 := by
        unfold keep at hnone ⊢
        dsimp only at hnone ⊢
        split at hnone
        · cases hnone
        · rename_i hfits
          rw [if_neg hfits]
          exact ⟨rfl, rfl, rfl, .rfl, List.prefix_append _ _, List.prefix_refl _⟩
      split
      · rename_i index tag hidling
        split
        · have hplace : session.phase.place = some index := by
            rw [← hstays.place, hidling]
            rfl
          have hends : Stays session
              { (session.keep ⟨session.phase.during, text, raw⟩).1 with
                phase := .idleEnding index tag } := by
            refine ⟨hstays.commands, hstays.trail, hplace.symm, ?_, hstays.grows⟩
            constructor
            · intro hover
              cases hover
            · intro hover
              exact absurd hover (place_live hplace)
          exact .of_comes (.need (h.stays hends) _)
        · exact .none P _
      · exact .none P _

omit [TextTables] [ImapDates] [ResponseParser] in
theorem readMore_comes (h : Awaits P session) :
    Comes P session.readMore := by
  unfold readMore
  split
  · exact .fail P _ _
  · exact .need h _

omit [TextTables] [ImapDates] [ResponseParser] in
theorem phase_awaits {phase : Phase} (h : Awaits P session)
    (hbefore : session.phase.place = some index) (hafter : phase.place = some index) :
    Awaits P { session with phase } :=
  h.stays (phase_stays hbefore hafter)

omit [TextTables] [ImapDates] [ResponseParser] in
theorem continued_turns (h : Awaits P session) :
    Turns P session.continued := by
  unfold continued
  split
  · rename_i index tag hphase
    have hplace : session.phase.place = some index := by rw [hphase]; rfl
    have hidles : Awaits P { session with phase := .idling index tag } :=
      phase_awaits h hplace rfl
    split
    · exact .of_comes (.need hidles _)
    · exact .none P _
  · rename_i index tag body hphase
    have hplace : session.phase.place = some index := by rw [hphase]; rfl
    have hruns : Awaits P { session with phase := .running index tag } :=
      phase_awaits h hplace rfl
    exact .of_comes (.need hruns _)
  · rename_i index tag part rest hphase
    have hplace : session.phase.place = some index := by rw [hphase]; rfl
    cases rest with
    | nil =>
      have hruns : Awaits P { session with phase := .running index tag } :=
        phase_awaits h hplace rfl
      exact .of_comes (.need hruns _)
    | cons next rest =>
      have hwaits : Awaits P { session with phase := .literalPending index tag next rest } :=
        phase_awaits h hplace rfl
      exact .of_comes (.need hwaits _)
  · exact .of_comes (.fail P _ _)

omit [TextTables] [ImapDates] [ResponseParser] in
theorem secured_turns {next : Session × Option (Progress Transcript)} (h : Turns P next) :
    Turns P (secured next) := by
  unfold secured
  split
  · exact .of_comes (.fail P _ _)
  · split
    · rename_i progress hprogress
      exact .of_comes (handOver_comes (h progress hprogress))
    · exact h

/-- A response is taken by a session that has learnt what the server offers, if it says so. -/
theorem absorb_told (session : Session) (response : Response) (raw : Bytes) :
    ∃ capabilities, session.absorb response raw =
      let text := Text.trimEnd (Utf8.decodeLossy raw)
      let told := { session with transcript := { session.transcript with capabilities } }
      match response with
      | .done tag status _ =>
        ((told.absorbDone tag status text).1, some (told.absorbDone tag status text).2)
      | _ => told.absorbUntagged raw text := by
  unfold absorb
  dsimp only
  cases capabilitiesSaid response (Text.trimEnd (Utf8.decodeLossy raw)) with
  | some atoms => exact ⟨atoms, rfl⟩
  | none => exact ⟨session.transcript.capabilities, rfl⟩

theorem absorb_turns (h : Awaits P session) (htracks : Tracks commands session)
    {response : Response} (htag : ∀ tag status atoms, response = .done tag status atoms → tag ≠ [])
    (raw : Bytes)
    (hanswer : ∀ reply ∈ session.replyIn response,
      (reply.status = .ok ∨ tolerates commands[reply.index]? = true) → P reply.index) :
    Turns P (session.absorb response raw) := by
  rcases session.absorb_told response raw with ⟨capabilities, htold⟩
  rw [htold]
  have hstays : Stays session
      { session with transcript := { session.transcript with capabilities } } :=
    ⟨rfl, rfl, rfl, .rfl, capabilities_grows _ _⟩
  split
  · rename_i tag status atoms
    refine .of_comes (absorbDone_comes (h.stays hstays) (hstays.tracks htracks)
      (htag _ _ _ rfl) _ _ ?_)
    intro index hsame hplace hpasses
    refine hanswer ⟨index, status⟩ ?_ hpasses
    unfold replyIn
    simp [hsame, hplace]
  · exact absorbUntagged_turns (h.stays hstays) _ _

theorem drainOne_turns (h : Awaits P session) (htracks : Tracks commands session)
    (hanswer : ∀ reply ∈ session.replyOne,
      (reply.status = .ok ∨ tolerates commands[reply.index]? = true) → P reply.index) :
    Turns P session.drainOne := by
  have hbuf : ∀ buf, Awaits P { session with buf } := fun buf => h.stays (buf_stays session buf)
  unfold replyOne at hanswer
  unfold drainOne
  split
  · split
    · exact .of_comes (readMore_comes h)
    · exact continued_turns (hbuf _)
  · rename_i hplus
    rw [if_neg hplus] at hanswer
    split
    · exact .of_comes (.need h _)
    · split
      · split
        · exact .of_comes (readMore_comes h)
        · split
          · exact .none P _
          · exact keep_turns P _ _
      · rename_i hsearch
        rw [if_neg hsearch] at hanswer
        split
        · rename_i used response hparse
          rw [hparse] at hanswer
          apply secured_turns
          have htag : ∀ tag status atoms, response = .done tag status atoms → tag ≠ [] := by
            rintro tag status atoms rfl
            exact ResponseParser.tag_some hparse
          have habsorbed := absorb_turns (hbuf []) ((buf_stays session []).tracks htracks) htag
            (session.buf.take used) hanswer
          intro progress hprogress
          exact (habsorbed progress hprogress).of_trail rfl rfl rfl
        · exact .of_comes (readMore_comes h)
        · split
          · split
            · exact .of_comes (readMore_comes h)
            · exact secured_turns (.none P _)
          · exact .of_comes (.fail P _ _)

theorem drainFrom_comes {replies : List Reply} (fuel : Nat)
    (h : Awaits (Answered commands replies) session) (hstands : Stands commands session) :
    Comes (Answered commands (replies ++ repliesFrom fuel session)) (drainFrom fuel session) := by
  induction fuel generalizing session replies with
  | zero => exact .need (h.mono fun _ hi => hi.mono (List.subset_append_left _ _)) _
  | succ fuel ih =>
    unfold drainFrom repliesFrom
    split
    · exact .need (h.mono fun _ hi => hi.mono (List.subset_append_left _ _)) _
    · have hmore : Awaits (Answered commands (replies ++ session.replyOne)) session :=
        h.mono fun _ hi => hi.mono (List.subset_append_left _ _)
      have hturns := drainOne_turns hmore hstands.tracks fun reply hreply hpasses =>
        ⟨reply, List.mem_append_right _ hreply, rfl, hpasses⟩
      have hheeds := drainOne_heeds hstands
      dsimp only
      cases hnext : session.drainOne.2 with
      | some progress =>
        rw [List.append_nil]
        exact hturns progress hnext
      | none =>
        have hstays := hheeds.stays hnext
        rw [← List.append_assoc]
        exact ih (hmore.stays hstays) (hstays.stands hstands)

theorem greet_comes (h : session.trail = []) :
    Comes P session.greet := by
  unfold greet
  split
  · apply greeted_comes
    exact h
  · apply readMore_comes
    intro i d hd
    simp [h] at hd
  · exact .fail P _ _

theorem feed_comes {replies : List Reply} (h : Awaits (Answered commands replies) session)
    (hstands : Stands commands session) {ready : IoReady} (hheedful : Heedful session ready) :
    Comes (Answered commands (replies ++ session.replies ready)) (session.feed ready) := by
  have hmore : Awaits (Answered commands (replies ++ session.replies ready)) session :=
    h.mono fun _ hi => hi.mono (List.subset_append_left _ _)
  cases ready with
  | eof => exact .fail _ _ _
  | tlsOpen =>
    unfold feed
    dsimp only
    split
    · rename_i hphase
      have hnil : session.trail = [] := by
        apply hstands.tracks.fresh
        · rw [hphase]
          rfl
        · rw [hphase]
          simp
      apply ask_comes
      intro i d hd
      simp [hnil] at hd
    · exact .need hmore _
  | woke =>
    unfold feed
    dsimp only
    split
    · rename_i hphase
      refine ⟨?_, ?_⟩
      · intro hneed
        cases hneed
      · intro out _
        apply hmore.every
        intro index hindex
        rw [hphase] at hindex
        cases hindex
    · exact .need hmore _
  | interrupt =>
    rcases hheedful rfl with ⟨index, tag, hphase⟩
    have hplace : session.phase.place = some index := by rw [hphase]; rfl
    have hends : Awaits (Answered commands (replies ++ session.replies .interrupt))
        { session with phase := .idleEnding index tag } := phase_awaits hmore hplace rfl
    unfold feed
    rw [hphase]
    exact .need hends _
  | bytes fed =>
    unfold feed Session.replies
    dsimp only
    split
    · rename_i hphase
      apply greet_comes
      apply hstands.tracks.fresh
      · rw [hphase]
        rfl
      · rw [hphase]
        simp
    · have hbuf := buf_stays session (session.buf ++ fed)
      exact drainFrom_comes _ (h.stays hbuf) (hbuf.stands hstands)

omit [ResponseParser] in
theorem start_comes (htrail : session.trail = []) :
    Comes P session.start := by
  have hevery : Every P session.trail := by
    intro i d hd
    simp [htrail] at hd
  unfold start
  split
  · split
    · unfold deselect
      split
      · exact ask_comes hevery _ _
      · exact .fail P _ _
    · exact issue_comes hevery (by simp [htrail])
  · exact .need (.of_every hevery) _

end Machine

end Session

/-! ## Runs -/

/-- A walk dealt with to its end: a command was passed over as the server's words decided, or it
was written and answered. -/
structure Concluded (commands : List ImapCommand) (replies : List Reply) (trail : List Decided) :
    Prop where
  trailed : Session.Trailed commands trail
  length : trail.length = commands.length
  answered : Every (Answered commands replies) trail

namespace Backend

variable [TextTables] [ImapDates] [ResponseParser]

def repliesOver : Talk Backend Answer → List IoReady → List Reply
  | _, [] => []
  | talk, ready :: events =>
    (if talk.progress.isNeed then
      (talk.state.session.map fun session => session.replies ready).getD []
    else []) ++ repliesOver (talk.next machine ready) events

/-- No interrupt comes while a command waits to be answered, unless it is an `IDLE`. -/
def Undisturbed : Talk Backend Answer → List IoReady → Prop
  | _, [] => True
  | talk, ready :: events =>
    (talk.progress.isNeed = true → ∀ session, talk.state.session = some session →
      Session.Heedful session ready) ∧
    Undisturbed (talk.next machine ready) events

/-- An operation as it is begun. -/
def opening (backend : Backend) (describe : Describe) (op : ProtoOp) : Talk Backend Answer :=
  Talk.begin (backend.begin describe op).1 (backend.begin describe op).2

/-- A change of folders was refused because what was asked is already so. -/
def Excused (job : Job) (talk : Talk Backend Answer) (events : List IoReady) : Prop :=
  ∃ work error, job = .folder work ∧ alreadySo work error = true ∧
    ∃ earlier ready later session, events = earlier ++ ready :: later ∧
      (Talk.run machine talk earlier).state.session = some session ∧
      (session.feed ready).2 = .failed error

/-- A backend in the middle of a walk. -/
structure Walking (commands : List ImapCommand) (job : Job) (replies : List Reply)
    (backend : Backend) : Prop where
  under : ∃ session, backend.session = some session ∧ Session.Stands commands session ∧
    Session.Awaits (Answered commands replies) session
  job : backend.job = job
  left : backend.left = none

/-- A backend whose walk was dealt with to its end. -/
def Whole (commands : List ImapCommand) (replies : List Reply) (backend : Backend) : Prop :=
  ∃ session, backend.session = some session ∧ Concluded commands replies session.trail

/-- What a run has come to. -/
structure Ends (commands : List ImapCommand) (job : Job) (replies : List Reply)
    (talk : Talk Backend Answer) (events : List IoReady) (last : Talk Backend Answer) : Prop where
  waits : last.progress.isNeed = true → Walking commands job replies last.state
  done : ∀ answer, last.progress = .done answer →
    Whole commands replies last.state ∨ Excused job talk events
  left : last.state.left.isSome = true → Whole commands replies last.state

variable {talk : Talk Backend Answer} {commands : List ImapCommand} {job : Job}
  {needs : List IoNeed} {backend : Backend}

theorem run_over (h : talk.progress.isNeed = false) (events : List IoReady) :
    Talk.run machine talk events = talk := by
  induction events with
  | nil => rfl
  | cons ready events ih =>
    show Talk.run machine (talk.next machine ready) events = talk
    rw [Talk.next_over h, ih]

theorem repliesOver_over (h : talk.progress.isNeed = false) (events : List IoReady) :
    repliesOver talk events = [] := by
  induction events with
  | nil => rfl
  | cons ready events ih =>
    unfold repliesOver
    rw [h, Talk.next_over h, ih]
    rfl

variable {session : Session} {describe : Describe} {op : ProtoOp} {answer : Answer}

theorem feed_ends {replies : List Reply} {ready : IoReady}
    (h : Walking commands job replies talk.state) (hsession : talk.state.session = some session)
    (hheedful : Session.Heedful session ready) (later : List IoReady) :
    Ends commands job (replies ++ session.replies ready) talk (ready :: later)
      ⟨(talk.state.feed ready).1, (talk.state.feed ready).2, []⟩ := by
  rcases h.under with ⟨same, hsame, hstands, hawaits⟩
  rw [hsession, Option.some.injEq] at hsame
  subst hsame
  have hlands := Session.feed_lands hstands hheedful
  have hcomes := Session.feed_comes hawaits hstands hheedful
  have hjob := h.job
  have hleft := h.left
  unfold feed
  rw [hsession]
  dsimp only
  split
  · rename_i needs hneed
    have hwaits : (session.feed ready).2.isNeed = true := by
      rw [hneed]
      rfl
    refine ⟨fun _ => ⟨⟨_, rfl, hlands.stands hwaits, hcomes.awaits hwaits⟩, hjob, hleft⟩, ?_, ?_⟩
    · intro answer hanswer
      cases hanswer
    · intro hsome
      rw [hleft] at hsome
      cases hsome
  · rename_i error herror
    have hfailed : ∀ (backend : Backend) (failure : ProtoError), backend.left = none →
        Ends commands job (replies ++ session.replies ready) talk (ready :: later)
          ⟨backend, .failed failure, []⟩ := by
      intro backend failure hnone
      refine ⟨?_, ?_, ?_⟩
      · intro hneed
        cases hneed
      · intro answer hanswer
        cases hanswer
      · intro hsome
        rw [hnone] at hsome
        cases hsome
    split
    · rename_i work hwork
      split
      · rename_i hso
        refine ⟨?_, ?_, ?_⟩
        · intro hneed
          cases hneed
        · intro answer _
          exact .inr ⟨work, error, hjob.symm.trans hwork, hso, [], ready, later, session, rfl,
            hsession, herror⟩
        · intro hsome
          cases hsome
      · exact hfailed _ _ rfl
    · exact hfailed _ _ rfl
  · rename_i transcript hdone
    have hwhole : Concluded commands (replies ++ session.replies ready)
        (session.feed ready).1.trail :=
      ⟨hlands.tracks.trailed, (hlands.done _ hdone).2.length, hcomes.done _ hdone⟩
    split
    · refine ⟨?_, ?_, fun _ => ⟨_, rfl, hwhole⟩⟩
      · intro hneed
        cases hneed
      · intro answer hanswer
        cases hanswer
    · refine ⟨?_, fun _ _ => .inl ⟨_, rfl, hwhole⟩, fun _ => ⟨_, rfl, hwhole⟩⟩
      intro hneed
      cases hneed

theorem Excused.cons {ready : IoReady} {events : List IoReady}
    (h : Excused job (talk.next machine ready) events) :
    Excused job talk (ready :: events) := by
  rcases h with ⟨work, error, hjob, hso, earlier, next, later, session, hevents, hrest⟩
  refine ⟨work, error, hjob, hso, ready :: earlier, next, later, session, ?_, hrest⟩
  rw [hevents]
  rfl

/-- A walk that no interrupt cuts short is dealt with to its end before it succeeds. -/
theorem run_ends {replies : List Reply} {events : List IoReady}
    (hneed : talk.progress.isNeed = true) (h : Walking commands job replies talk.state)
    (hheedful : Undisturbed talk events) :
    Ends commands job (replies ++ repliesOver talk events) talk events
      (Talk.run machine talk events) := by
  induction events generalizing talk replies with
  | nil =>
    refine ⟨fun _ => ?_, ?_, ?_⟩
    · show Walking commands job (replies ++ []) talk.state
      rw [List.append_nil]
      exact h
    · intro answer hanswer
      have hdone : talk.progress = .done answer := hanswer
      rw [hdone] at hneed
      cases hneed
    · intro hsome
      have hleft : talk.state.left.isSome = true := hsome
      rw [h.left] at hleft
      cases hleft
  | cons ready events ih =>
    rcases h.under with ⟨session, hsession, _, _⟩
    have hfed := feed_ends h hsession (hheedful.1 hneed session hsession) events
    have hnext : (talk.next machine ready).state = (talk.state.feed ready).1 ∧
        (talk.next machine ready).progress = (talk.state.feed ready).2 := by
      unfold Talk.next
      split
      · exact ⟨rfl, rfl⟩
      · rename_i hover
        cases hprogress : talk.progress with
        | need needs => exact absurd hprogress (hover needs)
        | done | failed =>
          rw [hprogress] at hneed
          cases hneed
    have hreplies : replies ++ repliesOver talk (ready :: events) =
        (replies ++ session.replies ready) ++ repliesOver (talk.next machine ready) events := by
      rw [repliesOver, hneed, hsession, List.append_assoc]
      rfl
    rw [hreplies]
    show Ends commands job _ talk (ready :: events)
      (Talk.run machine (talk.next machine ready) events)
    cases hwaits : (talk.state.feed ready).2.isNeed with
    | true =>
      have hwalking := hfed.waits hwaits
      rw [← hnext.1] at hwalking
      rw [← hnext.2] at hwaits
      have hrest := ih hwaits hwalking hheedful.2
      exact ⟨hrest.waits, fun answer hanswer => (hrest.done answer hanswer).imp_right
        fun hexcused => hexcused.cons, hrest.left⟩
    | false =>
      rw [← hnext.2] at hwaits
      rw [run_over hwaits, repliesOver_over hwaits, List.append_nil]
      rw [hnext.2] at hwaits
      refine ⟨?_, ?_, ?_⟩
      · intro hmore
        rw [hnext.2, hwaits] at hmore
        cases hmore
      · intro answer hanswer
        rw [hnext.2] at hanswer
        rw [hnext.1]
        exact hfed.done answer hanswer
      · intro hsome
        rw [hnext.1] at hsome ⊢
        exact hfed.left hsome

/-! ## Operations -/

omit [ResponseParser] in
theorem start_walking (backend : Backend) (hcommands : session.commands = commands)
    (htrail : session.trail = []) (hphase : session.phase = .greeting)
    (hstart : session.start.2 = .need needs) (hleft : backend.left = none) :
    Walking commands backend.job [] { backend with session := some session.start.1 } := by
  have hlands := Session.start_lands htrail hphase
  rw [hcommands] at hlands
  have hcomes : Session.Comes (Answered commands []) session.start := Session.start_comes htrail
  have hneed : session.start.2.isNeed = true := by
    rw [hstart]
    rfl
  exact ⟨⟨_, rfl, hlands.stands hneed, hcomes.awaits hneed⟩, rfl, hleft⟩

omit [ResponseParser] in
theorem queue_walking (hleft : backend.left = none) (h : (backend.queue commands).2 = .need needs) :
    Walking (if backend.goingOn.isSome then commands else
      backend.build.mechanism :: .compress :: commands) backend.job []
      (backend.queue commands).1 := by
  unfold queue at h ⊢
  dsimp only at h ⊢
  split at h
  · cases h
  · rename_i session hbuild
    rcases Factory.build_ok hbuild with ⟨hcommands, htrail, hphase⟩
    cases hgoing : backend.goingOn with
    | none =>
      rw [hgoing] at h hcommands
      dsimp only at h
      split at h
      · rename_i found hfound
        exact start_walking { backend with goingOn := none } hcommands htrail hphase
          hfound hleft
      · cases h
      · cases h
    | some earlier =>
      rw [hgoing] at h hcommands
      dsimp only at h
      have hsame : (session.resuming earlier).commands = commands := hcommands
      have hresumed : (session.resuming earlier).trail = [] := htrail
      have hgreets : (session.resuming earlier).phase = .greeting := hphase
      split at h
      · rename_i found hfound
        exact start_walking { backend with goingOn := none } hsame hresumed hgreets
          hfound hleft
      · cases h
      · cases h

/-- The tagged replies taken for an operation. -/
def answers (backend : Backend) (describe : Describe) (op : ProtoOp) (events : List IoReady) :
    List Reply :=
  repliesOver (backend.opening describe op) events

omit [ResponseParser] in
theorem begin_walking (h : (backend.begin describe op).2 = .need needs) :
    ∃ job commands, backend.begun describe op = .walk job commands ∧
      Walking (backend.whole commands) job [] (backend.begin describe op).1 := by
  unfold begin at h ⊢
  dsimp only at h ⊢
  split at h
  · cases h
  · cases h
  · rename_i job commands hbegun
    exact ⟨job, commands, hbegun, queue_walking rfl h⟩

omit [ResponseParser] in
theorem queue_left (hleft : backend.left = none) (commands : List ImapCommand) :
    (backend.queue commands).1.left = none := by
  unfold queue
  dsimp only
  split
  · exact hleft
  · exact hleft

omit [ResponseParser] in
theorem queue_done :
    (backend.queue commands).2 ≠ .done answer := by
  unfold queue
  dsimp only
  split
  · simp
  · dsimp only
    split
    · simp
    · simp
    · simp

omit [ResponseParser] in
theorem begin_left (backend : Backend) (describe : Describe) (op : ProtoOp) :
    (backend.begin describe op).1.left = none := by
  unfold begin
  dsimp only
  split
  · rfl
  · rfl
  · exact queue_left rfl _

omit [ResponseParser] in
theorem begin_done (h : (backend.begin describe op).2 = .done answer) :
    backend.begun describe op = .applied := by
  unfold begin at h
  dsimp only at h
  split at h
  · cases h
  · assumption
  · exact absurd h queue_done

/-- An operation nothing interrupts while a command waits succeeds only once its whole walk was
dealt with and every command written was answered, or a change of folders was refused as being so
already; and a connection is kept for the next operation only in the first case. -/
theorem succeeds_answered (backend : Backend) (describe : Describe) (op : ProtoOp)
    (events : List IoReady) (h : Undisturbed (backend.opening describe op) events) :
    (∀ answer, (backend.talk describe op events).progress = .done answer →
      backend.begun describe op = .applied ∨
      ∃ job commands, backend.begun describe op = .walk job commands ∧
        (Concluded (backend.whole commands) (backend.answers describe op events)
          (backend.dealt describe op events) ∨
        Excused job (backend.opening describe op) events)) ∧
    ((backend.talk describe op events).state.left.isSome = true →
      ∃ job commands, backend.begun describe op = .walk job commands ∧
        Concluded (backend.whole commands) (backend.answers describe op events)
          (backend.dealt describe op events)) := by
  cases hbegin : (backend.begin describe op).2 with
  | need needs =>
    rcases begin_walking hbegin with ⟨job, commands, hbegun, hwalking⟩
    have hneed : (backend.opening describe op).progress.isNeed = true := by
      show (backend.begin describe op).2.isNeed = true
      rw [hbegin]
      rfl
    have hends := run_ends hneed hwalking h
    rw [List.nil_append] at hends
    have hwhole : Whole (backend.whole commands) (backend.answers describe op events)
        (backend.talk describe op events).state →
        Concluded (backend.whole commands) (backend.answers describe op events)
          (backend.dealt describe op events) := by
      rintro ⟨session, hsession, hconcluded⟩
      unfold dealt
      rw [hbegin, hsession]
      exact hconcluded
    exact ⟨fun answer hanswer => .inr ⟨job, commands, hbegun,
        (hends.done answer hanswer).imp_left hwhole⟩,
      fun hsome => ⟨job, commands, hbegun, hwhole (hends.left hsome)⟩⟩
  | done out =>
    have hover : (backend.opening describe op).progress.isNeed = false := by
      show (backend.begin describe op).2.isNeed = false
      rw [hbegin]
      rfl
    have htalk : backend.talk describe op events = backend.opening describe op :=
      run_over hover events
    refine ⟨fun _ _ => .inl (begin_done hbegin), fun hsome => ?_⟩
    rw [htalk] at hsome
    have hleft : (backend.begin describe op).1.left.isSome = true := hsome
    rw [begin_left] at hleft
    cases hleft
  | failed error =>
    have hover : (backend.opening describe op).progress.isNeed = false := by
      show (backend.begin describe op).2.isNeed = false
      rw [hbegin]
      rfl
    have htalk : backend.talk describe op events = backend.opening describe op :=
      run_over hover events
    refine ⟨fun answer hanswer => ?_, fun hsome => ?_⟩
    · rw [htalk] at hanswer
      have hdone : (backend.begin describe op).2 = .done answer := hanswer
      rw [hbegin] at hdone
      cases hdone
    · rw [htalk] at hsome
      have hleft : (backend.begin describe op).1.left.isSome = true := hsome
      rw [begin_left] at hleft
      cases hleft

end Backend

section Examples

attribute [local instance] TextTables.ascii lineParser

local instance undated : ImapDates := ⟨fun _ => [], fun _ => []⟩

/-- A backend going on a connection with nothing selected. -/
def goingOn : Backend where
  account := ⟨0⟩
  caps := ⟨⟨.localOnly, .localOnly, ⟨[]⟩⟩, .absent, .absent, .jwz⟩
  build := ⟨⟨"ada", .password "secret", []⟩, none⟩
  session := none
  staged := none
  job := .idle
  left := some ⟨[], 0, none, []⟩
  resuming := true
  goingOn := none

def undescribed : Backend.Describe := ⟨fun _ => "", fun _ => ""⟩

def answering (text : String) : IoReady := .bytes (wire text)

/-- One message is flagged and marked as not read: a mailbox is selected and two stores sent. -/
def flagging : ProtoOp := .setFlags [.imap "INBOX" 1 5] (some .unread) (some .starred)

def flagged : List IoReady :=
  [answering "* OK [UIDVALIDITY 1] here\r\na001 OK [READ-WRITE] done\r\n",
    answering "a002 OK done\r\n", answering "a003 OK done\r\n"]

/-- Each of the three commands is answered, and the connection is kept. -/
theorem flagged_answered : (goingOn.talk undescribed flagging flagged).state.left.isSome = true ∧
    Concluded [.select "INBOX" .readWrite none, flagStore "5" "+FLAGS" ["\\Flagged"],
        flagStore "5" "-FLAGS" ["\\Seen"]]
      (goingOn.answers undescribed flagging flagged)
      (goingOn.dealt undescribed flagging flagged) := by
  have hcalm : Backend.Undisturbed (goingOn.opening undescribed flagging) flagged := by
    refine ⟨?_, ?_, ?_, trivial⟩ <;> exact fun _ _ _ hinterrupt => by cases hinterrupt
  have hkept : (goingOn.talk undescribed flagging flagged).state.left.isSome = true := by
    decide +kernel
  rcases (Backend.succeeds_answered goingOn undescribed _ _ hcalm).2 hkept with
    ⟨job, commands, hbegun, hconcluded⟩
  have hwalk : Begun.walk .applied [.select "INBOX" .readWrite none,
      flagStore "5" "+FLAGS" ["\\Flagged"], flagStore "5" "-FLAGS" ["\\Seen"]] =
      .walk job commands := hbegun
  cases hwalk
  exact ⟨hkept, hconcluded⟩

/-- What is reported a success was a whole walk. -/
def Reports (backend : Backend) (describe : Backend.Describe) (op : ProtoOp)
    (events : List IoReady) : Prop :=
  ∀ answer, (backend.talk describe op events).progress = .done answer →
    backend.begun describe op = .applied ∨
    ∃ job commands, backend.begun describe op = .walk job commands ∧
      Concluded (backend.whole commands) (backend.answers describe op events)
        (backend.dealt describe op events)

def isDone (progress : Progress Backend.Answer) : Bool :=
  match progress with
  | .done _ => true
  | _ => false

theorem done_of {progress : Progress Backend.Answer} (h : isDone progress = true) :
    ∃ answer, progress = .done answer := by
  cases progress with
  | done answer => exact ⟨answer, rfl⟩
  | need | failed => cases h

/-- A folder that exists is never followed, though its creation succeeds. -/
theorem existing_unfollowed : ¬ ∀ (backend : Backend) (describe : Backend.Describe) (op : ProtoOp)
    (events : List IoReady), (∀ mailbox uidnext also, op ≠ .watch mailbox uidnext also) →
      Reports backend describe op events := by
  intro h
  let creating : ProtoOp := .folder (.create "Work")
  let refusing := [answering "a001 NO [ALREADYEXISTS] there\r\n"]
  have hdone : isDone (goingOn.talk undescribed creating refusing).progress = true := by
    decide +kernel
  have hlength : (goingOn.dealt undescribed creating refusing).length = 1 := by decide +kernel
  rcases done_of hdone with ⟨answer, hanswer⟩
  rcases h goingOn undescribed creating refusing (fun _ _ _ => by simp [creating]) answer hanswer
    with hbegun | ⟨job, commands, hbegun, hconcluded⟩
  · cases hbegun
  · have hwalk : Begun.walk (.folder (.create "Work")) [.create "Work", .subscribe "Work"] =
        .walk job commands := hbegun
    cases hwalk
    have hwhole := hconcluded.length
    rw [hlength] at hwhole
    exact absurd hwhole (by decide)

end Examples

end Mailo.Proto.Imap
