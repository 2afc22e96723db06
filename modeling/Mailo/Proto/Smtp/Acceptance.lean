import Mailo.Library.Runs
import Mailo.Proto.Smtp.Dialogue

/-!
# An accepted message stands

Once the server has taken the message, the session must end as an acceptance however rudely it
ends: a failure makes the outbox send the message again.
-/

namespace Mailo.Proto.Smtp

open Domain Library

variable [Idna]

/-! ## Sessions that have signed in -/

/-- A session as it is begun; one that goes on where another left off does so on a connection that
was signed in. -/
inductive Begun : SmtpSession → Prop
  | new (sub : Submission) : Begun (.new sub)
  | fresh (sub : Submission) : Begun (.open sub none)
  | resumed (sub : Submission) (on : Open)
      (signed : on.mechanism.isSome = true ∨ sub.auth.isRelayed = true) :
      Begun (.open sub (some on))

def submitting (session : SmtpSession) : Talk SmtpSession SmtpReply :=
  Talk.begin session.start.1 session.start.2

def unsigned : Phase → Bool
  | .greeting | .ehlo | .startTls | .awaitTls | .ehloAfterTls => true
  | _ => false

/-- Past those phases a session knows how it signed in, or need not. -/
def Signing (session : SmtpSession) : Prop := unsigned session.phase = false → session.signed = true

variable {session : SmtpSession} {talk : Talk SmtpSession SmtpReply} {accepted : ReplyText}

theorem signing_begun (h : Begun session) :
    Signing session.start.1 := by
  have hsession : Signing session := by
    cases h with
    | new | fresh => exact fun h => by cases h
    | resumed sub on signed =>
      intro _
      unfold SmtpSession.signed
      rw [Bool.or_eq_true]
      exact signed
  rcases start_cases session with ⟨error, hstart⟩ | ⟨_, hstart⟩ | ⟨hphase, form, _, hstart⟩
  · rw [hstart]
    exact hsession
  · rw [hstart]
    exact hsession
  · rw [hstart]
    exact fun _ => hsession (by rw [hphase]; rfl)

variable {needs : List IoNeed} {reply : ServerReply} {error : ProtoError}

omit [Idna] in
theorem signed_apply {next : Phase} {mechanism : Option SaslMech}
    {envelope : Option PreparedEnvelope} (h : session.signed = true) :
    (session.apply (.continue next mechanism needs envelope)).1.signed = true := by
  unfold SmtpSession.signed at h ⊢
  cases mechanism with
  | none => exact h
  | some mech => rfl

/-- Only the greeting, the first `EHLO` and `STARTTLS` are answered before a mechanism is chosen. -/
theorem signing_apply {rest : Bytes} {ext : EhloExtensions} {outcome : Outcome}
    (h : Signing session)
    (advance : Advance session.submission ext session.mechanism session.envelope reply
      session.phase outcome) :
    Signing (({ session with buf := rest, extensions := ext } : SmtpSession).apply outcome).1 := by
  have hstays : unsigned session.phase = false →
      ∀ {next mechanism needs envelope}, outcome = .continue next mechanism needs envelope →
      Signing (({ session with buf := rest, extensions := ext } : SmtpSession).apply outcome).1 := by
    intro hphase next mechanism needs envelope houtcome _
    rw [houtcome]
    exact signed_apply (h hphase)
  generalize hphase : session.phase = phase at advance hstays
  cases advance with
  | greeting | startTls | upgraded => exact fun h => by cases h
  | relayed phase hello yes form prepared auth =>
    intro _
    unfold SmtpSession.signed
    rw [Bool.or_eq_true]
    right
    change session.submission.auth.isRelayed = true
    rw [auth]
    rfl
  | authenticates phase hello yes upgraded form prepared signIn auth chosen next bytes command =>
    exact fun _ => rfl
  | challenged phase next text signIn auth code answer =>
    cases answer <;> exact hstays rfl rfl
  | signedIn phase yes ends signIn auth form held =>
    refine hstays ?_ rfl
    cases phase <;> first | rfl | cases ends
  | mailFrom | rcpt => exact hstays rfl rfl
  | lastRcpt index yes form held last =>
    unfold sendBody at hstays ⊢
    split at hstays
    · rename_i hchunking
      rw [if_pos hchunking]
      exact hstays rfl rfl
    · rename_i hchunking
      rw [if_neg hchunking]
      exact hstays rfl rfl
  | data go => exact hstays rfl rfl
  | accepted phase message yes =>
    refine hstays ?_ rfl
    rcases message with rfl | rfl <;> rfl
  | closed accepted signed =>
    intro _
    exact h (by rw [hphase]; rfl)

theorem signing_next (h : talk.progress.isNeed = true → Signing talk.state) (ready : IoReady)
    (goes : (talk.next SmtpSession.machine ready).progress.isNeed = true) :
    Signing (talk.next SmtpSession.machine ready).state := by
  cases hprogress : talk.progress with
  | done | failed =>
    rw [Talk.next_over (by rw [hprogress]; rfl), hprogress] at goes
    cases goes
  | need needs =>
    have hsigning := h (by rw [hprogress]; rfl)
    obtain ⟨result, taken, hfed, hnext⟩ := next_fed hprogress ready
    rw [hnext] at goes ⊢
    cases hfed with
    | fails after error taken => cases goes
    | waits fed bytes reads => exact hsigning
    | secured tls phase => exact fun h => by cases h
    | ended | kept => cases goes
    | replies fed taken rest reply outcome bytes split took goes advance =>
      exact signing_apply hsigning advance

theorem submitting_signing (begun : Begun session)
    (run : Reaches (Talk.next SmtpSession.machine) anyAction (submitting session) talk) :
    talk.progress.isNeed = true → Signing talk.state :=
  run.invariant (fun talk => talk.progress.isNeed = true → Signing talk.state)
    (fun _ => signing_begun begun) fun _ ready h _ => signing_next h ready

/-! ## After the message is taken -/

def Accepting (session : SmtpSession) (ready : IoReady) (reply : ServerReply) : Prop :=
  (session.phase = .body ∨ session.phase = .bdat) ∧ isSuccess reply.code = true ∧
    ∃ fed rest, ready = .bytes fed ∧ session.buf.length + fed.length ≤ maxReply ∧
      takeReply (session.buf ++ fed) = .ok (some (reply, rest))

/-- What may happen to a session that waits for the answer to `QUIT`: the connection ends, the
caller wants it back, or bytes come that are not too many and begin no malformed reply. -/
def Gentle (session : SmtpSession) : IoReady → Prop
  | .bytes fed => session.buf.length + fed.length ≤ maxReply ∧
      ∀ error, takeReply (session.buf ++ fed) ≠ .error error
  | .eof | .interrupt => True
  | .tlsOpen | .woke => False

def Standing (accepted : ReplyText) (talk : Talk SmtpSession SmtpReply) : Prop :=
  (talk.progress.isNeed = true ∧ talk.state.phase = .quit accepted ∧ talk.state.signed = true) ∨
    ∃ reply, talk.progress = .done reply ∧ reply.accepted = accepted

omit [Idna] in
theorem standing_not_failed (h : Standing accepted talk) :
    talk.progress ≠ .failed error := by
  intro hfailed
  rcases h with ⟨hneed, _⟩ | ⟨reply, hdone, _⟩
  · rw [hfailed] at hneed
    cases hneed
  · rw [hfailed] at hdone
    cases hdone

def AllGentle : Talk SmtpSession SmtpReply → List IoReady → Prop
  | _, [] => True
  | talk, ready :: rest =>
    (talk.progress.isNeed = true → Gentle talk.state ready) ∧
      AllGentle (talk.next SmtpSession.machine ready) rest

theorem onReply_quit {session : SmtpSession} {accepted : ReplyText}
    (phase : session.phase = .quit accepted) (signed : session.signed = true)
    (reply : ServerReply) : session.onReply reply =
      ({ session with phase := .finished },
        .done ⟨session.extensions, session.mechanism, accepted, some (replyText reply)⟩) := by
  have hnone : (session.mechanism.isNone && !session.submission.auth.isRelayed) = false := by
    unfold SmtpSession.signed at signed
    cases hmech : session.mechanism with
    | none =>
      rw [hmech] at signed
      simpa using signed
    | some mech => rfl
  unfold SmtpSession.onReply
  dsimp only
  rw [phase, if_neg (by simp), if_neg (by simp), phase]
  unfold decide onQuit
  rw [hnone]
  rfl

theorem feed_quit (phase : session.phase = .quit accepted) (signed : session.signed = true)
    (ready : IoReady) :
    (Gentle session ready ∧
      (((session.feed ready).2.isNeed = true ∧
        (session.feed ready).1.phase = .quit accepted ∧ (session.feed ready).1.signed = true) ∨
      ∃ reply, (session.feed ready).2 = .done reply ∧ reply.accepted = accepted)) ∨
    (¬ Gentle session ready ∧ ∃ error, (session.feed ready).2 = .failed error) := by
  have hend : ∀ error, ∃ reply, (session.onEnd error).2 = .done reply ∧
      reply.accepted = accepted := by
    intro error
    unfold SmtpSession.onEnd
    rw [phase]
    rcases finishOk_cases session accepted none with ⟨hunsigned, _⟩ | ⟨_, hstep⟩
    · rw [signed] at hunsigned
      cases hunsigned
    · dsimp only
      rw [hstep]
      exact ⟨_, rfl, rfl⟩
  cases ready with
  | eof | interrupt => exact .inl ⟨trivial, .inr (hend _)⟩
  | woke => exact .inr ⟨id, _, rfl⟩
  | tlsOpen =>
    right
    unfold SmtpSession.feed SmtpSession.onTlsOpen
    rw [phase, if_pos (by simp)]
    exact ⟨id, _, rfl⟩
  | bytes fed =>
    unfold SmtpSession.feed SmtpSession.onBytes
    dsimp only
    rw [if_neg (by rw [phase]; simp), if_neg (by rw [phase]; simp)]
    split
    · rename_i hlong
      exact .inr ⟨fun h => absurd h.1 (not_le.mpr hlong), _, rfl⟩
    · rename_i hshort
      split
      · rename_i htake
        exact .inl ⟨⟨not_lt.mp hshort, fun error herror => by rw [htake] at herror; cases herror⟩,
          .inl ⟨rfl, phase, signed⟩⟩
      · rename_i error htake
        exact .inr ⟨fun h => h.2 _ htake, _, rfl⟩
      · rename_i reply rest htake
        left
        refine ⟨⟨not_lt.mp hshort, fun error herror => by rw [htake] at herror; cases herror⟩,
          .inr ?_⟩
        have hquit := @onReply_quit _ { session with buf := rest } accepted phase signed reply
        rw [hquit]
        exact ⟨_, rfl, rfl⟩

theorem run_failed (h : talk.progress = .failed error) (events : List IoReady) :
    (Talk.run SmtpSession.machine talk events).progress = .failed error := by
  induction events with
  | nil => exact h
  | cons ready rest ih =>
    change (Talk.run SmtpSession.machine (talk.next SmtpSession.machine ready) rest).progress = _
    rw [Talk.next_over (by rw [h]; rfl)]
    exact ih

theorem run_standing (h : Standing accepted talk) (events : List IoReady) :
    Standing accepted (Talk.run SmtpSession.machine talk events) ↔ AllGentle talk events := by
  induction events generalizing talk with
  | nil => exact ⟨fun _ => trivial, fun _ => h⟩
  | cons ready rest ih =>
    change Standing accepted
      (Talk.run SmtpSession.machine (talk.next SmtpSession.machine ready) rest) ↔ _ ∧ _
    rcases h with ⟨hneed, hphase, hsigned⟩ | ⟨reply, hdone, haccepted⟩
    · cases hprogress : talk.progress with
      | done | failed =>
        rw [hprogress] at hneed
        cases hneed
      | need needs =>
        have hnext := next_feed hprogress ready
        rcases feed_quit hphase hsigned ready with ⟨hgentle, hstands⟩ | ⟨hharsh, error, hfails⟩
        · have hstanding : Standing accepted (talk.next SmtpSession.machine ready) := by
            rw [hnext]
            exact hstands
          rw [ih hstanding]
          exact ⟨fun hrest => ⟨fun _ => hgentle, hrest⟩, fun hall => hall.2⟩
        · have hfailed : (talk.next SmtpSession.machine ready).progress = .failed error := by
            rw [hnext]
            exact hfails
          refine ⟨fun hstands => absurd (run_failed hfailed rest)
            (standing_not_failed hstands), fun hall => absurd (hall.1 rfl) hharsh⟩
    · have hover : talk.progress.isNeed = false := by rw [hdone]; rfl
      rw [Talk.next_over hover, ih (.inr ⟨reply, hdone, haccepted⟩)]
      exact ⟨fun hrest => ⟨fun hneed => absurd hneed (by rw [hover]; simp), hrest⟩,
        fun hall => hall.2⟩

theorem onReply_accepts {session : SmtpSession} (phase : session.phase = .body ∨ session.phase = .bdat)
    (signed : session.signed = true) {reply : ServerReply} (yes : isSuccess reply.code = true) :
    ((session.onReply reply).2.isNeed = true ∧
        (session.onReply reply).1.phase = .quit (replyText reply) ∧
        (session.onReply reply).1.signed = true) ∨
      ∃ out, (session.onReply reply).2 = .done out ∧ out.accepted = replyText reply := by
  have hyes := expectSuccess_of yes
  have hbody : onBody reply =
      .ok (continueWith (.quit (replyText reply)) [cmd "QUIT"] none) := by
    unfold onBody
    rw [hyes]
    rfl
  unfold SmtpSession.onReply
  dsimp only
  split
  · right
    rw [hyes]
    rcases finishOk_cases session (replyText reply) none with ⟨hunsigned, _⟩ | ⟨_, hstep⟩
    · rw [signed] at hunsigned
      cases hunsigned
    · dsimp only
      rw [hstep]
      exact ⟨_, rfl, rfl⟩
  · left
    rw [if_neg (by rcases phase with hphase | hphase <;> rw [hphase] <;> simp)]
    have hdecide : decide session.phase reply session.submission session.extensions
        session.mechanism session.envelope =
          .ok (continueWith (.quit (replyText reply)) [cmd "QUIT"] none) := by
      rcases phase with hphase | hphase <;> rw [hphase] <;> exact hbody
    rw [hdecide]
    exact ⟨rfl, rfl, signed_apply signed⟩

theorem accepting_next (progress : talk.progress = .need needs) (signing : Signing talk.state)
    {ready : IoReady} (accepting : Accepting talk.state ready reply) :
    Standing (replyText reply) (talk.next SmtpSession.machine ready) := by
  obtain ⟨hphase, hyes, fed, rest, rfl, hshort, htake⟩ := accepting
  have hsigned : talk.state.signed = true := by
    apply signing
    rcases hphase with hphase | hphase <;> rw [hphase] <;> rfl
  have hnext := next_feed progress (.bytes fed)
  have hfeed : talk.state.feed (.bytes fed) =
      ({ talk.state with buf := rest } : SmtpSession).onReply reply := by
    unfold SmtpSession.feed SmtpSession.onBytes
    dsimp only
    rw [if_neg (by rcases hphase with hphase | hphase <;> rw [hphase] <;> simp),
      if_neg (by rcases hphase with hphase | hphase <;> rw [hphase] <;> simp),
      if_neg (not_lt.mpr hshort), htake]
  rw [hnext, hfeed]
  exact @onReply_accepts _ { talk.state with buf := rest } hphase hsigned reply hyes

/-- However a session came to have its message accepted, it goes on to end with that acceptance,
and never fails, exactly as long as what follows is gentle. -/
theorem accepted_stands {session : SmtpSession} (begun : Begun session)
    {talk : Talk SmtpSession SmtpReply}
    (run : Reaches (Talk.next SmtpSession.machine) anyAction (submitting session) talk)
    (live : talk.progress.isNeed = true) {ready : IoReady} {reply : ServerReply}
    (accepting : Accepting talk.state ready reply) (events : List IoReady) :
    Standing (replyText reply)
        (Talk.run SmtpSession.machine (talk.next SmtpSession.machine ready) events) ↔
      AllGentle (talk.next SmtpSession.machine ready) events := by
  have hsigning := submitting_signing begun run live
  cases hprogress : talk.progress with
  | need needs => exact run_standing (accepting_next hprogress hsigning accepting) events
  | done | failed =>
    rw [hprogress] at live
    cases live

omit [Idna]

/-- A short letter to one recipient, signed in by password. -/
def letter : Submission :=
  { ehlo := "client"
    host := "smtp.example"
    port := 465
    tls := .implicit
    auth := .signIn ⟨"ada", .password "pw", [.plain]⟩
    mailFrom := "ada@a.example"
    recipients := ["bob@b.example"]
    receipt := none
    message := wire "Hi\r\n" }

/-- What a server says up to the message itself. -/
def answers : List IoReady :=
  ["220 smtp.example", "250 AUTH PLAIN", "235 in", "250 sender", "250 recipient",
    "354 go ahead"].map fun text => .bytes (cmd text)

/-- A letter whose message has been written. -/
def written : Talk SmtpSession SmtpReply :=
  Talk.run (@SmtpSession.machine .ascii) (@submitting .ascii (.new letter)) answers

theorem written_accepting :
    Accepting written.state (.bytes (cmd "250 taken")) ⟨250, ["taken"]⟩ :=
  ⟨.inl (by decide), by decide, _, [], rfl, by decide, by decide⟩

theorem accepted_stands_letter :
    Standing ⟨250, "taken"⟩ (Talk.run (@SmtpSession.machine .ascii)
        (written.next (@SmtpSession.machine .ascii) (.bytes (cmd "250 taken"))) [.interrupt]) ↔
      @AllGentle .ascii
        (written.next (@SmtpSession.machine .ascii) (.bytes (cmd "250 taken"))) [.interrupt] :=
  @accepted_stands .ascii _ (.new letter) written (Reaches.start.foldl answers) (by decide) _
    ⟨250, ["taken"]⟩ written_accepting [.interrupt]

/-- A goodbye that is no reply makes a session fail whose message was taken. -/
theorem accepted_rudely : ∃ talk : Talk SmtpSession SmtpReply, ∃ ready reply error,
    Reaches (Talk.next (@SmtpSession.machine .ascii)) anyAction
      (@submitting .ascii (.new letter)) talk ∧
    talk.progress.isNeed = true ∧ Accepting talk.state ready reply ∧
    (Talk.run (@SmtpSession.machine .ascii)
      (talk.next (@SmtpSession.machine .ascii) ready) [.bytes (cmd "bye")]).progress =
        .failed error := by
  refine ⟨written, .bytes (cmd "250 taken"), ⟨250, ["taken"]⟩,
    .malformed "not a reply line: bye", Reaches.start.foldl answers, by decide,
    written_accepting, by decide⟩

end Mailo.Proto.Smtp
