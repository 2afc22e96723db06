import Mailo.Proto.Smtp.Session

/-!
# What one event does to an SMTP session

A session waits for one reply at a time. The reply says how it goes on: what is written next is
read off the phase it was waited for in.
-/

namespace Mailo.Proto.Smtp

open Domain Library

variable {reply : ServerReply} {rest : Bytes} {ready : IoReady}

theorem expectSuccess_ok (h : expectSuccess reply = .ok ()) :
    isSuccess reply.code = true := by
  unfold expectSuccess at h
  split at h
  · rename_i hclass
    unfold isSuccess
    rw [hclass]
    rfl
  · cases h
  · cases h
  · cases h

theorem expectSuccess_of (h : isSuccess reply.code = true) :
    expectSuccess reply = .ok () := by
  unfold isSuccess at h
  unfold expectSuccess
  rw [of_decide_eq_true h]

theorem expectIntermediate_ok (h : expectIntermediate reply = .ok ()) :
    classify reply.code = some .intermediate := by
  unfold expectIntermediate at h
  split at h
  · assumption
  · cases h
  · cases h
  · cases h

variable {buf taken : Bytes} {session : SmtpSession} {needs : List IoNeed}
  {talk : Talk SmtpSession SmtpReply}

theorem takeLines_split {expected : Option Nat} {lines : List String} {fuel : Nat}
    (h : takeLines expected lines fuel buf = .ok (some (reply, rest))) :
    ∃ front, buf = front ++ rest ∧ ∀ more, front.length < more →
      takeLines expected lines more front = .ok (some (reply, [])) := by
  induction fuel generalizing expected lines buf with
  | zero => cases h
  | succ fuel ih =>
    rw [takeLines] at h
    cases hsplit : Crlf.split buf with
    | none =>
      rw [hsplit] at h
      cases h
    | some pair =>
      obtain ⟨line, tail⟩ := pair
      have hbuf := Crlf.split_eq hsplit
      have hwhole := Crlf.split_whole hsplit
      rw [hsplit] at h
      dsimp only at h
      cases hparsed : parseLine line with
      | error error =>
        rw [hparsed] at h
        cases h
      | ok parsed =>
        rw [hparsed] at h
        dsimp only at h
        split at h
        · cases h
        · rename_i hsame
          split at h
          · rename_i hlast
            cases h
            refine ⟨line ++ [13, 10], by simp [hbuf], fun more henough => ?_⟩
            obtain ⟨more, rfl⟩ := Nat.exists_eq_add_one_of_ne_zero (Nat.ne_zero_of_lt henough)
            rw [takeLines, Crlf.split_line hwhole]
            dsimp only
            rw [hparsed]
            dsimp only
            rw [if_neg hsame, if_pos hlast]
          · rename_i hlast
            obtain ⟨front, htail, hfront⟩ := ih h
            refine ⟨line ++ 13 :: 10 :: front, by simp [hbuf, htail], fun more henough => ?_⟩
            obtain ⟨more, rfl⟩ := Nat.exists_eq_add_one_of_ne_zero (Nat.ne_zero_of_lt henough)
            rw [takeLines, Crlf.split_line hwhole]
            dsimp only
            rw [hparsed]
            dsimp only
            rw [if_neg hsame, if_neg hlast]
            apply hfront
            simp only [List.length_append, List.length_cons] at henough
            omega

theorem takeReply_split (h : takeReply buf = .ok (some (reply, rest))) :
    ∃ front, buf = front ++ rest ∧ takeReply front = .ok (some (reply, [])) := by
  obtain ⟨front, hbuf, hfront⟩ := takeLines_split h
  exact ⟨front, hbuf, hfront _ (Nat.lt_succ_self _)⟩

/-! ## How a reply goes on -/

variable [Idna]

/-- The message that answers a challenge while signing in, and the phase after it. -/
inductive Challenged (signIn : SignIn) : Phase → Phase → String → Prop
  | plain (pass : String) (secret : password signIn.credential = .ok pass) :
      Challenged signIn .authPlain .authPlainSent (b64 (plainRaw signIn.username pass))
  | xoauth2 : Challenged signIn .authXoauth2 .authXoauth2Sent ""
  | user : Challenged signIn .authLoginUser .authLoginPass (b64 (wire signIn.username))
  | pass (pass : String) (secret : password signIn.credential = .ok pass) :
      Challenged signIn .authLoginPass .authLoginSent (b64 (wire pass))

/-- The phases whose positive reply says the session is signed in. -/
def signsIn : Phase → Bool
  | .authPlain | .authPlainSent | .authLoginSent | .authXoauth2 | .authXoauth2Sent => true
  | _ => false

/-- What a reply leads to, by the phase it was waited for in. -/
inductive Advance (sub : Submission) (ext : EhloExtensions) (mech : Option SaslMech)
    (envelope : Option PreparedEnvelope) (reply : ServerReply) : Phase → Outcome → Prop
  | greeting (yes : isSuccess reply.code = true) :
      Advance sub ext mech envelope reply .greeting
        (continueWith .ehlo [ehloCmd sub.ehlo] none)
  | startTls (yes : isSuccess reply.code = true) (upgrade : upgrades .ehlo sub = true) :
      Advance sub ext mech envelope reply .ehlo (continueWith .startTls [cmd "STARTTLS"] none)
  | relayed (phase : Phase) (hello : phase = .ehlo ∨ phase = .ehloAfterTls)
      (yes : isSuccess reply.code = true) (form : PreparedEnvelope)
      (prepared : prepareEnvelope ext sub.mailFrom sub.recipients sub.receipt = .ok form)
      (auth : sub.auth = .relayed) :
      Advance sub ext mech envelope reply phase
        (continueWithEnvelope .mailFrom [cmd (mailFromCommand form sub.message)] none (some form))
  | authenticates (phase : Phase) (hello : phase = .ehlo ∨ phase = .ehloAfterTls)
      (yes : isSuccess reply.code = true) (upgraded : upgrades phase sub = false)
      (form : PreparedEnvelope)
      (prepared : prepareEnvelope ext sub.mailFrom sub.recipients sub.receipt = .ok form)
      (signIn : SignIn) (auth : sub.auth = .signIn signIn) (chosen : SaslMech) (next : Phase)
      (bytes : Bytes) (command : authCommand chosen signIn = .ok (next, bytes)) :
      Advance sub ext mech envelope reply phase
        (continueWithEnvelope next [bytes] (some chosen) (some form))
  | upgraded (yes : isSuccess reply.code = true) :
      Advance sub ext mech envelope reply .startTls
        (.continue .awaitTls none [.openTls sub.host sub.port sub.tls] none)
  | challenged (phase next : Phase) (text : String) (signIn : SignIn)
      (auth : sub.auth = .signIn signIn) (code : reply.code = 334)
      (answer : Challenged signIn phase next text) :
      Advance sub ext mech envelope reply phase (continueWith next [cmd text] none)
  | signedIn (phase : Phase) (yes : isSuccess reply.code = true) (ends : signsIn phase = true)
      (signIn : SignIn) (auth : sub.auth = .signIn signIn)
      (form : PreparedEnvelope) (held : envelope = some form) :
      Advance sub ext mech envelope reply phase
        (continueWith .mailFrom [cmd (mailFromCommand form sub.message)] none)
  | mailFrom (yes : isSuccess reply.code = true) (form : PreparedEnvelope)
      (held : envelope = some form) (addr : String) (first : form.recipients[0]? = some addr) :
      Advance sub ext mech envelope reply .mailFrom
        (continueWith (.rcpt 0) [cmd (rcptCommand form addr)] none)
  | rcpt (index : Nat) (yes : isSuccess reply.code = true) (form : PreparedEnvelope)
      (held : envelope = some form) (addr : String)
      (next : form.recipients[index + 1]? = some addr) :
      Advance sub ext mech envelope reply (.rcpt index)
        (continueWith (.rcpt (index + 1)) [cmd (rcptCommand form addr)] none)
  | lastRcpt (index : Nat) (yes : isSuccess reply.code = true) (form : PreparedEnvelope)
      (held : envelope = some form) (last : form.recipients.length ≤ index + 1) :
      Advance sub ext mech envelope reply (.rcpt index) (sendBody form sub.message)
  | data (go : classify reply.code = some .intermediate) :
      Advance sub ext mech envelope reply .data
        (continueWith .body (dataLines sub.message) none)
  | accepted (phase : Phase) (message : phase = .body ∨ phase = .bdat)
      (yes : isSuccess reply.code = true) :
      Advance sub ext mech envelope reply phase
        (continueWith (.quit (replyText reply)) [cmd "QUIT"] none)
  | closed (accepted : ReplyText) (signed : (mech.isNone && !sub.auth.isRelayed) = false) :
      Advance sub ext mech envelope reply (.quit accepted)
        (.done ⟨ext, mech, accepted, some (replyText reply)⟩)

section Cases

variable {sub : Submission} {ext : EhloExtensions} {mech : Option SaslMech}
  {envelope : Option PreparedEnvelope} {reply : ServerReply} {phase : Phase} {outcome : Outcome}

theorem onEhlo_cases (hello : phase = .ehlo ∨ phase = .ehloAfterTls)
    (h : onEhlo phase reply sub ext = .ok outcome) :
    Advance sub ext mech envelope reply phase outcome := by
  unfold onEhlo at h
  cases hyes : expectSuccess reply with
  | error error =>
    rw [hyes] at h
    cases h
  | ok =>
    have hsuccess := expectSuccess_ok hyes
    rw [hyes] at h
    dsimp only at h
    cases hupgrade : upgrades phase sub with
    | true =>
      rw [hupgrade, if_pos rfl] at h
      split at h
      · cases h
      · cases h
        rcases hello with rfl | rfl
        · exact .startTls hsuccess hupgrade
        · simp [upgrades] at hupgrade
    | false =>
      rw [hupgrade, if_neg (by simp)] at h
      unfold submits at h
      split at h
      · cases h
      · split at h
        · cases h
        · rename_i form hform
          split at h
          · rename_i hauth
            cases h
            exact .relayed phase hello hsuccess form hform hauth
          · rename_i signIn hauth
            split at h
            · cases h
            · rename_i chosen hchosen
              obtain ⟨⟨next, bytes⟩, hcommand, rfl⟩ := map_eq_ok h
              exact .authenticates phase hello hsuccess hupgrade form hform signIn hauth
                chosen next bytes hcommand

variable {signIn : SignIn}

theorem finishAuth_cases (ends : signsIn phase = true) (auth : sub.auth = .signIn signIn)
    (h : finishAuth reply sub envelope = .ok outcome) :
    Advance sub ext mech envelope reply phase outcome := by
  unfold finishAuth at h
  split at h
  · rename_i hyes
    obtain ⟨form, hform, rfl⟩ := map_eq_ok h
    cases henvelope : envelope with
    | none =>
      rw [henvelope] at hform
      cases hform
    | some held =>
      rw [henvelope] at hform
      cases hform
      exact .signedIn phase hyes ends signIn auth _ rfl
  · cases h

theorem challenge_cases {next : Phase} {text : Except ProtoError String}
    (auth : sub.auth = .signIn signIn)
    (answer : ∀ said, text = .ok said → Challenged signIn phase next said)
    (h : challenge reply next text = .ok outcome) :
    Advance sub ext mech envelope reply phase outcome := by
  unfold challenge at h
  split at h
  · cases h
  · rename_i hcode
    obtain ⟨said, hsaid, rfl⟩ := map_eq_ok h
    exact .challenged phase next said signIn auth (not_not.mp hcode) (answer said hsaid)

theorem onAuth_cases (h : onAuth phase reply sub envelope = .ok outcome) :
    Advance sub ext mech envelope reply phase outcome := by
  unfold onAuth at h
  cases hauth : sub.auth with
  | relayed =>
    rw [hauth] at h
    cases h
  | signIn signIn =>
    rw [hauth] at h
    cases phase with
    | authPlain =>
      dsimp only at h
      split at h
      · rename_i hcode
        obtain ⟨pass, hpass, rfl⟩ := map_eq_ok h
        exact .challenged _ _ _ signIn hauth hcode (.plain pass hpass)
      · exact finishAuth_cases rfl hauth h
    | authXoauth2 =>
      dsimp only at h
      split at h
      · rename_i hcode
        cases h
        exact .challenged _ _ _ signIn hauth hcode .xoauth2
      · exact finishAuth_cases rfl hauth h
    | authPlainSent | authXoauth2Sent | authLoginSent => exact finishAuth_cases rfl hauth h
    | authLoginUser =>
      refine challenge_cases hauth (fun said hsaid => ?_) h
      cases hsaid
      exact .user
    | authLoginPass =>
      refine challenge_cases hauth (fun said hsaid => ?_) h
      obtain ⟨pass, hpass, rfl⟩ := map_eq_ok hsaid
      exact .pass pass hpass
    | _ => cases h

theorem onMailFrom_cases (h : onMailFrom reply envelope = .ok outcome) :
    Advance sub ext mech envelope reply .mailFrom outcome := by
  unfold onMailFrom at h
  split at h
  · cases h
  · rename_i hyes
    cases henvelope : envelope with
    | none =>
      rw [henvelope] at h
      cases h
    | some form =>
      rw [henvelope] at h
      dsimp only [requireEnvelope, sendRcpt] at h
      split at h
      · cases h
      · rename_i addr hfirst
        cases h
        exact .mailFrom (expectSuccess_ok hyes) form rfl addr hfirst

theorem onRcpt_cases {index : Nat} (h : onRcpt index reply sub envelope = .ok outcome) :
    Advance sub ext mech envelope reply (.rcpt index) outcome := by
  unfold onRcpt at h
  split at h
  · cases h
  · rename_i hyes
    cases henvelope : envelope with
    | none =>
      rw [henvelope] at h
      cases h
    | some form =>
      rw [henvelope] at h
      dsimp only [requireEnvelope, sendRcpt] at h
      split at h
      · split at h
        · cases h
        · rename_i addr hnext
          cases h
          exact .rcpt index (expectSuccess_ok hyes) form rfl addr hnext
      · rename_i hlast
        cases h
        exact .lastRcpt index (expectSuccess_ok hyes) form rfl (not_lt.mp hlast)

theorem onBody_cases (message : phase = .body ∨ phase = .bdat)
    (h : onBody reply = .ok outcome) : Advance sub ext mech envelope reply phase outcome := by
  obtain ⟨_, hyes, rfl⟩ := map_eq_ok h
  exact .accepted phase message (expectSuccess_ok hyes)

theorem decide_cases (h : decide phase reply sub ext mech envelope = .ok outcome) :
    Advance sub ext mech envelope reply phase outcome := by
  cases phase with
  | greeting =>
    obtain ⟨_, hyes, rfl⟩ := map_eq_ok h
    exact .greeting (expectSuccess_ok hyes)
  | ehlo => exact onEhlo_cases (.inl rfl) h
  | ehloAfterTls => exact onEhlo_cases (.inr rfl) h
  | startTls =>
    obtain ⟨_, hyes, rfl⟩ := map_eq_ok h
    exact .upgraded (expectSuccess_ok hyes)
  | authPlain | authPlainSent | authLoginUser | authLoginPass | authLoginSent | authXoauth2
  | authXoauth2Sent => exact onAuth_cases h
  | mailFrom => exact onMailFrom_cases h
  | rcpt index => exact onRcpt_cases h
  | data =>
    obtain ⟨_, hgo, rfl⟩ := map_eq_ok h
    exact .data (expectIntermediate_ok hgo)
  | body => exact onBody_cases (.inl rfl) h
  | bdat => exact onBody_cases (.inr rfl) h
  | quit accepted =>
    change onQuit accepted reply ext mech sub.auth = _ at h
    unfold onQuit at h
    split at h
    · cases h
    · rename_i hsigned
      cases h
      exact .closed accepted (by simpa using hsigned)
  | awaitTls | resumed | finished => cases h

end Cases

/-! ## What an event does -/

/-- The extensions in force once a reply is read. -/
def SmtpSession.heardOf (session : SmtpSession) (reply : ServerReply) : EhloExtensions :=
  if (session.phase = .ehlo || session.phase = .ehloAfterTls) && isSuccess reply.code then
    parseEhlo reply
  else session.extensions

/-- Whether the connection is kept once the reply waited for accepts the message. -/
def SmtpSession.keeps (session : SmtpSession) : Bool :=
  session.stays && (session.phase = .body || session.phase = .bdat)

def SmtpSession.signed (session : SmtpSession) : Bool :=
  session.mechanism.isSome || session.submission.auth.isRelayed

omit [Idna] in
theorem finishOk_cases (session : SmtpSession) (accepted : ReplyText)
    (closing : Option ReplyText) :
    (session.signed = false ∧ ∃ error, session.finishOk accepted closing = (session, .failed error)) ∨
    (session.signed = true ∧ session.finishOk accepted closing =
      ({ session with phase := .finished },
        .done ⟨session.extensions, session.mechanism, accepted, closing⟩)) := by
  unfold SmtpSession.finishOk SmtpSession.signed
  cases session.mechanism with
  | none =>
    cases session.submission.auth.isRelayed with
    | true => exact .inr ⟨rfl, rfl⟩
    | false => exact .inl ⟨rfl, _, rfl⟩
  | some mech => exact .inr ⟨rfl, rfl⟩

/-- What an event comes to, and the bytes it takes. -/
inductive Fed (session : SmtpSession) (ready : IoReady) : Step → Bytes → Prop
  | fails (after : SmtpSession) (error : ProtoError) (taken : Bytes) :
      Fed session ready (after, .failed error) taken
  | waits (fed : Bytes) (bytes : ready = .bytes fed) (reads : session.phase ≠ .awaitTls) :
      Fed session ready ({ session with buf := session.buf ++ fed }, .need [.read]) []
  | secured (tls : ready = .tlsOpen) (phase : session.phase = .awaitTls) :
      Fed session ready ({ session with buf := [], phase := .ehloAfterTls },
        .need [.write (ehloCmd session.submission.ehlo), .read]) session.buf
  | ended (accepted : ReplyText) (hceased : ready = .eof ∨ ready = .interrupt)
      (phase : session.phase = .quit accepted) (signed : session.signed = true) :
      Fed session ready ({ session with phase := .finished },
        .done ⟨session.extensions, session.mechanism, accepted, none⟩) []
  | kept (fed taken rest : Bytes) (reply : ServerReply) (bytes : ready = .bytes fed)
      (split : session.buf ++ fed = taken ++ rest)
      (took : takeReply taken = .ok (some (reply, []))) (keeps : session.keeps = true)
      (yes : isSuccess reply.code = true) (signed : session.signed = true) :
      Fed session ready ({ session with buf := rest, phase := .finished },
        .done ⟨session.extensions, session.mechanism, replyText reply, none⟩) taken
  | replies (fed taken rest : Bytes) (reply : ServerReply) (outcome : Outcome)
      (bytes : ready = .bytes fed) (split : session.buf ++ fed = taken ++ rest)
      (took : takeReply taken = .ok (some (reply, []))) (goes : session.keeps = false)
      (advance : Advance session.submission (session.heardOf reply) session.mechanism
        session.envelope reply session.phase outcome) :
      Fed session ready (({ session with buf := rest, extensions := session.heardOf reply } :
        SmtpSession).apply outcome) taken

theorem onEnd_fed (session : SmtpSession) (hceased : ready = .eof ∨ ready = .interrupt)
    (error : ProtoError) :
    Fed session ready (session.onEnd error) [] := by
  unfold SmtpSession.onEnd
  split
  · rename_i accepted hphase
    rcases finishOk_cases session accepted none with ⟨_, error, hstep⟩ | ⟨hsigned, hstep⟩
    · rw [hstep]
      exact .fails _ _ _
    · rw [hstep]
      exact .ended accepted hceased hphase hsigned
  · exact .fails _ _ _

theorem onReply_fed {fed : Bytes} (bytes : ready = .bytes fed)
    (split : session.buf ++ fed = taken ++ rest) (took : takeReply taken = .ok (some (reply, []))) :
    Fed session ready (({ session with buf := rest } : SmtpSession).onReply reply) taken := by
  unfold SmtpSession.onReply
  dsimp only
  split
  · rename_i hkeeps
    split
    · rename_i hyes
      rcases finishOk_cases ({ session with buf := rest } : SmtpSession) (replyText reply) none with
        ⟨_, error, hstep⟩ | ⟨hsigned, hstep⟩
      · rw [hstep]
        exact .fails _ _ _
      · rw [hstep]
        exact .kept fed taken rest reply bytes split took hkeeps (expectSuccess_ok hyes) hsigned
    · exact .fails _ _ _
  · rename_i hgoes
    have hkeeps : session.keeps = false := by
      unfold SmtpSession.keeps
      simpa using hgoes
    have hheard : (if (session.phase = .ehlo || session.phase = .ehloAfterTls) &&
          isSuccess reply.code then
        ({ session with buf := rest, extensions := parseEhlo reply } : SmtpSession)
        else { session with buf := rest }) =
        { session with buf := rest, extensions := session.heardOf reply } := by
      unfold SmtpSession.heardOf
      split <;> rfl
    rw [hheard]
    split
    · rename_i outcome houtcome
      exact .replies fed taken rest reply outcome bytes split took hkeeps (decide_cases houtcome)
    · exact .fails _ _ _

theorem onBytes_fed (session : SmtpSession) (fed : Bytes) :
    ∃ taken, Fed session (.bytes fed) (session.onBytes fed) taken := by
  unfold SmtpSession.onBytes
  split
  · exact ⟨[], .fails _ _ _⟩
  · rename_i hreads
    split
    · exact ⟨[], .fails _ _ _⟩
    · split
      · exact ⟨[], .fails _ _ _⟩
      · dsimp only
        split
        · exact ⟨[], .waits fed rfl hreads⟩
        · exact ⟨[], .fails _ _ _⟩
        · rename_i reply rest htake
          obtain ⟨taken, hsplit, htook⟩ := takeReply_split htake
          exact ⟨taken, onReply_fed rfl hsplit htook⟩

theorem feed_fed (session : SmtpSession) (ready : IoReady) :
    ∃ taken, Fed session ready (session.feed ready) taken := by
  cases ready with
  | bytes fed => exact onBytes_fed session fed
  | eof => exact ⟨[], onEnd_fed session (.inl rfl) _⟩
  | interrupt => exact ⟨[], onEnd_fed session (.inr rfl) _⟩
  | woke => exact ⟨[], .fails _ _ _⟩
  | tlsOpen =>
    unfold SmtpSession.feed SmtpSession.onTlsOpen
    dsimp only
    split
    · exact ⟨[], .fails _ _ _⟩
    · rename_i hphase
      exact ⟨session.buf, .secured rfl (not_not.mp hphase)⟩

omit [Idna] in
theorem apply_buf (session : SmtpSession) (outcome : Outcome) :
    (session.apply outcome).1.buf = session.buf := by
  cases outcome <;> rfl

theorem Fed.split {result : Step} (h : Fed session ready result taken) :
    (∃ error, result.2 = .failed error) ∨
      session.buf ++ ready.received = taken ++ result.1.buf := by
  cases h with
  | fails after error taken => exact .inl ⟨error, rfl⟩
  | waits fed bytes reads =>
    rw [bytes]
    exact .inr rfl
  | secured tls phase =>
    rw [tls]
    exact .inr rfl
  | ended accepted hceased phase signed =>
    right
    rcases hceased with rfl | rfl <;> exact List.append_nil _
  | kept fed taken rest reply bytes split took keeps yes signed =>
    rw [bytes]
    exact .inr split
  | replies fed taken rest reply outcome bytes split took goes advance =>
    rw [bytes, apply_buf]
    exact .inr split

theorem machine_unread (session : SmtpSession) :
    SmtpSession.machine.unread session = session.buf := rfl

theorem next_feed (progress : talk.progress = .need needs) (ready : IoReady) :
    talk.next SmtpSession.machine ready = ⟨(talk.state.feed ready).1, (talk.state.feed ready).2,
      Talk.speak (talk.state.feed ready).2.needs
        (Talk.hear ((talk.state.buf ++ ready.received).take
          ((talk.state.buf ++ ready.received).length - (talk.state.feed ready).1.buf.length))
          (Talk.secure needs ready talk.turns))⟩ := by
  have hfeed : SmtpSession.machine.feed talk.state ready =
      ((talk.state.feed ready).1, (talk.state.feed ready).2) := rfl
  rw [Talk.next_need progress hfeed, machine_unread, machine_unread]

/-- The turns after an event: the upgrade, the bytes taken, and what is written. -/
theorem next_fed (progress : talk.progress = .need needs) (ready : IoReady) :
    ∃ result taken, Fed talk.state ready result taken ∧
      talk.next SmtpSession.machine ready = ⟨result.1, result.2,
        Talk.speak result.2.needs (Talk.hear taken (Talk.secure needs ready talk.turns))⟩ := by
  obtain ⟨taken, hfed⟩ := feed_fed talk.state ready
  have hnext := next_feed progress ready
  rcases hfed.split with ⟨error, herror⟩ | hsplit
  · refine ⟨talk.state.feed ready, _, ?_, hnext⟩
    have hresult : talk.state.feed ready = ((talk.state.feed ready).1, .failed error) := by
      rw [← herror]
    rw [hresult]
    exact .fails _ _ _
  · refine ⟨talk.state.feed ready, taken, hfed, ?_⟩
    rw [hnext, Talk.taken_eq hsplit]

/-- A session begins by waiting for the greeting, or on a connection left open by `MAIL FROM`. -/
theorem start_cases (session : SmtpSession) :
    (∃ error, session.start = (session, .failed error)) ∨
    (session.phase ≠ .resumed ∧ session.start = (session, .need [.read])) ∨
    (session.phase = .resumed ∧ ∃ form, prepareEnvelope session.extensions
        session.submission.mailFrom session.submission.recipients session.submission.receipt =
          .ok form ∧
      session.start = ({ session with envelope := some form, phase := .mailFrom },
        .need [.write (cmd (mailFromCommand form session.submission.message)), .read])) := by
  unfold SmtpSession.start
  split
  · exact .inl ⟨_, rfl⟩
  · by_cases hphase : session.phase = .resumed
    · rw [if_pos hphase]
      unfold SmtpSession.resume
      dsimp only
      split
      · exact .inl ⟨_, rfl⟩
      · split
        · exact .inl ⟨_, rfl⟩
        · rename_i form hform
          exact .inr (.inr ⟨hphase, form, hform, rfl⟩)
    · rw [if_neg hphase]
      exact .inr (.inl ⟨hphase, rfl⟩)

end Mailo.Proto.Smtp
