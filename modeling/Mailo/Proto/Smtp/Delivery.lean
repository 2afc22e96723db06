import Mailo.Proto.Smtp.Acceptance

/-!
# A message done is a message delivered

What passed on a connection is read off its turns, the latest first. A session is done only where
the server took the sender, every recipient and the whole message, and nothing of the envelope is
written before the connection is signed in, and upgraded where it must be.
-/

namespace Mailo.Proto.Smtp

open Domain Library

/-! ## Turns and their answers -/

def Answered (bytes : Bytes) (good : Nat → Bool) (turn : Turn) : Prop :=
  turn.did = .wrote bytes ∧ ∃ reply, takeReply turn.heard = .ok (some (reply, [])) ∧
    good reply.code = true

def isChallenge (code : Nat) : Bool := code = 334

def isIntermediate (code : Nat) : Bool := classify code = some .intermediate

/-- An exchange that signs in: its turns so far, each a challenge, and what was written last. -/
inductive Dialogue (signIn : SignIn) : Phase → List Turn → Bytes → Prop
  | begins (mech : SaslMech) (phase : Phase) (bytes : Bytes)
      (command : authCommand mech signIn = .ok (phase, bytes)) : Dialogue signIn phase [] bytes
  | answers (phase next : Phase) (past : List Turn) (bytes : Bytes) (turn : Turn) (text : String)
      (before : Dialogue signIn phase past bytes) (asked : Answered bytes isChallenge turn)
      (answer : Challenged signIn phase next text) :
      Dialogue signIn next (turn :: past) (cmd text)

def SignedIn (signIn : SignIn) (turns : List Turn) : Prop :=
  ∃ phase past bytes turn, Dialogue signIn phase past bytes ∧ signsIn phase = true ∧
    Answered bytes isSuccess turn ∧ turns = turn :: past

def Upgraded (turns : List Turn) : Prop :=
  ∃ later heard starttls earlier, turns = later ++ ⟨.secured, heard⟩ :: starttls :: earlier ∧
    Answered (cmd "STARTTLS") isSuccess starttls

/-- What must have passed before a sender is named: a connection that is not a relay's was signed
in, and upgraded before that where it must be. -/
def May (sub : Submission) (turns : List Turn) : Prop :=
  sub.auth.isRelayed = true ∨ ∃ signIn later dialogue earlier,
    turns = later ++ (dialogue ++ earlier) ∧ SignedIn signIn dialogue ∧
      (sub.tls = .startTlsRequired → Upgraded earlier)

variable {turns : List Turn} {bytes : Bytes} {phase : Phase} {signIn : SignIn}
  {envelope : Option PreparedEnvelope}

theorem Upgraded.mono (h : Upgraded turns) (more : List Turn) :
    Upgraded (more ++ turns) := by
  obtain ⟨later, heard, starttls, earlier, rfl, hagreed⟩ := h
  exact ⟨more ++ later, heard, starttls, earlier, by rw [List.append_assoc], hagreed⟩

variable {sub : Submission} {before : List Turn}

theorem May.mono (h : May sub turns) (more : List Turn) :
    May sub (more ++ turns) := by
  rcases h with h | ⟨signIn, later, dialogue, earlier, rfl, hsigned, hupgraded⟩
  · exact .inl h
  · exact .inr ⟨signIn, more ++ later, dialogue, earlier, by rw [List.append_assoc], hsigned,
      hupgraded⟩

/-- What one submission may do on a connection, every one for which it was opened alike may. -/
theorem May.congr {other : Submission} (h : May sub turns)
    (auth : other.auth.isRelayed = sub.auth.isRelayed) (tls : other.tls = sub.tls) :
    May other turns := by
  unfold May at h ⊢
  rw [auth, tls]
  exact h

theorem mapM_forall₂ {α β : Type} {f : α → Except ProtoError β} {xs : List α} {ys : List β}
    (h : xs.mapM f = .ok ys) : List.Forall₂ (fun x y => f x = .ok y) xs ys := by
  induction xs generalizing ys with
  | nil =>
    cases h
    exact .nil
  | cons x xs ih =>
    rw [List.mapM_cons] at h
    cases hx : f x with
    | error error =>
      rw [hx] at h
      cases h
    | ok y =>
      rw [hx] at h
      cases hxs : xs.mapM f with
      | error error =>
        rw [hxs] at h
        cases h
      | ok rest =>
        rw [hxs] at h
        cases h
        exact .cons hx (ih hxs)

/-- The server took the sender and, in order, these recipients; before that the sender might be
named. -/
def Took (sub : Submission) (before : List Turn) (form : PreparedEnvelope)
    (recipients : List String) (turns : List Turn) : Prop :=
  ∃ rcpts mail earlier, turns = rcpts.reverse ++ mail :: earlier ∧
    List.Forall₂ (fun addr turn => Answered (cmd (rcptCommand form addr)) isSuccess turn)
      recipients rcpts ∧
    Answered (cmd (mailFromCommand form sub.message)) isSuccess mail ∧
    May sub (earlier ++ before)

variable {form : PreparedEnvelope} {mech : SaslMech} {past : List Turn} {commands : List Bytes}
  {next : Phase}

theorem Took.may {recipients : List String} (h : Took sub before form recipients turns) :
    May sub (turns ++ before) := by
  obtain ⟨rcpts, mail, earlier, rfl, _, _, hmay⟩ := h
  have hturns : rcpts.reverse ++ mail :: earlier ++ before =
      (rcpts.reverse ++ [mail]) ++ (earlier ++ before) := by simp
  rw [hturns]
  exact hmay.mono _

/-- The server was sent the whole message, and what came last is still to be answered. -/
inductive Sent (sub : Submission) (form : PreparedEnvelope) : Phase → Bytes → List Turn → Prop
  | data (turn : Turn) (plain : form.chunking ≠ .offered)
      (go : Answered (cmd "DATA") isIntermediate turn) :
      Sent sub form .body (dataLines sub.message).flatten [turn]
  | bdat (chunked : form.chunking = .offered) :
      Sent sub form .bdat (bdatWrites sub.message).flatten []

theorem wire_append (a b : String) : wire (a ++ b) = wire a ++ wire b := by
  simp [wire, Utf8.encode]

theorem naming_head (h : wire "MAIL FROM:" <+: bytes) :
    bytes.head? = some 77 := by
  obtain ⟨rest, rfl⟩ := h
  rw [List.head?_append]
  rfl

theorem cmd_unnaming (byte : UInt8) {verb rest : String} (head : (wire verb).head? = some byte)
    (other : byte ≠ 77) : ¬ wire "MAIL FROM:" <+: cmd (verb ++ rest) := by
  intro h
  have hhead := naming_head h
  unfold cmd at hhead
  rw [wire_append, List.append_assoc, List.head?_append, head] at hhead
  exact other (Option.some.inj hhead)

theorem space_not_mem_b64 (bytes : Bytes) : (32 : UInt8) ∉ cmd (b64 bytes) := by
  have hsymbol : ∀ c ∈ Base64.symbols, (32 : UInt8) ∉ String.utf8EncodeChar c := by decide
  intro hmem
  rcases List.mem_append.mp hmem with hmem | hmem
  · unfold b64 wire at hmem
    rw [String.toList_ofList] at hmem
    obtain ⟨c, hc, hbyte⟩ := List.mem_flatMap.mp hmem
    exact hsymbol c (Base64.encode_mem bytes c hc) hbyte
  · exact absurd hmem (by decide)

theorem b64_unnaming (bytes : Bytes) : ¬ wire "MAIL FROM:" <+: cmd (b64 bytes) := by
  intro h
  have hspace : (32 : UInt8) ∈ wire "MAIL FROM:" := by decide
  exact space_not_mem_b64 bytes (h.subset hspace)

theorem authCommand_unnaming (h : authCommand mech signIn = .ok (phase, bytes)) :
    ¬ wire "MAIL FROM:" <+: bytes := by
  cases mech with
  | plain =>
    obtain ⟨pass, _, hcommand⟩ := map_eq_ok h
    cases hcommand
    exact cmd_unnaming 65 (by decide) (by decide)
  | login =>
    cases h
    intro hnaming
    exact absurd (naming_head hnaming) (by decide)
  | xOauth2 =>
    obtain ⟨token, _, hcommand⟩ := map_eq_ok h
    cases hcommand
    exact cmd_unnaming 65 (by decide) (by decide)

theorem dialogue_unnaming (h : Dialogue signIn phase past bytes) :
    ¬ wire "MAIL FROM:" <+: bytes := by
  cases h with
  | begins mech phase bytes command => exact authCommand_unnaming command
  | answers phase next past bytes turn text before asked answer =>
    cases answer with
    | plain pass secret => exact b64_unnaming _
    | xoauth2 =>
      intro hnaming
      exact absurd (naming_head hnaming) (by decide)
    | user | pass => exact b64_unnaming _

/-- No sender is named before it may be. -/
def Guarded (sub : Submission) (before turns : List Turn) : Prop :=
  ∀ later bytes heard earlier, turns = later ++ ⟨.wrote bytes, heard⟩ :: earlier →
    wire "MAIL FROM:" <+: bytes → May sub (earlier ++ before)

theorem Guarded.cons {sub : Submission} {before turns : List Turn} (h : Guarded sub before turns)
    {turn : Turn} (named : ∀ bytes, turn.did = .wrote bytes → wire "MAIL FROM:" <+: bytes →
      May sub (turns ++ before)) : Guarded sub before (turn :: turns) := by
  intro later bytes heard earlier hturns hnaming
  cases later with
  | nil =>
    cases hturns
    exact named bytes rfl hnaming
  | cons first later =>
    rw [List.cons_append, List.cons.injEq] at hturns
    exact h later bytes heard earlier hturns.2 hnaming

theorem Guarded.tail {sub : Submission} {before turns : List Turn} {turn : Turn}
    (h : Guarded sub before (turn :: turns)) : Guarded sub before turns := by
  intro later bytes heard earlier hturns
  apply h (turn :: later) bytes heard earlier
  rw [hturns, List.cons_append]

/-- Bytes taken change nothing that was written. -/
theorem Guarded.hear {sub : Submission} {before turns : List Turn} (h : Guarded sub before turns)
    (heard : Bytes) : Guarded sub before (Talk.hear heard turns) := by
  cases turns with
  | nil =>
    intro later bytes heard earlier hturns
    rcases List.append_eq_singleton_iff.mp hturns.symm with ⟨_, hturn⟩ | ⟨_, hturn⟩
    · cases hturn
    · cases hturn
  | cons turn rest =>
    apply h.tail.cons
    intro bytes hdid
    obtain ⟨did, before⟩ := turn
    cases hdid
    exact h [] bytes before rest rfl

theorem Guarded.secure (h : Guarded sub before turns) (needs : List IoNeed) (ready : IoReady) :
    Guarded sub before (Talk.secure needs ready turns) := by
  unfold Talk.secure
  split
  · exact h.cons fun bytes hdid => by cases hdid
  · exact h

/-! ## Where a session stands -/

variable [Idna]

/-- The form an address is sent in. -/
def Sends (addr sent : String) : Prop := sent = addr ∨ encodeWithoutSmtputf8 addr = .ok sent

/-- The envelope names the sender and every recipient, in order. -/
structure Prepared (sub : Submission) (form : PreparedEnvelope) : Prop where
  mailFrom : Sends sub.mailFrom form.mailFrom
  recipients : List.Forall₂ Sends sub.recipients form.recipients

theorem prepared_of {ext : EhloExtensions}
    (h : prepareEnvelope ext sub.mailFrom sub.recipients sub.receipt = .ok form) :
    Prepared sub form := by
  unfold prepareEnvelope at h
  split at h
  · split at h
    · cases h
    · rename_i sent hsent
      obtain ⟨recipients, hrecipients, rfl⟩ := map_eq_ok h
      exact ⟨.inr hsent, (mapM_forall₂ hrecipients).imp fun _ _ => .inr⟩
  · cases h
    exact ⟨.inl rfl, List.forall₂_same.mpr fun _ _ => .inl rfl⟩

/-- The server took the message for everyone it is for. -/
def Handed (sub : Submission) (before turns : List Turn) : Prop :=
  ∃ form phase bytes message past earlier, turns = message :: past ++ earlier ∧
    Prepared sub form ∧ Took sub before form form.recipients earlier ∧
    Sent sub form phase bytes past ∧ Answered bytes isSuccess message

def Delivered (sub : Submission) (before turns : List Turn) : Prop :=
  Handed sub before turns ∨
    ∃ heard earlier, turns = ⟨.wrote (cmd "QUIT"), heard⟩ :: earlier ∧ Handed sub before earlier

/-- What has passed where a session waits, `before` on the connection before it began. -/
inductive Stage (sub : Submission) (before : List Turn) :
    Phase → Option PreparedEnvelope → List Turn → Prop
  | greeting (envelope : Option PreparedEnvelope) :
      Stage sub before .greeting envelope [⟨.listened, []⟩]
  | ehlo (envelope : Option PreparedEnvelope) (earlier : List Turn) :
      Stage sub before .ehlo envelope (⟨.wrote (ehloCmd sub.ehlo), []⟩ :: earlier)
  | startTls (envelope : Option PreparedEnvelope) (earlier : List Turn) :
      Stage sub before .startTls envelope (⟨.wrote (cmd "STARTTLS"), []⟩ :: earlier)
  | awaitTls (envelope : Option PreparedEnvelope) (turn : Turn) (earlier : List Turn)
      (agreed : Answered (cmd "STARTTLS") isSuccess turn) :
      Stage sub before .awaitTls envelope (turn :: earlier)
  | ehloAfterTls (envelope : Option PreparedEnvelope) (heard : Bytes) (turn : Turn)
      (earlier : List Turn) (agreed : Answered (cmd "STARTTLS") isSuccess turn) :
      Stage sub before .ehloAfterTls envelope
        (⟨.wrote (ehloCmd sub.ehlo), []⟩ :: ⟨.secured, heard⟩ :: turn :: earlier)
  | authenticating (phase : Phase) (form : PreparedEnvelope) (signIn : SignIn)
      (past earlier : List Turn) (bytes : Bytes) (prepared : Prepared sub form)
      (auth : sub.auth = .signIn signIn)
      (dialogue : Dialogue signIn phase past bytes)
      (upgraded : sub.tls = .startTlsRequired → Upgraded (earlier ++ before)) :
      Stage sub before phase (some form) (⟨.wrote bytes, []⟩ :: past ++ earlier)
  | mailFrom (form : PreparedEnvelope) (earlier : List Turn) (prepared : Prepared sub form)
      (may : May sub (earlier ++ before)) :
      Stage sub before .mailFrom (some form)
        (⟨.wrote (cmd (mailFromCommand form sub.message)), []⟩ :: earlier)
  | rcpt (index : Nat) (form : PreparedEnvelope) (addr : String) (earlier : List Turn)
      (prepared : Prepared sub form) (here : form.recipients[index]? = some addr)
      (took : Took sub before form (form.recipients.take index) earlier) :
      Stage sub before (.rcpt index) (some form)
        (⟨.wrote (cmd (rcptCommand form addr)), []⟩ :: earlier)
  | data (form : PreparedEnvelope) (earlier : List Turn) (prepared : Prepared sub form)
      (plain : form.chunking ≠ .offered) (took : Took sub before form form.recipients earlier) :
      Stage sub before .data (some form) (⟨.wrote (cmd "DATA"), []⟩ :: earlier)
  | message (phase : Phase) (form : PreparedEnvelope) (bytes : Bytes) (past earlier : List Turn)
      (prepared : Prepared sub form) (sent : Sent sub form phase bytes past)
      (took : Took sub before form form.recipients earlier) :
      Stage sub before phase (some form) (⟨.wrote bytes, []⟩ :: past ++ earlier)
  | quit (accepted : ReplyText) (envelope : Option PreparedEnvelope) (earlier : List Turn)
      (handed : Handed sub before earlier) :
      Stage sub before (.quit accepted) envelope (⟨.wrote (cmd "QUIT"), []⟩ :: earlier)

theorem Handed.may (h : Handed sub before turns) :
    May sub (turns ++ before) := by
  obtain ⟨form, phase, bytes, message, past, earlier, rfl, _, htook, _⟩ := h
  rw [List.append_assoc]
  exact htook.may.mono _

theorem Delivered.may (h : Delivered sub before turns) :
    May sub (turns ++ before) := by
  rcases h with hhanded | ⟨heard, earlier, rfl, hhanded⟩
  · exact hhanded.may
  · exact hhanded.may.mono [_]

/-- What a session writes and waits for an answer to names a sender only where it may. -/
theorem Stage.guard {earlier : List Turn} {heard : Bytes}
    (h : Stage sub before phase envelope (⟨.wrote bytes, heard⟩ :: earlier))
    (waits : phase ≠ .awaitTls) (naming : wire "MAIL FROM:" <+: bytes) :
    May sub (earlier ++ before) := by
  cases h with
  | ehlo => exact absurd naming (cmd_unnaming 69 (by decide) (by decide))
  | startTls => exact absurd (naming_head naming) (by decide)
  | awaitTls => exact absurd rfl waits
  | ehloAfterTls => exact absurd naming (cmd_unnaming 69 (by decide) (by decide))
  | authenticating _ form signIn past earlier _ prepared auth dialogue upgraded =>
    exact absurd naming (dialogue_unnaming dialogue)
  | mailFrom form _ prepared may => exact may
  | rcpt index form addr _ prepared here took => exact took.may
  | data form _ prepared plain took => exact took.may
  | message _ form _ past earlier prepared sent took =>
    rw [List.append_eq, List.append_assoc]
    exact took.may.mono _
  | quit accepted _ _ handed => exact handed.may

theorem Stage.ne_nil (h : Stage sub before phase envelope turns) :
    turns ≠ [] := by
  cases h <;> simp

def authenticates : Phase → Bool
  | .authPlain | .authPlainSent | .authLoginUser | .authLoginPass | .authLoginSent | .authXoauth2
  | .authXoauth2Sent => true
  | _ => false

omit [Idna] in
theorem authCommand_authenticates (h : authCommand mech signIn = .ok (phase, bytes)) :
    authenticates phase = true := by
  cases mech with
  | plain =>
    obtain ⟨pass, _, hcommand⟩ := map_eq_ok h
    cases hcommand
    rfl
  | login =>
    cases h
    rfl
  | xOauth2 =>
    obtain ⟨token, _, hcommand⟩ := map_eq_ok h
    cases hcommand
    rfl

omit [Idna] in
theorem Dialogue.authenticates (h : Dialogue signIn phase past bytes) :
    Smtp.authenticates phase = true := by
  cases h with
  | begins mech phase bytes command => exact authCommand_authenticates command
  | answers phase next past bytes turn text before asked answer =>
    cases answer <;> rfl

theorem Stage.upgrading (awaits : phase = .awaitTls) (h : Stage sub before phase envelope turns) :
    ∃ turn earlier, turns = turn :: earlier ∧ Answered (cmd "STARTTLS") isSuccess turn := by
  cases h with
  | awaitTls _ turn earlier agreed => exact ⟨turn, earlier, rfl, agreed⟩
  | authenticating _ form signIn past earlier bytes prepared auth dialogue upgraded =>
    have hphase := dialogue.authenticates
    rw [awaits] at hphase
    cases hphase
  | message _ form bytes past earlier prepared sent took =>
    rw [awaits] at sent
    cases sent
  | _ => cases awaits

theorem Stage.closing {accepted : ReplyText} (closes : phase = .quit accepted)
    (h : Stage sub before phase envelope turns) :
    Delivered sub before turns := by
  cases h with
  | quit _ _ earlier handed => exact .inr ⟨[], earlier, rfl, handed⟩
  | authenticating _ form signIn past earlier bytes prepared auth dialogue upgraded =>
    have hphase := dialogue.authenticates
    rw [closes] at hphase
    cases hphase
  | message _ form bytes past earlier prepared sent took =>
    rw [closes] at sent
    cases sent
  | _ => cases closes

/-- The answer that takes the message ends a session whose connection stays open. -/
theorem Stage.handed {taken : Bytes} {reply : ServerReply} (message : phase = .body ∨ phase = .bdat)
    (h : Stage sub before phase envelope turns) (took : takeReply taken = .ok (some (reply, [])))
    (yes : isSuccess reply.code = true) :
    Handed sub before (Talk.hear taken turns) := by
  cases h with
  | message _ form bytes past earlier prepared sent all =>
    exact ⟨form, phase, bytes, _, past, earlier, rfl, prepared, all, sent, rfl, reply, took, yes⟩
  | authenticating _ form signIn past earlier bytes prepared auth dialogue upgraded =>
    have hphase := dialogue.authenticates
    rcases message with rfl | rfl <;> cases hphase
  | _ => rcases message with message | message <;> cases message

/-! ## One reply -/

/-- What an outcome leaves behind, once its reply is heard. -/
def Goes (sub : Submission) (before : List Turn) (envelope : Option PreparedEnvelope)
    (turns : List Turn) : Outcome → Prop
  | .continue next _ needs form =>
    Stage sub before next (form.orElse fun _ => envelope) (Talk.speak needs turns) ∧
      (next = .awaitTls → needs.any isOpenTls = true ∧ needs.any isWrite = false)
  | .done _ => Delivered sub before turns

omit [Idna] in
theorem speak_commands (some : commands ≠ []) (turns : List Turn) :
    Talk.speak (commands.map IoNeed.write ++ [.read]) turns =
      ⟨.wrote commands.flatten, []⟩ :: turns := by
  have hany : (commands.map IoNeed.write ++ [IoNeed.read]).any isWrite = true := by
    cases commands with
    | nil => exact absurd rfl some
    | cons first rest => rfl
  have hwrites : ∀ commands : List Bytes,
      writes (commands.map IoNeed.write ++ [IoNeed.read]) = commands.flatten := by
    intro commands
    induction commands with
    | nil => rfl
    | cons first rest ih =>
      change first ++ writes (rest.map IoNeed.write ++ [IoNeed.read]) = first ++ rest.flatten
      rw [ih]
  unfold Talk.speak
  rw [if_pos hany, hwrites]

theorem goes_writing {form : Option PreparedEnvelope} {mech : Option SaslMech}
    (some : commands ≠ []) (waits : next ≠ .awaitTls)
    (stage : Stage sub before next (form.orElse fun _ => envelope)
      (⟨.wrote commands.flatten, []⟩ :: turns)) :
    Goes sub before envelope turns (continueWithEnvelope next commands mech form) := by
  refine ⟨?_, fun h => absurd h waits⟩
  rw [speak_commands some]
  exact stage

theorem goes_saying {form : Option PreparedEnvelope} {command : Bytes} {mech : Option SaslMech}
    (waits : next ≠ .awaitTls)
    (stage : Stage sub before next (form.orElse fun _ => envelope)
    (⟨.wrote command, []⟩ :: turns)) :
    Goes sub before envelope turns (continueWithEnvelope next [command] mech form) := by
  apply goes_writing (by simp) waits
  rw [List.flatten_singleton]
  exact stage

section Reply

variable {sub : Submission} {before : List Turn} {ext : EhloExtensions} {mech : Option SaslMech}
  {envelope : Option PreparedEnvelope} {reply : ServerReply} {outcome : Outcome} {taken : Bytes}

variable {earlier : List Turn} {phase : Phase} {form : PreparedEnvelope}

/-- The reply to an `EHLO`: `STARTTLS`, the sender of a relay's connection, or `AUTH`. -/
theorem goes_ehlo (hello : phase = .ehlo ∨ phase = .ehloAfterTls)
    (upgraded : phase = .ehloAfterTls → Upgraded (earlier ++ before))
    (advance : Advance sub ext mech envelope reply phase outcome) :
    Goes sub before envelope (⟨.wrote (ehloCmd sub.ehlo), taken⟩ :: earlier) outcome := by
  cases advance with
  | startTls yes upgrade => exact goes_saying (by simp) (.startTls _ _)
  | relayed _ _ yes form prepared auth =>
    refine goes_saying (by simp) (.mailFrom form _ (prepared_of prepared) (.inl ?_))
    rw [auth]
    rfl
  | authenticates _ _ yes noUpgrade form prepared signIn auth chosen next bytes command =>
    have hnext := authCommand_authenticates command
    refine goes_saying (by rintro rfl; cases hnext) ?_
    refine .authenticating next form signIn [] _ bytes (prepared_of prepared) auth
      (.begins chosen next bytes command) fun htls => ?_
    rcases hello with rfl | rfl
    · rw [upgrades, htls, auth] at noUpgrade
      cases noUpgrade
    · exact (upgraded rfl).mono [_]
  | challenged _ next text signIn auth code answer =>
    rcases hello with rfl | rfl <;> cases answer
  | signedIn _ yes ends signIn auth form held => rcases hello with rfl | rfl <;> cases ends
  | accepted _ message yes => rcases hello with rfl | rfl <;> simp at message
  | _ => rcases hello with hello | hello <;> cases hello

variable {past : List Turn}

theorem goes_authenticating (took : takeReply taken = .ok (some (reply, [])))
    (prepared : Prepared sub form) (auth : sub.auth = .signIn signIn)
    (dialogue : Dialogue signIn phase past bytes)
    (upgraded : sub.tls = .startTlsRequired → Upgraded (earlier ++ before))
    (advance : Advance sub ext mech (some form) reply phase outcome) :
    Goes sub before (some form) (⟨.wrote bytes, taken⟩ :: past ++ earlier) outcome := by
  have hphase := dialogue.authenticates
  cases advance with
  | challenged _ next text other hother code answer =>
    obtain rfl : signIn = other := Authentication.signIn.inj (auth.symm.trans hother)
    have hasked : Answered bytes isChallenge ⟨.wrote bytes, taken⟩ :=
      ⟨rfl, reply, took, by rw [code]; rfl⟩
    refine goes_saying (by rintro rfl; cases answer) ?_
    exact .authenticating next form signIn (_ :: past) earlier _ prepared auth
      (.answers phase next past bytes _ text dialogue hasked answer) upgraded
  | signedIn _ yes ends other hother held hheld =>
    cases hheld
    have hsigned : SignedIn signIn (⟨.wrote bytes, taken⟩ :: past) :=
      ⟨phase, past, bytes, _, dialogue, ends, ⟨rfl, reply, took, yes⟩, rfl⟩
    refine goes_saying (by simp) (.mailFrom form _ prepared (.inr ?_))
    exact ⟨signIn, [], _ :: past, earlier ++ before, by simp, hsigned, upgraded⟩
  | relayed _ hello yes held heldPrepared hauth =>
    rw [auth] at hauth
    cases hauth
  | authenticates _ hello yes noUpgrade held heldPrepared other hother chosen next sent command =>
    rcases hello with rfl | rfl <;> cases hphase
  | accepted _ message yes => rcases message with rfl | rfl <;> cases hphase
  | _ => cases hphase

theorem goes_body (prepared : Prepared sub form)
    (took : Took sub before form form.recipients earlier) :
    Goes sub before (some form) earlier (sendBody form sub.message) := by
  unfold sendBody
  split
  · rename_i hchunked
    refine goes_writing (by simp [bdatWrites]) (by simp) ?_
    exact .message .bdat form _ [] earlier prepared (.bdat hchunked) took
  · rename_i hplain
    exact goes_saying (by simp) (.data form earlier prepared hplain took)

theorem goes_mailFrom (took : takeReply taken = .ok (some (reply, [])))
    (prepared : Prepared sub form) (may : May sub (earlier ++ before))
    (advance : Advance sub ext mech (some form) reply .mailFrom outcome) :
    Goes sub before (some form)
      (⟨.wrote (cmd (mailFromCommand form sub.message)), taken⟩ :: earlier) outcome := by
  cases advance with
  | mailFrom yes held hheld addr first =>
    cases hheld
    refine goes_saying (by simp) (.rcpt 0 form addr _ prepared first ?_)
    exact ⟨[], _, earlier, rfl, .nil, ⟨rfl, reply, took, yes⟩, may⟩
  | relayed _ h | authenticates _ h | accepted _ h => rcases h with h | h <;> cases h
  | challenged _ next text signIn auth code h | signedIn _ yes h => cases h

theorem goes_rcpt {index : Nat} {addr : String} (took : takeReply taken = .ok (some (reply, [])))
    (prepared : Prepared sub form) (here : form.recipients[index]? = some addr)
    (already : Took sub before form (form.recipients.take index) earlier)
    (advance : Advance sub ext mech (some form) reply (.rcpt index) outcome) :
    Goes sub before (some form) (⟨.wrote (cmd (rcptCommand form addr)), taken⟩ :: earlier)
      outcome := by
  have htook : isSuccess reply.code = true → Took sub before form
      (form.recipients.take (index + 1)) (⟨.wrote (cmd (rcptCommand form addr)), taken⟩ :: earlier) := by
    intro yes
    obtain ⟨rcpts, mail, first, rfl, hrcpts, hmail, hmay⟩ := already
    refine ⟨rcpts ++ [⟨.wrote (cmd (rcptCommand form addr)), taken⟩], mail, first, by simp, ?_,
      hmail, hmay⟩
    rw [List.take_add_one, here]
    exact List.rel_append hrcpts (.cons ⟨rfl, reply, took, yes⟩ .nil)
  cases advance with
  | rcpt _ yes held hheld next hnext =>
    cases hheld
    exact goes_saying (by simp) (.rcpt (index + 1) form next _ prepared hnext (htook yes))
  | lastRcpt _ yes held hheld last =>
    cases hheld
    have hall := htook yes
    rw [List.take_of_length_le last] at hall
    exact goes_body prepared hall
  | relayed _ h | authenticates _ h | accepted _ h => rcases h with h | h <;> cases h
  | challenged _ next text signIn auth code h | signedIn _ yes h => cases h

theorem goes_message (took : takeReply taken = .ok (some (reply, [])))
    (prepared : Prepared sub form) (sent : Sent sub form phase bytes past)
    (all : Took sub before form form.recipients earlier)
    (advance : Advance sub ext mech (some form) reply phase outcome) :
    Goes sub before (some form) (⟨.wrote bytes, taken⟩ :: past ++ earlier) outcome := by
  have hphase : phase = .body ∨ phase = .bdat := by
    cases sent with
    | data turn plain go => exact .inl rfl
    | bdat chunked => exact .inr rfl
  cases advance with
  | accepted _ message yes =>
    refine goes_saying (by simp) (.quit _ _ _ ?_)
    exact ⟨form, phase, bytes, _, past, earlier, rfl, prepared, all, sent, rfl, reply, took, yes⟩
  | relayed _ hello => rcases hello with rfl | rfl <;> simp at hphase
  | authenticates _ hello => rcases hello with rfl | rfl <;> simp at hphase
  | challenged _ next text signIn auth code answer =>
    rcases hphase with rfl | rfl <;> cases answer
  | signedIn _ yes ends => rcases hphase with rfl | rfl <;> cases ends
  | _ => rcases hphase with hphase | hphase <;> cases hphase

/-- A reply takes a session from one stage to the next, or to its end. -/
theorem Stage.goes (stage : Stage sub before phase envelope turns)
    (took : takeReply taken = .ok (some (reply, [])))
    (advance : Advance sub ext mech envelope reply phase outcome) :
    Goes sub before envelope (Talk.hear taken turns) outcome := by
  cases stage with
  | greeting =>
    cases advance with
    | greeting yes => exact goes_saying (by simp) (.ehlo _ _)
    | relayed _ h | authenticates _ h | accepted _ h => rcases h with h | h <;> cases h
    | challenged _ next text signIn auth code h | signedIn _ yes h => cases h
  | ehlo _ earlier => exact goes_ehlo (.inl rfl) (fun h => by cases h) advance
  | startTls _ earlier =>
    cases advance with
    | upgraded yes => exact ⟨.awaitTls _ _ _ ⟨rfl, reply, took, yes⟩, fun _ => ⟨rfl, rfl⟩⟩
    | relayed _ h | authenticates _ h | accepted _ h => rcases h with h | h <;> cases h
    | challenged _ next text signIn auth code h | signedIn _ yes h => cases h
  | awaitTls _ turn earlier agreed =>
    cases advance with
    | relayed _ h | authenticates _ h | accepted _ h => rcases h with h | h <;> cases h
    | challenged _ next text signIn auth code h | signedIn _ yes h => cases h
  | ehloAfterTls _ heard turn earlier agreed =>
    refine goes_ehlo (.inr rfl) (fun _ => ?_) advance
    exact ⟨[], heard, turn, earlier ++ before, rfl, agreed⟩
  | authenticating _ form signIn past earlier bytes prepared auth dialogue upgraded =>
    exact goes_authenticating took prepared auth dialogue upgraded advance
  | mailFrom form earlier prepared may => exact goes_mailFrom took prepared may advance
  | rcpt index form addr earlier prepared here already =>
    exact goes_rcpt took prepared here already advance
  | data form earlier prepared plain all =>
    cases advance with
    | data go =>
      refine goes_writing (by simp [dataLines]) (by simp) ?_
      refine .message .body form _ [_] earlier prepared (.data _ plain ⟨rfl, reply, took, ?_⟩) all
      exact decide_eq_true go
    | relayed _ h | authenticates _ h | accepted _ h => rcases h with h | h <;> cases h
    | challenged _ next text signIn auth code h | signedIn _ yes h => cases h
  | message _ form bytes past earlier prepared sent all =>
    exact goes_message took prepared sent all advance
  | quit accepted _ earlier handed =>
    cases advance with
    | closed _ signed => exact .inr ⟨taken, earlier, rfl, handed⟩
    | relayed _ h | authenticates _ h | accepted _ h => rcases h with h | h <;> cases h
    | challenged _ next text signIn auth code h | signedIn _ yes h => cases h

end Reply

/-! ## Whole sessions -/

omit [Idna] in
theorem keeps_message {session : SmtpSession} (keeps : session.keeps = true) :
    session.phase = .body ∨ session.phase = .bdat := by
  unfold SmtpSession.keeps at keeps
  rw [Bool.and_eq_true, Bool.or_eq_true, decide_eq_true_eq, decide_eq_true_eq] at keeps
  exact keeps.2

/-- What holds of a session at every moment, `before` on its connection before it began. -/
structure Sound (sub : Submission) (before : List Turn) (talk : Talk SmtpSession SmtpReply) :
    Prop where
  guarded : Guarded sub before talk.turns
  stage : ∀ needs, talk.progress = .need needs → talk.state.submission = sub ∧
    Stage sub before talk.state.phase talk.state.envelope talk.turns ∧
    (talk.state.phase = .awaitTls → needs.any isOpenTls = true)
  delivered : ∀ reply, talk.progress = .done reply → Delivered sub before talk.turns

section Sound

variable {sub : Submission} {before : List Turn}

variable {talk : Talk SmtpSession SmtpReply} {session : SmtpSession}

theorem sound_failed {error : ProtoError} (failed : talk.progress = .failed error)
    (guarded : Guarded sub before talk.turns) :
    Sound sub before talk where
  guarded := guarded
  stage needs h := by
    rw [failed] at h
    cases h
  delivered reply h := by
    rw [failed] at h
    cases h

theorem sound_done {reply : SmtpReply} (done : talk.progress = .done reply)
    (guarded : Guarded sub before talk.turns) (delivered : Delivered sub before talk.turns) :
    Sound sub before talk where
  guarded := guarded
  stage needs h := by
    rw [done] at h
    cases h
  delivered _ _ := delivered

variable {needs : List IoNeed}

theorem sound_waits (waits : talk.progress = .need needs) (guarded : Guarded sub before talk.turns)
    (submission : talk.state.submission = sub)
    (stage : Stage sub before talk.state.phase talk.state.envelope talk.turns)
    (opens : talk.state.phase = .awaitTls → needs.any isOpenTls = true) :
    Sound sub before talk where
  guarded := guarded
  stage other h := by
    rw [waits] at h
    cases h
    exact ⟨submission, stage, opens⟩
  delivered reply h := by
    rw [waits] at h
    cases h

theorem guarded_speak (guarded : Guarded sub before turns)
    (stage : Stage sub before phase envelope (Talk.speak needs turns))
    (silent : phase = .awaitTls → needs.any isWrite = false) :
    Guarded sub before (Talk.speak needs turns) := by
  unfold Talk.speak at stage ⊢
  split
  · rename_i hwrites
    rw [if_pos hwrites] at stage
    refine guarded.cons fun bytes hdid hnaming => ?_
    cases hdid
    refine stage.guard (fun hawait => ?_) hnaming
    rw [silent hawait] at hwrites
    cases hwrites
  · exact guarded

theorem sound_goes {outcome : Outcome} (submission : session.submission = sub)
    (guarded : Guarded sub before turns) (goes : Goes sub before session.envelope turns outcome) :
    Sound sub before ⟨(session.apply outcome).1, (session.apply outcome).2,
      Talk.speak (session.apply outcome).2.needs turns⟩ := by
  cases outcome with
  | done reply => exact sound_done rfl guarded goes
  | «continue» next mechanism needs form =>
    obtain ⟨hstage, hopens⟩ := goes
    exact sound_waits rfl (guarded_speak guarded hstage fun h => (hopens h).2) submission hstage
      fun h => (hopens h).1

theorem sound_next (h : Sound sub before talk) (ready : IoReady) :
    Sound sub before (talk.next SmtpSession.machine ready) := by
  cases hprogress : talk.progress with
  | done | failed =>
    rw [Talk.next_over (by rw [hprogress]; rfl)]
    exact h
  | need needs =>
    obtain ⟨hsubmission, hstage, hopens⟩ := h.stage needs hprogress
    obtain ⟨result, taken, hfed, hnext⟩ := next_fed hprogress ready
    have hguarded := (h.guarded.secure needs ready).hear taken
    have hsilent : ready ≠ .tlsOpen → Talk.secure needs ready talk.turns = talk.turns :=
      fun hready => if_neg fun hboth => hready hboth.1
    rw [hnext]
    cases hfed with
    | fails after error taken => exact sound_failed rfl hguarded
    | waits fed bytes reads =>
      rw [hsilent (by rw [bytes]; simp)] at hguarded ⊢
      rw [Talk.hear_nil hstage.ne_nil] at hguarded ⊢
      exact sound_waits rfl hguarded hsubmission hstage fun hawait => absurd hawait reads
    | secured tls phase =>
      have hsecure : Talk.secure needs ready talk.turns = ⟨.secured, []⟩ :: talk.turns :=
        if_pos ⟨tls, hopens phase⟩
      rw [hsecure] at hguarded ⊢
      obtain ⟨turn, earlier, hturns, hagreed⟩ := Stage.upgrading phase hstage
      have hhello : Stage sub before .ehloAfterTls talk.state.envelope
          (Talk.speak [.write (ehloCmd talk.state.submission.ehlo), .read]
            (Talk.hear talk.state.buf (⟨.secured, []⟩ :: talk.turns))) := by
        rw [Talk.speak_write, hsubmission, hturns]
        exact .ehloAfterTls _ _ turn earlier hagreed
      exact sound_waits rfl (guarded_speak hguarded hhello fun h => by cases h) hsubmission
        hhello fun h => by cases h
    | ended accepted hceased phase signed =>
      rw [hsilent (by rcases hceased with rfl | rfl <;> simp)] at hguarded ⊢
      rw [Talk.hear_nil hstage.ne_nil] at hguarded ⊢
      exact sound_done rfl hguarded (Stage.closing phase hstage)
    | kept fed taken rest reply bytes split took keeps yes signed =>
      rw [hsilent (by rw [bytes]; simp)] at hguarded ⊢
      exact sound_done rfl hguarded (.inl (hstage.handed (keeps_message keeps) took yes))
    | replies fed taken rest reply outcome bytes split took goes advance =>
      rw [hsilent (by rw [bytes]; simp)] at hguarded ⊢
      rw [hsubmission] at advance
      exact sound_goes hsubmission hguarded (hstage.goes took advance)

theorem sound_start (submission : session.submission = sub)
    (starts : session.phase = .greeting ∨
      session.phase = .resumed ∧ May sub ([⟨.listened, []⟩] ++ before)) :
    Sound sub before (submitting session) := by
  have hlistened : Guarded sub before [⟨.listened, []⟩] :=
    @Guarded.hear sub before [] (fun later bytes heard earlier hturns => by simp at hturns) []
  unfold submitting Talk.begin
  rcases start_cases session with ⟨error, hstart⟩ | ⟨hfresh, hstart⟩ | ⟨hphase, form, hform, hstart⟩
  · rw [hstart]
    exact sound_failed rfl hlistened
  · rw [hstart]
    rcases starts with hgreeting | ⟨hresumed, _⟩
    · refine sound_waits rfl hlistened submission ?_ fun h => ?_
      · change Stage sub before session.phase session.envelope [⟨.listened, []⟩]
        rw [hgreeting]
        exact .greeting _
      · rw [hgreeting] at h
        cases h
    · exact absurd hresumed hfresh
  · rw [hstart]
    rcases starts with hgreeting | ⟨_, hmay⟩
    · rw [hgreeting] at hphase
      cases hphase
    · have hstage : Stage sub before .mailFrom (some form)
          (Talk.speak [.write (cmd (mailFromCommand form session.submission.message)), .read]
            [⟨.listened, []⟩]) := by
        rw [Talk.speak_write, submission]
        rw [submission] at hform
        exact .mailFrom form _ (prepared_of hform) hmay
      exact sound_waits rfl (guarded_speak hlistened hstage fun h => by cases h) submission hstage
        fun h => by cases h

theorem sound_run (start : Sound sub before (submitting session))
    (run : Reaches (Talk.next SmtpSession.machine) anyAction (submitting session) talk) :
    Sound sub before talk :=
  run.invariant (Sound sub before) start fun _ ready h _ => sound_next h ready

end Sound

/-- What one session after another does on a connection: the first begins it, and each of the
others goes on where the one before was done and left it open, for the same account. -/
inductive Connection : Submission → List Turn → Talk SmtpSession SmtpReply → Prop
  | begins (sub : Submission) (session : SmtpSession)
      (fresh : session = .new sub ∨ session = .open sub none) (talk : Talk SmtpSession SmtpReply)
      (run : Reaches (Talk.next SmtpSession.machine) anyAction (submitting session) talk) :
      Connection sub [] talk
  | resumes (sub : Submission) (before : List Turn) (past : Talk SmtpSession SmtpReply)
      (reply : SmtpReply) (earlier : Connection sub before past)
      (done : past.progress = .done reply) (stays : past.state.stays = true) (next : Submission)
      (auth : next.auth.isRelayed = sub.auth.isRelayed) (tls : next.tls = sub.tls)
      (talk : Talk SmtpSession SmtpReply)
      (run : Reaches (Talk.next SmtpSession.machine) anyAction
        (submitting (.open next (some ⟨reply.extensions, reply.mechanism⟩))) talk) :
      Connection next (past.turns ++ before) talk

theorem Connection.sound {talk : Talk SmtpSession SmtpReply} (h : Connection sub before talk) :
    Sound sub before talk := by
  induction h with
  | begins sub session fresh talk run =>
    refine sound_run (sound_start ?_ (.inl ?_)) run
    · rcases fresh with rfl | rfl <;> rfl
    · rcases fresh with rfl | rfl <;> rfl
  | resumes sub before past reply earlier done stays next auth tls talk run ih =>
    have hmay := ((ih.delivered reply done).may.congr auth tls).mono [⟨.listened, []⟩]
    exact sound_run (sound_start rfl (.inr ⟨rfl, hmay⟩)) run

/-- A session is done only when its message was delivered to everyone it is for, and no sender is
named on its connection before that is allowed. -/
theorem done_delivered {sub : Submission} {before : List Turn} {talk : Talk SmtpSession SmtpReply}
    (connection : Connection sub before talk) : Guarded sub before talk.turns ∧
      ∀ reply, talk.progress = .done reply → Delivered sub before talk.turns :=
  ⟨connection.sound.guarded, connection.sound.delivered⟩

omit [Idna]

def farewells : List IoReady := answers ++ [.bytes (cmd "250 taken"), .bytes (cmd "221 bye")]

/-- A letter taken and said goodbye to. -/
def posted : Talk SmtpSession SmtpReply :=
  Talk.run (@SmtpSession.machine .ascii) (@submitting .ascii (.new letter)) farewells

theorem done_delivered_letter : Guarded letter [] posted.turns ∧
    ∀ reply, posted.progress = .done reply → @Delivered .ascii letter [] posted.turns :=
  @done_delivered .ascii letter [] posted (@Connection.begins .ascii letter (.new letter)
    (.inl rfl) posted (Reaches.start.foldl farewells))

/-- A server that asks for the message with another code than 354. -/
def coaxed : List IoReady :=
  ["220 smtp.example", "250 AUTH PLAIN", "235 in", "250 sender", "250 recipient", "399 go on",
    "250 taken", "221 bye"].map fun text => .bytes (cmd text)

/-- A letter on a connection that was signed in by whoever made it, where upgrades are asked for. -/
def relayedLetter : Submission := { letter with auth := .relayed, tls := .startTlsRequired }

def relayedAnswers : List IoReady :=
  ["220 smtp.example", "250 STARTTLS", "250 sender", "250 recipient", "354 go ahead",
    "250 taken", "221 bye"].map fun text => .bytes (cmd text)

/-- A session is done without a 354, and another names its sender on a connection that was never
upgraded. -/
theorem done_otherwise :
    (∃ talk reply, Reaches (Talk.next (@SmtpSession.machine .ascii)) anyAction
        (@submitting .ascii (.new letter)) talk ∧ talk.progress = .done reply ∧
      ∀ turn ∈ talk.turns, turn.did = .wrote (cmd "DATA") →
        takeReply turn.heard = .ok (some (⟨399, ["go on"]⟩, []))) ∧
    ∃ talk reply, Reaches (Talk.next (@SmtpSession.machine .ascii)) anyAction
        (@submitting .ascii (.new relayedLetter)) talk ∧ talk.progress = .done reply ∧
      ∀ turn ∈ talk.turns, turn.did ≠ .secured := by
  refine ⟨⟨_, ⟨⟨[.plain], .absent, .absent, .absent, .absent, .absent, .absent⟩, some .plain,
      ⟨250, "taken"⟩, some ⟨221, "bye"⟩⟩, Reaches.start.foldl coaxed, by decide, by decide⟩,
    _, ⟨⟨[], .offered, .absent, .absent, .absent, .absent, .absent⟩, none, ⟨250, "taken"⟩,
      some ⟨221, "bye"⟩⟩, Reaches.start.foldl relayedAnswers, by decide, by decide⟩

end Mailo.Proto.Smtp
