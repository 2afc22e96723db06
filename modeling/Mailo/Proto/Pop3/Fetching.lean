import Mailo.Library.Runs
import Mailo.Proto.Pop3.Dialogue
import Mailo.Proto.Pop3.Maildrop

/-!
# Fetching messages over POP3

A fetch asks for messages by the numbers an earlier session listed, and pairs what it is sent with
what it was asked for by position. Nothing checks that a number still names the message it named.
-/

namespace Mailo.Proto.Pop3

open Domain Library

/-- A client being driven, and what the server has said that has not reached it. -/
structure Exchange where
  talk : Talk Backend Outcome
  coming : Bytes

/-- One event, and what the server says to whatever the client writes. -/
structure Beat where
  ready : IoReady
  said : Bytes

namespace Exchange

/-- What the client writes when it is fed an event. -/
def wrote (exchange : Exchange) (ready : IoReady) : Bytes :=
  if exchange.talk.progress.isNeed then
    writes (exchange.talk.next Backend.machine ready).progress.needs
  else []

def next (exchange : Exchange) (beat : Beat) : Exchange :=
  ⟨exchange.talk.next Backend.machine beat.ready,
    exchange.coming.drop beat.ready.received.length ++ beat.said⟩

/-- Bytes arrive as they were said, in any pieces, and the server speaks only when spoken to. -/
def Honest (drop : Maildrop) (exchange : Exchange) (beat : Beat) : Prop :=
  beat.ready.received <+: exchange.coming ∧
  if exchange.wrote beat.ready = [] then beat.said = []
  else Says drop exchange.talk.state.build.auth (exchange.wrote beat.ready) beat.said

def Undisturbed (drop : Maildrop) (exchange : Exchange) (beat : Beat) : Prop :=
  exchange.Honest drop beat ∧ beat.ready ≠ .interrupt

end Exchange

/-! ## What is still to be heard -/

/-- What of the server's answer is still to be read, by the phase the session is in. -/
inductive Hearing (part : Part) (drop : Maildrop) : Phase → Bytes → Prop
  | greeting (line : Bytes) (whole : Crlf.split line = none) :
      Hearing part drop .greeting (line ++ 13 :: 10 :: [])
  | stls (line : Bytes) (whole : Crlf.split line = none) :
      Hearing part drop .stls (line ++ 13 :: 10 :: [])
  | awaitTls : Hearing part drop .awaitTls []
  | single (cmd : Pop3Command) (line : Bytes) (whole : Crlf.split line = none) :
      Hearing part drop (.single cmd) (line ++ 13 :: 10 :: [])
  | refused (number : UInt32) (line : Bytes) (whole : Crlf.split line = none)
      (no : ¬ Accepts line) :
      Hearing part drop (.multiStatus (part.command number)) (line ++ 13 :: 10 :: [])
  | status (number : UInt32) (message : Held) (line : Bytes) (whole : Crlf.split line = none)
      (holds : drop.at number = some message) :
      Hearing part drop (.multiStatus (part.command number))
        (line ++ 13 :: 10 :: dotted (part.lines message))
  | body (number : UInt32) (message : Held) (past rest : List Bytes) (held : Nat)
      (holds : drop.at number = some message) (split : part.lines message = past ++ rest) :
      Hearing part drop (.multiBody (part.command number) past held) (dotted rest)

namespace Hearing

variable {part : Part} {drop : Maildrop}

variable {phase : Phase} {line tail taken : Bytes}

/-- A line that does not end its reply. -/
theorem goes {after : Phase}
    (h : Hearing part drop phase (line ++ 13 :: 10 :: tail)) (whole : Crlf.split line = none)
    (decided : decide phase line = (after, .continue)) : Hearing part drop after tail := by
  generalize hbytes : line ++ 13 :: 10 :: tail = bytes at h
  rcases decide_continue decided with ⟨cmd, rfl, rfl, hyes⟩ | ⟨cmd, lines, held, rfl, hdot, rfl⟩
  · cases h with
    | refused number said hsaid no =>
      obtain ⟨rfl, _⟩ := Crlf.line_eq whole hsaid hbytes
      exact absurd hyes no
    | status number message said hsaid holds =>
      obtain ⟨_, rfl⟩ := Crlf.line_eq whole hsaid hbytes
      exact .body number message [] _ 0 holds rfl
  · cases h with
    | body number message past rest held holds split =>
      cases rest with
      | nil =>
        rw [dotted_nil] at hbytes
        exact absurd (Crlf.line_eq whole (by decide) hbytes).1 hdot
      | cons first rest =>
        rw [dotted_cons] at hbytes
        have hfirst : Crlf.split first = none :=
          Part.whole holds first (by rw [split]; simp)
        obtain ⟨rfl, rfl⟩ := Crlf.line_eq whole (Dotted.split_stuff hfirst) hbytes
        rw [unstuff_stuff]
        exact .body number message _ rest _ holds (by rw [split, List.append_assoc]; rfl)

/-- Reading on within a reply. -/
theorem continues {state after : State} {more : Bytes}
    (h : Hearing part drop state.phase (state.buf ++ more))
    (reads : Continues state taken after) :
    Hearing part drop after.phase (after.buf ++ more) := by
  induction reads with
  | none => exact h
  | @line state after line rest taken phase take goes reads ih =>
    rw [takeLine_eq take, List.append_assoc] at h
    exact ih (h.goes (Crlf.split_whole (takeLine_split take)) goes)

/-- What an answer that is followed by another command said, and that nothing is left of it. -/
theorem ends {reply : Pop3Reply}
    (h : Hearing part drop phase (line ++ 13 :: 10 :: tail)) (whole : Crlf.split line = none)
    (answer : Answer phase line reply) : tail = [] ∧
      ((∃ number message held, phase = .multiBody (part.command number) (part.lines message) held ∧
        drop.at number = some message ∧ reply = part.reply (joinLines (part.lines message))) ∨
      phase = .greeting ∨ ∃ cmd, phase = .single cmd) := by
  generalize hbytes : line ++ 13 :: 10 :: tail = bytes at h
  cases answer with
  | greeting status =>
    cases h with
    | greeting said hsaid => exact ⟨(Crlf.line_eq whole hsaid hbytes).2, .inr (.inl rfl)⟩
  | single status read more =>
    cases h with
    | single cmd said hsaid => exact ⟨(Crlf.line_eq whole hsaid hbytes).2, .inr (.inr ⟨_, rfl⟩)⟩
  | noCapa status =>
    exfalso
    generalize hphase : Phase.multiStatus .capa = phase at h
    cases h with
    | refused | status => cases part <;> cases hphase
    | _ => cases hphase
  | @multi _ cmd lines held _ dot read =>
    cases h with
    | body number message past rest held holds split =>
      cases rest with
      | nil =>
        rw [dotted_nil] at hbytes
        rw [List.append_nil] at split
        refine ⟨(Crlf.line_eq whole (by decide) hbytes).2, .inl ⟨number, message, held, ?_, holds, ?_⟩⟩
        · rw [split]
        · rw [split]
          cases part <;> exact (Except.ok.inj read).symm
      | cons first rest =>
        rw [dotted_cons] at hbytes
        have hfirst : Crlf.split first = none :=
          Part.whole holds first (by rw [split]; simp)
        have hline := (Crlf.line_eq whole (Dotted.split_stuff hfirst) hbytes).1
        rw [dot, wire_dot] at hline
        exact absurd hline.symm (Dotted.stuff_ne_dot first)

end Hearing

/-! ## A session on its walk -/

namespace Part

/-- The number a command asks for this part by. -/
def asks (part : Part) (cmd : Pop3Command) : Option UInt32 :=
  match part, cmd with
  | headers, .top number _ => some number
  | bodies, .retr number => some number
  | _, _ => none

/-- What was sent of this part, in the order it was sent. -/
def read (part : Part) (replies : List Pop3Reply) : List Bytes :=
  match part with
  | headers => Backend.headersIn replies
  | bodies => Backend.bodiesIn replies

@[simp] theorem asks_command (part : Part) (number : UInt32) :
    part.asks (part.command number) = some number := by
  cases part <;> rfl

theorem asks_single {cmd : Pop3Command} (part : Part) (single : shape cmd = .single) :
    part.asks cmd = none := by
  cases part <;> cases cmd <;> first | rfl | cases single

theorem multi (part : Part) (number : UInt32) : shape (part.command number) = .multi := by
  cases part <;> rfl

theorem read_append (part : Part) (replies more : List Pop3Reply) :
    part.read (replies ++ more) = part.read replies ++ part.read more := by
  cases part <;> exact List.filterMap_append

theorem read_reply (part : Part) (bytes : Bytes) : part.read [part.reply bytes] = [bytes] := by
  cases part <;> rfl

end Part

variable {cmd : Pop3Command} {reply : Pop3Reply} {after state : State} {coming said : Bytes}
  {numbers : List UInt32} {auth : Auth} {ready : IoReady} {backend : Backend}
  {remotes : List RemoteRef} {exchange : Exchange}

variable {part : Part} {drop : Maildrop}

variable {text : String} {before : State} {greeting : Bytes} {bytes : List Bytes}
  {done : List UInt32}

theorem read_single (h : interpretSingle cmd text = .ok reply) :
    part.read [reply] = [] := by
  cases cmd with
  | stat =>
    change interpretStat text = _ at h
    unfold interpretStat at h
    dsimp only at h
    split at h
    · cases h
    · obtain ⟨octets, _, rfl⟩ := map_eq_ok h
      cases part <;> rfl
  | check number uidl =>
    change checked number uidl text = _ at h
    unfold checked at h
    split at h
    · cases h
    · split at h
      · cases h
      · cases h
        cases part <;> rfl
  | user | pass | authPlain | dele _ | quit =>
    cases h
    cases part <;> rfl
  | capa | uidl | list | retr _ | top _ _ => cases h

theorem single_of_read (h : interpretSingle cmd text = .ok reply) :
    shape cmd = .single := by
  cases cmd <;> first | rfl | cases h

/-- What a number brings, in this session. -/
def Brings (part : Part) (drop : Maildrop) (number : UInt32) (bytes : Bytes) : Prop :=
  ∃ message, drop.at number = some message ∧ bytes = joinLines (part.lines message)

/-- What was brought so far, what is still asked for, and what an interrupt left out. -/
def Brought (part : Part) (drop : Maildrop) (numbers : List UInt32) (replies : List Pop3Reply)
    (commands : List Pop3Command) : Prop :=
  ∃ done lost, numbers = done ++ (commands.filterMap part.asks ++ lost) ∧
    List.Forall₂ (Brings part drop) done (part.read replies) ∧
    (lost = [] ∨ Pop3Command.quit ∈ commands)

/-- A session that fetches: what it is to hear, and what it has heard. -/
structure Fetching (part : Part) (drop : Maildrop) (numbers : List UInt32) (state : State)
    (coming : Bytes) : Prop where
  hearing : Hearing part drop state.phase (state.buf ++ coming)
  walk : ∀ cmd ∈ state.commands, shape cmd = .single ∨ ∃ number, cmd = part.command number
  brought : Brought part drop numbers state.replies
    ((inFlight state.phase).toList ++ state.commands)

/-- What a session that is over has fetched: everything, unless it was ended by `QUIT`. -/
def Fetched (part : Part) (drop : Maildrop) (numbers : List UInt32) (state : State)
    (replies : List Pop3Reply) : Prop :=
  ∃ done rest, numbers = done ++ rest ∧
    List.Forall₂ (Brings part drop) done (part.read replies) ∧
    (rest = [] ∨ inFlight state.phase = some .quit)

/-- Where a session stands once the server has answered what it wrote. -/
structure Fetches (part : Part) (drop : Maildrop) (numbers : List UInt32) (before : State)
    (result : Step) (coming : Bytes) : Prop where
  goes : result.2.isNeed = true → Fetching part drop numbers result.1 coming
  ends : ∀ replies, result.2 = .done replies → Fetched part drop numbers before replies

theorem Fetches.failed (error : ProtoError) :
    Fetches part drop numbers before (after, .failed error) coming :=
  ⟨fun h => (by cases h), fun _ h => (by cases h)⟩

theorem Says.hearing (walk : shape cmd = .single ∨ ∃ number, cmd = part.command number)
    (heard : Says drop auth (encode cmd auth) said) : Hearing part drop (awaiting cmd) said := by
  unfold awaiting
  rcases walk with hsingle | ⟨number, rfl⟩
  · rw [hsingle]
    cases heard with
    | refuses line whole no => exact .single cmd line whole
    | agrees line whole other => exact .single cmd line whole
    | sends line whole yes asked number message holds this =>
      exact absurd this (single_ne_part hsingle asked number auth)
  · rw [part.multi]
    cases heard with
    | refuses line whole no => exact .refused number line whole no
    | agrees line whole other => exact absurd rfl (other part number)
    | sends line whole yes asked named message holds this =>
      obtain ⟨rfl, rfl⟩ := encode_part_inj this
      exact .status number message line whole holds

/-- The server's answer to what a step wrote. -/
def Replies (drop : Maildrop) (auth : Auth) (needs : List IoNeed) (said : Bytes) : Prop :=
  if writes needs = [] then said = [] else Says drop auth (writes needs) said

theorem writes_command (bytes : Bytes) : writes [.write bytes, .read] = bytes := by
  simp [writes]

theorem encode_ne_nil (cmd : Pop3Command) (auth : Auth) : encode cmd auth ≠ [] := by
  simp [encode]

/-- The next command goes out once nothing is left to be heard. -/
theorem Fetches.dispatch (silent : state.buf = [])
    (walk : ∀ cmd ∈ state.commands, shape cmd = .single ∨ ∃ number, cmd = part.command number)
    (brought : Brought part drop numbers state.replies state.commands)
    (heard : Replies drop auth (state.dispatchNext auth).2.needs said) :
    Fetches part drop numbers before (state.dispatchNext auth) said := by
  obtain ⟨done, lost, hnumbers, hdone, hlost⟩ := brought
  rcases state.dispatchNext_cases auth with ⟨hqueue, after, hstep, _⟩ | ⟨cmd, rest, hqueue, hstep⟩
  · rw [hstep]
    refine ⟨fun h => (by cases h), fun replies hreplies => ?_⟩
    cases hreplies
    have hcommands : state.commands = [] := by
      unfold State.queue at hqueue
      split at hqueue
      · cases hqueue
      · exact hqueue
    rw [hcommands] at hnumbers hlost
    have hnone : lost = [] := by simpa using hlost
    exact ⟨done, [], by rw [hnumbers, hnone]; rfl, hdone, .inl rfl⟩
  · rw [hstep] at heard ⊢
    have hsaid : Says drop auth (encode cmd auth) said := by
      change if writes [.write (encode cmd auth), .read] = [] then _ else
        Says drop auth (writes [.write (encode cmd auth), .read]) said at heard
      rw [writes_command, if_neg (encode_ne_nil cmd auth)] at heard
      exact heard
    have hcmd : shape cmd = .single ∨ ∃ number, cmd = part.command number := by
      unfold State.queue at hqueue
      split at hqueue
      · cases hqueue
        exact .inl rfl
      · exact walk cmd (by rw [hqueue]; exact .head _)
    refine ⟨fun _ => ⟨?_, fun other hother => ?_, ?_⟩, fun _ h => by cases h⟩
    · change Hearing part drop (awaiting cmd) (state.buf ++ said)
      rw [silent]
      exact hsaid.hearing hcmd
    · unfold State.queue at hqueue
      split at hqueue
      · cases hqueue
        cases hother
      · exact walk other (by rw [hqueue]; exact .tail _ hother)
    · change Brought part drop numbers state.replies ((inFlight (awaiting cmd)).toList ++ rest)
      rw [inFlight_awaiting]
      unfold State.queue at hqueue
      split at hqueue
      · -- An interrupt leaves out whatever was still queued.
        cases hqueue
        exact ⟨done, state.commands.filterMap part.asks ++ lost, by
          rw [hnumbers, Option.toList_some, List.singleton_append, List.filterMap_cons,
            part.asks_single rfl]
          rfl, hdone, .inr (.head _)⟩
      · rw [hqueue] at hnumbers hlost
        exact ⟨done, lost, hnumbers, hdone, hlost⟩

/-- Reading on within a reply leaves the command it answers. -/
theorem Continues.inFlight (h : Continues state taken after) :
    inFlight after.phase = inFlight state.phase := by
  induction h with
  | none => rfl
  | line take goes more ih =>
    rw [ih]
    rcases decide_continue goes with ⟨cmd, hphase, rfl, _⟩ | ⟨cmd, lines, held, hphase, _, rfl⟩
    · rw [hphase]
      rfl
    · rw [hphase]
      rfl

theorem Fetching.continues (h : Fetching part drop numbers state coming)
    (reads : Continues state taken after) :
    Fetching part drop numbers after coming := by
  have hcommands : after.commands = state.commands := by rw [reads.frame]
  have hreplies : after.replies = state.replies := by rw [reads.frame]
  refine ⟨h.hearing.continues reads, ?_, ?_⟩
  · rw [hcommands]
    exact h.walk
  · rw [hcommands, hreplies, reads.inFlight]
    exact h.brought

/-- An answer brings the message it was asked for, or none. -/
theorem Fetching.answered (h : Fetching part drop numbers state coming)
    (unread : state.buf ++ coming = line ++ 13 :: 10 :: tail) (whole : Crlf.split line = none)
    (answer : Answer state.phase line reply) : tail = [] ∧
      Brought part drop numbers (state.replies ++ [reply]) state.commands := by
  have hhearing := h.hearing
  rw [unread] at hhearing
  obtain ⟨htail, hphase⟩ := hhearing.ends whole answer
  refine ⟨htail, ?_⟩
  obtain ⟨done, lost, hnumbers, hdone, hlost⟩ := h.brought
  rcases hphase with ⟨number, message, held, hphase, holds, rfl⟩ | hphase | ⟨cmd, hphase⟩
  · rw [hphase] at hnumbers hlost
    change numbers = done ++ (List.filterMap part.asks (part.command number :: state.commands) ++
      lost) at hnumbers
    rw [List.filterMap_cons, part.asks_command] at hnumbers
    refine ⟨done ++ [number], lost, by rw [hnumbers]; simp, ?_, ?_⟩
    · rw [part.read_append, part.read_reply]
      exact List.rel_append hdone (.cons ⟨message, holds, rfl⟩ .nil)
    · refine hlost.imp id fun hquit => ?_
      rcases List.mem_append.mp hquit with hquit | hquit
      · have heq : Pop3Command.quit = part.command number := List.mem_singleton.mp hquit
        cases part <;> cases heq
      · exact hquit
  · rw [hphase] at hnumbers hlost answer
    refine ⟨done, lost, hnumbers, ?_, hlost⟩
    cases answer
    rw [part.read_append]
    cases part <;> exact (List.append_nil _).symm ▸ hdone
  · rw [hphase] at hnumbers hlost answer
    cases answer with
    | single status read more =>
      change numbers = done ++ (List.filterMap part.asks (cmd :: state.commands) ++ lost)
        at hnumbers
      rw [List.filterMap_cons, part.asks_single (single_of_read read)] at hnumbers
      refine ⟨done, lost, hnumbers, ?_, hlost.imp id fun hquit => ?_⟩
      · rw [part.read_append, read_single read, List.append_nil]
        exact hdone
      · rcases List.mem_cons.mp hquit with heq | hquit
        · exact absurd heq.symm more
        · exact hquit

theorem act_fetches {rest : Bytes} {action : Action} (h : Fetching part drop numbers state coming)
    (take : takeLine state.buf = .ok (some (line, rest)))
    (decided : decide state.phase line = (phase, action)) (ends : action ≠ .continue)
    (heard : Replies drop auth
      (({ state with buf := rest, phase := phase } : State).act auth action).2.needs said) :
    Fetches part drop numbers state
      (({ state with buf := rest, phase := phase } : State).act auth action) (coming ++ said) := by
  have hwhole := Crlf.split_whole (takeLine_split take)
  have hunread : state.buf ++ coming = line ++ 13 :: 10 :: (rest ++ coming) := by
    rw [takeLine_eq take, List.append_assoc]
    rfl
  cases action with
  | «continue» => exact absurd rfl ends
  | fail error => exact .failed error
  | done reply =>
    obtain ⟨hphase, text, _, rfl⟩ := decide_done decided
    refine ⟨fun h => (by cases h), fun replies hreplies => ?_⟩
    cases hreplies
    obtain ⟨done, lost, hnumbers, hdone, _⟩ := h.brought
    refine ⟨done, _, hnumbers, ?_, .inr (by rw [hphase]; rfl)⟩
    rw [part.read_append]
    cases part <;> exact (List.append_nil _).symm ▸ hdone
  | startTls =>
    have hphase := decide_startTls decided
    obtain ⟨hhearing, hwalk, hbrought⟩ := h
    rw [hunread, hphase] at hhearing
    rw [hphase] at hbrought
    have hsilent : rest ++ coming = [] := by
      generalize hbytes : line ++ 13 :: 10 :: (rest ++ coming) = bytes at hhearing
      cases hhearing with
      | stls said hsaid => exact (Crlf.line_eq hwhole hsaid hbytes).2
    obtain ⟨rfl, rfl⟩ := List.append_eq_nil_iff.mp hsilent
    unfold State.act at heard ⊢
    rw [List.isEmpty_nil] at heard ⊢
    cases htls : state.starttls with
    | none => exact .failed _
    | some server =>
      rw [htls] at heard
      have hsaid : said = [] := by
        change if writes [.openTls server.1 server.2 .startTlsRequired] = [] then said = []
          else _ at heard
        rwa [if_pos (by simp [writes])] at heard
      rw [hsaid]
      exact ⟨fun _ => ⟨.awaitTls, hwalk, hbrought⟩, fun _ h => by cases h⟩
  | next reply =>
    have hanswer := decide_next decided
    obtain ⟨hsilent, hbrought⟩ := h.answered hunread hwhole hanswer
    obtain ⟨rfl, rfl⟩ := List.append_eq_nil_iff.mp hsilent
    rcases State.act_next auth ({ state with buf := [], phase := phase } : State) reply with
      ⟨⟨text, rfl⟩, _, hact⟩ | hact
    · rw [hact] at heard ⊢
      have hsaid : Says drop auth (wire "STLS\r\n") said := by
        change if writes [.write (wire "STLS\r\n"), .read] = [] then _ else
          Says drop auth (writes [.write (wire "STLS\r\n"), .read]) said at heard
        rwa [writes_command, if_neg (by decide)] at heard
      refine ⟨fun _ => ⟨?_, h.walk, hbrought⟩, fun _ h => by cases h⟩
      cases hsaid with
      | refuses line whole no => exact .stls line whole
      | agrees line whole other => exact .stls line whole
      | sends line whole yes asked number message holds this =>
        exact absurd this (stls_ne_part asked number auth)
    · rw [hact] at heard ⊢
      exact Fetches.dispatch rfl h.walk hbrought heard

theorem step_fetches (h : Fetching part drop numbers state coming)
    (arrives : ready.received <+: coming)
    (heard : Replies drop auth (state.step auth ready).2.needs said) :
    Fetches part drop numbers state (state.step auth ready)
      (coming.drop ready.received.length ++ said) := by
  obtain ⟨left, rfl⟩ := arrives
  rw [List.drop_left]
  have htold : Fetching part drop numbers (state.told ready) left := by
    have hhearing := h.hearing
    rw [← List.append_assoc, ← State.told_buf] at hhearing
    cases ready <;> exact ⟨hhearing, h.walk, h.brought⟩
  have hflight : inFlight (state.told ready).phase = inFlight state.phase := by
    cases ready <;> rfl
  rcases state.step_ended auth ready with ⟨_, hphase, hstep⟩ | hended
  · rw [hstep] at heard ⊢
    have hhearing := h.hearing
    have hbrought := h.brought
    rw [hphase] at hhearing hbrought
    have hsilent : state.buf ++ (ready.received ++ left) = [] := by
      generalize state.buf ++ (ready.received ++ left) = bytes at hhearing
      cases hhearing
      rfl
    obtain ⟨hbuf, hrest⟩ := List.append_eq_nil_iff.mp hsilent
    rw [(List.append_eq_nil_iff.mp hrest).2]
    exact Fetches.dispatch hbuf h.walk hbrought heard
  · generalize state.step auth ready = result at hended heard
    cases hended with
    | waits mid taken reads =>
      have hsaid : said = [] := by
        change if writes [.read] = [] then said = [] else _ at heard
        rwa [if_pos (by simp [writes])] at heard
      rw [hsaid, List.append_nil]
      exact ⟨fun _ => htold.continues reads, fun _ h => by cases h⟩
    | fails after error => exact .failed error
    | acts mid taken line rest phase action reads take decided ends =>
      have hfetches := act_fetches (htold.continues reads) take decided ends heard
      refine ⟨hfetches.goes, fun replies hreplies => ?_⟩
      obtain ⟨done, left, hnumbers, hdone, hquit⟩ := hfetches.ends replies hreplies
      rw [reads.inFlight, hflight] at hquit
      exact ⟨done, left, hnumbers, hdone, hquit⟩

/-- No `QUIT` is queued, in flight, or to come. -/
structure Steady (state : State) : Prop where
  run : state.windDown = .run
  queued : Pop3Command.quit ∉ state.commands
  flight : inFlight state.phase ≠ some .quit

theorem Steady.dispatch (run : state.windDown = .run) (queued : Pop3Command.quit ∉ state.commands)
    (need : (state.dispatchNext auth).2.isNeed = true) : Steady (state.dispatchNext auth).1 := by
  rcases state.dispatchNext_cases auth with ⟨_, after, hstep, _⟩ | ⟨cmd, rest, hqueue, hstep⟩
  · rw [hstep] at need
    cases need
  · have hcommands : state.commands = cmd :: rest := by
      unfold State.queue at hqueue
      rw [run] at hqueue
      simpa using hqueue
    rw [hcommands, List.mem_cons, not_or] at queued
    rw [hstep]
    refine ⟨rfl, queued.2, ?_⟩
    rw [inFlight_awaiting]
    exact fun heq => queued.1 (Option.some.inj heq).symm

theorem Steady.step (h : Steady state) (calm : ready ≠ .interrupt)
    (need : (state.step auth ready).2.isNeed = true) :
    Steady (state.step auth ready).1 := by
  have htold : Steady (state.told ready) := by
    cases ready with
    | interrupt => exact absurd rfl calm
    | bytes fed | eof | tlsOpen | woke => exact ⟨h.run, h.queued, h.flight⟩
  rcases state.step_ended auth ready with ⟨_, hphase, hstep⟩ | hended
  · rw [hstep] at need ⊢
    exact .dispatch h.run h.queued need
  · generalize state.step auth ready = result at hended need
    cases hended with
    | waits mid taken reads =>
      refine ⟨?_, ?_, ?_⟩
      · rw [reads.frame]
        exact htold.run
      · rw [reads.frame]
        exact htold.queued
      · rw [reads.inFlight]
        exact htold.flight
    | fails after error => cases need
    | acts mid taken line rest phase action reads take decided ends =>
      have hrun : mid.windDown = .run := by rw [reads.frame]; exact htold.run
      have hqueued : Pop3Command.quit ∉ mid.commands := by
        rw [reads.frame]
        exact htold.queued
      cases action with
      | «continue» => exact absurd rfl ends
      | fail | done => cases need
      | startTls =>
        unfold State.act at need ⊢
        dsimp only at need ⊢
        split at need
        · cases need
        · rename_i hbuf
          rw [if_neg hbuf]
          split at need
          · cases need
          · exact ⟨hrun, hqueued, by simp [inFlight]⟩
      | next reply =>
        rcases State.act_next auth ({ mid with buf := rest, phase := phase } : State) reply with
          ⟨_, _, hact⟩ | hact
        · rw [hact]
          exact ⟨hrun, hqueued, by simp [inFlight]⟩
        · rw [hact] at need ⊢
          exact Steady.dispatch hrun hqueued need

/-! ## A fetch as the backend runs it -/

namespace Part

def op (part : Part) (remotes : List RemoteRef) : ProtoOp :=
  match part with
  | headers => .fetchHeaders remotes
  | bodies => .fetchBody remotes

def job (part : Part) (remotes : List RemoteRef) : Job :=
  match part with
  | headers => .headers remotes
  | bodies => .body remotes

theorem report_job (job : backend.job = part.job remotes) (replies : List Pop3Reply) :
    backend.report (.done replies) = .done (.fetched (remotes.zip (part.read replies))) := by
  unfold Backend.report Backend.finish
  rw [job]
  cases part <;> rfl

end Part

def fetching (backend : Backend) (part : Part) (remotes : List RemoteRef) (greeting : Bytes) :
    Exchange :=
  ⟨Talk.begin (backend.start (part.op remotes)).1 (backend.start (part.op remotes)).2,
    greeting ++ [13, 10]⟩

def Numbered (backend : Backend) (remote : RemoteRef) (number : UInt32) : Prop :=
  ∃ uidl, remote = .pop uidl ∧ backend.numberFor uidl = some number

theorem numbersFor_eq {command : UInt32 → Pop3Command} {commands : List Pop3Command}
    (h : backend.numbersFor remotes command = some commands) :
    ∃ numbers, commands = numbers.map command ∧
      List.Forall₂ (Numbered backend) remotes numbers := by
  unfold Backend.numbersFor at h
  induction remotes generalizing commands with
  | nil =>
    cases h
    exact ⟨[], rfl, .nil⟩
  | cons remote rest ih =>
    simp only [List.mapM_cons, Option.bind_eq_bind, Option.bind_eq_some_iff] at h
    obtain ⟨cmd, hcmd, others, hothers, heq⟩ := h
    cases heq
    obtain ⟨numbers, hnumbers, hall⟩ := ih hothers
    cases remote with
    | pop uidl =>
      obtain ⟨number, hnumber, rfl⟩ := Option.map_eq_some_iff.mp hcmd
      exact ⟨number :: numbers, by rw [hnumbers]; rfl, .cons ⟨uidl, rfl, hnumber⟩ hall⟩
    | imap _ _ _ | graph _ _ | jmap _ => cases hcmd

theorem start_part (backend : Backend) (part : Part) (remotes : List RemoteRef) :
    (∃ error, backend.start (part.op remotes) = backend.refuse error) ∨
    ∃ commands, backend.numbersFor remotes part.command = some commands ∧
      backend.start (part.op remotes) =
        ({ backend with job := part.job remotes } : Backend).queue .first commands := by
  cases part with
  | headers =>
    unfold Part.op Backend.start
    dsimp only
    cases backend.caps.top.usable with
    | false => exact .inl ⟨_, rfl⟩
    | true =>
      cases hnumbers : backend.numbersFor remotes fun number => .top number 0 with
      | none => exact .inl ⟨_, rfl⟩
      | some commands => exact .inr ⟨commands, hnumbers, rfl⟩
  | bodies =>
    unfold Part.op Backend.start
    dsimp only
    cases hnumbers : backend.numbersFor remotes .retr with
    | none => exact .inl ⟨_, rfl⟩
    | some commands => exact .inr ⟨commands, hnumbers, rfl⟩

theorem fetching_cases (backend : Backend) (part : Part) (remotes : List RemoteRef)
    (greeting : Bytes) :
    (∃ error, (fetching backend part remotes greeting).talk.progress = .failed error) ∨
    ∃ numbers, List.Forall₂ (Numbered backend) remotes numbers ∧
      (fetching backend part remotes greeting).talk.progress = .need [.read] ∧
      (fetching backend part remotes greeting).talk.state.job = part.job remotes ∧
      (fetching backend part remotes greeting).talk.state.build = backend.build ∧
      (fetching backend part remotes greeting).talk.state.session =
        some (backend.build.fresh (backend.build.authPrelude ++ numbers.map part.command)) := by
  unfold fetching
  rcases start_part backend part remotes with ⟨error, hstart⟩ | ⟨commands, hcommands, hstart⟩
  · rw [hstart]
    exact .inl ⟨error, rfl⟩
  · obtain ⟨numbers, rfl, hnumbers⟩ := numbersFor_eq hcommands
    rcases Backend.queue_cases ({ backend with job := part.job remotes } : Backend)
        (numbers.map part.command) with ⟨error, hqueue⟩ | hqueue
    · rw [hstart, hqueue]
      exact .inl ⟨error, rfl⟩
    · rw [hstart, hqueue]
      exact .inr ⟨numbers, hnumbers, rfl, rfl, rfl, rfl⟩

/-- A fetch under way, or over; `calm` when nothing has interrupted it. -/
structure Driving (calm : Prop) (part : Part) (drop : Maildrop) (remotes : List RemoteRef)
    (numbers : List UInt32) (auth : Auth) (exchange : Exchange) : Prop where
  goes : exchange.talk.progress.isNeed = true → ∃ state,
    exchange.talk.state.session = some ⟨auth, state⟩ ∧
    exchange.talk.state.job = part.job remotes ∧ exchange.talk.state.build.auth = auth ∧
    Fetching part drop numbers state exchange.coming ∧ (calm → Steady state)
  ends : ∀ items, exchange.talk.progress = .done (.fetched items) → ∃ done rest bytes,
    numbers = done ++ rest ∧ List.Forall₂ (Brings part drop) done bytes ∧
    items = remotes.zip bytes ∧ (calm → rest = [])

theorem asked_walk (part : Part) (factory : Factory) (numbers : List UInt32) :
    (factory.authPrelude ++ numbers.map part.command).filterMap part.asks = numbers := by
  have hprelude : factory.authPrelude.filterMap part.asks = [] :=
    List.filterMap_eq_nil_iff.mpr fun cmd hcmd =>
      part.asks_single (factory.single_prelude cmd hcmd).1
  rw [List.filterMap_append, hprelude, List.filterMap_map, List.nil_append]
  have hasks : part.asks ∘ part.command = some := funext part.asks_command
  rw [hasks, List.filterMap_some]

theorem Driving.begun (whole : Crlf.split greeting = none) (calm : Prop) :
    (∃ error, (fetching backend part remotes greeting).talk.progress = .failed error) ∨
    ∃ numbers, List.Forall₂ (Numbered backend) remotes numbers ∧
      Driving calm part drop remotes numbers backend.build.auth
        (fetching backend part remotes greeting) := by
  rcases fetching_cases backend part remotes greeting with
    hfailed | ⟨numbers, hnumbers, hneed, hjob, hbuild, hsession⟩
  · exact .inl hfailed
  · refine .inr ⟨numbers, hnumbers, fun _ => ⟨_, hsession, hjob, by rw [hbuild], ?_, ?_⟩,
      fun items hitems => ?_⟩
    · refine ⟨.greeting greeting whole, fun cmd hcmd => ?_, [], [], ?_, ?_, .inl rfl⟩
      · rcases List.mem_append.mp hcmd with hprelude | hasked
        · exact .inl (backend.build.single_prelude cmd hprelude).1
        · obtain ⟨number, _, rfl⟩ := List.mem_map.mp hasked
          exact .inr ⟨number, rfl⟩
      · exact (asked_walk part backend.build numbers).symm.trans (by simp [inFlight])
      · cases part <;> exact .nil
    · refine fun _ => ⟨rfl, fun hquit => ?_, by simp [inFlight]⟩
      rcases List.mem_append.mp hquit with hprelude | hasked
      · exact (backend.build.single_prelude _ hprelude).2 rfl
      · obtain ⟨number, _, heq⟩ := List.mem_map.mp hasked
        cases part <;> cases heq
    · rw [hneed] at hitems
      cases hitems

theorem Driving.next {calm : Prop} {beat : Beat}
    (h : Driving calm part drop remotes numbers auth exchange) (honest : exchange.Honest drop beat)
    (undisturbed : calm → beat.ready ≠ .interrupt) :
    Driving calm part drop remotes numbers auth (exchange.next beat) := by
  cases hprogress : exchange.talk.progress with
  | need needs =>
    obtain ⟨state, hsession, hjob, hauth, hfetching, hsteady⟩ := h.goes (by rw [hprogress]; rfl)
    obtain ⟨after, hnext, hafter, hbuild, hgoes⟩ := next_session hprogress hsession beat.ready
    obtain ⟨harrives, hsays⟩ := honest
    have hreplies : Replies drop auth (state.step auth beat.ready).2.needs beat.said := by
      unfold Exchange.wrote at hsays
      rw [hnext, hprogress, hauth] at hsays
      rwa [Backend.needs_report] at hsays
    have hfetches := step_fetches hfetching harrives hreplies
    unfold Exchange.next
    rw [hnext]
    refine ⟨fun hneed => ?_, fun items hitems => ?_⟩
    · have hstep := Backend.isNeed_report _ hneed
      exact ⟨_, hafter, (hgoes hneed).trans hjob, by rw [hbuild, hauth], hfetches.goes hstep,
        fun hcalm => (hsteady hcalm).step (undisturbed hcalm) hstep⟩
    · dsimp only at hitems
      cases hstep : (state.step auth beat.ready).2 with
      | need | failed =>
        rw [hstep] at hitems
        cases hitems
      | done replies =>
        rw [hstep, Part.report_job hjob] at hitems
        cases hitems
        obtain ⟨done, rest, hnumbers, hdone, hquit⟩ := hfetches.ends replies hstep
        exact ⟨done, rest, _, hnumbers, hdone, rfl, fun hcalm =>
          hquit.resolve_right (hsteady hcalm).flight⟩
  | done | failed =>
    have hover : exchange.talk.progress.isNeed = false := by rw [hprogress]; rfl
    unfold Exchange.next
    rw [Talk.next_over hover]
    exact ⟨fun hneed => absurd hneed (by rw [hover]; simp), h.ends⟩

/-! ## The right message -/

/-- Each item is what the server holds under the id it is paired with. -/
def Right (part : Part) (drop : Maildrop) (items : List (RemoteRef × Bytes)) : Prop :=
  ∀ item ∈ items, ∃ uidl message, item.1 = .pop uidl ∧ drop.named uidl = some message ∧
    item.2 = joinLines (part.lines message)

/-- A number of the survey names, in this session too, a message that reads as the one with the id
it was listed with. -/
def Agrees (part : Part) (drop : Maildrop) (backend : Backend) (remotes : List RemoteRef) : Prop :=
  ∀ uidl number message, .pop uidl ∈ remotes → backend.numberFor uidl = some number →
    drop.at number = some message → ∃ listed, drop.named uidl = some listed ∧
      joinLines (part.lines message) = joinLines (part.lines listed)

theorem zip_brings {rest : List UInt32}
    (numbered : List.Forall₂ (Numbered backend) remotes (done ++ rest))
    (brings : List.Forall₂ (Brings part drop) done bytes) :
    ∀ item ∈ remotes.zip bytes, ∃ uidl number message, item.1 = .pop uidl ∧ item.1 ∈ remotes ∧
      backend.numberFor uidl = some number ∧ drop.at number = some message ∧
      item.2 = joinLines (part.lines message) := by
  induction brings generalizing remotes with
  | nil => simp
  | @cons number held done bytes hbrings _ ih =>
    cases numbered with
    | @cons remote _ remotes _ hnumbered hrest =>
      intro item hitem
      rw [List.zip_cons_cons, List.mem_cons] at hitem
      rcases hitem with rfl | hitem
      · obtain ⟨uidl, rfl, hnumber⟩ := hnumbered
        obtain ⟨message, hmessage, hheld⟩ := hbrings
        exact ⟨uidl, number, message, rfl, .head _, hnumber, hmessage, hheld⟩
      · obtain ⟨uidl, found, message, hpop, hmem, hfound⟩ := ih hrest item hitem
        exact ⟨uidl, found, message, hpop, .tail _ hmem, hfound⟩

theorem zip_complete (numbered : List.Forall₂ (Numbered backend) remotes done)
    (brings : List.Forall₂ (Brings part drop) done bytes) :
    ∀ remote ∈ remotes, ∃ held, (remote, held) ∈ remotes.zip bytes := by
  induction brings generalizing remotes with
  | nil =>
    cases numbered
    simp
  | @cons number held done bytes hbrings _ ih =>
    cases numbered with
    | @cons remote _ remotes _ hnumbered hrest =>
      intro other hother
      rcases List.mem_cons.mp hother with rfl | hother
      · exact ⟨held, .head _⟩
      · obtain ⟨found, hfound⟩ := ih hrest other hother
        exact ⟨found, .tail _ hfound⟩

theorem fetching_driving (calm : Prop) (whole : Crlf.split greeting = none)
    {meets : Exchange → Beat → Prop}
    (honest : ∀ exchange beat, meets exchange beat → exchange.Honest drop beat)
    (undisturbed : calm → ∀ exchange beat, meets exchange beat → beat.ready ≠ .interrupt)
    (run : Reaches Exchange.next meets (fetching backend part remotes greeting) exchange) :
    (∃ error, exchange.talk.progress = .failed error) ∨
    ∃ numbers, List.Forall₂ (Numbered backend) remotes numbers ∧
      Driving calm part drop remotes numbers backend.build.auth exchange := by
  refine run.invariant (fun exchange => (∃ error, exchange.talk.progress = .failed error) ∨
    ∃ numbers, List.Forall₂ (Numbered backend) remotes numbers ∧
      Driving calm part drop remotes numbers backend.build.auth exchange)
    (Driving.begun whole calm) ?_
  intro exchange beat h hmeets
  rcases h with ⟨error, hfailed⟩ | ⟨numbers, hnumbers, hdriving⟩
  · left
    unfold Exchange.next
    rw [Talk.next_over (by rw [hfailed]; rfl)]
    exact ⟨error, hfailed⟩
  · exact .inr ⟨numbers, hnumbers, hdriving.next (honest _ _ hmeets) fun hcalm =>
      undisturbed hcalm _ _ hmeets⟩

/-- From an honest server a fetch brings the right messages, as long as the numbers of the survey
still name what they named; and where nothing interrupts it, only then. -/
theorem fetch_right {part : Part} {drop : Maildrop} {backend : Backend}
    {remotes : List RemoteRef} {greeting : Bytes} (whole : Crlf.split greeting = none) :
    (∀ exchange, Reaches Exchange.next (Exchange.Honest drop)
        (fetching backend part remotes greeting) exchange →
      Agrees part drop backend remotes →
      ∀ items, exchange.talk.progress = .done (.fetched items) → Right part drop items) ∧
    ∀ exchange, Reaches Exchange.next (Exchange.Undisturbed drop)
        (fetching backend part remotes greeting) exchange →
      ∀ items, exchange.talk.progress = .done (.fetched items) →
        (Right part drop items ↔ Agrees part drop backend remotes) := by
  have hright : ∀ exchange, Reaches Exchange.next (Exchange.Honest drop)
      (fetching backend part remotes greeting) exchange → Agrees part drop backend remotes →
      ∀ items, exchange.talk.progress = .done (.fetched items) → Right part drop items := by
    intro exchange run hagrees items hitems
    rcases fetching_driving False whole (fun _ _ h => h) (fun h => h.elim) run with
      ⟨error, hfailed⟩ | ⟨numbers, hnumbered, hdriving⟩
    · rw [hfailed] at hitems
      cases hitems
    · obtain ⟨done, rest, bytes, rfl, hdone, rfl, _⟩ := hdriving.ends items hitems
      intro item hitem
      obtain ⟨uidl, number, message, hpop, hasked, hnumber, hmessage, hheld⟩ :=
        zip_brings hnumbered hdone item hitem
      obtain ⟨listed, hlisted, hsame⟩ := hagrees uidl number message (hpop ▸ hasked) hnumber
        hmessage
      exact ⟨uidl, listed, hpop, hlisted, hheld.trans hsame⟩
  refine ⟨hright, fun exchange run items hitems => ⟨fun right => ?_,
    fun agrees => hright exchange (run.weaken fun _ _ h => h.1) agrees items hitems⟩⟩
  intro uidl number message hasked hnumber hmessage
  rcases fetching_driving True whole (fun _ _ h => h.1) (fun _ _ _ h => h.2) run with
    ⟨error, hfailed⟩ | ⟨numbers, hnumbered, hdriving⟩
  · rw [hfailed] at hitems
    cases hitems
  · obtain ⟨done, rest, bytes, rfl, hdone, rfl, hrest⟩ := hdriving.ends items hitems
    have hall := hnumbered
    rw [hrest trivial, List.append_nil] at hall
    obtain ⟨held, hitem⟩ := zip_complete hall hdone (.pop uidl) hasked
    obtain ⟨other, found, brought, hpop, _, hfound, hbrought, hheld⟩ :=
      zip_brings hnumbered hdone _ hitem
    cases hpop
    rw [hnumber] at hfound
    cases hfound
    rw [hmessage] at hbrought
    cases hbrought
    obtain ⟨same, listed, hsame, hlisted, hread⟩ := right _ hitem
    cases hsame
    exact ⟨listed, hlisted, hheld.symm.trans hread⟩

def line (text : String) : Bytes := wire text ++ [13, 10]

def remaining : Maildrop :=
  ⟨[⟨"two", [wire "Subject: two"], []⟩, ⟨"three", [wire "Subject: three"], []⟩],
    by decide, by decide⟩

def unlisted : Backend :=
  { caps := ⟨.yes, .absent⟩
    build := ⟨"user", "pass", [.plain], none⟩
    session := none
    job := .idle
    uidls := []
    sizes := []
    copies := .kept }

/-- The survey taken while all three messages were there. -/
def listed : Backend :=
  (Talk.run Backend.machine
    (Talk.begin (unlisted.start (.listRemote ⟨⟨1⟩, "INBOX"⟩ none)).1
      (unlisted.start (.listRemote ⟨⟨1⟩, "INBOX"⟩ none)).2)
    [.bytes (line "+OK"), .bytes (line "+OK"),
      .bytes (line "+OK" ++ line "1 one" ++ line "2 two" ++ line "3 three" ++ line ".")]).state

theorem fetch_right_remaining : (∀ exchange, Reaches Exchange.next (Exchange.Honest remaining)
        (fetching listed .bodies [.pop "two"] (wire "+OK")) exchange →
      Agrees .bodies remaining listed [.pop "two"] →
      ∀ items, exchange.talk.progress = .done (.fetched items) → Right .bodies remaining items) ∧
    ∀ exchange, Reaches Exchange.next (Exchange.Undisturbed remaining)
        (fetching listed .bodies [.pop "two"] (wire "+OK")) exchange →
      ∀ items, exchange.talk.progress = .done (.fetched items) →
        (Right .bodies remaining items ↔ Agrees .bodies remaining listed [.pop "two"]) :=
  fetch_right (by decide)

theorem Exchange.undisturbed_says {asked : Bytes} (answer : Says drop auth asked said)
    (signed : exchange.talk.state.build.auth = auth) (wrote : exchange.wrote ready = asked)
    (some : asked ≠ []) (arrives : ready.received <+: exchange.coming) (calm : ready ≠ .interrupt) :
    exchange.Undisturbed drop ⟨ready, said⟩ := by
  refine ⟨⟨arrives, ?_⟩, calm⟩
  rw [wrote, if_neg some, signed]
  exact answer

theorem Exchange.undisturbed_silent (wrote : exchange.wrote ready = [])
    (arrives : ready.received <+: exchange.coming) (calm : ready ≠ .interrupt) :
    exchange.Undisturbed drop ⟨ready, []⟩ := by
  refine ⟨⟨arrives, ?_⟩, calm⟩
  rw [wrote, if_pos rfl]

def renumbered : List Beat :=
  [⟨.bytes (line "+OK"), line "+OK"⟩,
    ⟨.bytes (line "+OK"), line "+OK" ++ line "Subject: three" ++ line "" ++ line "."⟩,
    ⟨.bytes (line "+OK" ++ line "Subject: three" ++ line "" ++ line "."), []⟩]

/-- The second message of the survey is asked for by its number, and the third is brought. -/
theorem fetch_renumbered : ∃ exchange items,
    Reaches Exchange.next (Exchange.Undisturbed remaining)
      (fetching listed .bodies [.pop "two"] (wire "+OK")) exchange ∧
    exchange.talk.progress = .done (.fetched items) ∧ ¬ Right .bodies remaining items := by
  have hsign : Says remaining ⟨"user", "pass"⟩ (encode .authPlain ⟨"user", "pass"⟩)
      (line "+OK") :=
    .agrees (wire "+OK") (by decide) fun part number => single_ne_part rfl part number _
  have hsend : Says remaining ⟨"user", "pass"⟩ (encode (.retr 2) ⟨"user", "pass"⟩)
      (line "+OK" ++ line "Subject: three" ++ line "" ++ line ".") := by
    exact .sends (wire "+OK") (by decide) ⟨"", by decide⟩ .bodies 2
      ⟨"three", [wire "Subject: three"], []⟩ (by decide) rfl
  refine ⟨renumbered.foldl Exchange.next (fetching listed .bodies [.pop "two"] (wire "+OK")),
    [(.pop "two", line "Subject: three" ++ line "")],
    ((Reaches.start.next _ (Exchange.undisturbed_says hsign (by decide) (by decide) (by decide)
      (by decide) (by decide))).next _ (Exchange.undisturbed_says hsend (by decide) (by decide)
      (by decide) (by decide) (by decide))).next _ (Exchange.undisturbed_silent (by decide) (by decide)
      (by decide)), by decide, fun right => ?_⟩
  obtain ⟨uidl, message, hpop, hnamed, hread⟩ := right _ (.head _)
  cases hpop
  cases hnamed
  exact absurd hread (by decide)

end Mailo.Proto.Pop3
