import Mailo.Proto.Pop3.Backend

/-!
# What one event does to a POP3 session

A session reads lines until one ends the reply in flight. Then it acts once: it writes the next
command, asks for the upgrade, or ends.
-/

namespace Mailo.Proto.Pop3

open Domain Library

variable {rest taken : Bytes} {reply : Pop3Reply} {cmd : Pop3Command} {said text : String}

theorem takeLine_split {buf line : Bytes} (h : takeLine buf = .ok (some (line, rest))) :
    Crlf.split buf = some (line, rest) := by
  unfold takeLine at h
  split at h
  · rename_i hsplit
    split at h
    · cases h
    · cases h
      exact hsplit
  · split at h <;> cases h

theorem takeLine_eq {buf line : Bytes} (h : takeLine buf = .ok (some (line, rest))) :
    buf = line ++ 13 :: 10 :: rest :=
  Crlf.split_eq (takeLine_split h)

/-- Lines taken one after another, none of which ends its reply. -/
inductive Continues : State → Bytes → State → Prop
  | none (state : State) : Continues state [] state
  | line {state after : State} {line rest taken : Bytes} {phase : Phase}
      (take : takeLine state.buf = .ok (some (line, rest)))
      (goes : decide state.phase line = (phase, .continue))
      (more : Continues { state with buf := rest, phase := phase } taken after) :
      Continues state (line ++ 13 :: 10 :: taken) after

variable {state : State} {after phase : Phase}

theorem Continues.buf {after : State} (h : Continues state taken after) :
    state.buf = taken ++ after.buf := by
  induction h with
  | none => rfl
  | line take goes more ih =>
    rw [takeLine_eq take, List.append_assoc]
    exact congrArg _ (congrArg (fun bytes => 13 :: 10 :: bytes) ih)

/-- Reading on changes the buffer and the phase only. -/
theorem Continues.frame {after : State} (h : Continues state taken after) :
    after = { state with buf := after.buf, phase := after.phase } := by
  induction h with
  | none => rfl
  | line take goes more ih =>
    rw [ih]

/-- What an answer that is followed by another command was the answer to. -/
inductive Answer : Phase → Bytes → Pop3Reply → Prop
  | greeting {line : Bytes} {text : String} (status : statusOf line = .ok (.ok text)) :
      Answer .greeting line (.greeting text)
  | single {line : Bytes} {text : String} {cmd : Pop3Command} {reply : Pop3Reply}
      (status : statusOf line = .ok (.ok text)) (read : interpretSingle cmd text = .ok reply)
      (more : cmd ≠ .quit) : Answer (.single cmd) line reply
  | noCapa {line : Bytes} {text : String} (status : statusOf line = .ok (.err text)) :
      Answer (.multiStatus .capa) line (.capaUnsupported (bounded text))
  | multi {line : Bytes} {cmd : Pop3Command} {lines : List Bytes} {held : Nat}
      {reply : Pop3Reply} (dot : line = wire ".") (read : interpretMulti cmd lines = .ok reply) :
      Answer (.multiBody cmd lines held) line reply

/-- All that a line may decide. -/
inductive Decides : Phase → Bytes → Phase × Action → Prop
  | fails {phase : Phase} {line : Bytes} (error : ProtoError) :
      Decides phase line (.closed, .fail error)
  | secures {line : Bytes} : Decides .stls line (.closed, .startTls)
  | begins {cmd : Pop3Command} {line : Bytes} {text : String}
      (status : statusOf line = .ok (.ok text)) :
      Decides (.multiStatus cmd) line (.multiBody cmd [] 0, .continue)
  | grows {cmd : Pop3Command} {lines : List Bytes} {held : Nat} {line : Bytes}
      (more : line ≠ wire ".") : Decides (.multiBody cmd lines held) line
        (.multiBody cmd (lines ++ [unstuff line]) (held + line.length), .continue)
  | quits {line : Bytes} {text : String} (status : statusOf line = .ok (.ok text)) :
      Decides (.single .quit) line (.closed, .done (.quit text))
  | answers {phase : Phase} {line : Bytes} {reply : Pop3Reply} (answer : Answer phase line reply) :
      Decides phase line (.closed, .next reply)

theorem decides (phase : Phase) (line : Bytes) : Decides phase line (decide phase line) := by
  cases phase with
  | greeting =>
    change Decides _ _ (decideGreeting line)
    unfold decideGreeting
    split
    · rename_i htext
      exact .answers (.greeting htext)
    · exact .fails _
    · exact .fails _
  | stls =>
    change Decides _ _ (decideStls line)
    unfold decideStls
    split
    · exact .secures
    · exact .fails _
    · exact .fails _
  | awaitTls => exact .fails _
  | single cmd =>
    change Decides _ _ (decideSingle cmd line)
    unfold decideSingle
    split
    · rename_i htext
      split
      · rename_i hread
        split
        · rename_i hquit
          subst hquit
          cases hread
          exact .quits htext
        · rename_i hquit
          exact .answers (.single htext hread hquit)
      · exact .fails _
    · exact .fails _
    · exact .fails _
  | multiStatus cmd =>
    change Decides _ _ (decideMultiStatus cmd line)
    unfold decideMultiStatus
    split
    · rename_i htext
      exact .begins htext
    · rename_i htext
      split
      · rename_i hcapa
        subst hcapa
        exact .answers (.noCapa htext)
      · exact .fails _
    · exact .fails _
  | multiBody cmd lines held =>
    change Decides _ _ (decideMultiBody cmd lines held line)
    unfold decideMultiBody
    split
    · rename_i hdot
      dsimp only
      split
      · exact .fails _
      · exact .grows hdot
    · rename_i hdot
      split
      · rename_i hread
        exact .answers (.multi (not_not.mp hdot) hread)
      · exact .fails _
  | closed => exact .fails _

/-- Only a reply of several lines goes on. -/
theorem decide_continue {line : Bytes} (h : decide phase line = (after, .continue)) :
    (∃ cmd, phase = .multiStatus cmd ∧ after = .multiBody cmd [] 0 ∧
      ∃ text, statusOf line = .ok (.ok text)) ∨
    ∃ cmd lines held, phase = .multiBody cmd lines held ∧ line ≠ wire "." ∧
      after = .multiBody cmd (lines ++ [unstuff line]) (held + line.length) := by
  have hdecides := decides phase line
  rw [h] at hdecides
  cases hdecides with
  | begins status => exact .inl ⟨_, rfl, rfl, _, status⟩
  | grows more => exact .inr ⟨_, _, _, rfl, more, rfl⟩

/-- The upgrade goes ahead on the answer to `STLS` alone. -/
theorem decide_startTls {line : Bytes} (h : decide phase line = (after, .startTls)) :
    phase = .stls := by
  have hdecides := decides phase line
  rw [h] at hdecides
  cases hdecides with
  | secures => rfl

/-- A session is done on the answer to `QUIT` alone. -/
theorem decide_done {line : Bytes} (h : decide phase line = (after, .done reply)) :
    phase = .single .quit ∧ ∃ text, statusOf line = .ok (.ok text) ∧ reply = .quit text := by
  have hdecides := decides phase line
  rw [h] at hdecides
  cases hdecides with
  | quits status => exact ⟨rfl, _, status, rfl⟩

theorem decide_next {line : Bytes} (h : decide phase line = (after, .next reply)) :
    Answer phase line reply := by
  have hdecides := decides phase line
  rw [h] at hdecides
  cases hdecides with
  | answers answer => exact answer

theorem not_greeting_single :
    interpretSingle cmd text ≠ .ok (.greeting said) := by
  intro h
  cases cmd with
  | stat =>
    change interpretStat text = _ at h
    unfold interpretStat at h
    dsimp only at h
    split at h
    · cases h
    · obtain ⟨octets, _, heq⟩ := map_eq_ok h
      cases heq
  | check number uidl =>
    change checked number uidl text = _ at h
    unfold checked at h
    split at h
    · cases h
    · split at h <;> cases h
  | _ => cases h

theorem not_greeting_multi {lines : List Bytes} :
    interpretMulti cmd lines ≠ .ok (.greeting said) := by
  intro h
  cases cmd with
  | capa | uidl | list =>
    obtain ⟨rows, _, heq⟩ := map_eq_ok h
    cases heq
  | _ => cases h

/-- Only the first line of all is a greeting. -/
theorem Answer.greeted {line : Bytes} (h : Answer phase line (.greeting text)) :
    phase = .greeting := by
  cases h with
  | greeting => rfl
  | single status read more => exact absurd read not_greeting_single
  | multi dot read => exact absurd read not_greeting_multi

namespace State

/-- The state with an event taken in, before any line is read. -/
def told (state : State) : IoReady → State
  | .bytes fed => { state with buf := state.buf ++ fed }
  | .interrupt => { state with windDown := .quitNext }
  | _ => state

@[simp] theorem told_buf (state : State) (ready : IoReady) :
    (state.told ready).buf = state.buf ++ ready.received := by
  cases ready <;> simp [told, IoReady.received]

/-- How reading ends: more bytes are waited for, the session fails, or a line is acted on. -/
inductive Ended (auth : Auth) (state : State) : Step → Prop
  | waits (mid : State) (taken : Bytes) (reads : Continues state taken mid) :
      Ended auth state (mid, .need [.read])
  | fails (after : State) (error : ProtoError) : Ended auth state (after, .failed error)
  | acts (mid : State) (taken line rest : Bytes) (phase : Phase) (action : Action)
      (reads : Continues state taken mid) (take : takeLine mid.buf = .ok (some (line, rest)))
      (decided : decide mid.phase line = (phase, action)) (ends : action ≠ .continue) :
      Ended auth state (({ mid with buf := rest, phase := phase } : State).act auth action)

theorem Ended.line {auth : Auth} {state : State} {line rest : Bytes} {phase : Phase} {result : Step}
    (take : takeLine state.buf = .ok (some (line, rest)))
    (goes : decide state.phase line = (phase, .continue))
    (h : Ended auth { state with buf := rest, phase := phase } result) :
    Ended auth state result := by
  cases h with
  | waits mid taken reads => exact .waits mid _ (.line take goes reads)
  | fails after error => exact .fails after error
  | acts mid taken line' rest' phase' action reads take' decided ends =>
    exact .acts mid _ line' rest' phase' action (.line take goes reads) take' decided ends

variable (auth : Auth)

theorem pumpLines_ended {fuel : Nat} (enough : state.buf.length < fuel) :
    Ended auth state (state.pumpLines auth fuel) := by
  induction fuel generalizing state with
  | zero => omega
  | succ fuel ih =>
    rw [pumpLines]
    cases htake : takeLine state.buf with
    | error error => exact .fails _ error
    | ok found =>
      cases found with
      | none => exact .waits state [] (.none state)
      | some pair =>
        obtain ⟨line, rest⟩ := pair
        dsimp only
        cases hdecided : decide state.phase line with
        | mk phase action =>
          cases action with
          | «continue» =>
            have hlen := congrArg List.length (takeLine_eq htake)
            refine Ended.line htake hdecided (ih ?_)
            simp only [List.length_append, List.length_cons] at hlen
            change rest.length < fuel
            omega
          | next | done | startTls | fail =>
            exact .acts state [] line rest phase _ (.none state) htake hdecided
              (by simp)

theorem pump_ended (state : State) : Ended auth state (state.pump auth) := by
  unfold pump
  split
  · exact .fails _ _
  · exact pumpLines_ended auth (Nat.lt_succ_self _)

theorem onEof_ended (state : State) : Ended auth state (state.onEof auth) := by
  unfold onEof
  have hended := state.pump_ended auth
  cases hpump : state.pump auth with
  | mk after progress =>
    rw [hpump] at hended
    cases progress with
    | need needs =>
      dsimp only
      split
      · exact .fails _ _
      · exact hended
    | done | failed => exact hended

/-- What is queued once an interrupt is taken into account. -/
def queue (state : State) : List Pop3Command :=
  if state.windDown = .quitNext then [.quit] else state.commands

/-- The next command goes out, or there is none and the session is over. -/
theorem dispatchNext_cases (state : State) :
    (state.queue = [] ∧ ∃ after, state.dispatchNext auth = (after, .done state.replies) ∧
      after.buf = state.buf) ∨
    ∃ cmd rest, state.queue = cmd :: rest ∧ state.dispatchNext auth =
      ({ state with commands := rest, phase := awaiting cmd, windDown := .run },
        .need [.write (encode cmd auth), .read]) := by
  unfold dispatchNext queue
  cases hwind : state.windDown with
  | quitNext => exact .inr ⟨.quit, [], rfl, rfl⟩
  | run =>
    simp only [reduceCtorEq, if_false]
    cases hcommands : state.commands with
    | nil => exact .inl ⟨rfl, _, rfl, rfl⟩
    | cons cmd rest =>
      refine .inr ⟨cmd, rest, rfl, ?_⟩
      rw [← hwind]

/-- After an answer the upgrade is asked for, when that was the greeting, or the next command goes
out. -/
theorem act_next (state : State) (reply : Pop3Reply) :
    ((∃ text, reply = .greeting text) ∧ state.starttls.isSome = true ∧
      state.act auth (.next reply) =
        ({ state with replies := state.replies ++ [reply], phase := .stls },
          .need [.write (wire "STLS\r\n"), .read])) ∨
    state.act auth (.next reply) =
      ({ state with replies := state.replies ++ [reply] } : State).dispatchNext auth := by
  cases reply with
  | greeting text =>
    cases htls : state.starttls with
    | none =>
      right
      unfold act
      rw [htls]
      rfl
    | some server =>
      left
      refine ⟨⟨text, rfl⟩, rfl, ?_⟩
      unfold act
      rw [htls]
      rfl
  | _ => exact .inr rfl

/-- One event: the upgrade asked for is open and the next command goes out, or lines are read. -/
theorem step_ended (state : State) (ready : IoReady) :
    (ready = .tlsOpen ∧ state.phase = .awaitTls ∧
      state.step auth ready = ({ state with starttls := none } : State).dispatchNext auth) ∨
    Ended auth (state.told ready) (state.step auth ready) := by
  cases ready with
  | bytes fed => exact .inr (pump_ended auth _)
  | eof => exact .inr (onEof_ended auth state)
  | interrupt | woke => exact .inr (pump_ended auth _)
  | tlsOpen =>
    by_cases hphase : state.phase = .awaitTls
    · left
      refine ⟨rfl, hphase, ?_⟩
      change (if _ then _ else _) = _
      rw [if_pos hphase]
    · right
      change Ended auth state (if _ then _ else _)
      rw [if_neg hphase]
      exact pump_ended auth state

@[simp] theorem dispatchNext_buf (state : State) :
    (state.dispatchNext auth).1.buf = state.buf := by
  rcases state.dispatchNext_cases auth with ⟨_, after, hdone, hbuf⟩ | ⟨cmd, rest, _, hstep⟩
  · rw [hdone]
    exact hbuf
  · rw [hstep]

@[simp] theorem act_buf (state : State) (action : Action) :
    (state.act auth action).1.buf = state.buf := by
  cases action with
  | next reply =>
    rcases act_next auth state reply with ⟨_, _, hact⟩ | hact
    · rw [hact]
    · rw [hact, dispatchNext_buf]
  | startTls =>
    unfold act
    dsimp only
    split
    · rfl
    · split <;> rfl
  | _ => rfl

end State

def inFlight : Phase → Option Pop3Command
  | .single cmd | .multiStatus cmd | .multiBody cmd _ _ => some cmd
  | _ => none

theorem inFlight_awaiting (cmd : Pop3Command) : inFlight (awaiting cmd) = some cmd := by
  unfold awaiting
  split <;> rfl

/-- The turns after one event: the upgrade, the bytes taken, and what is written. -/
def turned (state : State) (auth : Auth) (needs : List IoNeed) (ready : IoReady)
    (turns : List Turn) : List Turn :=
  let after := state.step auth ready
  let fed := state.buf ++ ready.received
  Talk.speak after.2.needs
    (Talk.hear (fed.take (fed.length - after.1.buf.length)) (Talk.secure needs ready turns))

/-- What one event comes to, with the turns after it. -/
inductive Turned (auth : Auth) (state : State) (needs : List IoNeed) (ready : IoReady)
    (turns : List Turn) : Step → List Turn → Prop
  | opened (phase : state.phase = .awaitTls) :
      Turned auth state needs ready turns
        (({ state with starttls := none } : State).dispatchNext auth)
        (Talk.speak (({ state with starttls := none } : State).dispatchNext auth).2.needs
          (Talk.secure needs ready turns))
  | waits (mid : State) (taken : Bytes) (reads : Continues (state.told ready) taken mid) :
      Turned auth state needs ready turns (mid, .need [.read])
        (Talk.hear taken (Talk.secure needs ready turns))
  | fails (after : State) (error : ProtoError) (heard : Bytes) :
      Turned auth state needs ready turns (after, .failed error)
        (Talk.hear heard (Talk.secure needs ready turns))
  | acts (mid : State) (taken line rest : Bytes) (phase : Phase) (action : Action)
      (reads : Continues (state.told ready) taken mid)
      (take : takeLine mid.buf = .ok (some (line, rest)))
      (decided : decide mid.phase line = (phase, action)) (ends : action ≠ .continue) :
      Turned auth state needs ready turns
        (({ mid with buf := rest, phase := phase } : State).act auth action)
        (Talk.speak (({ mid with buf := rest, phase := phase } : State).act auth action).2.needs
          (Talk.hear (taken ++ (line ++ [13, 10])) (Talk.secure needs ready turns)))

theorem turned_cases (auth : Auth) (state : State) (needs : List IoNeed) (ready : IoReady)
    {turns : List Turn} (begun : turns ≠ []) :
    Turned auth state needs ready turns (state.step auth ready)
      (turned state auth needs ready turns) := by
  have htold : state.buf ++ ready.received = (state.told ready).buf := by simp
  rcases state.step_ended auth ready with ⟨hready, hphase, hstep⟩ | hended
  · unfold turned
    rw [hstep, hready]
    have hturned : Turned auth state needs .tlsOpen turns _ _ := Turned.opened hphase
    simpa [IoReady.received, Talk.hear_nil (Talk.secure_ne_nil begun needs _)] using hturned
  · unfold turned
    rw [htold]
    generalize state.step auth ready = result at hended
    cases hended with
    | waits mid taken reads =>
      dsimp only [Progress.needs]
      rw [Talk.taken_eq reads.buf, Talk.speak_read]
      exact .waits mid taken reads
    | fails after error =>
      exact .fails after error _
    | acts mid taken line rest phase action reads take decided ends =>
      have hbuf : (state.told ready).buf = (taken ++ (line ++ [13, 10])) ++ rest := by
        rw [reads.buf, takeLine_eq take]
        simp
      dsimp only
      rw [State.act_buf, Talk.taken_eq hbuf]
      exact .acts mid taken line rest phase action reads take decided ends

/-- A backend under way takes the turns its session takes. -/
theorem next_session {auth : Auth} {talk : Talk Backend Outcome} {needs : List IoNeed}
    (progress : talk.progress = .need needs) (session : talk.state.session = some ⟨auth, state⟩)
    (ready : IoReady) :
    ∃ after : Backend, talk.next Backend.machine ready =
        ⟨after, talk.state.report (state.step auth ready).2,
          turned state auth needs ready talk.turns⟩ ∧
      after.session = some ⟨auth, (state.step auth ready).1⟩ ∧
      after.build = talk.state.build ∧
      ((talk.state.report (state.step auth ready).2).isNeed = true →
        after.job = talk.state.job) := by
  obtain ⟨hreport, hsession, hbuild, hjob⟩ := Backend.feed_session session ready
  have hbefore : Backend.machine.unread talk.state = state.buf := by
    change Backend.unread talk.state = _
    rw [Backend.unread, session]
    rfl
  have hafter : Backend.machine.unread (talk.state.feed ready).1 =
      (state.step auth ready).1.buf := by
    change Backend.unread _ = _
    rw [Backend.unread, hsession]
    rfl
  refine ⟨(talk.state.feed ready).1, ?_, hsession, hbuild, hjob⟩
  have hfed : Backend.machine.feed talk.state ready =
      ((talk.state.feed ready).1, talk.state.report (state.step auth ready).2) := by
    rw [← hreport]
    rfl
  rw [Talk.next_need progress hfed, hbefore, hafter, Backend.needs_report]
  rfl

end Mailo.Proto.Pop3
