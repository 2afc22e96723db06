import Mailo.Proto.Pop3.Conversed

/-!
# Every command has its reply

A server greets, agrees to the upgrade where one is asked for, and answers each command in turn.
What it sends a message as is read back as that message.
-/

namespace Mailo.Proto.Pop3

open Domain Library
open Library.Dotted (stuff stuff_ne_dot)

/-! ## What a reply ends in -/

theorem readReply_last {phase : Phase} {lines : List Bytes} (h : Awaits phase lines) :
    ∃ last line, readReply phase lines = decide last line ∧ (decide last line).2 ≠ .continue ∧
      (last = phase ∨ ∃ cmd before held, last = .multiBody cmd before held) := by
  induction lines generalizing phase with
  | nil => exact absurd rfl h.ne_nil
  | cons line lines ih =>
    by_cases hgoes : (decide phase line).2 = .continue
    · rw [readReply_goes hgoes]
      obtain ⟨last, final, hread, hends, hlast⟩ := ih (h.rest hgoes)
      refine ⟨last, final, hread, hends, .inr ?_⟩
      rcases hlast with rfl | hlast
      · rcases decide_continue (Prod.ext rfl hgoes :
          decide phase line = ((decide phase line).1, .continue))
          with ⟨cmd, _, hafter, _⟩ | ⟨cmd, before, held, _, _, hafter⟩
        · exact ⟨cmd, [], 0, hafter⟩
        · exact ⟨cmd, _, _, hafter⟩
      · exact hlast
    · exact ⟨phase, line, readReply_ends hgoes, hgoes, .inl rfl⟩

theorem awaiting_cases (cmd : Pop3Command) :
    (shape cmd = .single ∧ awaiting cmd = .single cmd) ∨
      (shape cmd = .multi ∧ awaiting cmd = .multiStatus cmd) := by
  unfold awaiting
  cases hshape : shape cmd with
  | single => exact .inl ⟨rfl, rfl⟩
  | multi => exact .inr ⟨rfl, rfl⟩

theorem decideSingle_ends (cmd : Pop3Command) (line : Bytes) :
    (decideSingle cmd line).2 ≠ .continue := by
  unfold decideSingle
  split
  · split
    · dsimp only
      split <;> exact Action.noConfusion
    · exact Action.noConfusion
  · exact Action.noConfusion
  · exact Action.noConfusion

/-- Under a status line, the lines of a body go on to the dot, or are too many to be held. -/
theorem awaits_body (cmd : Pop3Command) (before body : List Bytes) (held : Nat) :
    Awaits (.multiBody cmd before held) (body.map stuff ++ [[46]]) := by
  induction body generalizing before held with
  | nil =>
    change (decideMultiBody cmd before held [46]).2 ≠ .continue
    unfold decideMultiBody
    rw [wire_dot, if_neg (not_not.mpr rfl)]
    split <;> exact Action.noConfusion
  | cons line body ih =>
    have hdecide : decide (.multiBody cmd before held) (stuff line) =
        decideMultiBody cmd before held (stuff line) := rfl
    have hrest := ih (before ++ [line]) (held + (stuff line).length)
    obtain ⟨next, rest, hnext⟩ := List.exists_cons_of_ne_nil
      (List.append_ne_nil_of_right_ne_nil (body.map stuff) (List.cons_ne_nil ([46] : Bytes) []))
    rw [List.map_cons, List.cons_append, hnext, Awaits, hdecide]
    rw [hnext] at hrest
    unfold decideMultiBody
    rw [wire_dot, if_pos (stuff_ne_dot line), unstuff_stuff]
    dsimp only
    split
    · exact .inr ⟨_, rfl⟩
    · exact .inl ⟨rfl, hrest⟩

variable {cmd : Pop3Command} {auth : Auth} {commands : List Pop3Command} {replies : List Sent}

/-- A reply of a command's shape is the one it waits for. -/
theorem Completes.awaits {reply : Sent} (h : Completes (shape cmd) reply) :
    Awaits (awaiting cmd) reply.wired := by
  rcases awaiting_cases cmd with ⟨hshape, hphase⟩ | ⟨hshape, hphase⟩
  · rw [hshape] at h
    rw [hphase]
    cases reply with
    | line text => exact decideSingle_ends cmd text
    | lines status body => exact h.elim
  · rw [hshape] at h
    rw [hphase]
    cases reply with
    | line text =>
      change (decideMultiStatus cmd text).2 ≠ .continue
      unfold decideMultiStatus
      split
      · rename_i said hsaid
        exact absurd hsaid (h said)
      · split <;> exact Action.noConfusion
      · exact Action.noConfusion
    | lines status body =>
      have hbody := awaits_body cmd [] body 0
      obtain ⟨next, rest, hnext⟩ := List.exists_cons_of_ne_nil hbody.ne_nil
      have hdecide : decide (.multiStatus cmd) status = decideMultiStatus cmd status := rfl
      rw [Sent.wired, hnext, Awaits, hdecide]
      rw [hnext] at hbody
      unfold decideMultiStatus
      split
      · exact .inl ⟨rfl, hbody⟩
      · rename_i said hsaid
        exact absurd hsaid (h said)
      · exact .inr ⟨_, rfl⟩

theorem awaiting_ne_greeting (cmd : Pop3Command) : awaiting cmd ≠ .greeting := by
  unfold awaiting
  split <;> exact Phase.noConfusion

theorem awaiting_ne_stls (cmd : Pop3Command) : awaiting cmd ≠ .stls := by
  unfold awaiting
  split <;> exact Phase.noConfusion

theorem awaiting_ne_closed (cmd : Pop3Command) : awaiting cmd ≠ .closed := by
  unfold awaiting
  split <;> exact Phase.noConfusion

/-- What the reply to a command comes to: the session fails, ends with `QUIT`, or goes on to the
next command with the reply kept. -/
inductive Replied (auth : Auth) (state : State) (cmd : Pop3Command) (lines : List Bytes) : Step → Prop
  | failed (after : State) (error : ProtoError) : Replied auth state cmd lines (after, .failed error)
  | done (after : State) (reply : Pop3Reply) (quit : cmd = .quit) :
      Replied auth state cmd lines (after, .done (state.replies ++ [reply]))
  | next (phase : Phase) (reply : Pop3Reply) (read : (readReply state.phase lines).2 = .next reply) :
      Replied auth state cmd lines (State.dispatchNext
        { state with buf := [], phase := phase, replies := state.replies ++ [reply] } auth)

theorem readLines_replied {auth : Auth} {state : State} {cmd : Pop3Command} {lines : List Bytes}
    (hphase : state.phase = awaiting cmd) (hawaits : Awaits state.phase lines) :
    Replied auth state cmd lines (state.readLines auth lines) := by
  obtain ⟨last, line, hread, hends, hlast⟩ := readReply_last hawaits
  have hstls : last ≠ .stls := by
    rcases hlast with rfl | ⟨_, _, _, rfl⟩
    · exact hphase ▸ awaiting_ne_stls cmd
    · exact Phase.noConfusion
  have hgreeting : last ≠ .greeting := by
    rcases hlast with rfl | ⟨_, _, _, rfl⟩
    · exact hphase ▸ awaiting_ne_greeting cmd
    · exact Phase.noConfusion
  unfold State.readLines
  rw [hread]
  cases hdecide : decide last line with
  | mk after action =>
    rw [hdecide] at hread hends
    cases action with
    | «continue» => exact absurd rfl hends
    | fail error => exact .failed _ error
    | startTls => exact absurd (decide_startTls hdecide) hstls
    | done reply =>
      refine .done _ reply ?_
      have hquit := (decide_done hdecide).1
      rcases hlast with rfl | ⟨_, _, _, rfl⟩
      · rw [hphase] at hquit
        rcases awaiting_cases cmd with ⟨_, hsingle⟩ | ⟨_, hmulti⟩
        · rw [hsingle] at hquit
          exact Phase.single.inj hquit
        · rw [hmulti] at hquit
          cases hquit
      · cases hquit
    | next reply =>
      have hanswer := decide_next hdecide
      rcases State.act_next auth { state with buf := [], phase := after } reply with
        ⟨⟨text, rfl⟩, _, _⟩ | hact
      · exact absurd hanswer.greeted hgreeting
      · dsimp only
        rw [hact]
        exact .next after reply (by rw [hread])

variable {body : List Bytes} {reply : Pop3Reply} {state : State} {after did : List Did}
  {out : List Pop3Reply} {text : Bytes}

/-- The reply to `RETR` is the lines of its body as they were before they were stuffed. -/
theorem readReply_body {before : List Bytes} {held : Nat}
    (h : (readReply (.multiBody cmd before held) (body.map stuff ++ [[46]])).2 = .next reply) :
    interpretMulti cmd (before ++ body) = .ok reply := by
  induction body generalizing before held with
  | nil =>
    have hends : (decide (.multiBody cmd before held) [46]).2 ≠ .continue :=
      awaits_body cmd before [] held
    rw [List.map_nil, List.nil_append, readReply_ends hends] at h
    change (decideMultiBody cmd before held [46]).2 = _ at h
    unfold decideMultiBody at h
    rw [wire_dot, if_neg (not_not.mpr rfl)] at h
    rw [List.append_nil]
    split at h
    · rename_i found hfound
      rw [hfound, Action.next.inj h]
    · cases h
  | cons line body ih =>
    rw [List.map_cons, List.cons_append] at h
    by_cases hgoes : (decide (.multiBody cmd before held) (stuff line)).2 = .continue
    · rw [readReply_goes hgoes] at h
      change (readReply (decideMultiBody cmd before held (stuff line)).1 _).2 = _ at h
      change (decideMultiBody cmd before held (stuff line)).2 = _ at hgoes
      unfold decideMultiBody at h hgoes
      rw [wire_dot, if_pos (stuff_ne_dot line), unstuff_stuff] at h hgoes
      dsimp only at h hgoes
      split at hgoes
      · cases hgoes
      · rename_i hfits
        rw [if_neg hfits] at h
        have hbody := ih h
        rwa [List.append_assoc, List.singleton_append] at hbody
    · rw [readReply_ends hgoes] at h
      exfalso
      apply hgoes
      change (decideMultiBody cmd before held (stuff line)).2 = _ at h ⊢
      unfold decideMultiBody at h ⊢
      rw [wire_dot, if_pos (stuff_ne_dot line)] at h ⊢
      dsimp only at h ⊢
      split at h
      · cases h
      · rename_i hfits
        rw [if_neg hfits]

theorem readReply_retr {number : UInt32} {status : Bytes}
    (hcompletes : Completes (shape (.retr number)) (.lines status body))
    (h : (readReply (awaiting (.retr number)) (Sent.wired (.lines status body))).2 = .next reply) :
    reply = .retrieved (joinLines body) := by
  change (readReply (.multiStatus (.retr number)) (status :: (body.map stuff ++ [[46]]))).2 = _ at h
  by_cases hgoes : (decide (.multiStatus (.retr number)) status).2 = .continue
  · rw [readReply_goes hgoes] at h
    rcases decide_continue (Prod.ext rfl hgoes : decide (.multiStatus (.retr number)) status =
      ((decide (.multiStatus (.retr number)) status).1, .continue))
      with ⟨cmd, hcmd, hafter, _⟩ | ⟨cmd, before, held, hbody, _, _⟩
    · cases hcmd
      rw [hafter] at h
      have hread := readReply_body h
      exact (Except.ok.inj hread).symm
    · cases hbody
  · rw [readReply_ends hgoes] at h
    change (decideMultiStatus (.retr number) status).2 = _ at h
    unfold decideMultiStatus at h
    split at h
    · cases h
    · rename_i said hsaid
      exact absurd hsaid (hcompletes said)
    · cases h

/-! ## The commands of a session -/

/-- Each command has a reply of its shape. -/
abbrev Answers (commands : List Pop3Command) (replies : List Sent) : Prop :=
  List.Forall₂ (fun cmd reply => Completes (shape cmd) reply) commands replies

theorem dispatchNext_nil {auth : Auth} {state : State} (hcommands : state.commands = [])
    (hwind : state.windDown = .run) :
    ∃ after, state.dispatchNext auth = (after, .done state.replies) := by
  have hqueue : state.queue = [] := by
    rw [State.queue, if_neg (by rw [hwind]; exact WindDown.noConfusion), hcommands]
  rcases state.dispatchNext_cases auth with ⟨_, after, hdone, _⟩ | ⟨cmd, rest, hcons, _⟩
  · exact ⟨after, hdone⟩
  · rw [hqueue] at hcons
    cases hcons

theorem dispatchNext_cons {rest : List Pop3Command} (hcommands : state.commands = cmd :: rest)
    (hwind : state.windDown = .run) :
    state.dispatchNext auth =
      ({ state with commands := rest, phase := awaiting cmd },
        .need [.write (encode cmd auth), .read]) := by
  have hqueue : state.queue = cmd :: rest := by
    rw [State.queue, if_neg (by rw [hwind]; exact WindDown.noConfusion), hcommands]
  rcases state.dispatchNext_cases auth with ⟨hnil, _, _, _⟩ | ⟨first, more, hcons, hstep⟩
  · rw [hqueue] at hnil
    cases hnil
  · rw [hqueue] at hcons
    cases hcons
    rw [hstep, ← hwind]

theorem suits_dispatch (h : Answers commands replies) (hcommands : state.commands = commands)
    (hbuf : state.buf = []) (hwind : state.windDown = .run) {after : State} {needs : List IoNeed}
    (hstep : state.dispatchNext auth = (after, .need needs)) :
    Suits auth after (replies.map some) := by
  induction h generalizing state after needs with
  | nil => trivial
  | @cons cmd reply commands replies hreply _ ih =>
    rw [dispatchNext_cons hcommands hwind] at hstep
    obtain ⟨rfl, _⟩ := Prod.mk.inj hstep
    refine ⟨hbuf, awaiting_ne_closed cmd, hreply.awaits, ?_⟩
    intro after needs hread
    have hreplied := @readLines_replied auth
      { state with commands := commands, phase := awaiting cmd } cmd _ rfl hreply.awaits
    rw [hread] at hreplied
    generalize hresult : (after, Progress.need needs) = result at hreplied
    cases hreplied with
    | failed | done => cases hresult
    | next phase said _ =>
      refine ih ?_ ?_ ?_ hresult.symm
      · rfl
      · rfl
      · exact hwind

theorem serve_done (state : State) (out : List Pop3Reply) (did : List Did)
    (script : List (Option Sent)) :
    serve auth (state, .done out) did script = (did, .done out) := by
  cases script <;> rfl

theorem serve_failed (state : State) (error : ProtoError) (did : List Did)
    (script : List (Option Sent)) :
    serve auth (state, .failed error) did script = (did, .failed error) := by
  cases script <;> rfl

def Retrieves (commands : List Pop3Command) (replies : List Sent) (kept : List Pop3Reply) : Prop :=
  ∀ i number status body, commands[i]? = some (.retr number) →
    replies[i]? = some (.lines status body) → i < kept.length →
      kept[i]? = some (.retrieved (joinLines body))

theorem serve_dispatch {auth : Auth} {commands : List Pop3Command} {replies : List Sent}
    (h : Answers commands replies) {state : State} (hcommands : state.commands = commands)
    (hwind : state.windDown = .run) {did after : List Did} {out : List Pop3Reply}
    (hserve : serve auth (state.dispatchNext auth) did (replies.map some) = (after, .done out)) :
    ∃ kept, out = state.replies ++ kept ∧ Retrieves commands replies kept := by
  induction h generalizing state did after out with
  | nil =>
    obtain ⟨_, hdone⟩ := @dispatchNext_nil auth state hcommands hwind
    rw [hdone, serve_done] at hserve
    obtain ⟨_, hout⟩ := Prod.mk.inj hserve
    refine ⟨[], ?_, ?_⟩
    · rw [List.append_nil, Progress.done.inj hout]
    · intro i number status body _ _ hlt
      exact absurd hlt (Nat.not_lt_zero _)
  | @cons cmd reply commands replies hreply _ ih =>
    rw [dispatchNext_cons hcommands hwind, List.map_cons, serve] at hserve
    have hreplied := @readLines_replied auth
      { state with commands := commands, phase := awaiting cmd } cmd _ rfl hreply.awaits
    generalize State.readLines { state with commands := commands, phase := awaiting cmd } auth
      reply.wired = step at hserve hreplied
    cases hreplied with
    | failed _ error =>
      rw [serve_failed] at hserve
      cases hserve
    | done _ said hquit =>
      rw [serve_done] at hserve
      obtain ⟨_, hout⟩ := Prod.mk.inj hserve
      refine ⟨[said], (Progress.done.inj hout).symm, ?_⟩
      intro i number status body hcmd _ hlt
      obtain rfl : i = 0 := by
        rw [List.length_singleton] at hlt
        omega
      rw [hquit] at hcmd
      cases hcmd
    | next phase said hread =>
      obtain ⟨kept, hout, hkept⟩ := @ih { state with
        commands := commands, phase := phase, buf := [],
        replies := state.replies ++ [said] } rfl hwind _ _ _ hserve
      refine ⟨said :: kept, ?_, ?_⟩
      · rw [hout, List.append_assoc, List.singleton_append]
      · intro i number status body hcmd hsent hlt
        cases i with
        | zero =>
          cases hcmd
          cases hsent
          rw [readReply_retr hreply hread]
          rfl
        | succ i =>
          rw [List.length_cons] at hlt
          exact hkept i number status body hcmd hsent (by omega)

/-! ## A whole session -/

/-- What is said in a session, in order. -/
def script (greeting : Sent) (upgrade : Option (String × Nat × Sent)) (replies : List Sent) :
    List (Option Sent) :=
  match upgrade with
  | none => some greeting :: replies.map some
  | some (_, _, reply) => some greeting :: some reply :: none :: replies.map some

/-- A session and complete replies for it: a greeting, one to the upgrade where there is one, and
one for each command. -/
structure Conversation where
  username : String
  password : String
  commands : List Pop3Command
  base : Session
  opens : Session.new username password commands = .ok base
  greeting : Sent
  upgrade : Option (String × Nat × Sent)
  replies : List Sent
  greets : Completes .single greeting
  agrees : ∀ host port reply, upgrade = some (host, port, reply) → Completes .single reply
  answers : Answers commands replies
  fits : ∀ reply, some reply ∈ script greeting upgrade replies → ∀ line ∈ reply.wired, Fits line

namespace Conversation

def session (c : Conversation) : Session :=
  match c.upgrade with
  | none => c.base
  | some (host, port, _) => c.base.withStarttls host port

def script (c : Conversation) : List (Option Sent) := Pop3.script c.greeting c.upgrade c.replies

def run (c : Conversation) (events : List IoReady) : Talker :=
  (Talk.begin c.session c.session.start.2).run Session.machine events

theorem base_eq (c : Conversation) :
    c.base = ⟨⟨c.username, c.password⟩, ⟨c.commands, .greeting, [], [], .run, none⟩⟩ := by
  have hopens := c.opens
  unfold Session.new at hopens
  split at hopens
  · cases hopens
  · split at hopens
    · cases hopens
    · exact (Except.ok.inj hopens).symm

end Conversation

/-- The state a session begins in. -/
def begun (commands : List Pop3Command) (starttls : Option (String × Nat)) : State :=
  ⟨commands, .greeting, [], [], .run, starttls⟩

theorem readLines_greeting {auth : Auth} {commands : List Pop3Command}
    {starttls : Option (String × Nat)} (text : Bytes) :
    (∃ after error, (begun commands starttls).readLines auth [text] = (after, .failed error)) ∨
      ∃ said, (begun commands starttls).readLines auth [text] =
        State.act ⟨commands, .closed, [], [], .run, starttls⟩ auth (.next (.greeting said)) := by
  have hdecide : decide .greeting text = decideGreeting text := rfl
  have hends : (decide .greeting text).2 ≠ .continue := by
    rw [hdecide]
    unfold decideGreeting
    split <;> exact Action.noConfusion
  have hread : readReply (begun commands starttls).phase [text] = decideGreeting text :=
    readReply_ends hends
  unfold State.readLines
  rw [hread]
  unfold decideGreeting
  split
  · rename_i said _
    exact .inr ⟨said, rfl⟩
  · exact .inl ⟨_, _, rfl⟩
  · exact .inl ⟨_, _, rfl⟩

theorem readLines_stls {auth : Auth} {state : State} {host : String} {port : Nat}
    (hphase : state.phase = .stls) (hserver : state.starttls = some (host, port)) (text : Bytes) :
    (∃ after error, state.readLines auth [text] = (after, .failed error)) ∨
      state.readLines auth [text] = ({ state with buf := [], phase := .awaitTls },
        .need [.openTls host port .startTlsRequired]) := by
  have hdecide : decide .stls text = decideStls text := rfl
  have hends : (decide .stls text).2 ≠ .continue := by
    rw [hdecide]
    unfold decideStls
    split <;> exact Action.noConfusion
  have hread : readReply state.phase [text] = decideStls text := by
    rw [hphase]
    exact readReply_ends hends
  unfold State.readLines
  rw [hread]
  unfold decideStls
  split
  · right
    unfold State.act
    rw [hserver]
    rfl
  · exact .inl ⟨_, _, rfl⟩
  · exact .inl ⟨_, _, rfl⟩

theorem awaits_greeting (text : Bytes) : Awaits .greeting [text] := by
  change (decideGreeting text).2 ≠ .continue
  unfold decideGreeting
  split <;> exact Action.noConfusion

theorem awaits_stls (text : Bytes) : Awaits .stls [text] := by
  change (decideStls text).2 ≠ .continue
  unfold decideStls
  split <;> exact Action.noConfusion

theorem Completes.line {reply : Sent} (h : Completes .single reply) :
    ∃ text, reply = .line text := by
  cases reply with
  | line text => exact ⟨text, rfl⟩
  | lines status body => exact h.elim

theorem suits_plain (h : Answers commands replies) (text : Bytes) :
    Suits auth (begun commands none) (some (.line text) :: replies.map some) := by
  refine ⟨rfl, Phase.noConfusion, awaits_greeting text, ?_⟩
  intro after needs hread
  rcases @readLines_greeting auth commands none text with ⟨_, _, hfailed⟩ | ⟨said, hsaid⟩
  · rw [Sent.wired, hfailed] at hread
    cases hread
  · rw [Sent.wired, hsaid] at hread
    exact suits_dispatch h rfl rfl rfl hread

theorem suits_upgraded (h : Answers commands replies) (host : String) (port : Nat)
    (text answer : Bytes) :
    Suits auth (begun commands (some (host, port)))
      (some (.line text) :: some (.line answer) :: none :: replies.map some) := by
  refine ⟨rfl, Phase.noConfusion, awaits_greeting text, ?_⟩
  intro after needs hread
  rcases @readLines_greeting auth commands (some (host, port)) text
    with ⟨_, _, hfailed⟩ | ⟨said, hsaid⟩
  · rw [Sent.wired, hfailed] at hread
    cases hread
  · rw [Sent.wired, hsaid] at hread
    obtain ⟨rfl, _⟩ := Prod.mk.inj hread
    refine ⟨rfl, Phase.noConfusion, awaits_stls answer, ?_⟩
    intro after needs hread
    rcases @readLines_stls auth
      ⟨commands, .stls, [], [.greeting said], .run, some (host, port)⟩ _ _ rfl rfl answer with ⟨_, _, hfailed⟩ | hagreed
    · exact absurd (hread.symm.trans hfailed) (by simp)
    · obtain ⟨rfl, _⟩ := Prod.mk.inj (hread.symm.trans hagreed)
      intro after needs hopened
      exact suits_dispatch h rfl rfl rfl hopened

theorem serve_plain (h : Answers commands replies)
    (hserve : serve auth (begun commands none, .need [.read]) did
      (some (.line text) :: replies.map some) = (after, .done out)) :
    ∃ greeting kept, out = greeting :: kept ∧ Retrieves commands replies kept := by
  rw [serve, Sent.wired] at hserve
  rcases @readLines_greeting auth commands none text with ⟨_, _, hfailed⟩ | ⟨said, hsaid⟩
  · rw [hfailed, serve_failed] at hserve
    cases hserve
  · rw [hsaid] at hserve
    obtain ⟨kept, hout, hkept⟩ := @serve_dispatch auth commands replies h
      ⟨commands, .closed, [], [.greeting said], .run, none⟩ rfl rfl _ _ _ hserve
    exact ⟨.greeting said, kept, hout, hkept⟩

theorem serve_upgraded (h : Answers commands replies) {host : String} {port : Nat} {answer : Bytes}
    (hserve : serve auth (begun commands (some (host, port)), .need [.read]) did
      (some (.line text) :: some (.line answer) :: none :: replies.map some) = (after, .done out)) :
    ∃ greeting kept, out = greeting :: kept ∧ Retrieves commands replies kept := by
  rw [serve, Sent.wired] at hserve
  rcases @readLines_greeting auth commands (some (host, port)) text
    with ⟨_, _, hfailed⟩ | ⟨said, hsaid⟩
  · rw [hfailed, serve_failed] at hserve
    cases hserve
  · rw [hsaid] at hserve
    change serve auth (⟨commands, .stls, [], [.greeting said], .run, some (host, port)⟩, .need _) _
      _ = _ at hserve
    rw [serve, Sent.wired] at hserve
    rcases @readLines_stls auth
      ⟨commands, .stls, [], [.greeting said], .run, some (host, port)⟩ _ _ rfl rfl answer with ⟨_, _, hfailed⟩ | hagreed
    · rw [hfailed, serve_failed] at hserve
      cases hserve
    · rw [hagreed, serve] at hserve
      obtain ⟨kept, hout, hkept⟩ := @serve_dispatch auth commands replies h
        ⟨commands, .awaitTls, [], [.greeting said], .run, none⟩ rfl rfl _ _ _ hserve
      exact ⟨.greeting said, kept, hout, hkept⟩

namespace Conversation

/-- The state a conversation begins in, and the replies that suit it. -/
theorem begins (c : Conversation) : ∃ starttls,
    c.session.state = begun c.commands starttls ∧ Suits c.session.auth c.session.state c.script ∧
      ∀ did after out, serve c.session.auth (c.session.state, .need [.read]) did c.script =
        (after, .done out) → ∃ greeting kept, out = greeting :: kept ∧
          Retrieves c.commands c.replies kept := by
  have hanswers := c.answers
  obtain ⟨text, htext⟩ := c.greets.line
  cases hupgrade : c.upgrade with
  | none =>
    have hstate : c.session.state = begun c.commands none := by
      rw [Conversation.session, hupgrade, c.base_eq]
      rfl
    have hscript : c.script = some (.line text) :: c.replies.map some := by
      rw [Conversation.script, hupgrade, htext]
      rfl
    rw [hscript, hstate]
    exact ⟨none, rfl, suits_plain hanswers text, fun did after out hserve =>
      serve_plain hanswers hserve⟩
  | some upgrade =>
    obtain ⟨host, port, reply⟩ := upgrade
    obtain ⟨answer, rfl⟩ := (c.agrees host port reply hupgrade).line
    have hstate : c.session.state = begun c.commands (some (host, port)) := by
      rw [Conversation.session, hupgrade, c.base_eq]
      rfl
    have hscript : c.script =
        some (.line text) :: some (.line answer) :: none :: c.replies.map some := by
      rw [Conversation.script, hupgrade, htext]
      rfl
    rw [hscript, hstate]
    exact ⟨some (host, port), rfl, suits_upgraded hanswers host port text answer,
      fun did after out hserve => serve_upgraded hanswers hserve⟩

theorem run_eq (c : Conversation) {events : List IoReady} (h : Delivers CutClear c.script events) :
    (dids (c.run events), (c.run events).progress) =
      serve c.session.auth (c.session.state, .need [.read]) [.listened] c.script := by
  obtain ⟨_, _, hsuits, _⟩ := c.begins
  have hafter : After c.session.auth [.listened] (c.session.state, .need [.read])
      (Talk.begin c.session c.session.start.2) := ⟨rfl, rfl, fun _ => rfl, List.cons_ne_nil _ _⟩
  exact run_delivers h c.fits hafter (fun _ => hsuits)

/-- Cut between the CR and the LF of no line as long as a line may be, the replies come to what
they come to whole: the same commands and the same replies kept, each message as it was sent. -/
theorem cut_replies (c : Conversation) {events : List IoReady}
    (h : Delivers (fun reply pieces => Cut reply pieces ∧ ¬ CutAtBound reply.wired pieces)
      c.script events) :
    dids (c.run events) = dids (c.run (wholes c.script)) ∧
    (c.run events).progress = (c.run (wholes c.script)).progress ∧
    ∀ out, (c.run events).progress = .done out →
      ∀ i number status body, c.commands[i]? = some (.retr number) →
        c.replies[i]? = some (.lines status body) → i + 1 < out.length →
          out[i + 1]? = some (.retrieved (joinLines body)) := by
  have hcut := c.run_eq h
  have hwhole := c.run_eq (delivers_wholes c.script)
  obtain ⟨hdid, hprogress⟩ := Prod.mk.inj (hcut.trans hwhole.symm)
  refine ⟨hdid, hprogress, ?_⟩
  intro out hout i number status body hcmd hsent hlt
  obtain ⟨_, _, _, hserve⟩ := c.begins
  rw [hout] at hcut
  obtain ⟨greeting, kept, rfl, hkept⟩ := hserve _ _ _ hcut.symm
  rw [List.length_cons] at hlt
  exact hkept i number status body hcmd hsent (by omega)

/-- A message of one line that begins with a dot. -/
def dotLine : Conversation where
  username := "u"
  password := "p"
  commands := [.retr 1]
  base := ⟨⟨"u", "p"⟩, ⟨[.retr 1], .greeting, [], [], .run, none⟩⟩
  opens := by decide
  greeting := .line (wire "+OK")
  upgrade := none
  replies := [.lines (wire "+OK") [wire ".a"]]
  greets := trivial
  agrees := fun _ _ _ h => by cases h
  answers := .cons (fun said h => by cases h) .nil
  fits := by
    intro reply h line hline
    have hall : ∀ line ∈ [wire "+OK", wire "+OK", stuff (wire ".a"), [46]],
        Crlf.split line = none ∧ line.length ≤ 4 := by decide
    have hmem : line ∈ [wire "+OK", wire "+OK", stuff (wire ".a"), [46]] := by
      simp only [Pop3.script, List.map_cons, List.map_nil, List.mem_cons, List.not_mem_nil,
        or_false, Option.some.injEq] at h
      rcases h with rfl | rfl
      · exact List.mem_of_mem_take (i := 1) hline
      · exact .tail _ hline
    obtain ⟨hwhole, hshort⟩ := hall line hmem
    exact ⟨hwhole, hshort.trans (by decide)⟩

theorem not_cutAtBound {reply : Sent} (h : ∀ line ∈ reply.wired, line.length < maxLineBytes)
    (pieces : List Bytes) : ¬ CutAtBound reply.wired pieces := by
  rintro ⟨before, line, after, _, _, hlines, hlong, _⟩
  have hshort := h line (hlines ▸ List.mem_append_right _ (.head _))
  omega

/-- The line comes in three pieces, the greeting in two. -/
theorem dotLine_retrieved :
    (dotLine.run [.bytes (wire "+OK\r"), .bytes [10], .bytes (wire "+O"),
        .bytes (wire "K\r\n..a\r\n."), .bytes (wire "\r\n")]).progress =
      .done [.greeting "", .retrieved (wire ".a\r\n")] := by
  have hdelivers : Delivers (fun reply pieces => Cut reply pieces ∧ ¬ CutAtBound reply.wired pieces)
      dotLine.script ([wire "+OK\r", [10]].map IoReady.bytes ++
        ([wire "+O", wire "K\r\n..a\r\n.", wire "\r\n"].map IoReady.bytes ++ [])) := by
    refine .reply ⟨⟨by decide, by decide⟩, not_cutAtBound ?_ _⟩
      (.reply ⟨⟨by decide, by decide⟩, not_cutAtBound ?_ _⟩ .none)
    · decide
    · decide
  have hwhole : (dotLine.run (wholes dotLine.script)).progress =
      .done [.greeting "", .retrieved (wire ".a\r\n")] := by decide +kernel
  exact (dotLine.cut_replies hdelivers).2.1.trans hwhole

/-! ## A piece that ends at the bound -/

/-- A message of one line. -/
def oneLine (line : Bytes) (hfits : Fits line) (hplain : stuff line = line) : Conversation where
  username := "u"
  password := "p"
  commands := [.retr 1]
  base := ⟨⟨"u", "p"⟩, ⟨[.retr 1], .greeting, [], [], .run, none⟩⟩
  opens := by decide
  greeting := .line (wire "+OK")
  upgrade := none
  replies := [.lines (wire "+OK") [line]]
  greets := trivial
  agrees := fun _ _ _ h => by cases h
  answers := .cons (fun said h => by cases h) .nil
  fits := by
    have hstatus : Fits (wire "+OK") := ⟨by decide, by decide⟩
    have hdot : Fits [46] := ⟨by decide, by decide⟩
    intro reply h each heach
    simp only [Pop3.script, List.map_cons, List.map_nil, List.mem_cons, List.not_mem_nil,
      or_false, Option.some.injEq] at h
    rcases h with rfl | rfl
    · rw [List.mem_singleton.mp heach]
      exact hstatus
    · simp only [Sent.wired, List.map_cons, List.map_nil, List.cons_append, List.nil_append,
        List.mem_cons, List.not_mem_nil, or_false, hplain] at heach
      rcases heach with rfl | rfl | rfl
      · exact hstatus
      · exact hfits
      · exact hdot

/-- The session once its command is written. -/
def asked : State := ⟨[], .multiStatus (.retr 1), [], [.greeting ""], .run, none⟩

theorem split_none {bytes : Bytes} (h : 10 ∉ bytes) : Crlf.split bytes = none := by
  cases hsplit : Crlf.split bytes with
  | none => rfl
  | some pair =>
    obtain ⟨front, rest⟩ := pair
    have hbytes := Crlf.split_eq hsplit
    exact absurd (hbytes ▸ List.mem_append_right _ (.tail _ (.head _))) h

theorem asked_cut {line : Bytes} (hplain : 10 ∉ line) (hlong : line.length = maxLineBytes) :
    ∃ after, asked.step ⟨"u", "p"⟩ (.bytes (wire "+OK\r\n" ++ (line ++ [13]))) =
      (after, .failed (.malformed "response line exceeds 1 MiB")) := by
  have hnone : Crlf.split (line ++ [13]) = none := by
    apply split_none
    rw [List.mem_append, not_or]
    exact ⟨hplain, by decide⟩
  have hstatus : takeLine (wire "+OK\r\n" ++ (line ++ [13])) = .ok (some (wire "+OK", line ++ [13])) := by
    have hbytes : wire "+OK\r\n" = wire "+OK" ++ [13, 10] := by decide
    unfold takeLine
    rw [hbytes, List.append_assoc, List.cons_append, List.singleton_append,
      Crlf.split_line (by decide)]
    exact if_neg (by decide)
  have hline : takeLine (line ++ [13]) = .error (.malformed "response line exceeds 1 MiB") := by
    unfold takeLine
    rw [hnone]
    apply if_pos
    rw [List.length_append, hlong]
    exact Nat.lt_succ_self _
  have hgoes : (decide (.multiStatus (.retr 1)) (wire "+OK")).2 = .continue := by decide
  obtain ⟨fuel, hfuel⟩ : ∃ fuel, (wire "+OK\r\n" ++ (line ++ [13])).length = fuel + 1 := by
    refine ⟨line.length + 5, ?_⟩
    have hlength : (wire "+OK\r\n").length = 5 := by decide
    rw [List.length_append, List.length_append, hlength, List.length_singleton]
    omega
  change ∃ after, State.pump { asked with buf := [] ++ _ } _ = (after, _)
  rw [State.pump, if_neg Phase.noConfusion, List.nil_append, hfuel, pumpLines_goes hstatus hgoes,
    State.pumpLines, hline]
  exact ⟨_, rfl⟩

theorem asked_whole {line : Bytes} (hplain : stuff line = line)
    (hlong : line.length = maxLineBytes) :
    ∃ after, asked.readLines ⟨"u", "p"⟩ (Sent.wired (.lines (wire "+OK") [line])) =
      (after, .done [.greeting "", .retrieved (joinLines [line])]) := by
  have hgoes : (decide (.multiStatus (.retr 1)) (wire "+OK")).2 = .continue := by decide
  have hstatus : (decide (.multiStatus (.retr 1)) (wire "+OK")).1 = .multiBody (.retr 1) [] 0 := by
    decide
  have hline : decide (.multiBody (.retr 1) [] 0) line =
      (.multiBody (.retr 1) [line] line.length, .continue) := by
    have hdot : line ≠ wire "." := hplain ▸ wire_dot ▸ stuff_ne_dot line
    have hunstuffed := unstuff_stuff line
    rw [hplain] at hunstuffed
    change decideMultiBody (.retr 1) [] 0 line = _
    unfold decideMultiBody
    rw [if_pos hdot, hunstuffed, hlong]
    rfl
  have hend : decide (.multiBody (.retr 1) [line] line.length) [46] =
      (.closed, .next (.retrieved (joinLines [line]))) := by
    change decideMultiBody (.retr 1) [line] line.length [46] = _
    unfold decideMultiBody
    rw [wire_dot, if_neg (not_not.mpr rfl)]
    rfl
  have hread : readReply asked.phase (Sent.wired (.lines (wire "+OK") [line])) =
      (.closed, .next (.retrieved (joinLines [line]))) := by
    change readReply (.multiStatus (.retr 1)) [wire "+OK", stuff line, [46]] = _
    rw [readReply_goes hgoes, hstatus, hplain, readReply_goes (by rw [hline]), hline,
      readReply_ends (by rw [hend]; exact Action.noConfusion), hend]
  refine ⟨⟨[], .closed, [], [], .run, none⟩, ?_⟩
  unfold State.readLines
  rw [hread]
  rfl

/-- A line as long as a line may be, with its CR in one piece and its LF in the next, is refused,
and whole it is read. -/
theorem cut_differs : ¬ ∀ (c : Conversation) (events : List IoReady), Delivers Cut c.script events →
    dids (c.run events) = dids (c.run (wholes c.script)) ∧
      (c.run events).progress = (c.run (wholes c.script)).progress := by
  intro h
  obtain ⟨line, hline⟩ : ∃ line : Bytes, line = List.replicate maxLineBytes 97 := ⟨_, rfl⟩
  have hlong : line.length = maxLineBytes := by rw [hline, List.length_replicate]
  have hmem : ∀ byte ∈ line, byte = 97 := fun byte hbyte =>
    List.eq_of_mem_replicate (hline ▸ hbyte)
  have hplain : 10 ∉ line := fun hbyte => absurd (hmem 10 hbyte) (by decide)
  have hstuff : stuff line = line := by
    apply if_neg
    intro hdot
    exact absurd (hmem 46 (List.mem_of_mem_head? hdot)) (by decide)
  have hfits : Fits line := ⟨split_none hplain, Nat.le_of_eq hlong⟩
  have hwhole := (oneLine line hfits hstuff).run_eq (delivers_wholes _)
  have hgreeted : (begun [.retr 1] none).readLines ⟨"u", "p"⟩ [wire "+OK"] =
      (asked, .need [.write (wire "RETR 1\r\n"), .read]) := by decide
  obtain ⟨after, hasked⟩ := asked_whole hstuff hlong
  change _ = serve ⟨"u", "p"⟩ (begun [.retr 1] none, .need [.read]) [.listened]
    [some (.line (wire "+OK")), some (.lines (wire "+OK") [line])] at hwhole
  rw [serve, Sent.wired, hgreeted, serve, hasked, serve] at hwhole
  obtain ⟨_, hdone⟩ := Prod.mk.inj hwhole
  have hdelivers : Delivers Cut (oneLine line hfits hstuff).script
      ([wire "+OK\r\n"].map IoReady.bytes ++
        ([wire "+OK\r\n" ++ (line ++ [13]), wire "\n.\r\n"].map IoReady.bytes ++ [])) := by
    have hgreeting : Cut (.line (wire "+OK")) [wire "+OK\r\n"] := ⟨by decide, by decide⟩
    refine .reply hgreeting (.reply ⟨?_, ?_⟩ .none)
    · have hbytes : wire "+OK\r\n" = wire "+OK" ++ [13, 10] := by decide
      have hrest : wire "\n.\r\n" = [10, 46, 13, 10] := by decide
      rw [Sent.bytes, Sent.wired, List.map_singleton, hstuff, hbytes, hrest]
      simp [joinLines]
    · intro piece hpiece
      rcases List.mem_cons.mp hpiece with rfl | hpiece
      · exact List.append_ne_nil_of_left_ne_nil (by decide) _
      · rw [List.mem_singleton.mp hpiece]
        decide
  have hsame := (h _ _ hdelivers).2
  obtain ⟨failed, hcut⟩ := @asked_cut line hplain hlong
  have hfirst := @after_next ⟨"u", "p"⟩ (begun [.retr 1] none) [.read]
    (Talk.begin (oneLine line hfits hstuff).session (.need [.read])) rfl rfl
    (List.cons_ne_nil _ _) (.bytes (wire "+OK\r\n"))
  have hstep : (begun [.retr 1] none).step ⟨"u", "p"⟩ (.bytes (wire "+OK\r\n")) =
      (asked, .need [.write (wire "RETR 1\r\n"), .read]) := by decide
  rw [hstep] at hfirst
  have hsecond := after_next (hfirst.state rfl) hfirst.progress hfirst.begun
    (.bytes (wire "+OK\r\n" ++ (line ++ [13])))
  rw [hcut] at hsecond
  have hover := run_over (by rw [hsecond.progress]; rfl) [.bytes (wire "\n.\r\n")]
  have hprogress : ((oneLine line hfits hstuff).run ([wire "+OK\r\n"].map IoReady.bytes ++
      ([wire "+OK\r\n" ++ (line ++ [13]), wire "\n.\r\n"].map IoReady.bytes ++ []))).progress =
      .failed (.malformed "response line exceeds 1 MiB") :=
    (congrArg Talk.progress hover).trans hsecond.progress
  rw [hprogress, hdone] at hsame
  cases hsame

end Conversation

end Mailo.Proto.Pop3
