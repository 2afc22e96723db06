import Mailo.Library.Runs
import Mailo.Proto.Pop3.Dialogue

/-!
# Removing messages over POP3

Message numbers come from a survey an earlier session took. Each `DELE` therefore goes out only
behind a `UIDL` of its number that was answered with the id it must have. That every message was
removed is read off the session being over, which an interrupt brings about early.
-/

namespace Mailo.Proto.Pop3

open Domain Library

def Accepted (heard : Bytes) (text : String) : Prop :=
  ∃ line, heard = line ++ [13, 10] ∧ statusOf line = .ok (.ok text)

/-- A positive answer that names a message by its number and its id. -/
def Names (heard : Bytes) (number : UInt32) (uidl : String) : Prop :=
  ∃ text, Accepted heard text ∧ uidlEntry (wire text) = .ok ⟨number, uidl⟩

/-- What is behind a deletion on the wire: the check of its number, answered with an id asked
about. -/
def Behind (remotes : List RemoteRef) (auth : Auth) (bytes : Bytes) (rest : List Turn) : Prop :=
  ∃ number uidl heard earlier, bytes = encode (.dele number) auth ∧ .pop uidl ∈ remotes ∧
    rest = ⟨.wrote (encode (.check number uidl) auth), heard⟩ :: earlier ∧
    Names heard number uidl

/-- Everything written that begins as a deletion is one, with its check behind it. -/
def Checked (remotes : List RemoteRef) (auth : Auth) : List Turn → Prop
  | [] => True
  | turn :: rest =>
    (∀ bytes, turn.did = .wrote bytes → (wire "DELE").isPrefixOf bytes = true →
      Behind remotes auth bytes rest) ∧ Checked remotes auth rest

variable {auth : Auth} {remotes : List RemoteRef} {turns : List Turn} {state : State}

theorem Checked.behind {later rest : List Turn} {bytes heard : Bytes}
    (h : Checked remotes auth turns) (split : turns = later ++ ⟨.wrote bytes, heard⟩ :: rest)
    (dele : (wire "DELE").isPrefixOf bytes = true) : Behind remotes auth bytes rest := by
  induction later generalizing turns with
  | nil =>
    rw [split] at h
    exact h.1 bytes rfl dele
  | cons turn later ih =>
    rw [split] at h
    exact ih h.2 rfl

theorem Checked.hear {remotes : List RemoteRef} {auth : Auth} {turns : List Turn}
    (h : Checked remotes auth turns) (heard : Bytes) :
    Checked remotes auth (Talk.hear heard turns) := by
  cases turns with
  | nil => exact ⟨fun _ hdid => (by cases hdid), trivial⟩
  | cons turn rest => exact ⟨h.1, h.2⟩

theorem Checked.secure (h : Checked remotes auth turns) (needs : List IoNeed) (ready : IoReady) :
    Checked remotes auth (Talk.secure needs ready turns) := by
  unfold Talk.secure
  split
  · exact ⟨fun _ hdid => (by cases hdid), h⟩
  · exact h

theorem wire_dele : wire "DELE" = [68, 69, 76, 69] := by decide

variable {cmd : Pop3Command} {α : Type} {ready : IoReady} {commands : List Pop3Command}
  {talk : Talk Backend Outcome} {backend : Backend}

theorem dele_of_prefix (h : (wire "DELE").isPrefixOf (encode cmd auth) = true) :
    ∃ number, cmd = .dele number := by
  have hother : ∀ (head : UInt8) (text : Bytes), head ≠ 68 →
      (wire "DELE").isPrefixOf (head :: text) = false := by
    intro head text hne
    rw [wire_dele, List.isPrefixOf_cons_cons]
    have : ((68 : UInt8) == head) = false := by simpa using Ne.symm hne
    rw [this, Bool.false_and]
  cases cmd with
  | dele number => exact ⟨number, rfl⟩
  | capa | stat | uidl | list | quit | user | pass | authPlain | retr _ | top _ _ | check _ _ =>
    exact absurd h (by
      rw [Bool.not_eq_true]
      exact hother _ _ (by decide))

/-- Every deletion queued stands right behind the check of its number. -/
def Guarded (remotes : List RemoteRef) : Option Pop3Command → List Pop3Command → Prop
  | _, [] => True
  | before, cmd :: rest =>
    (∀ number, cmd = .dele number → ∃ uidl, .pop uidl ∈ remotes ∧
      before = some (.check number uidl)) ∧ Guarded remotes (some cmd) rest

variable {before : Option Pop3Command}

theorem Guarded.append {front back : List Pop3Command} (hfront : Guarded remotes before front)
    (hback : ∀ before, Guarded remotes before back) : Guarded remotes before (front ++ back) := by
  induction front generalizing before with
  | nil => exact hback before
  | cons cmd rest ih => exact ⟨hfront.1, ih hfront.2⟩

/-- A walk's commands each draw an answer of one line. -/
def OneLine (commands : List Pop3Command) : Prop := ∀ cmd ∈ commands, shape cmd = .single

theorem guarded_prelude (remotes : List RemoteRef) (factory : Factory)
    (before : Option Pop3Command) : Guarded remotes before factory.authPrelude := by
  unfold Factory.authPrelude
  split <;> simp [Guarded]

theorem guarded_removing (backend : Backend) {asked : List RemoteRef}
    (sub : ∀ remote ∈ remotes, remote ∈ asked) (before : Option Pop3Command) :
    Guarded asked before (remotes.flatMap backend.removing) := by
  induction remotes generalizing before with
  | nil => trivial
  | cons remote rest ih =>
    rw [List.flatMap_cons]
    refine Guarded.append ?_ (ih fun r hr => sub r (.tail _ hr))
    have hremote := sub remote (.head _)
    cases remote with
    | pop uidl =>
      unfold Backend.removing
      dsimp only
      split
      · simp only [Guarded, reduceCtorEq, false_implies, implies_true, and_true, true_and]
        intro number heq
        cases heq
        exact ⟨uidl, hremote, rfl⟩
      · trivial
    | imap _ _ _ | graph _ _ | jmap _ => trivial

/-- What a removal sends: signing in, each message checked and deleted, and `QUIT`. -/
def walk (backend : Backend) (remotes : List RemoteRef) : List Pop3Command :=
  backend.build.authPrelude ++ remotes.flatMap backend.removing ++ [.quit]

theorem guarded_walk (backend : Backend) (remotes : List RemoteRef) :
    Guarded remotes none (walk backend remotes) :=
  ((guarded_prelude remotes backend.build none).append fun before =>
    guarded_removing backend (fun _ h => h) before).append fun _ => by simp [Guarded]

theorem oneLine_walk (backend : Backend) (remotes : List RemoteRef) :
    OneLine (walk backend remotes) := by
  intro cmd hcmd
  unfold walk at hcmd
  simp only [List.mem_append, List.mem_flatMap, List.mem_singleton] at hcmd
  rcases hcmd with (hcmd | ⟨remote, _, hcmd⟩) | rfl
  · exact (backend.build.single_prelude cmd hcmd).1
  · unfold Backend.removing at hcmd
    split at hcmd
    · split at hcmd
      · simp only [List.mem_cons, List.not_mem_nil, or_false] at hcmd
        rcases hcmd with rfl | rfl <;> rfl
      · cases hcmd
    · cases hcmd
  · rfl

/-! ## A session on its walk -/

/-- A session whose commands each draw one line: what it has written was checked, and the command
in flight was written last, nothing heard since. -/
structure Walking (remotes : List RemoteRef) (auth : Auth) (state : State) (turns : List Turn) :
    Prop where
  phase : state.phase = .greeting ∨ state.phase = .stls ∨ state.phase = .awaitTls ∨
    ∃ cmd, state.phase = .single cmd
  guarded : Guarded remotes (inFlight state.phase) state.commands
  oneLine : OneLine state.commands
  checked : Checked remotes auth turns
  head : ∀ cmd, state.phase = .single cmd →
    ∃ rest, turns = ⟨.wrote (encode cmd auth), []⟩ :: rest
  begun : turns ≠ []

namespace Walking

variable {remotes : List RemoteRef} {auth : Auth} {state : State} {turns : List Turn}

/-- Nothing goes on over more lines. -/
theorem stays (h : Walking remotes auth state turns) {after : State} {taken : Bytes}
    (reads : Continues (state.told ready) taken after) :
    after = state.told ready ∧ taken = [] := by
  cases reads with
  | none => exact ⟨rfl, rfl⟩
  | line take goes more =>
    exfalso
    have hphase : (state.told ready).phase = state.phase := by cases ready <;> rfl
    rw [hphase] at goes
    rcases decide_continue goes with ⟨cmd, heq, _⟩ | ⟨cmd, lines, held, heq, _⟩ <;>
      rcases h.phase with hp | hp | hp | ⟨c, hp⟩ <;> rw [hp] at heq <;> cases heq

/-- The next command is on its walk too, when the check before it was answered. -/
theorem dispatch (guarded : Guarded remotes before state.commands)
    (oneLine : OneLine state.commands) (checked : Checked remotes auth turns)
    (answered : ∀ number uidl, before = some (.check number uidl) → ∃ heard earlier,
      turns = ⟨.wrote (encode (.check number uidl) auth), heard⟩ :: earlier ∧
        Names heard number uidl) :
    (∃ after replies, state.dispatchNext auth = (after, .done replies)) ∨
    ∃ after cmd, state.dispatchNext auth = (after, .need [.write (encode cmd auth), .read]) ∧
      Walking remotes auth after (⟨.wrote (encode cmd auth), []⟩ :: turns) := by
  have hqueue : Guarded remotes before state.queue ∧ OneLine state.queue := by
    unfold State.queue
    split
    · exact ⟨by simp [Guarded], fun c hc => by rw [List.mem_singleton.mp hc]; rfl⟩
    · exact ⟨guarded, oneLine⟩
  rcases state.dispatchNext_cases auth with ⟨_, after, hdone, _⟩ | ⟨cmd, rest, hcommands, hstep⟩
  · exact .inl ⟨after, _, hdone⟩
  · rw [hcommands] at hqueue
    obtain ⟨hguarded, hone⟩ := hqueue
    have hphase : awaiting cmd = .single cmd := by
      rw [awaiting, hone cmd List.mem_cons_self]
    rw [hphase] at hstep
    refine .inr ⟨_, cmd, hstep, ⟨.inr (.inr (.inr ⟨cmd, rfl⟩)), hguarded.2, fun c hc =>
      hone c (.tail _ hc), ⟨fun bytes hdid hdele => ?_, checked⟩,
      fun c hc => ?_, by simp⟩⟩
    · cases hdid
      obtain ⟨number, rfl⟩ := dele_of_prefix hdele
      obtain ⟨uidl, hasked, hbefore⟩ := hguarded.1 number rfl
      obtain ⟨heard, earlier, hturns, hnames⟩ := answered number uidl hbefore
      exact ⟨number, uidl, heard, earlier, rfl, hasked, hturns, hnames⟩
    · cases hc
      exact ⟨turns, rfl⟩

end Walking

/-- Where a session stands after an event: what it wrote was checked, and while it asks for more
it is on its walk. -/
structure Talking {α : Type} (remotes : List RemoteRef) (auth : Auth) (state : State)
    (progress : Progress α) (turns : List Turn) : Prop where
  checked : Checked remotes auth turns
  walking : progress.isNeed = true → Walking remotes auth state turns
  upgrade : progress.needs.any isOpenTls = true → state.phase = .awaitTls

theorem Talking.failed (checked : Checked remotes auth turns) (error : ProtoError) :
    Talking remotes auth state (.failed error : Progress α) turns :=
  ⟨checked, fun h => (by cases h), fun h => (by cases h)⟩

theorem Talking.done (checked : Checked remotes auth turns) (out : α) :
    Talking remotes auth state (.done out) turns :=
  ⟨checked, fun h => (by cases h), fun h => (by cases h)⟩

theorem Talking.dispatch (guarded : Guarded remotes before state.commands)
    (oneLine : OneLine state.commands) (checked : Checked remotes auth turns)
    (answered : ∀ number uidl, before = some (.check number uidl) → ∃ heard earlier,
      turns = ⟨.wrote (encode (.check number uidl) auth), heard⟩ :: earlier ∧
        Names heard number uidl) :
    Talking remotes auth (state.dispatchNext auth).1 (state.dispatchNext auth).2
      (Talk.speak (state.dispatchNext auth).2.needs turns) := by
  rcases Walking.dispatch guarded oneLine checked answered with
    ⟨after, replies, hdone⟩ | ⟨after, cmd, hneed, hwalking⟩
  · rw [hdone]
    exact .done checked replies
  · rw [hneed, Progress.needs, Talk.speak_write]
    exact ⟨hwalking.checked, fun _ => hwalking, fun h => by simp [isOpenTls, Progress.needs] at h⟩

variable {number : UInt32} {uidl : String} {action : Action} {line rest : Bytes} {phase : Phase}
  {after : List Turn} {result : Step} {progress : Progress (List Pop3Reply)}

theorem uidlEntry_of_checked {text : String} {reply : Pop3Reply}
    (h : interpretSingle (.check number uidl) text = .ok reply) :
    uidlEntry (wire text) = .ok ⟨number, uidl⟩ := by
  change checked number uidl text = _ at h
  unfold checked at h
  split at h
  · cases h
  · rename_i entry hentry
    split at h
    · cases h
    · rename_i hsame
      rw [not_or, not_not, not_not] at hsame
      rw [hentry, ← hsame.1, ← hsame.2]

theorem act_talking (h : Walking remotes auth state turns)
    (decided : decide state.phase line = (phase, action)) :
    Talking remotes auth (({ state with buf := rest, phase := phase } : State).act auth action).1
      (({ state with buf := rest, phase := phase } : State).act auth action).2
      (Talk.speak (({ state with buf := rest, phase := phase } : State).act auth action).2.needs
        (Talk.hear (line ++ [13, 10]) turns)) := by
  have hheard := h.checked.hear (line ++ [13, 10])
  have hne : Talk.hear (line ++ [13, 10]) turns ≠ [] := by
    cases turns <;> simp [Talk.hear]
  cases action with
  | «continue» =>
    exfalso
    rcases decide_continue decided with ⟨cmd, heq, _⟩ | ⟨cmd, lines, held, heq, _⟩ <;>
      rcases h.phase with hp | hp | hp | ⟨c, hp⟩ <;> rw [hp] at heq <;> cases heq
  | fail error => exact .failed hheard error
  | done reply => exact .done hheard _
  | startTls =>
    unfold State.act
    dsimp only
    split
    · exact .failed hheard _
    · split
      · exact .failed hheard _
      · have hphase := decide_startTls decided
        have hguarded := h.guarded
        rw [hphase] at hguarded
        refine ⟨hheard, fun _ => ⟨.inr (.inr (.inl rfl)), hguarded, h.oneLine, hheard,
          fun cmd hcmd => ?_, hne⟩, fun _ => rfl⟩
        cases hcmd
  | next reply =>
    -- What the answer was to tells whether a check was in flight.
    have hanswer := decide_next decided
    have hchecked : ∀ number uidl, inFlight state.phase = some (.check number uidl) →
        ∃ heard earlier, Talk.hear (line ++ [13, 10]) turns =
          ⟨.wrote (encode (.check number uidl) auth), heard⟩ :: earlier ∧
            Names heard number uidl := by
      intro number uidl hflight
      cases hphase : state.phase with
      | single cmd =>
        rw [hphase] at hflight hanswer
        cases hflight
        obtain ⟨earlier, hturns⟩ := h.head _ hphase
        cases hanswer with
        | single status read more =>
          refine ⟨line ++ [13, 10], earlier, by rw [hturns]; rfl, _, ⟨line, rfl, status⟩, ?_⟩
          exact uidlEntry_of_checked read
      | multiStatus | multiBody =>
        rcases h.phase with hp | hp | hp | ⟨c, hp⟩ <;> rw [hphase] at hp <;> cases hp
      | greeting | stls | awaitTls | closed =>
        rw [hphase] at hflight
        cases hflight
    rcases State.act_next auth ({ state with buf := rest, phase := phase } : State) reply with
      ⟨⟨text, rfl⟩, _, hact⟩ | hact
    · rw [hact]
      have hstls : Checked remotes auth
          (⟨.wrote (wire "STLS\r\n"), []⟩ :: Talk.hear (line ++ [13, 10]) turns) := by
        refine ⟨fun bytes hdid hdele => ?_, hheard⟩
        cases hdid
        exact absurd hdele (by decide)
      have hguarded := h.guarded
      rw [hanswer.greeted] at hguarded
      rw [Progress.needs, Talk.speak_write]
      refine ⟨hstls, fun _ => ⟨.inr (.inl rfl), hguarded, h.oneLine, hstls,
        fun cmd hcmd => ?_, by simp⟩, fun h => by simp [isOpenTls, Progress.needs] at h⟩
      cases hcmd
    · rw [hact]
      exact Talking.dispatch h.guarded h.oneLine hheard hchecked

namespace Walking

variable {remotes : List RemoteRef} {auth : Auth} {state : State} {turns : List Turn}

/-- An event taken in changes neither the phase nor what is queued. -/
theorem told (h : Walking remotes auth state turns) (ready : IoReady) :
    Walking remotes auth (state.told ready) turns := by
  cases ready <;> exact ⟨h.phase, h.guarded, h.oneLine, h.checked, h.head, h.begun⟩

variable {needs : List IoNeed}

/-- The upgrade is asked for while no command is in flight. -/
theorem secure (h : Walking remotes auth state turns)
    (upgrade : needs.any isOpenTls = true → state.phase = .awaitTls) (ready : IoReady) :
    Walking remotes auth state (Talk.secure needs ready turns) := by
  refine ⟨h.phase, h.guarded, h.oneLine, h.checked.secure needs ready, fun cmd hcmd => ?_,
    Talk.secure_ne_nil h.begun needs ready⟩
  unfold Talk.secure
  split
  · rename_i hopens
    rw [upgrade hopens.2] at hcmd
    cases hcmd
  · exact h.head cmd hcmd

end Walking

theorem turned_talking (h : Walking remotes auth state turns)
    (upgrade : needs.any isOpenTls = true → state.phase = .awaitTls)
    (turned : Turned auth state needs ready turns result after) :
    Talking remotes auth result.1 result.2 after := by
  have hphase : (state.told ready).phase = state.phase := by cases ready <;> rfl
  have hwalking := (h.told ready).secure (fun hopens => by
    rw [hphase, upgrade hopens]) ready
  cases turned with
  | opened phase =>
    have hguarded := h.guarded
    rw [phase] at hguarded
    exact Talking.dispatch hguarded h.oneLine (h.checked.secure needs ready)
      fun _ _ hnone => by cases hnone
  | waits mid taken reads =>
    obtain ⟨rfl, rfl⟩ := h.stays reads
    rw [Talk.hear_nil hwalking.begun]
    exact ⟨hwalking.checked, fun _ => hwalking, fun h => by cases h⟩
  | fails after error heard => exact .failed ((h.checked.secure needs ready).hear heard) error
  | acts mid taken line rest phase action reads take decided ends =>
    obtain ⟨rfl, rfl⟩ := h.stays reads
    exact act_talking hwalking decided

/-! ## What a removal still owes -/

/-- The commands a removal is known by. -/
def Marks (cmd : Pop3Command) : Prop := cmd = .quit ∨ ∃ number, cmd = .dele number

def Answered (auth : Auth) (cmd : Pop3Command) (turns : List Turn) : Prop :=
  ∃ heard text, ⟨.wrote (encode cmd auth), heard⟩ ∈ turns ∧ Accepted heard text

theorem Answered.mono {more : List Turn} (h : Answered auth cmd turns)
    (sub : ∀ turn ∈ turns, turn ∈ more) : Answered auth cmd more := by
  obtain ⟨heard, text, hmem, haccepted⟩ := h
  exact ⟨heard, text, sub _ hmem, haccepted⟩

/-- `QUIT` once, and last. -/
def Ends (commands : List Pop3Command) : Prop :=
  ∃ front, Pop3Command.quit ∉ front ∧ commands = front ++ [.quit]

theorem Ends.next {rest : List Pop3Command} (h : Ends (cmd :: rest)) :
    (cmd = .quit ∧ rest = []) ∨ (cmd ≠ .quit ∧ Ends rest) := by
  obtain ⟨front, hfront, heq⟩ := h
  cases front with
  | nil =>
    cases heq
    exact .inl ⟨rfl, rfl⟩
  | cons first front =>
    cases heq
    rw [List.mem_cons, not_or] at hfront
    exact .inr ⟨Ne.symm hfront.1, front, hfront.2, rfl⟩

/-- Every deletion, and `QUIT`, is queued, in flight, or answered. -/
structure Owing (auth : Auth) (commands : List Pop3Command) (state : State) (turns : List Turn) :
    Prop where
  ends : (Ends state.queue ∧ inFlight state.phase ≠ some .quit) ∨
    (state.commands = [] ∧ inFlight state.phase = some .quit)
  owed : ∀ cmd ∈ commands, Marks cmd → cmd ∈ state.queue ∨ inFlight state.phase = some cmd ∨
    Answered auth cmd turns.tail

/-- Where a removal stands: it owes what it owed, or it is over and owes nothing. -/
structure Settling {α : Type} (auth : Auth) (commands : List Pop3Command) (state : State)
    (progress : Progress α) (turns : List Turn) : Prop where
  owing : progress.isNeed = true → Owing auth commands state turns
  settled : ∀ out, progress = .done out → ∀ cmd ∈ commands, Marks cmd → Answered auth cmd turns

theorem Settling.failed (error : ProtoError) :
    Settling auth commands state (.failed error : Progress α) turns :=
  ⟨fun h => (by cases h), fun _ h => (by cases h)⟩

/-- The next command goes out once the one before it was answered. -/
theorem Settling.dispatch (ends : Ends state.queue)
    (owed : ∀ cmd ∈ commands, Marks cmd → cmd ∈ state.queue ∨ Answered auth cmd turns) :
    Settling auth commands (state.dispatchNext auth).1 (state.dispatchNext auth).2
      (Talk.speak (state.dispatchNext auth).2.needs turns) := by
  rcases state.dispatchNext_cases auth with ⟨hnone, _⟩ | ⟨cmd, rest, hqueue, hstep⟩
  · obtain ⟨front, _, heq⟩ := ends
    rw [hnone] at heq
    simp at heq
  · rw [hstep]
    refine ⟨fun _ => ⟨?_, fun owe howe hmarks => ?_⟩, fun _ h => by cases h⟩
    · rw [hqueue] at ends
      rw [inFlight_awaiting]
      rcases ends.next with ⟨rfl, hrest⟩ | ⟨hne, hrest⟩
      · exact .inr ⟨hrest, rfl⟩
      · exact .inl ⟨hrest, fun heq => hne (Option.some.inj heq)⟩
    · rw [Progress.needs, Talk.speak_write]
      rw [inFlight_awaiting]
      rcases owed owe howe hmarks with hmem | hanswered
      · rw [hqueue, List.mem_cons] at hmem
        rcases hmem with rfl | hmem
        · exact .inr (.inl rfl)
        · exact .inl hmem
      · exact .inr (.inr hanswered)

/-- An interrupt comes when no deletion is left to send. -/
def Timely (state : State) (ready : IoReady) : Prop :=
  ready = .interrupt → ∀ number, Pop3Command.dele number ∉ state.queue

/-- A timely event drops nothing that is owed. -/
theorem Owing.told (h : Owing auth commands state turns) (timely : Timely state ready) :
    Owing auth commands (state.told ready) turns := by
  cases ready with
  | interrupt =>
    have hqueue : (state.told .interrupt).queue = [.quit] := rfl
    refine ⟨?_, fun cmd hcmd hmarks => ?_⟩
    · rcases h.ends with ⟨_, hflight⟩ | hlast
      · exact .inl ⟨⟨[], by simp, hqueue⟩, hflight⟩
      · exact .inr hlast
    · rw [hqueue]
      rcases h.owed cmd hcmd hmarks with hmem | hrest
      · rcases hmarks with rfl | ⟨number, rfl⟩
        · exact .inl (.head _)
        · exact absurd hmem (timely rfl number)
      · exact .inr hrest
  | bytes fed | eof | tlsOpen | woke => exact ⟨h.ends, h.owed⟩

theorem Owing.secure (h : Owing auth commands state turns) (needs : List IoNeed) (ready : IoReady) :
    Owing auth commands state (Talk.secure needs ready turns) := by
  refine ⟨h.ends, fun cmd hcmd hmarks => ?_⟩
  rcases h.owed cmd hcmd hmarks with hmem | hflight | hanswered
  · exact .inl hmem
  · exact .inr (.inl hflight)
  · refine .inr (.inr (hanswered.mono fun turn hturn => ?_))
    unfold Talk.secure
    split
    · exact List.mem_of_mem_tail hturn
    · exact hturn

theorem act_settling (h : Walking remotes auth state turns)
    (owing : Owing auth commands state turns) (decided : decide state.phase line = (phase, action))
    (ends : action ≠ .continue) :
    Settling auth commands
      (({ state with buf := rest, phase := phase } : State).act auth action).1
      (({ state with buf := rest, phase := phase } : State).act auth action).2
      (Talk.speak (({ state with buf := rest, phase := phase } : State).act auth action).2.needs
        (Talk.hear (line ++ [13, 10]) turns)) := by
  have htail : ∀ turn ∈ turns.tail, turn ∈ Talk.hear (line ++ [13, 10]) turns := by
    intro turn hturn
    cases turns with
    | nil => cases hturn
    | cons first earlier => exact .tail _ hturn
  -- The command in flight is answered by this line.
  have hflight : ∀ cmd, state.phase = .single cmd → (∃ text, statusOf line = .ok (.ok text)) →
      Answered auth cmd (Talk.hear (line ++ [13, 10]) turns) := by
    intro cmd hphase ⟨text, hstatus⟩
    obtain ⟨earlier, hturns⟩ := h.head cmd hphase
    rw [hturns]
    exact ⟨line ++ [13, 10], text, .head _, line, rfl, hstatus⟩
  cases action with
  | «continue» => exact absurd rfl ends
  | fail error => exact .failed error
  | done reply =>
    obtain ⟨hphase, text, hstatus, _⟩ := decide_done decided
    have hlast := owing.ends
    rw [hphase] at hlast
    refine ⟨fun h => (by cases h), fun out _ cmd hcmd hmarks => ?_⟩
    have hquit := hflight _ hphase ⟨text, hstatus⟩
    rcases owing.owed cmd hcmd hmarks with hmem | hcmd | hanswered
    · have hcommands : state.commands = [] := by
        rcases hlast with ⟨_, hne⟩ | ⟨hcommands, _⟩
        · exact absurd rfl hne
        · exact hcommands
      unfold State.queue at hmem
      split at hmem
      · rw [List.mem_singleton.mp hmem]
        exact hquit
      · rw [hcommands] at hmem
        cases hmem
    · rw [hphase] at hcmd
      cases hcmd
      exact hquit
    · exact hanswered.mono htail
  | startTls =>
    have hstls := owing.ends
    rw [decide_startTls decided] at hstls
    unfold State.act
    dsimp only
    split
    · exact .failed _
    · split
      · exact .failed _
      · refine ⟨fun _ => ⟨.inl ⟨?_, by simp [inFlight]⟩, fun cmd hcmd hmarks => ?_⟩,
          fun _ h => by cases h⟩
        · rcases hstls with ⟨hends, _⟩ | ⟨_, hquit⟩
          · exact hends
          · cases hquit
        · rcases owing.owed cmd hcmd hmarks with hmem | hcmd | hanswered
          · exact .inl hmem
          · rw [decide_startTls decided] at hcmd
            cases hcmd
          · refine .inr (.inr (hanswered.mono fun turn hturn => ?_))
            cases turns with
            | nil => cases hturn
            | cons first earlier => exact hturn
  | next reply =>
    have hanswer := decide_next decided
    have hmore : inFlight state.phase ≠ some .quit := by
      intro hquit
      rcases h.phase with hp | hp | hp | ⟨cmd, hp⟩ <;> rw [hp] at hquit hanswer <;> cases hquit
      cases hanswer with
      | single status read more => exact more rfl
    have hends : Ends state.queue := by
      rcases owing.ends with ⟨hends, _⟩ | ⟨_, hquit⟩
      · exact hends
      · exact absurd hquit hmore
    rcases State.act_next auth ({ state with buf := rest, phase := phase } : State) reply with
      ⟨⟨text, rfl⟩, _, hact⟩ | hact
    · rw [hact]
      refine ⟨fun _ => ⟨.inl ⟨hends, by simp [inFlight]⟩, fun cmd hcmd hmarks => ?_⟩,
        fun _ h => by cases h⟩
      rw [Progress.needs, Talk.speak_write]
      rcases owing.owed cmd hcmd hmarks with hmem | hcmd | hanswered
      · exact .inl hmem
      · rw [hanswer.greeted] at hcmd
        cases hcmd
      · exact .inr (.inr (hanswered.mono htail))
    · rw [hact]
      refine Settling.dispatch hends fun cmd hcmd hmarks => ?_
      rcases owing.owed cmd hcmd hmarks with hmem | hcmd | hanswered
      · exact .inl hmem
      · right
        rcases h.phase with hp | hp | hp | ⟨sent, hp⟩ <;> rw [hp] at hcmd <;> cases hcmd
        rw [hp] at hanswer
        cases hanswer with
        | single status read more => exact hflight _ hp ⟨_, status⟩
      · exact .inr (hanswered.mono htail)

theorem turned_settling (h : Walking remotes auth state turns)
    (owing : Owing auth commands state turns) (timely : Timely state ready)
    (upgrade : needs.any isOpenTls = true → state.phase = .awaitTls)
    (turned : Turned auth state needs ready turns result after) :
    Settling auth commands result.1 result.2 after := by
  have hphase : (state.told ready).phase = state.phase := by cases ready <;> rfl
  have hwalking := (h.told ready).secure (fun hopens => by rw [hphase, upgrade hopens]) ready
  have howing := (owing.told timely).secure needs ready
  cases turned with
  | opened phase =>
    have hnone : inFlight state.phase = none := by rw [phase]; rfl
    have hsecure := owing.secure needs ready
    refine Settling.dispatch ?_ fun cmd hcmd hmarks => ?_
    · rcases hsecure.ends with ⟨hends, _⟩ | ⟨_, hquit⟩
      · exact hends
      · rw [hnone] at hquit
        cases hquit
    · rcases hsecure.owed cmd hcmd hmarks with hmem | hflight | hanswered
      · exact .inl hmem
      · rw [hnone] at hflight
        cases hflight
      · exact .inr (hanswered.mono fun _ hturn => List.mem_of_mem_tail hturn)
  | waits mid taken reads =>
    obtain ⟨rfl, rfl⟩ := h.stays reads
    rw [Talk.hear_nil hwalking.begun]
    exact ⟨fun _ => howing, fun _ h => by cases h⟩
  | fails after error heard => exact .failed error
  | acts mid taken line rest phase action reads take decided ends =>
    obtain ⟨rfl, rfl⟩ := h.stays reads
    exact act_settling hwalking howing decided ends

/-! ## A removal as the backend runs it -/

def destroying (backend : Backend) (remotes : List RemoteRef) : Talk Backend Outcome :=
  Talk.begin (backend.start (.destroy remotes)).1 (backend.start (.destroy remotes)).2

def TimelyTalk (talk : Talk Backend Outcome) (ready : IoReady) : Prop :=
  ∀ session, talk.state.session = some session → Timely session.state ready

/-- A removal under way; once it is over nothing more is known of its session. -/
structure Removing (auth : Auth) (talk : Talk Backend Outcome)
    (holds : State → Progress Outcome → List Turn → Prop) : Prop where
  session : ∃ state, talk.state.session = some ⟨auth, state⟩ ∧
    holds state talk.progress talk.turns
  job : talk.progress.isNeed = true → talk.state.job = .remove

theorem Removing.next {holds : State → Progress Outcome → List Turn → Prop}
    (h : Removing auth talk holds)
    (steps : ∀ state needs, talk.progress = .need needs →
      talk.state.session = some ⟨auth, state⟩ → holds state (.need needs) talk.turns →
      holds (state.step auth ready).1 (talk.state.report (state.step auth ready).2)
        (turned state auth needs ready talk.turns)) :
    Removing auth (talk.next Backend.machine ready) holds := by
  obtain ⟨state, hsession, hholds⟩ := h.session
  cases hprogress : talk.progress with
  | need needs =>
    have hjob := h.job (by rw [hprogress]; rfl)
    obtain ⟨after, hnext, hafter, _, hgoes⟩ := next_session hprogress hsession ready
    rw [hnext]
    rw [hprogress] at hholds
    exact ⟨⟨_, hafter, steps state needs hprogress hsession hholds⟩,
      fun hneed => (hgoes hneed).trans hjob⟩
  | done | failed =>
    rw [Talk.next_over (by rw [hprogress]; rfl)]
    exact h

theorem removal_cases (backend : Backend) (remotes : List RemoteRef) :
    (backend.removal remotes = none ∧ remotes.flatMap backend.removing = []) ∨
    ∃ commands, backend.removal remotes = some commands ∧
      backend.build.authPrelude ++ commands = walk backend remotes := by
  unfold Backend.removal
  dsimp only
  split
  · rename_i hempty
    exact .inl ⟨rfl, List.isEmpty_iff.mp hempty⟩
  · exact .inr ⟨_, rfl, by rw [walk, List.append_assoc]⟩

/-- A removal that has commands to send begins on its walk; otherwise it is over, and nothing was
written. -/
theorem destroying_cases (removable : backend.copies = .removable) (remotes : List RemoteRef) :
    ((destroying backend remotes).progress.isNeed = false ∧
      (destroying backend remotes).turns = [⟨.listened, []⟩] ∧
      ((destroying backend remotes).progress = .done .applied →
        remotes.flatMap backend.removing = [])) ∨
    ((destroying backend remotes).progress = .need [.read] ∧
      (destroying backend remotes).turns = [⟨.listened, []⟩] ∧
      (destroying backend remotes).state.job = .remove ∧
      (destroying backend remotes).state.session =
        some (backend.build.fresh (walk backend remotes))) := by
  unfold destroying Backend.start
  dsimp only
  rw [removable]
  rcases removal_cases backend remotes with ⟨hremoval, hnone⟩ | ⟨commands, hremoval, hwalk⟩
  · rw [hremoval]
    exact .inl ⟨rfl, rfl, fun _ => hnone⟩
  · rw [hremoval]
    dsimp only
    rcases Backend.queue_cases
        ({ backend with copies := .removable, job := .remove } : Backend) commands with
      ⟨error, hqueue⟩ | hqueue
    · rw [hqueue]
      exact .inl ⟨rfl, rfl, fun h => by cases h⟩
    · rw [hqueue]
      rw [hwalk]
      exact .inr ⟨rfl, rfl, rfl, rfl⟩

theorem walking_begun (backend : Backend) (remotes : List RemoteRef) :
    Walking remotes backend.build.auth (backend.build.fresh (walk backend remotes)).state
      [⟨.listened, []⟩] :=
  ⟨.inl rfl, guarded_walk backend remotes, oneLine_walk backend remotes,
    ⟨fun _ h => (by cases h), trivial⟩, fun _ h => (by cases h), by simp⟩

theorem Talking.reported (h : Talking remotes auth state progress turns) (backend : Backend) :
    Talking remotes auth state (backend.report progress) turns :=
  ⟨h.checked, fun hneed => h.walking (backend.isNeed_report hneed), fun hopens =>
    h.upgrade (by rwa [backend.needs_report] at hopens)⟩

theorem Settling.reported (h : Settling auth commands state progress turns) (backend : Backend) :
    Settling auth commands state (backend.report progress) turns := by
  refine ⟨fun hneed => h.owing (backend.isNeed_report hneed), fun out hout => ?_⟩
  cases progress with
  | done replies => exact h.settled replies rfl
  | need | failed => cases hout

theorem ends_walk (backend : Backend) (remotes : List RemoteRef) : Ends (walk backend remotes) := by
  refine ⟨_, fun hquit => ?_, rfl⟩
  rw [List.mem_append, List.mem_flatMap] at hquit
  rcases hquit with hquit | ⟨remote, _, hquit⟩
  · exact (backend.build.single_prelude _ hquit).2 rfl
  · unfold Backend.removing at hquit
    split at hquit
    · split at hquit
      · simp at hquit
      · cases hquit
    · cases hquit

theorem removing_talking (removable : backend.copies = .removable)
    (run : Reaches (Talk.next Backend.machine) anyAction (destroying backend remotes) talk) :
    (talk = destroying backend remotes ∧ talk.progress.isNeed = false) ∨
      Removing backend.build.auth talk (Talking remotes backend.build.auth) := by
  refine run.invariant (fun talk => (talk = destroying backend remotes ∧
    talk.progress.isNeed = false) ∨
      Removing backend.build.auth talk (Talking remotes backend.build.auth)) ?_ ?_
  · rcases destroying_cases removable remotes with ⟨hover, _, _⟩ | ⟨hneed, hturns, hjob, hsession⟩
    · exact .inl ⟨rfl, hover⟩
    · have hbegun := walking_begun backend remotes
      refine .inr ⟨⟨_, hsession, ?_⟩, fun _ => hjob⟩
      rw [hneed, hturns]
      exact ⟨hbegun.checked, fun _ => hbegun, fun h => by cases h⟩
  · intro talk ready h _
    rcases h with ⟨hsame, hover⟩ | hremoving
    · rw [Talk.next_over hover]
      exact .inl ⟨hsame, hover⟩
    · refine .inr (hremoving.next fun state needs _ _ htalking => ?_)
      have hwalking := htalking.walking rfl
      exact (turned_talking hwalking htalking.upgrade
        (turned_cases backend.build.auth state needs ready hwalking.begun)).reported _

/-- A removal never interrupted while it has a deletion to send owes every one, and at its end
none. -/
theorem removing_settling (removable : backend.copies = .removable)
    (run : Reaches (Talk.next Backend.machine) TimelyTalk (destroying backend remotes) talk) :
    (talk = destroying backend remotes ∧ talk.progress.isNeed = false) ∨
      Removing backend.build.auth talk fun state progress turns =>
        Talking remotes backend.build.auth state progress turns ∧
        Settling backend.build.auth (walk backend remotes) state progress turns := by
  refine run.invariant (fun talk => (talk = destroying backend remotes ∧
    talk.progress.isNeed = false) ∨
      Removing backend.build.auth talk fun state progress turns =>
        Talking remotes backend.build.auth state progress turns ∧
        Settling backend.build.auth (walk backend remotes) state progress turns) ?_ ?_
  · rcases destroying_cases removable remotes with ⟨hover, _, _⟩ | ⟨hneed, hturns, hjob, hsession⟩
    · exact .inl ⟨rfl, hover⟩
    · have hbegun := walking_begun backend remotes
      refine .inr ⟨⟨_, hsession, ?_⟩, fun _ => hjob⟩
      rw [hneed, hturns]
      exact ⟨⟨hbegun.checked, fun _ => hbegun, fun h => (by cases h)⟩,
        fun _ => ⟨.inl ⟨ends_walk backend remotes, by simp [inFlight]⟩,
          fun cmd hcmd _ => .inl hcmd⟩, fun _ h => by cases h⟩
  · intro talk ready h htimely
    rcases h with ⟨hsame, hover⟩ | hremoving
    · rw [Talk.next_over hover]
      exact .inl ⟨hsame, hover⟩
    · refine .inr (hremoving.next fun state needs _ hsession hholds => ?_)
      obtain ⟨htalking, hsettling⟩ := hholds
      have hwalking := htalking.walking rfl
      have hturned := turned_cases backend.build.auth state needs ready hwalking.begun
      exact ⟨(turned_talking hwalking htalking.upgrade hturned).reported _,
        (turned_settling hwalking (hsettling.owing rfl) (htimely _ hsession) htalking.upgrade
          hturned).reported _⟩

/-- Every message found in the survey was deleted, and if there was one, `QUIT` was answered. -/
structure Removed (backend : Backend) (remotes : List RemoteRef) (turns : List Turn) : Prop where
  deleted : ∀ uidl number, .pop uidl ∈ remotes → backend.numberFor uidl = some number →
    Answered backend.build.auth (.dele number) turns
  quit : ∀ uidl number, .pop uidl ∈ remotes → backend.numberFor uidl = some number →
    Answered backend.build.auth .quit turns

theorem dele_mem_removing (asked : .pop uidl ∈ remotes)
    (found : backend.numberFor uidl = some number) :
    .dele number ∈ remotes.flatMap backend.removing := by
  refine List.mem_flatMap.mpr ⟨_, asked, ?_⟩
  simp [Backend.removing, found]

/-- A removal deletes only what was asked for, whatever happens to it, and is called applied only
when everything found was removed, as long as it is not interrupted while a deletion is still to be
sent. -/
theorem removal_sound {backend : Backend} {remotes : List RemoteRef}
    (removable : backend.copies = .removable) :
    (∀ talk, Reaches (Talk.next Backend.machine) anyAction (destroying backend remotes) talk →
      ∀ later bytes heard earlier, talk.turns = later ++ ⟨.wrote bytes, heard⟩ :: earlier →
        (wire "DELE").isPrefixOf bytes = true →
        Behind remotes backend.build.auth bytes earlier) ∧
    ∀ talk, Reaches (Talk.next Backend.machine) TimelyTalk (destroying backend remotes) talk →
      talk.progress = .done .applied → Removed backend remotes talk.turns := by
  refine ⟨fun talk run later bytes heard earlier hsplit hdele => ?_, fun talk run happlied => ?_⟩
  · have hchecked : Checked remotes backend.build.auth talk.turns := by
      rcases removing_talking removable run with ⟨hsame, hover⟩ | hremoving
      · rcases destroying_cases removable remotes with ⟨_, hturns, _⟩ | ⟨hneed, _⟩
        · rw [hsame, hturns]
          exact ⟨fun _ h => (by cases h), trivial⟩
        · rw [hsame, hneed] at hover
          cases hover
      · obtain ⟨_, _, htalking⟩ := hremoving.session
        exact htalking.checked
    exact hchecked.behind hsplit hdele
  · have hanswered : ∀ uidl number, .pop uidl ∈ remotes → backend.numberFor uidl = some number →
        ∀ cmd ∈ walk backend remotes, Marks cmd → Answered backend.build.auth cmd talk.turns := by
      intro uidl number hasked hfound
      rcases removing_settling removable run with ⟨hsame, hover⟩ | hremoving
      · rcases destroying_cases removable remotes with ⟨_, _, hnone⟩ | ⟨hneed, _⟩
        · have hmem := dele_mem_removing hasked hfound
          rw [hnone (hsame ▸ happlied)] at hmem
          cases hmem
        · rw [hsame, hneed] at hover
          cases hover
      · obtain ⟨_, _, _, hsettling⟩ := hremoving.session
        exact hsettling.settled _ happlied
    refine ⟨fun uidl number hasked hfound => hanswered uidl number hasked hfound _ ?_
      (.inr ⟨number, rfl⟩), fun uidl number hasked hfound =>
        hanswered uidl number hasked hfound _ ?_ (.inl rfl)⟩
    · exact List.mem_append_left _ (List.mem_append_right _ (dele_mem_removing hasked hfound))
    · exact List.mem_append_right _ (.head _)

def surveyed : Backend :=
  { caps := ⟨.absent, .absent⟩
    build := ⟨"user", "pass", [.plain], none⟩
    session := none
    job := .idle
    uidls := [(1, "one"), (2, "two")]
    sizes := []
    copies := .removable }

theorem removal_sound_surveyed : (∀ talk, Reaches (Talk.next Backend.machine) anyAction
        (destroying surveyed [.pop "one", .pop "two"]) talk →
      ∀ later bytes heard earlier, talk.turns = later ++ ⟨.wrote bytes, heard⟩ :: earlier →
        (wire "DELE").isPrefixOf bytes = true →
        Behind [.pop "one", .pop "two"] ⟨"user", "pass"⟩ bytes earlier) ∧
    ∀ talk, Reaches (Talk.next Backend.machine) TimelyTalk
        (destroying surveyed [.pop "one", .pop "two"]) talk →
      talk.progress = .done .applied → Removed surveyed [.pop "one", .pop "two"] talk.turns :=
  removal_sound rfl

def interrupted : List IoReady :=
  [.bytes (wire "+OK ready\r\n"), .bytes (wire "+OK in\r\n"), .bytes (wire "+OK 1 one\r\n"),
    .interrupt, .bytes (wire "+OK marked\r\n"), .bytes (wire "+OK bye\r\n")]

/-- Interrupted after it has deleted one of two messages, a removal is called applied. -/
theorem removal_interrupted : ∃ talk, Reaches (Talk.next Backend.machine) anyAction
        (destroying surveyed [.pop "one", .pop "two"]) talk ∧
      talk.progress = .done .applied ∧ ¬ Removed surveyed [.pop "one", .pop "two"] talk.turns := by
  refine ⟨_, Reaches.start.foldl interrupted, by decide, fun removed => ?_⟩
  obtain ⟨heard, text, hmem, _⟩ := removed.deleted "two" 2 (by decide) (by decide)
  have hnever : ∀ turn ∈ (interrupted.foldl (Talk.next Backend.machine)
      (destroying surveyed [.pop "one", .pop "two"])).turns,
      turn.did ≠ .wrote (encode (.dele 2) surveyed.build.auth) := by decide
  exact hnever _ hmem rfl

end Mailo.Proto.Pop3
