import Mailo.Engine.Schedule.Scheduler
import Mailo.Library.Runs

/-!
# The scheduler among what it started

Passes, timers and watches run beside the scheduler and speak to it through one channel, whose
notes are handled one at a time in the order they were sent. A word waits in the channel while the
notes before it are handled.
-/

namespace Mailo.Engine.Schedule

open Domain Logic

inductive Note where
  | event (account : AccountId) (event : Event)
  | accounts (listed : AccountId → Listed)

inductive Sender where
  | person
  | timer
  | pass (id : Nat)
  | watch (id : Nat)
deriving DecidableEq

structure Letter where
  note : Note
  sender : Sender

/-- What watches said about being connected, each with the watch that said it, the latest first. -/
abbrev Words := AccountId → List (Nat × Live)

def Letter.recorded (letter : Letter) (spoken : Words) : Words :=
  match letter with
  | ⟨.event account (.live live), .watch id⟩ =>
    Function.update spoken account ((id, live) :: spoken account)
  | _ => spoken

structure World where
  cells : AccountId → Cell
  /-- What was set going for each account and has not ended. -/
  flight : AccountId → List Task
  /-- The accounts whose first fetch still waits one beat. -/
  beat : List AccountId
  inbox : List Letter
  /-- The words about being connected that were handled. -/
  spoken : Words

/-- What the server, the outbox or the clock said. -/
inductive Heard where
  | established | mail | due | interval
deriving DecidableEq

def eventFor : Heard → Event
  | .established => .live .pushed
  | .mail => .start .push
  | .due | .interval => .start .poll

inductive Ending where
  | finished (trouble : List Trouble)
  | failed (retry : Retry) (why : String) (pause : Pause)
  | cancelled
deriving DecidableEq

def Ending.event : Ending → Event
  | .finished trouble => .finished trouble
  | .failed retry why pause => .failed retry why pause
  | .cancelled => .cancel

inductive Act where
  /-- A person, or whoever tells of the accounts, sends a note. -/
  | post (note : Note)
  | deliver (host : Host)
  | beat
  | fire (account : AccountId) (generation : Nat) (wait : Duration) (event : Event)
  | speaks (account : AccountId) (id generation : Nat) (doing : Step) (count : Option Count)
  | ends (account : AccountId) (id generation : Nat) (ending : Ending)
  | hears (account : AccountId) (id : Nat) (heard : Heard)
  /-- A connection was lost; `nudge` where a pass should find out why. -/
  | loses (account : AccountId) (id : Nat) (nudge : Bool)
  | quits (account : AccountId) (id : Nat)

namespace World

def send (world : World) (sender : Sender) (notes : List Note) : World :=
  { world with inbox := world.inbox ++ notes.map fun note => ⟨note, sender⟩ }

def drop (world : World) (account : AccountId) (task : Task) : World :=
  { world with
    flight := Function.update world.flight account ((world.flight account).erase task) }

def handled (world : World) (host : Host) : Note → World
  | .event account event =>
    let turn := handle host depth ⟨world.cells account, []⟩ event
    { world with
      cells := Function.update world.cells account turn.cell
      flight := Function.update world.flight account (world.flight account ++ turn.fresh) }
  | .accounts listed =>
    { world with
      cells := fun account => (follow host (listed account) (world.cells account)).cell
      flight := fun account =>
        world.flight account ++ (follow host (listed account) (world.cells account)).fresh }

/-- One thing happens. What no longer counts, or does not run, does nothing. -/
def act (world : World) : Act → World
  | .post note => world.send .person [note]
  | .deliver host =>
    match world.inbox with
    | [] => world
    | letter :: rest =>
      { world with inbox := rest, spoken := letter.recorded world.spoken }.handled host
        letter.note
  | .beat =>
    { world with beat := [] }.send .timer
      (world.beat.map fun account => .event account (.start .poll))
  | .fire account generation wait event =>
    if .timer generation wait event ∈ world.flight account then
      let fired := world.drop account (.timer generation wait event)
      if (world.cells account).wakes = some generation then
        fired.send .timer [.event account event]
      else fired
    else world
  | .speaks account id generation doing count =>
    if .pass id generation ∈ world.flight account ∧
        (world.cells account).passes = some generation then
      world.send (.pass id) [.event account (.stepped doing count)]
    else world
  | .ends account id generation ending =>
    if .pass id generation ∈ world.flight account then
      let ended := world.drop account (.pass id generation)
      if (world.cells account).passes = some generation then
        ended.send (.pass id) [.event account ending.event]
      else ended
    else world
  | .hears account id heard =>
    if .watch id ∈ world.flight account then
      world.send (.watch id) [.event account (eventFor heard)]
    else world
  | .loses account id nudge =>
    if .watch id ∈ world.flight account ∧ id ∉ (world.cells account).told then
      world.send (.watch id) (.event account (.live .polling) ::
        if nudge then [.event account (.start .poll)] else [])
    else world
  | .quits account id => world.drop account (.watch id)

/-- The scheduler over the accounts it already knows, before their first beat. -/
def start (accounts : List AccountId) (listed : AccountId → Listed) (now : DateTime) : World where
  cells := fun account =>
    if account ∈ accounts then
      { Cell.empty with
        link := some (linkFor (listed account).last (listed account).mail now)
        every := (listed account).every }
    else Cell.empty
  flight := fun _ => []
  beat := accounts
  inbox := []
  spoken := fun _ => []

/-- What is left where nothing was handled. -/
structure Framed (world after : World) : Prop where
  cells : after.cells = world.cells
  flight : ∀ account, (after.flight account).Sublist (world.flight account)
  spoken : after.spoken = world.spoken

theorem Framed.refl (world : World) : Framed world world := ⟨rfl, fun _ => .refl _, rfl⟩

theorem drop_framed (world : World) (of : AccountId) (task : Task) :
    Framed world (world.drop of task) := by
  refine ⟨rfl, fun account => ?_, rfl⟩
  unfold drop
  dsimp only
  by_cases hof : account = of
  · subst hof
    rw [Function.update_self]
    exact List.erase_sublist
  · rw [Function.update_of_ne hof]

/-- Only the scheduler changes what it keeps, and only it sets anything going. -/
theorem act_framed {world : World} {act : Act} (h : ∀ host, act ≠ .deliver host) :
    Framed world (world.act act) := by
  have hstill := Framed.refl world
  cases act with
  | deliver host => exact absurd rfl (h host)
  | post | beat => exact ⟨rfl, hstill.flight, rfl⟩
  | fire of generation wait event =>
    have hdrop := drop_framed world of (.timer generation wait event)
    dsimp only [act]
    split
    · split
      · exact ⟨rfl, hdrop.flight, rfl⟩
      · exact hdrop
    · exact hstill
  | speaks of id generation doing count =>
    dsimp only [act]
    split
    · exact ⟨rfl, hstill.flight, rfl⟩
    · exact hstill
  | ends of id generation ending =>
    have hdrop := drop_framed world of (.pass id generation)
    dsimp only [act]
    split
    · split
      · exact ⟨rfl, hdrop.flight, rfl⟩
      · exact hdrop
    · exact hstill
  | hears | loses =>
    dsimp only [act]
    split
    · exact ⟨rfl, hstill.flight, rfl⟩
    · exact hstill
  | quits of id => exact drop_framed world of (.watch id)

/-- What handling a note makes of one account. -/
def turnOf (world : World) (host : Host) (account : AccountId) : Note → Turn
  | .event of event =>
    if account = of then handle host depth ⟨world.cells account, []⟩ event
    else ⟨world.cells account, []⟩
  | .accounts listed => follow host (listed account) (world.cells account)

structure Delivered (world : World) (host : Host) (letter : Letter) (rest : List Letter)
    (after : World) : Prop where
  cells : ∀ account, after.cells account = (world.turnOf host account letter.note).cell
  flight : ∀ account, after.flight account =
    world.flight account ++ (world.turnOf host account letter.note).fresh
  inbox : after.inbox = rest
  beat : after.beat = world.beat
  spoken : after.spoken = letter.recorded world.spoken

theorem act_delivered {world : World} {letter : Letter} {rest : List Letter}
    (hinbox : world.inbox = letter :: rest) (host : Host) :
    Delivered world host letter rest (world.act (.deliver host)) := by
  simp only [act, hinbox]
  cases hnote : letter.note with
  | event of event =>
    refine ⟨fun account => ?_, fun account => ?_, rfl, rfl, rfl⟩
    · rw [hnote]
      by_cases hof : account = of
      · subst hof
        simp only [handled, turnOf, Function.update_self, if_true]
      · simp only [handled, turnOf, Function.update_of_ne hof, if_neg hof]
    · rw [hnote]
      by_cases hof : account = of
      · subst hof
        simp only [handled, turnOf, Function.update_self, if_true]
      · simp only [handled, turnOf, Function.update_of_ne hof, if_neg hof, List.append_nil]
  | accounts listed => exact ⟨fun _ => by rw [hnote]; rfl, fun _ => by rw [hnote]; rfl, rfl, rfl, rfl⟩

/-- What does not handle a note, and what does. -/
theorem act_cases (world : World) (act : Act) :
    (world.act act = world ∧ world.inbox = []) ∨ (∀ host, act ≠ .deliver host) ∨
      ∃ host letter rest, act = .deliver host ∧ world.inbox = letter :: rest ∧
        Delivered world host letter rest (world.act act) := by
  cases act with
  | deliver host =>
    cases hinbox : world.inbox with
    | nil => exact .inl ⟨by simp only [World.act, hinbox], rfl⟩
    | cons letter rest => exact .inr (.inr ⟨host, letter, rest, rfl, rfl, act_delivered hinbox host⟩)
  | _ => exact .inr (.inl fun host h => by cases h)

end World

end Mailo.Engine.Schedule
