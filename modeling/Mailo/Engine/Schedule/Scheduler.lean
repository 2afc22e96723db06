import Mailo.Logic.Link

/-!
# The scheduler of mail fetching

Everything that happens to an account arrives as a note. Each is given to the link, and the effects
the link asks for are run: a pass, a cancel, a timer. What is kept for an account is one record; the
scheduler keeps one for each.
-/

namespace Mailo.Engine.Schedule

open Domain Logic

/-- Who decides when mail is fetched: this process, or a watch beside it. -/
inductive Scheduling where
  | window | watch
deriving DecidableEq

/-- Whether the background daemon holds the lock that makes it the one account watcher. -/
inductive Daemon where
  | holding | absent
deriving DecidableEq

inductive Verdict where
  | run | defer | drop
deriving DecidableEq

/-- What to do with `event` for `link`, given who schedules. -/
def verdict (schedule : Scheduling) (link : Link) (event : Event) : Verdict :=
  if schedule = .window ∨ link.isBusy = true ∨ link = .fresh then .run
  else
    match event with
    | .start .poll | .tick => .defer
    | .start .push => .drop
    | _ => .run

inductive Action where
  | start | stop | keep
deriving DecidableEq

/-- A stop that a watch is not kept at. -/
def refused : Link → Bool
  | .needsSignIn _ _ | .broken _ _ => true
  | _ => false

/-- Whether a watch is wanted: the server can push, nobody else holds the account, and the link is
not at a stop that only a person can clear. -/
def wanted (pusher : Bool) (daemon : Daemon) (link : Link) : Bool :=
  pusher && daemon == .absent && !refused link.resting

def decideWatch (running pusher : Bool) (daemon : Daemon) (link : Link) : Action :=
  match running, wanted pusher daemon link with
  | false, true => .start
  | true, false => .stop
  | _, _ => .keep

/-! ## What is kept for an account -/

def fallback : Duration := seconds 300

def manually : Duration := 18446744073709551615 * 1000000000 + 999999999

/-- A timer is set for a little after the time it is for. -/
def slack : Duration := 250000000

/-- The longest a single timer sleeps. -/
def far : Duration := seconds (24 * 3600)

def delay (due now : DateTime) : Duration := min (max (due - now) 0) far + slack

/-- What the scheduler keeps for one account: its entry in each of its tables. -/
structure Cell where
  link : Option Link
  every : Option Duration
  /-- The pass whose cancel handle is held. -/
  cancel : Option Nat
  /-- The generation of its passes, and of its wakes. -/
  passes : Option Nat
  wakes : Option Nat
  /-- Told of mail while a pass was running. -/
  dirty : Bool
  pusher : Bool
  watch : Option Nat
  /-- What the watch last said about being connected. -/
  said : Option Live
  /-- How many passes and watches were begun for it, which is what the next is known by. -/
  made : Nat
  /-- The passes and watches that were told to stop. -/
  told : List Nat
deriving DecidableEq

def Cell.empty : Cell := ⟨none, none, none, none, none, false, false, none, none, 0, []⟩

def Cell.interval (cell : Cell) : Duration := cell.every.getD fallback

def Cell.lastWord (cell : Cell) : Live := cell.said.getD .polling

inductive Task where
  | pass (id generation : Nat)
  | timer (generation : Nat) (wait : Duration) (event : Event)
  | watch (id : Nat)
deriving DecidableEq

/-- What is kept, and what was set going since the note arrived. -/
structure Turn where
  cell : Cell
  fresh : List Task
deriving DecidableEq

/-- What the host answers while a note is handled. -/
structure Host where
  now : DateTime
  schedule : Scheduling
  daemon : Daemon

def nextGeneration (generation : Option Nat) : Nat := generation.getD 0 + 1

namespace Turn

/-- A timer for the account, which makes every earlier one stale. -/
def arm (turn : Turn) (wait : Duration) (event : Event) : Turn :=
  let generation := nextGeneration turn.cell.wakes
  ⟨{ turn.cell with wakes := some generation }, turn.fresh ++ [.timer generation wait event]⟩

/-- A poll or wake that was left to a watch is asked again in an interval. -/
def defer (turn : Turn) : Turn := turn.arm turn.cell.interval (.start .poll)

def runPass (turn : Turn) : Turn :=
  let generation := nextGeneration turn.cell.passes
  let id := turn.cell.made
  ⟨{ turn.cell with cancel := some id, passes := some generation, made := id + 1 },
    turn.fresh ++ [.pass id generation]⟩

def cancelPass (turn : Turn) : Turn :=
  ⟨{ turn.cell with
      passes := some (nextGeneration turn.cell.passes), cancel := none,
      told := turn.cell.cancel.toList ++ turn.cell.told }, turn.fresh⟩

def effect (now : DateTime) (turn : Turn) : Effect → Turn
  | .runPass => turn.runPass
  | .cancelPass => turn.cancelPass
  | .wakeAt due => turn.arm (delay due now) .tick

def beginWatch (turn : Turn) : Turn :=
  let id := turn.cell.made
  ⟨{ turn.cell with watch := some id, made := id + 1 }, turn.fresh ++ [.watch id]⟩

def stopWatch (turn : Turn) : Turn :=
  ⟨{ turn.cell with
      watch := none, said := none, told := turn.cell.watch.toList ++ turn.cell.told }, turn.fresh⟩

/-- What the watch says about being connected is remembered whatever the link is doing, and so is
a push that finds a pass running. -/
def hear (turn : Turn) (link : Link) (event : Event) : Turn :=
  let said :=
    match event with
    | .live live => if turn.cell.watch.isSome then some live else turn.cell.said
    | _ => turn.cell.said
  ⟨{ turn.cell with
      said := said,
      dirty := turn.cell.dirty || (link.isBusy && event == .start .push) }, turn.fresh⟩

end Turn

/-- Start or stop the watch to match `link`; `again` handles what a stopped one leaves to say. -/
def reconcileWatch (host : Host) (again : Turn → Event → Turn) (turn : Turn) (link : Link) : Turn :=
  match decideWatch turn.cell.watch.isSome turn.cell.pusher host.daemon link with
  | .start => turn.beginWatch
  -- Its last word no longer holds: back on the timer.
  | .stop => again turn.stopWatch (.live .polling)
  | .keep => turn

inductive LinkKind where
  | fresh | syncing | current | waiting | needsSignIn | needsAllow | broken
deriving DecidableEq

def kind : Link → LinkKind
  | .fresh => .fresh
  | .syncing _ _ _ _ => .syncing
  | .current _ _ _ => .current
  | .waiting _ _ _ _ => .waiting
  | .needsSignIn _ _ => .needsSignIn
  | .needsAllow _ _ => .needsAllow
  | .broken _ _ => .broken

def finishedCurrent (after : Link) (event : Event) : Bool :=
  match event, after with
  | .finished _, .current _ _ _ => true
  | _, _ => false

/-- Whether the link is current and kept up to date otherwise than the watch last said. -/
def misheard (next : Link) (word : Live) : Bool :=
  match next with
  | .current _ _ live => live != word
  | _ => false

def moveWatch (host : Host) (again : Turn → Event → Turn) (turn : Turn) (was next : Link) : Turn :=
  if kind was.resting = kind next.resting then turn else reconcileWatch host again turn next

def passEnded (was next : Link) : Bool := was.isBusy && !next.isBusy

/-- What was heard during a pass that ended is not heard of the next one. -/
def Turn.settled (turn : Turn) (was next : Link) : Turn :=
  ⟨{ turn.cell with dirty := turn.cell.dirty && !passEnded was next }, turn.fresh⟩

/-- Whether a start that found the pass running is due now that it has finished. -/
def Turn.owes (turn : Turn) (was next : Link) (event : Event) : Bool :=
  passEnded was next && turn.cell.dirty && finishedCurrent next event

/-- What a step sets going besides its effects: the watch, and a start that was waiting. -/
def after (host : Host) (again : Turn → Event → Turn) (turn : Turn) (was next : Link)
    (event : Event) : Turn :=
  let turn := moveWatch host again turn was next
  if turn.owes was next event then again (turn.settled was next) (.start .push)
  -- A link that has just become current takes the watch's word for how it is kept up to date.
  else if misheard next turn.cell.lastWord then
    again (turn.settled was next) (.live turn.cell.lastWord)
  else turn.settled was next

def Turn.next (host : Host) (turn : Turn) (link : Link) (event : Event) : Link :=
  (step link event host.now turn.cell.interval).1

def Turn.move (host : Host) (turn : Turn) (link : Link) (event : Event) : Turn :=
  let heard := turn.hear link event
  (step link event host.now turn.cell.interval).2.foldl (Turn.effect host.now)
    ⟨{ heard.cell with link := some (turn.next host link event) }, heard.fresh⟩

/-- Move the link by `event` and do what that asks, `fuel` the calls this makes of itself. -/
def handle (host : Host) : Nat → Turn → Event → Turn
  | 0, turn, _ => turn
  | fuel + 1, turn, event =>
    match turn.cell.link with
    | none => turn
    | some link =>
      if event = .start .poll ∧ turn.cell.interval = manually then turn
      else
        match verdict host.schedule link event with
        | .defer => reconcileWatch host (handle host fuel) turn.defer link
        | .drop => reconcileWatch host (handle host fuel) turn link
        | .run =>
          after host (handle host fuel) (turn.move host link event) link
            (turn.next host link event) event

/-- The link an account begins at: knowing nothing, or resting after an earlier window's pass. -/
def linkFor (last : Option DateTime) (mail : Bool) (now : DateTime) : Link :=
  match last, mail with
  | none, false => .fresh
  | last, _ => .current (min (last.getD now) now) [] .polling

/-- What the scheduler is told of one account when the accounts change: how often it wants a pass
where it has a server, whether it can be pushed to, and what the store says of it. -/
structure Listed where
  every : Option Duration
  pusher : Bool
  last : Option DateTime
  mail : Bool

def gone (cell : Cell) : Cell :=
  { cell with
    link := none, cancel := none, passes := none, wakes := none, dirty := false,
    watch := none, said := none,
    told := cell.watch.toList ++ (cell.cancel.toList ++ cell.told) }

/-- How many calls of itself the handling of one event makes at most. -/
def depth : Nat := 4

/-- The accounts changed, for one of them: a new one is given a link and its first pass, and a gone
one is dropped with what runs for it. -/
def adopt (host : Host) (listed : Listed) (cell : Cell) : Turn :=
  let told := { cell with every := listed.every, pusher := listed.pusher }
  match cell.link, listed.every with
  | none, some _ =>
    handle host depth
      ⟨{ told with link := some (linkFor listed.last listed.mail host.now) }, []⟩ (.start .poll)
  | some _, none => ⟨gone told, []⟩
  | none, none | some _, some _ => ⟨told, []⟩

def follow (host : Host) (listed : Listed) (cell : Cell) : Turn :=
  let turn := adopt host listed cell
  match turn.cell.link with
  | none => turn
  | some link => reconcileWatch host (handle host depth) turn link

end Mailo.Engine.Schedule
