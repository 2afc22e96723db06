import Mailo.Domain.Remote

/-!
# One account's connection, as a state machine

`step` takes a state, an event and the time to the next state and the effects the caller must
perform. Nothing here reads a clock.
-/

namespace Mailo.Logic

open Domain

abbrev Duration := Int

def seconds (n : Int) : Duration := n * 1000000000

def backoffCeiling : Duration := seconds (30 * 60)

def retryNow : Duration := seconds 5

def idleRearm : Duration := seconds (25 * 60)

/-- The longest a pushed account goes without a pass before the link starts one itself. -/
def pushSilence : Duration := idleRearm + seconds (5 * 60)

inductive First where
  | yes | no
deriving DecidableEq

/-- How an account hears about new mail between passes. -/
inductive Live where
  | polling | pushed
deriving DecidableEq

inductive Step where
  | connecting | folders
  | headers (mailbox : String)
  | flags | bodies | sending
deriving DecidableEq

inductive Pause where
  | unreachable | throttled | serverBusy
deriving DecidableEq

structure Count where
  done : UInt32
  of : UInt32
deriving DecidableEq

/-- One thing that went wrong in a pass that otherwise ran. -/
structure Trouble where
  mailbox : Option String
  retry : Retry
  why : Option String
deriving DecidableEq

/-- Where an account's mail fetching stands. -/
inductive Link where
  | fresh
  | syncing (first : First) (step : Step) (count : Option Count) (after : Link)
  | current (finished : DateTime) (trouble : List Trouble) (live : Live)
  | waiting (due : DateTime) (why : Pause) (failures : Nat) (first : First)
  | needsSignIn (why : String) (first : First)
  | needsAllow (why : String) (first : First)
  | broken (why : String) (first : First)
deriving DecidableEq

inductive Trigger where
  | poll | push | manual | folderOpen
deriving DecidableEq

inductive Event where
  | start (trigger : Trigger)
  | stepped (step : Step) (count : Option Count)
  | finished (trouble : List Trouble)
  | failed (retry : Retry) (why : String) (pause : Pause)
  | cancel
  | tick
  | signedIn
  | live (live : Live)
deriving DecidableEq

/-- What the caller must do after a transition. -/
inductive Effect where
  | runPass
  | cancelPass
  | wakeAt (due : DateTime)
deriving DecidableEq

namespace Link

/-- Whether a pass begun from here is the one that fills an account that has never been fetched. -/
def first : Link → First
  | fresh => .yes
  | current _ _ _ => .no
  | syncing first _ _ _ => first
  | waiting _ _ _ first => first
  | needsSignIn _ first => first
  | needsAllow _ first => first
  | broken _ first => first

def isBusy : Link → Bool
  | syncing _ _ _ _ => true
  | _ => false

/-- The state this link is at rest in: itself, or what a running pass will fall back to. -/
def resting : Link → Link
  | syncing _ _ _ after => after.resting
  | other => other

end Link

def backoff (failures : Nat) (every : Duration) : Duration :=
  max (min (every * 2 ^ min (failures - 1) 16) backoffCeiling) every

def timeDeltaMax : Duration := 9223372036854775807 * 1000000

/-- The end of time. -/
def maxUtc : DateTime := 8210266876799999999999

def later (now : DateTime) (wait : Duration) : DateTime :=
  if wait ≤ timeDeltaMax ∧ now + wait ≤ maxUtc then now + wait else maxUtc

/-- The longest a current link rests before it starts a pass itself. -/
def between (live : Live) (every : Duration) : Duration :=
  match live with
  | .polling => every
  | .pushed => pushSilence

/-- How the account was being told about mail before the running pass began. -/
def liveOf : Link → Live
  | .current _ _ live => live
  | _ => .polling

/-- A pass starts from `from`, which is what a cancel returns to. -/
def begin (before : Link) : Link × List Effect :=
  (.syncing before.first .connecting none before, [.runPass])

def failuresAfter : Link → Nat
  | .waiting _ _ failures _ => min (failures + 1) 4294967295
  | _ => 1

/-- The link left alone for a while. -/
def waitFor (first : First) (pause : Pause) (failures : Nat) (now : DateTime) (wait : Duration) :
    Link × List Effect :=
  (.waiting (later now wait) pause failures first, [.wakeAt (later now wait)])

/-- A pass failed; `after` is where it began, which holds the failures so far. -/
def failed (first : First) (after : Link) (retry : Retry) (why : String) (pause : Pause)
    (now : DateTime) (every : Duration) : Link × List Effect :=
  let failures := failuresAfter after
  let wait := waitFor first pause failures now
  match retry with
  -- The first failure is most likely a dropped connection, worth a quick second try.
  | .now => wait (if failures < 2 then retryNow else max (backoff failures every) retryNow)
  | .after named =>
    let wanted := max named (backoff failures every)
    wait (if pause = .throttled then wanted else min wanted backoffCeiling)
  | .needsReauth => (.needsSignIn why first, [])
  | .needsGrant => (.needsAllow why first, [])
  | .fatal fatal => (.broken (if fatal = "" then why else fatal) first, [])

/-- The watch's word on being connected: how a current link is kept up to date from now on. A
running pass remembers it for when it finishes, which is when it matters. -/
def toldLive (live : Live) (now : DateTime) (every : Duration) : Link → Link × List Effect
  | .syncing first doing count after =>
    (.syncing first doing count (toldLive live now every after).1, [])
  | .current finished trouble was =>
    if was = live then (.current finished trouble was, [])
    else (.current finished trouble live,
      [.wakeAt (max (later finished (between live every)) now)])
  | other => (other, [])

/-- What an event does to a running pass. -/
def running (first : First) (doing : Step) (count : Option Count) (after : Link) (event : Event)
    (now : DateTime) (every : Duration) : Link × List Effect :=
  match event with
  | .stepped doing count => (.syncing first doing count after, [])
  | .finished trouble =>
    (.current now trouble (liveOf after), [.wakeAt (later now (between (liveOf after) every))])
  | .failed retry why pause => failed first after retry why pause now every
  | .cancel => (after, [.cancelPass])
  | .live live => toldLive live now every (.syncing first doing count after)
  | .start _ | .tick | .signedIn => (.syncing first doing count after, [])

def step (link : Link) (event : Event) (now : DateTime) (every : Duration) : Link × List Effect :=
  match link, event with
  | .syncing first doing count after, event => running first doing count after event now every
  | .fresh, .start _ => begin link
  | .current _ _ _, .start _ => begin link
  | .waiting _ _ _ _, .start _ => begin link
  | .broken _ _, .start .manual => begin link
  | .current finished _ live, .tick =>
    if later finished (between live every) ≤ now then begin link else (link, [])
  | .waiting due _ _ _, .tick => if due ≤ now then begin link else (link, [])
  | .needsSignIn _ _, .signedIn => begin link
  | .needsAllow _ _, .signedIn => begin link
  | .current finished trouble was, .live live =>
    toldLive live now every (.current finished trouble was)
  | _, _ => (link, [])

end Mailo.Logic
