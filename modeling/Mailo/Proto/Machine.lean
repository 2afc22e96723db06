import Mailo.Domain.Remote
import Mailo.Library.Utf8

/-!
# The one shape every protocol machine has

A machine is fed what happened and answers with what it wants done. What passes on the wire is
read off a machine from outside: what it wrote, and the bytes it took from its buffer before it
wrote anything more.
-/

namespace Mailo.Proto

open Domain Library

abbrev Bytes := List UInt8

/-- Text as it stands on the wire. -/
def wire (text : String) : Bytes := Utf8.encode text.toList

inductive Tls where
  | implicit | startTlsRequired | plaintext
deriving DecidableEq

inductive SaslMech where
  | plain | login | xOauth2
deriving DecidableEq

inductive Refusal where
  | transient | permanent
deriving DecidableEq

inductive ProtoError where
  | malformed (text : String)
  | refused (kind : Refusal) (text : String)
  | authRejected (text : String)
  | unexpectedEof
  | throttled (reason : String) (retryAfter : Option Nat)
  | unsupported (text : String)
deriving DecidableEq

theorem map_eq_ok {ε α β : Type} {f : α → β} {result : Except ε α} {out : β}
    (h : result.map f = .ok out) : ∃ value, result = .ok value ∧ f value = out := by
  cases result with
  | error error => cases h
  | ok value => exact ⟨value, rfl, Except.ok.inj h⟩

theorem bind_eq_ok {ε α β : Type} {f : α → Except ε β} {result : Except ε α} {out : β}
    (h : result.bind f = .ok out) : ∃ value, result = .ok value ∧ f value = .ok out := by
  cases result with
  | error error => cases h
  | ok value => exact ⟨value, rfl, h⟩

/-- What a machine wants done before it can continue. -/
inductive IoNeed where
  | write (bytes : Bytes)
  | read
  | flush
  | openTls (host : String) (port : Nat) (mode : Tls)
  | deflate (leftover : Bytes)
  | sleep (duration : Nat)
  | close
deriving DecidableEq

/-- What happened, fed back into the machine. -/
inductive IoReady where
  | bytes (bytes : Bytes)
  | eof
  | tlsOpen
  | woke
  | interrupt
deriving DecidableEq

inductive Progress (α : Type) where
  | need (needs : List IoNeed)
  | done (out : α)
  | failed (error : ProtoError)
deriving DecidableEq

namespace Progress

def isNeed {α : Type} : Progress α → Bool
  | .need _ => true
  | _ => false

def needs {α : Type} : Progress α → List IoNeed
  | .need needs => needs
  | _ => []

end Progress

/-- What an operation came to; `κ` is what a server's capabilities are read into. -/
inductive ProtoOutcome (κ : Type) where
  | ingested (ingest : Ingest)
  | caps (caps : κ)
  | applied
  | fetched (items : List (RemoteRef × Bytes))
  | woken
deriving DecidableEq

/-- A machine, with the bytes it holds and has not taken as part of an answer. -/
structure Machine (σ α : Type) where
  feed : σ → IoReady → σ × Progress α
  unread : σ → Bytes

/-! ## What passes on the wire -/

inductive Did where
  | listened
  | secured
  | wrote (bytes : Bytes)
deriving DecidableEq

/-- What a machine did, and the bytes it took before it did anything more. -/
structure Turn where
  did : Did
  heard : Bytes
deriving DecidableEq

/-- A machine being driven: the turns so far, the latest first. -/
structure Talk (σ α : Type) where
  state : σ
  progress : Progress α
  turns : List Turn

def IoReady.received : IoReady → Bytes
  | .bytes fed => fed
  | _ => []

def writes (needs : List IoNeed) : Bytes :=
  needs.flatMap fun need =>
    match need with
    | .write bytes => bytes
    | _ => []

def isWrite : IoNeed → Bool
  | .write _ => true
  | _ => false

def isOpenTls : IoNeed → Bool
  | .openTls _ _ _ => true
  | _ => false

namespace Talk

variable {σ α : Type}

/-- Bytes taken in the latest turn. -/
def hear (heard : Bytes) : List Turn → List Turn
  | [] => [⟨.listened, heard⟩]
  | turn :: rest => ⟨turn.did, turn.heard ++ heard⟩ :: rest

/-- A turn of its own for what is written, none where nothing is. -/
def speak (needs : List IoNeed) (turns : List Turn) : List Turn :=
  if needs.any isWrite then ⟨.wrote (writes needs), []⟩ :: turns else turns

def begin (state : σ) (progress : Progress α) : Talk σ α :=
  ⟨state, progress, speak progress.needs [⟨.listened, []⟩]⟩

/-- The upgrade a machine asked for is a turn of its own. -/
def secure (needs : List IoNeed) (ready : IoReady) (turns : List Turn) : List Turn :=
  if ready = .tlsOpen ∧ needs.any isOpenTls then ⟨.secured, []⟩ :: turns else turns

/-- Feed one event. What has finished or failed is fed nothing more. -/
def next (machine : Machine σ α) (talk : Talk σ α) (ready : IoReady) : Talk σ α :=
  match talk.progress with
  | .need needs =>
    let after := machine.feed talk.state ready
    let fed := machine.unread talk.state ++ ready.received
    let taken := fed.take (fed.length - (machine.unread after.1).length)
    ⟨after.1, after.2, speak after.2.needs (hear taken (secure needs ready talk.turns))⟩
  | _ => talk

def run (machine : Machine σ α) (talk : Talk σ α) (events : List IoReady) : Talk σ α :=
  events.foldl (next machine) talk

@[simp] theorem speak_read (turns : List Turn) : speak [.read] turns = turns := rfl

@[simp] theorem speak_write (bytes : Bytes) (turns : List Turn) :
    speak [.write bytes, .read] turns = ⟨.wrote bytes, []⟩ :: turns := by
  simp [speak, isWrite, writes]

theorem hear_nil {turns : List Turn} (h : turns ≠ []) : hear [] turns = turns := by
  cases turns with
  | nil => exact absurd rfl h
  | cons turn rest => simp [hear]

theorem secure_ne_nil {turns : List Turn} (h : turns ≠ []) (needs : List IoNeed)
    (ready : IoReady) : secure needs ready turns ≠ [] := by
  unfold secure
  split
  · simp
  · exact h

theorem next_need {machine : Machine σ α} {talk : Talk σ α} {needs : List IoNeed}
    {ready : IoReady} {after : σ} {progress : Progress α} (waits : talk.progress = .need needs)
    (fed : machine.feed talk.state ready = (after, progress)) :
    talk.next machine ready = ⟨after, progress, speak progress.needs
      (hear ((machine.unread talk.state ++ ready.received).take
        ((machine.unread talk.state ++ ready.received).length - (machine.unread after).length))
        (secure needs ready talk.turns))⟩ := by
  unfold next
  rw [waits]
  rw [fed]

/-- What is over stays as it is. -/
theorem next_over {machine : Machine σ α} {talk : Talk σ α} (hceased : talk.progress.isNeed = false)
    (ready : IoReady) : talk.next machine ready = talk := by
  unfold next
  cases hprogress : talk.progress with
  | need needs =>
    rw [hprogress] at hceased
    cases hceased
  | _ => rfl

/-- The bytes taken are those fed and not held back. -/
theorem taken_eq {fed taken held : Bytes} (h : fed = taken ++ held) :
    fed.take (fed.length - held.length) = taken := by
  rw [h, List.length_append, Nat.add_sub_cancel, List.take_left]

end Talk

end Mailo.Proto
