import Mailo.Store.Sqlite.Outbox

/-!
# How an attempt on a queued operation settles

The drain of every protocol makes the attempt, then asks what it came to: the row, the draft, the
pass, and what is left to do, as one list of steps that the drain carries out in order.
-/

namespace Mailo.Runtime.Sending

open Domain Store

/-- A failure, by what settling asks of it. -/
inductive RuntimeError where
  | cancelled
  /-- The server refused a sign-in the issuer has just renewed. -/
  | refusedFresh (cause : String)
  | other (text : String) (retry : Retry)
deriving DecidableEq

namespace RuntimeError

def text : RuntimeError → String
  | .cancelled => "cancelled"
  | .refusedFresh cause =>
    "the server refused a sign-in the issuer has just renewed, so signing in again would not " ++
      "help: the server may have this protocol switched off for the account, or the sign-in " ++
      "was to a different account than this address (" ++ cause ++ ")"
  | .other text _ => text

def retry : RuntimeError → Retry
  | .cancelled => .fatal "cancelled"
  | .refusedFresh cause => .fatal (RuntimeError.refusedFresh cause).text
  | .other _ retry => retry

end RuntimeError

/-- How long a message waits when the server will not take mail over the protocol at all. -/
def protocolRefusedWait : Int := seconds (24 * 60 * 60)

/-- How a submission's failure settles its row: as the error says, but for a server that refuses
the protocol itself, where the message is kept and waits. -/
def settles : RuntimeError → Retry
  | .refusedFresh _ => .after protocolRefusedWait
  | error => error.retry

def submitted : ProtoOp → Option DraftId
  | .submit draft _ _ _ _ => some draft
  | _ => none

def tellsThePass (op : ProtoOp) : Bool := (submitted op).isNone

def needsPerson : Retry → Bool
  | .needsReauth | .needsGrant => true
  | _ => false

def isFatal : Retry → Bool
  | .fatal _ => true
  | _ => false

/-- How a submission signs in: with a credential of its own, or with the account's. -/
inductive Login where
  | apart | shared
deriving DecidableEq

/-- What came of the attempt; an operation sent in parts names the messages already `done`. -/
inductive Outcome where
  | accepted
  | refused (error : RuntimeError) (done : List MessageId) (told : String)
deriving DecidableEq

inductive Mark where
  | sent (now : DateTime)
  | failed (reason : String) (retry : Retry)
deriving DecidableEq

/-- The state a mark stands for, `kept` being the copy of what was sent that the drain stored. -/
def Mark.state (kept : Option MessageId) : Mark → SendState
  | .sent now => .sent now kept
  | .failed reason retry => .failed reason retry

/-- What the drain does, in the order listed. -/
inductive Then where
  | settleRow (settle : Settle)
  | keepUpload
  | keepSentCopy
  | mark (draft : DraftId) (mark : Mark)
  | dropDraftCopies (draft : DraftId)
deriving DecidableEq

structure Settled where
  steps : List Then
  /-- What the pass hears of. -/
  heard : Option Retry
  notes : List String
  submitted : Bool
  settled : Bool
  halt : Bool
deriving DecidableEq

def isAppend : ProtoOp → Bool
  | .append _ _ _ _ => true
  | _ => false

/-- What an acceptance leaves to do. The row goes first, so that a drain cut off there does not
send twice. -/
def afterAccepted (op : ProtoOp) (now : DateTime) : List Then :=
  match submitted op with
  | some draft =>
    [.settleRow .ok, .keepSentCopy, .mark draft (.sent now), .dropDraftCopies draft]
  | none => if isAppend op then [.settleRow .ok, .keepUpload] else [.settleRow .ok]

def refusedAs (op : ProtoOp) (login : Login) (error : RuntimeError) : Retry :=
  if login = .shared || tellsThePass op then error.retry else settles error

/-- How the outcome of an operation settles. -/
def settle (op : ProtoOp) (login : Login) (outcome : Outcome) (now : DateTime) : Settled :=
  match outcome with
  | .accepted =>
    { steps := afterAccepted op now
      heard := none
      notes := []
      submitted := (submitted op).isSome
      settled := true
      halt := false }
  -- Not a refusal: nothing is settled, and the row goes again.
  | .refused .cancelled _ _ => ⟨[], none, [], false, false, true⟩
  | .refused error done told =>
    let tells := login = .shared || tellsThePass op
    let retry := refusedAs op login error
    let heard := if tells then some retry else none
    let done := if isFatal retry then done else []
    if !done.isEmpty then
      ⟨[.settleRow (.inPart done)], heard, [told], false, false, true⟩
    else
      { steps :=
          ((submitted op).map fun draft =>
            Then.mark draft (.failed error.text retry)).toList ++
            [.settleRow (.failed error.text retry)]
        heard := heard
        notes :=
          if (tells && needsPerson retry) || isFatal error.retry then [error.text] else []
        submitted := false
        settled := false
        halt := true }

theorem settle_accepted (op : ProtoOp) (login : Login) (now : DateTime) :
    (settle op login .accepted now).steps = afterAccepted op now := rfl

/-- A submission that is refused, and not cut off, marks its draft and then settles its row. -/
theorem settle_refused {op : ProtoOp} {draft : DraftId} (h : submitted op = some draft)
    (login : Login) {error : RuntimeError} (hcut : error ≠ .cancelled) (told : String)
    (now : DateTime) :
    (settle op login (.refused error [] told) now).steps =
      [.mark draft (.failed error.text (refusedAs op login error)),
        .settleRow (.failed error.text (refusedAs op login error))] := by
  cases error with
  | cancelled => exact absurd rfl hcut
  | refusedFresh | other => simp [settle, h]

theorem settle_cancelled (op : ProtoOp) (login : Login) (done : List MessageId) (told : String)
    (now : DateTime) : (settle op login (.refused .cancelled done told) now).steps = [] := rfl

/-- An operation that submits nothing has only its row to settle, and an upload to keep. -/
theorem settle_other {op : ProtoOp} (h : submitted op = none) (login : Login)
    (outcome : Outcome) (now : DateTime) :
    ∀ step ∈ (settle op login outcome now).steps, (∃ how, step = .settleRow how) ∨
      step = .keepUpload := by
  intro step hstep
  cases outcome with
  | accepted =>
    simp only [settle_accepted, afterAccepted, h] at hstep
    split at hstep <;> simp at hstep <;> rcases hstep with rfl | rfl <;> simp
  | refused error done told =>
    cases error with
    | cancelled => cases hstep
    | refusedFresh | other =>
      simp only [settle, h] at hstep
      generalize (if isFatal _ = true then done else []) = undone at hstep
      cases undone <;> simp at hstep <;> subst hstep <;> simp

end Mailo.Runtime.Sending
