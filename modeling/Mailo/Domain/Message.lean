import Mathlib.Data.List.Sort
import Mailo.Domain.State
import Mailo.Domain.Text

/-!
# Messages, threads, and the derivation between them

`ThreadSummary.derive` recomputes every derived field of a conversation's row from its
messages, oldest first. Each running value of its one loop is a definition of its own.
-/

namespace Mailo.Domain

/-- What the standard library's Unicode tables decide. -/
class Unicode where
  toLowercase : String → String

/-- The tables where every letter is ASCII. -/
@[reducible] def Unicode.ascii : Unicode :=
  ⟨fun text => String.ofList (Text.toAsciiLowercase text.toList)⟩

structure Address where
  name : Option String
  email : String
deriving DecidableEq

inductive Body where
  | absent
  | present (text : Option String) (raw : BlobId)
deriving DecidableEq

namespace Body

def text : Body → Option String
  | absent => none
  | present text _ => text

end Body

inductive Inline where
  | attached
  | embedded (cid : String)
deriving DecidableEq

/-- Where a part's bytes are; a section is the server's path to the part. -/
inductive PartContent where
  | held (blob : BlobId)
  | inside (index : Nat)
  | remote («section» : List Nat)
deriving DecidableEq

structure Attachment where
  name : String
  mime : String
  size : Nat
  content : PartContent
  inline : Inline
deriving DecidableEq

/-- How the same message is recognised when it arrives again at another address. -/
inductive MessageKey where
  | rfc (id : String)
  | gmail (id : Nat)
  | synthetic (digest : List Nat)
deriving DecidableEq

structure Message where
  id : MessageId
  thread : ThreadId
  account : AccountId
  key : MessageKey
  date : DateTime
  sender : Address
  replyTo : List Address
  «to» : List Address
  cc : List Address
  bcc : List Address
  subject : String
  inReplyTo : Option String
  references : List String
  rfcMessageId : Option String
  read : ReadState
  star : Star
  flag : Hue
  mailbox : MailboxRole
  labels : List LabelId
  body : Body
  attachments : List Attachment
deriving DecidableEq

/-- A message that says nothing, filed under a role. -/
def Message.plain (id : MessageId) (thread : ThreadId) (mailbox : MailboxRole) : Message where
  id := id
  thread := thread
  account := ⟨0⟩
  key := .gmail id.raw
  date := id.raw
  sender := ⟨none, "ada@example.test"⟩
  replyTo := []
  «to» := []
  cc := []
  bcc := []
  subject := ""
  inReplyTo := none
  references := []
  rfcMessageId := none
  read := .unread
  star := .unstarred
  flag := .red
  mailbox := mailbox
  labels := []
  body := .absent
  attachments := []

/-- The row shown in a list. Only the last four fields are not derived. -/
structure ThreadSummary where
  id : ThreadId
  account : AccountId
  subject : String
  snippet : String
  sender : Address
  participants : List Address
  recipients : List Address
  lastDate : DateTime
  messageCount : Nat
  read : ReadState
  star : Star
  flag : Hue
  mailboxes : MailboxSet
  labels : List LabelId
  attachments : Attachments
  snooze : Snooze
  pin : Pin
  mute : Mute
  followUp : FollowUp
deriving DecidableEq

def addLabel (labels : List LabelId) (label : LabelId) : List LabelId :=
  if labels.contains label then labels else labels ++ [label]

theorem mem_addLabel {labels : List LabelId} {label other : LabelId} :
    other ∈ addLabel labels label ↔ other ∈ labels ∨ other = label := by
  unfold addLabel
  split
  · rename_i h
    constructor
    · exact Or.inl
    · rintro (hmem | rfl)
      · exact hmem
      · simpa using h
  · simp

structure Thread where
  summary : ThreadSummary
  messages : List MessageId
deriving DecidableEq

def snippetChars : Nat := 140

def snippetFrom (out : List Char) : List (List Char) → List Char
  | [] => out
  | word :: rest =>
    if out.length = snippetChars then out
    else
      let spaced := if out.isEmpty then out else out ++ [' ']
      snippetFrom (spaced ++ word.take (snippetChars - spaced.length)) rest

/-- The preview rule: white space collapsed, then cut, never left ending in a space. -/
def snippetOf : Option String → String
  | none => ""
  | some text =>
    let out := snippetFrom [] (Text.splitWhitespace text.toList)
    String.ofList (if out.getLast? = some ' ' then out.dropLast else out)

namespace ThreadSummary

def countMax : Nat := 2 ^ 32 - 1

/-- The messages oldest first, two of one date as they stood. -/
def ordered (messages : List Message) : List Message :=
  messages.insertionSort fun a b => a.date ≤ b.date

/-- Addresses already seen are compared by their lowercased email; the first spelling wins. -/
def addAddress [Unicode] (out : List Address) (address : Address) : List Address :=
  if (out.map fun held => Unicode.toLowercase held.email).contains
      (Unicode.toLowercase address.email) then out
  else out ++ [address]

def participantsOf [Unicode] (order : List Message) : List Address :=
  order.foldl (fun out m => addAddress out m.sender) []

def recipientsOf [Unicode] (order : List Message) : List Address :=
  order.foldl (fun out m => (m.«to» ++ m.cc).foldl addAddress out) []

def labelsOf (order : List Message) : List LabelId :=
  order.foldl (fun out m => m.labels.foldl addLabel out) []

def readOf (order : List Message) : ReadState :=
  order.foldl (fun held m => if m.read = .unread then .unread else held) .read

def starOf (order : List Message) : Star :=
  order.foldl (fun held m => if m.star = .starred then .starred else held) .unstarred

/-- Oldest first, so the newest starred message's colour is the one left standing. -/
def flagOf (order : List Message) : Hue :=
  order.foldl (fun held m => if m.star = .starred then m.flag else held) .red

/-- Files, not the images an HTML body embeds. -/
def filesOf (order : List Message) : Nat :=
  order.foldl
    (fun count m => count + (m.attachments.filter fun a => a.inline == .attached).length) 0

/-- The summary of a thread's messages, oldest first and the last of them the newest. -/
def deriveFrom [Unicode] (id : ThreadId) (oldest newest : Message) (order : List Message)
    (snooze : Snooze) (pin : Pin) (mute : Mute) (followUp : FollowUp) : ThreadSummary where
  id := id
  account := newest.account
  subject := oldest.subject
  snippet := snippetOf newest.body.text
  sender := newest.sender
  participants := participantsOf order
  recipients := recipientsOf order
  lastDate := newest.date
  messageCount := min order.length countMax
  read := readOf order
  star := starOf order
  flag := flagOf order
  mailboxes := MailboxSet.ofList (order.map Message.mailbox)
  labels := labelsOf order
  attachments := Attachments.of (min (filesOf order) countMax)
  snooze := snooze
  pin := pin
  mute := mute
  followUp := followUp

/-- `none` where the source panics: a thread without messages has no summary. -/
def derive [Unicode] (id : ThreadId) (messages : List Message) (snooze : Snooze) (pin : Pin)
    (mute : Mute) (followUp : FollowUp) : Option ThreadSummary :=
  match (ordered messages).head?, (ordered messages).getLast? with
  | some oldest, some newest =>
    some (deriveFrom id oldest newest (ordered messages) snooze pin mute followUp)
  | _, _ => none

end ThreadSummary

/-! ## Addresses as the address book keys them -/

def rsplitOnce (sep : Char) (text : List Char) : Option (List Char × List Char) :=
  match text.reverse.dropWhile (· != sep) with
  | [] => none
  | _ :: before => some (before.reverse, (text.reverse.takeWhile (· != sep)).reverse)

/-- An address trimmed, unbracketed and lower-cased; `none` for one without a local part and a
domain. -/
def normalise [Unicode] (address : List Char) : Option String :=
  let unbracketed := (Text.trim address).dropWhile (· == '<')
  let trimmed := Text.trim (unbracketed.reverse.dropWhile (· == '>')).reverse
  match rsplitOnce '@' trimmed with
  | none => none
  | some (localPart, domain) =>
    if localPart.isEmpty || domain.isEmpty || trimmed.any Text.isWhitespace then none
    else some (Unicode.toLowercase (String.ofList trimmed))

end Mailo.Domain
