import Mathlib.Data.List.Infix
import Mailo.Domain.Remote

/-!
# The one query language

A filter is a predicate over conversations. A clause over text compares one stored value, with
ASCII letters folded; full text is compared a word at a time, as the search index holds it.
-/

namespace Mailo.Domain

/-- How a text clause matches. -/
inductive TextMatch where
  | contains (needle : String)
  | exact (value : String)
deriving DecidableEq

/-- A half-open interval, either end optional. -/
structure DateRange where
  from? : Option DateTime
  to? : Option DateTime
deriving DecidableEq

/-- One of the tabs Gmail sorts its inbox into. -/
inductive Category where
  | primary | social | promotions | updates | forums
deriving DecidableEq

def Category.name : Category → String
  | primary => "primary"
  | social => "social"
  | promotions => "promotions"
  | updates => "updates"
  | forums => "forums"

inductive Filter where
  | all
  | nothing
  | and (parts : List Filter)
  | or (parts : List Filter)
  | not (inner : Filter)
  | account (id : AccountId)
  | inMailbox (role : MailboxRole)
  | read (state : ReadState)
  | starred (star : Star)
  | hasLabel (label : LabelId)
  | inFolder (mailbox : MailboxRef)
  | sender (text : TextMatch)
  | fromAddress (email : String)
  | vip
  | to (text : TextMatch)
  | cc (text : TextMatch)
  | subject (text : TextMatch)
  | text (text : TextMatch)
  | date (range : DateRange)
  | hasAttachment
  | snoozed
  | snoozeDue
  | pinned
  | larger (bytes : Nat)
  | smaller (bytes : Nat)
  | newerThan (days : Nat)
  | olderThan (days : Nat)
  | category (category : Category)

/-- What one character contributes to a token. -/
inductive Fold where
  | keep
  | to (folded : Char)
  | drop
  | split
deriving DecidableEq

/-- How characters beyond ASCII fold, by the generated table and the standard library's lowercase.
White space is part of no word. -/
class FoldTable where
  beyondAscii : Char → Fold
  split_of_whitespace : ∀ c, Text.isWhitespace c = true → beyondAscii c = .split

/-- The table that keeps ASCII words only. -/
@[reducible] def FoldTable.ascii : FoldTable := ⟨fun _ => .split, fun _ _ => rfl⟩

def fold [FoldTable] (c : Char) : Fold :=
  if c.toNat < 0x80 then if c.isAlphanum then .to c.toLower else .split
  else FoldTable.beyondAscii c

def isScriptioContinua (c : Char) : Bool :=
  let n := c.toNat
  (0x3040 ≤ n && n ≤ 0x30FF) || (0x3400 ≤ n && n ≤ 0x4DBF) || (0x4E00 ≤ n && n ≤ 0x9FFF) ||
    (0xF900 ≤ n && n ≤ 0xFAFF)

/-- Tokens being built: the word in progress, and a run of ideographs beside it. -/
structure Tokens where
  out : List (List Char)
  word : List Char
  run : List Char

namespace Tokens

def endWord (tokens : Tokens) : Tokens :=
  if tokens.word.isEmpty then tokens
  else { tokens with out := tokens.out ++ [tokens.word], word := [] }

/-- The pairs of neighbours in a run. -/
def bigrams : List Char → List (List Char)
  | a :: b :: rest => [a, b] :: bigrams (b :: rest)
  | _ => []

def endRun (tokens : Tokens) : Tokens :=
  match tokens.run with
  | [] => tokens
  | [one] => { tokens with out := tokens.out ++ [[one]], run := [] }
  | run => { tokens with out := tokens.out ++ bigrams run, run := [] }

def «end» (tokens : Tokens) : Tokens := tokens.endWord.endRun

def push (tokens : Tokens) (c : Char) : Tokens :=
  if isScriptioContinua c then
    let ended := tokens.endWord
    { ended with run := ended.run ++ [c] }
  else
    let ended := tokens.endRun
    { ended with word := ended.word ++ [c] }

def take [FoldTable] (tokens : Tokens) (c : Char) : Tokens :=
  match fold c with
  | .drop => tokens
  | .split => tokens.end
  | .keep => tokens.push c
  | .to folded => tokens.push folded

end Tokens

def searchTokens [FoldTable] (text : String) : List (List Char) :=
  (text.toList.foldl Tokens.take ⟨[], [], []⟩).end.out

inductive Filed where
  | asHeld | away
deriving DecidableEq

inductive Leaving where
  | staying | elsewhere
deriving DecidableEq

/-- One message's server address, with what decides whether it is still filed there. -/
structure Placed where
  mailbox : MailboxRef
  filed : Filed
  leaving : Leaving
deriving DecidableEq

def Placed.filedHere (placed : Placed) : Bool :=
  placed.filed == .asHeld && placed.leaving == .staying

structure MatchCtx where
  summary : ThreadSummary
  corpus : Option String
  folders : List Placed
  sizes : List Nat
  cc : List Address
  vips : List String
  now : DateTime

/-- The bound sizes saturate at. -/
def sizeMax : Nat := 2 ^ 64 - 1

def messageSize (message : Message) : Nat :=
  message.attachments.foldl (fun sum part => min (sum + part.size) sizeMax)
    (message.body.text.elim 0 String.utf8ByteSize)

/-! ## Clauses -/

def containsText (needle haystack : List Char) : Bool := decide (needle <:+: haystack)

def textFits (text : TextMatch) (haystack : String) : Bool :=
  match text with
  | .contains needle =>
    containsText (Text.toAsciiLowercase needle.toList) (Text.toAsciiLowercase haystack.toList)
  | .exact value => Text.eqIgnoreAsciiCase haystack.toList value.toList

def addressFits (text : TextMatch) (address : Address) : Bool :=
  textFits text address.email || address.name.any (textFits text)

/-- Whether `email` wrote in the conversation. -/
def sentBy (email : String) (summary : ThreadSummary) : Bool :=
  let email := Text.trim email.toList
  Text.eqIgnoreAsciiCase summary.sender.email.toList email ||
    summary.participants.any fun p => Text.eqIgnoreAsciiCase p.email.toList email

def toFits (text : TextMatch) (summary : ThreadSummary) : Bool :=
  summary.recipients.any (addressFits text)

def pushAddress (address : Address) : List String := address.email :: address.name.toList

def textCorpus (ctx : MatchCtx) : List String :=
  let s := ctx.summary
  [s.subject, s.snippet] ++ pushAddress s.sender ++ s.participants.flatMap pushAddress ++
    s.recipients.flatMap pushAddress ++ ctx.corpus.toList

def textSearchFits [FoldTable] (text : TextMatch) (ctx : MatchCtx) : Bool :=
  match text with
  | .contains raw =>
    let needle := searchTokens raw
    let haystack := (textCorpus ctx).flatMap searchTokens
    !needle.isEmpty && needle.all haystack.contains
  | .exact raw =>
    let needle := searchTokens raw
    !needle.isEmpty && (textCorpus ctx).any fun field => decide (needle <:+: searchTokens field)

def daysBefore (now : DateTime) (days : Nat) : DateTime := now - days * 86400000000000

namespace Filter

variable [FoldTable]

mutual

/-- Whether the conversation matches. -/
def fit : Filter → MatchCtx → Bool
  | .all, _ => true
  | .nothing, _ => false
  | .and parts, ctx => fitAll parts ctx
  | .or parts, ctx => fitAny parts ctx
  | .not inner, ctx => !inner.fit ctx
  | .account id, ctx => ctx.summary.account == id
  | .inMailbox role, ctx => ctx.summary.mailboxes.contains role
  | .read state, ctx => ctx.summary.read == state
  | .starred star, ctx => ctx.summary.star == star
  | .hasLabel label, ctx => ctx.summary.labels.contains label
  | .inFolder mailbox, ctx =>
    ctx.folders.any fun placed => placed.mailbox == mailbox && placed.filedHere
  | .sender wanted, ctx => addressFits wanted ctx.summary.sender
  | .fromAddress email, ctx => sentBy email ctx.summary
  | .vip, ctx => ctx.vips.any fun vip => sentBy vip ctx.summary
  | .to wanted, ctx => toFits wanted ctx.summary
  | .cc wanted, ctx => ctx.cc.any (addressFits wanted)
  | .subject wanted, ctx => textFits wanted ctx.summary.subject
  | .text wanted, ctx => textSearchFits wanted ctx
  | .date range, ctx =>
    (range.from?.all fun since => since ≤ ctx.summary.lastDate) &&
      range.to?.all fun before => ctx.summary.lastDate < before
  | .hasAttachment, ctx => ctx.summary.attachments != .none
  | .snoozed, ctx => ctx.summary.snooze != .inactive
  | .snoozeDue, ctx =>
    match ctx.summary.snooze with
    | .until due => due ≤ ctx.now
    | .inactive => false
  | .pinned, ctx => ctx.summary.pin != .unpinned
  | .larger bytes, ctx => ctx.sizes.any fun size => bytes < size
  | .smaller bytes, ctx => ctx.sizes.any fun size => size < bytes
  | .newerThan days, ctx => daysBefore ctx.now days ≤ ctx.summary.lastDate
  | .olderThan days, ctx => ctx.summary.lastDate < daysBefore ctx.now days
  | .category _, _ => false

def fitAll : List Filter → MatchCtx → Bool
  | [], _ => true
  | part :: rest, ctx => part.fit ctx && fitAll rest ctx

def fitAny : List Filter → MatchCtx → Bool
  | [], _ => false
  | part :: rest, ctx => part.fit ctx || fitAny rest ctx

end

attribute [local simp] fit fitAll fitAny

variable (parts : List Filter)

theorem fitAll_eq (ctx : MatchCtx) :
    fitAll parts ctx = parts.all fun part => part.fit ctx := by
  induction parts with
  | nil => rfl
  | cons part rest ih => rw [fitAll, ih, List.all_cons]

theorem fitAny_eq (ctx : MatchCtx) :
    fitAny parts ctx = parts.any fun part => part.fit ctx := by
  induction parts with
  | nil => rfl
  | cons part rest ih => rw [fitAny, ih, List.any_cons]

@[simp] theorem fit_and (ctx : MatchCtx) :
    (Filter.and parts).fit ctx = parts.all fun part => part.fit ctx := by
  rw [fit, fitAll_eq]

@[simp] theorem fit_or (ctx : MatchCtx) :
    (Filter.or parts).fit ctx = parts.any fun part => part.fit ctx := by
  rw [fit, fitAny_eq]

@[simp] theorem fit_not (inner : Filter) (ctx : MatchCtx) :
    (Filter.not inner).fit ctx = !inner.fit ctx := by
  rw [fit]

end Filter

section Pieces

variable [FoldTable]

@[simp] theorem searchTokens_empty : searchTokens "" = [] := rfl

end Pieces

end Mailo.Domain
