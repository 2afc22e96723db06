import Mailo.Domain.Filter

/-!
# Rules

What to do with mail as it arrives. A rule is asked about one message at a time, each as the rules
before it left the message, and a rule that stops is the last a message meets.
-/

namespace Mailo.Domain

structure RuleId where
  raw : Nat
deriving DecidableEq

inductive RuleState where
  | enabled | disabled
deriving DecidableEq

inductive AfterMatch where
  | continue | stop
deriving DecidableEq

inductive RuleAction where
  | label (name : String)
  | archive
  | trash
  | spam
  | file (path : String)
  | markRead
  | star
  | markUnread
  | notify
  | forward (address : String)
  | reply (template : String)
deriving DecidableEq

structure Rule where
  id : RuleId
  account : AccountId
  name : String
  /-- Where it runs among the account's rules, lowest first; ties break by name. -/
  position : Nat
  state : RuleState
  filter : Filter
  actions : List RuleAction
  after : AfterMatch
  /-- A rule that sends mail answers only mail dated after it was made. -/
  made : DateTime
  /-- A reply answers one sender at most once in this many days. -/
  replyDays : Nat

/-- The reply sent while the user is away. -/
structure Vacation where
  account : AccountId
  subject : String
  body : String
  days : Nat
  addresses : List String
  sender : Option String
  during : DateRange
deriving DecidableEq

def Vacation.activeAt (vacation : Vacation) (now : DateTime) : Bool :=
  (vacation.during.from?.all fun since => since ≤ now) &&
    vacation.during.to?.all fun before => now < before

def Rule.fits [FoldTable] (rule : Rule) (ctx : MatchCtx) : Bool :=
  rule.state == .enabled && rule.filter.fit ctx

def Rule.notAfter (a b : Rule) : Bool :=
  a.position < b.position || (a.position == b.position && a.name ≤ b.name)

/-- The enabled rules, in the order they run. -/
def ordered (rules : List Rule) : List Rule :=
  (rules.filter fun rule => rule.state == .enabled).insertionSort fun a b => a.notAfter b

def oneMessage [Unicode] (message : Message) : ThreadSummary :=
  .deriveFrom message.thread message message [message] .inactive .unpinned .unmuted .inactive

/-- The rules that act on a message, in order, up to the first that stops; `leaves` is what the
actions of each make of what the next is asked of. -/
def rulesOver [FoldTable] (leaves : Rule → MatchCtx → MatchCtx) : MatchCtx → List Rule → List Rule
  | _, [] => []
  | ctx, rule :: rest =>
    if rule.fits ctx then
      rule :: if rule.after = .stop then [] else rulesOver leaves (leaves rule ctx) rest
    else rulesOver leaves ctx rest

theorem mem_ordered {rules : List Rule} {rule : Rule} :
    rule ∈ ordered rules ↔ rule ∈ rules ∧ rule.state = .enabled := by
  unfold ordered
  rw [List.mem_insertionSort, List.mem_filter]
  simp

end Mailo.Domain
