import Mailo.Domain.Message

/-!
# The junk filter

Whether a message is judged at all, the words it is judged by, and what is done about mail judged
junk. What the counts of the words come to is floating point, and stands as a parameter.
-/

namespace Mailo.Logic

open Domain

inductive Filtering where
  | on | off
deriving DecidableEq

inductive Treat where
  | move | mark
deriving DecidableEq

/-- Whether a reason to spare a sender, or to trust the server, applies. -/
inductive Heed where
  | yes | no
deriving DecidableEq

/-- When the filter runs against the user's rules. -/
inductive Order where
  | afterRules | beforeRules
deriving DecidableEq

structure Policy where
  filtering : Filtering
  treat : Treat
  contacts : Heed
  writtenTo : Heed
  fullName : Heed
  serverSays : Heed
  order : Order
deriving DecidableEq

def junkLabel : String := "Junk"

def mostWords : Nat := 2000

/-- What the filter has learned: messages of each kind, and of each word in how many. -/
structure JunkCounts where
  spam : Nat
  ham : Nat
  words : List (String × Nat × Nat)
deriving DecidableEq

/-- What the standard library's tables and floating point decide: whether a character is a letter
or a digit, and whether counts make junk at least as sure as the filter must be. -/
class Judging where
  isAlphanumeric : Char → Bool
  sure : JunkCounts → Bool

/-- Letters and digits of ASCII, and a filter that is never sure. -/
@[reducible] def Judging.never : Judging := ⟨Char.isAlphanum, fun _ => false⟩

def domainWord (email : List Char) : Option String :=
  if email.contains '@' then
    some ("from:" ++ String.ofList (Text.toAsciiLowercase (email.reverse.takeWhile (· ≠ '@')).reverse))
  else none

section Words

variable [Unicode] [Judging]

/-- The words of a text: three to twenty letters or digits long, not all of them digits. -/
def wordsIn (text : String) : List String :=
  ((text.toList.splitOnP fun c => !Judging.isAlphanumeric c).filter fun word =>
    3 ≤ word.length && word.length ≤ 20 && !word.all Text.isAsciiDigit).map
      fun word => Unicode.toLowercase (String.ofList word)

/-- The distinct words a message is judged by, the earlier first. -/
def words (message : Message) : List String :=
  ((domainWord message.sender.email.toList).toList ++ wordsIn message.subject ++
    wordsIn (message.body.text.getD "")).eraseDups.take mostWords

end Words

/-- What the user's records say of a sender. -/
structure Acquaintance where
  inContacts : Bool
  writtenTo : Bool
deriving DecidableEq

/-- Whether a message is spared judging, by whom it is from or to. -/
def spared (acquaintance : Acquaintance) (message : Message) (policy : Policy)
    (names : List String) : Bool :=
  (policy.contacts = .yes && acquaintance.inContacts) ||
    (policy.writtenTo = .yes && acquaintance.writtenTo) ||
    (policy.fullName = .yes && (message.«to» ++ message.cc).any fun address =>
      address.name.any fun name => names.any fun mine =>
        Text.eqIgnoreAsciiCase mine.toList (Text.trim name.toList))

/-- One word's count of spam raised, or the word added. -/
def raise (word : String) (n : Nat) : List (String × Nat × Nat) → List (String × Nat × Nat)
  | [] => [(word, n, 0)]
  | (held, spam, ham) :: rest =>
    if held = word then (held, spam + n, ham) :: rest else (held, spam, ham) :: raise word n rest

def countsFor [Unicode] [Judging] (counts : JunkCounts) (taught : List (List String))
    (message : Message) : JunkCounts :=
  { counts with
    spam := counts.spam + taught.length
    words := (words message).foldl (fun counted word =>
      let n := (taught.filter fun learned => learned.contains word).length
      if n = 0 then counted else raise word n counted) counts.words }

end Mailo.Logic
