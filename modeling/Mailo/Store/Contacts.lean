import Mailo.Domain.Message
import Mailo.Library.Table

/-!
# The contacts table

An entry stands under a normalised address. Who it came from decides whether mail or an address
book may change it.
-/

namespace Mailo.Store

open Domain Library

/-- Where an entry came from; a book by its collection. -/
inductive Origin where
  | history
  | manual
  | book (url : String)
deriving DecidableEq

/-- Which source a name came from. -/
inductive NameRank where
  | unnamed | received | written | given
deriving DecidableEq

structure Contact where
  name : Option String
  nameRank : NameRank
  nameAt : Option DateTime
  /-- Messages the user sent to the address, and messages that came from it. -/
  written : Nat
  received : Nat
  origin : Origin
deriving DecidableEq

/-- An entry before anything is known. -/
def Contact.new : Contact := ⟨none, .unnamed, none, 0, 0, .history⟩

def cleanName [Unicode] (name : Option String) : Option String :=
  name.bind fun name =>
    let quote := fun c : Char => c == '"' || c == '\''
    let unquoted := ((Text.trim name.toList).dropWhile quote).reverse.dropWhile quote
    let collapsed := Text.joinWords (Text.splitWhitespace unquoted.reverse)
    if collapsed.isEmpty || (normalise collapsed).isSome then none
    else some (String.ofList collapsed)

/-- An entry after the user, or an address book, says who this is. -/
def Contact.given [Unicode] (contact : Contact) (name : Option String) (origin : Origin) :
    Contact :=
  match cleanName name with
  | some name => { contact with origin, name := some name, nameRank := .given, nameAt := none }
  | none =>
    if origin = .history ∧ contact.nameRank = .given then
      { contact with origin, nameRank := .unnamed }
    else { contact with origin }

@[simp] theorem Contact.given_origin [Unicode] (contact : Contact) (name : Option String)
    (origin : Origin) : (contact.given name origin).origin = origin := by
  unfold Contact.given
  split
  · rfl
  · split <;> rfl

abbrev Contacts := Table String Contact

namespace Contacts

def put [Unicode] (contacts : Contacts) (address : String) (name : Option String)
    (origin : Origin) : Contacts :=
  contacts.set address (((contacts.get address).getD .new).given name origin)

theorem get_put [Unicode] (contacts : Contacts) (address : String) (name : Option String)
    (origin : Origin) (other : String) :
    (contacts.put address name origin).get other =
      if other = address then some (((contacts.get address).getD .new).given name origin)
      else contacts.get other := by
  rw [put, Table.get_set]

end Contacts

end Mailo.Store
