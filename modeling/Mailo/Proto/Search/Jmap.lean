import Mailo.Domain.Filter
import Mailo.Proto.Machine

/-!
# The mailboxes of a JMAP account

A mailbox has an id, a name below its parent and perhaps a role; it is found by its path or its
role.
-/

namespace Mailo.Proto.Search

open Domain

inductive JmapRole where
  | inbox | archive | drafts | sent | trash | junk | all | flagged | important
  | other (name : String)
deriving DecidableEq

namespace JmapRole

def special : JmapRole → Option SpecialUse
  | inbox => some .inbox
  | archive => some .archive
  | drafts => some .drafts
  | sent => some .sent
  | trash => some .trash
  | junk => some .junk
  | all => some .all
  | flagged => some .flagged
  | important => some .important
  | other _ => none

/-- The role an email in such a mailbox is filed under. -/
def filedAs (role : JmapRole) : Option MailboxRole := role.special.bind SpecialUse.role

end JmapRole

structure JmapMailbox where
  id : String
  name : String
  parent : Option String
  role : Option JmapRole
  sortOrder : Nat
deriving DecidableEq

/-- Every mailbox the account has. -/
structure Mailboxes where
  list : List JmapMailbox
deriving DecidableEq

namespace Mailboxes

def byId (mailboxes : Mailboxes) (id : String) : Option JmapMailbox :=
  mailboxes.list.find? fun mailbox => mailbox.id == id

def ancestry (mailboxes : Mailboxes) : Nat → JmapMailbox → List String
  | 0, mailbox => [mailbox.name]
  | fuel + 1, mailbox =>
    match mailbox.parent.bind mailboxes.byId with
    | some parent => mailboxes.ancestry fuel parent ++ [mailbox.name]
    | none => [mailbox.name]

/-- The path a mailbox is spelled by: its ancestors' names and its own. -/
def path (mailboxes : Mailboxes) (id : String) : Option String :=
  (mailboxes.byId id).map fun mailbox =>
    "/".intercalate (mailboxes.ancestry mailboxes.list.length mailbox)

def idForPath (mailboxes : Mailboxes) (path : String) : Option String :=
  (mailboxes.list.find? fun mailbox => mailboxes.path mailbox.id == some path).map JmapMailbox.id

/-- The lower of two in the server's order, the earlier where they are level. -/
def earlier (best : Option JmapMailbox) (mailbox : JmapMailbox) : Option JmapMailbox :=
  match best with
  | some held => if mailbox.sortOrder < held.sortOrder then some mailbox else some held
  | none => some mailbox

def idForRole (mailboxes : Mailboxes) (role : MailboxRole) : Option String :=
  ((mailboxes.list.filter fun mailbox => mailbox.role.bind JmapRole.filedAs == some role).foldl
    earlier none).map JmapMailbox.id

end Mailboxes

end Mailo.Proto.Search
