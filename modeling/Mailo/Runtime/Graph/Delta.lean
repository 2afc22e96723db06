import Mailo.Domain.Remote
import Mailo.Library.Runs

/-!
# One folder's delta, followed page by page

A walk starts at the link stored for the folder, or at the first request of a delta, and follows
the pages. What they say is gathered in two lists: the messages described, and those removed.
-/

namespace Mailo.Runtime.Graph

open Domain Library

/-- Whether a message is read, and whether it is flagged. -/
abbrev Flags := ReadState × Star

/-- An item of a page that names a message: one in the folder, or one `@removed` from it. -/
abbrev Entry := Said String Flags

structure Page where
  value : List Entry
  deltaLink : Option String
  nextLink : Option String
deriving DecidableEq

def maxRequests : Nat := 10000

/-- A walk under way, and what it has gathered. -/
structure Walk where
  url : String
  resumed : Bool
  validity : UidValidity
  cursor : Option String
  flags : List (String × Flags)
  gone : List String
  /-- The messages whose headers it wrote. -/
  described : List String
  seen : Nat
  requests : Nat
deriving DecidableEq

/-- A walk from the link stored, or from the first request. -/
def Walk.start (first : String) (since : Option String) : Walk :=
  ⟨since.getD first, since.isSome, .same, none, [], [], [], 0, 0⟩

def Walk.entry (walk : Walk) : Entry → Walk
  | .drop id => { walk with seen := walk.seen + 1, gone := walk.gone ++ [id] }
  | .put id flags =>
    { walk with
      seen := walk.seen + 1
      flags := walk.flags ++ [(id, flags)]
      described := walk.described ++ [id] }

inductive Turn where
  | on (walk : Walk)
  | ended (walk : Walk)
  | failed
deriving DecidableEq

/-- A walk goes on only while it may make another request. -/
def Walk.next (walk : Walk) : Turn :=
  let counted := { walk with requests := walk.requests + 1 }
  if counted.requests < maxRequests then .on counted else .ended counted

def Walk.page (walk : Walk) (perPass : Nat) (page : Page) : Turn :=
  let told := page.value.foldl Walk.entry walk
  match page.deltaLink, page.nextLink with
  | some link, _ => .ended { told with cursor := some link }
  -- Neither link: nothing to resume from, so the next pass starts where this did.
  | none, none => .ended { told with cursor := none }
  | none, some link =>
    let kept := { told with url := link, cursor := some link }
    if perPass ≤ kept.seen then .ended kept else kept.next

/-- The link has expired: the walk starts over, if it had not yet. -/
def Walk.expired (walk : Walk) (first : String) : Turn :=
  if walk.resumed then
    { walk with
      url := first
      resumed := false
      validity := .reset
      seen := 0
      flags := []
      gone := []
      described := [] : Walk }.next
  else .failed

theorem entries_eq (walk : Walk) (value : List Entry) :
    value.foldl Walk.entry walk =
      { walk with
        seen := walk.seen + value.length
        flags := walk.flags ++ Said.puts value
        gone := walk.gone ++ Said.drops value
        described := walk.described ++ (Said.puts value).map Prod.fst } := by
  induction value generalizing walk with
  | nil => simp [Said.puts, Said.drops]
  | cons entry rest ih =>
    rw [List.foldl_cons, ih]
    cases entry with
    | put | drop =>
      simp [Walk.entry, Said.puts, Said.drops]
      omega

end Mailo.Runtime.Graph
