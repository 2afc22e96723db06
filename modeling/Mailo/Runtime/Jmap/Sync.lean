import Mailo.Proto.Jmap.Server

/-!
# A JMAP pass

A pass asks what changed since the stored state and applies it, asks how many emails the server
holds, lists them all where that is not the number held here, and fetches what is missing. The
state it reached is stored last.
-/

namespace Mailo.Runtime.Jmap.Sync

open Domain Library Proto.Jmap
open Proto.Search (Mailboxes JmapMailbox)

def changeRounds : Nat := 64

def pageLimit : Nat := 1024

/-- What the server held, from one moment to the next. A state is named by its moment. -/
structure History where
  snapshot : Nat → Server
  /-- Ids are not used again. -/
  retired : ∀ id u v w, u ≤ v → v ≤ w → ((snapshot u).emails.get id).isSome →
    (snapshot v).emails.get id = none → (snapshot w).emails.get id = none
  /-- Every email is in a mailbox. -/
  somewhere : ∀ v id email, (snapshot v).emails.get id = some email → email.mailboxIds ≠ []
  named : ∀ v, ((snapshot v).mailboxes.list.map JmapMailbox.id).Nodup

/-- The emails the server counts and lists, in its order: those in a mailbox that is followed. -/
def query (server : Server) (unfollowed : List String) : List String :=
  (server.emails.rows.filter fun row =>
    unfollowed.isEmpty || row.2.mailboxIds.any fun id => !unfollowed.contains id).map Prod.fst

inductive More where
  | yes | no
deriving DecidableEq

structure Changes where
  newState : Nat
  more : More
  created : List String
  updated : List String
  destroyed : List String
deriving DecidableEq

namespace History

variable (history : History)

def email (v : Nat) (id : String) : Option Email := (history.snapshot v).emails.get id

def Followed (v : Nat) (id : String) : Prop :=
  ∃ email, history.email v id = some email ∧
    ∃ mailbox ∈ email.mailboxIds, mailbox ∉ (history.snapshot v).mailboxes.unfollowed

/-- What a server may answer about the changes since a state. An email that came and went in
between need not be named; any other that is not named is as it was all along. -/
structure Reports (since now : Nat) (changes : Changes) : Prop where
  since_le : since ≤ changes.newState
  le_now : changes.newState ≤ now
  last : changes.more = .no → changes.newState = now
  unnamed : ∀ id, id ∉ changes.created → id ∉ changes.updated → id ∉ changes.destroyed →
    (∀ v, since ≤ v → v ≤ changes.newState → history.email v id = history.email since id) ∨
      history.email since id = none ∧ history.email changes.newState id = none
  created : ∀ id ∈ changes.created, history.email since id = none ∧
    ∃ v, since ≤ v ∧ v ≤ changes.newState ∧ (history.email v id).isSome
  updated : ∀ id ∈ changes.updated, ∃ v, since ≤ v ∧ v ≤ changes.newState ∧
    history.email v id ≠ history.email since id
  destroyed : ∀ id ∈ changes.destroyed, history.email changes.newState id = none ∧
    ∃ v, since ≤ v ∧ v ≤ changes.newState ∧ (history.email v id).isSome

end History

/-- What the store keeps of an email at its address. -/
structure Seen where
  role : MailboxRole
  labels : List String
  read : ReadState
  star : Star
  hue : Hue
deriving DecidableEq

/-- What the server said about emails already held. -/
structure Truth where
  seen : List (String × Seen)
  gone : List String
deriving DecidableEq

/-- One email as the server described it, where it is one to hold. -/
def sees (mailboxes : Mailboxes) (email : EmailSummary) : Option Seen :=
  match filing email.mailboxIds mailboxes with
  | .filed role labels => some ⟨role, labels, email.read, email.star, email.hue⟩
  | .unfollowed => none

namespace Truth

/-- Record one email: no longer followed, it is gone from here. -/
def saw (mailboxes : Mailboxes) (truth : Truth) (email : EmailSummary) : Truth :=
  match sees mailboxes email with
  | some seen => { truth with seen := truth.seen ++ [(email.id, seen)] }
  | none => { truth with gone := truth.gone ++ [email.id] }

/-- Write it: what is said of an address not held is not kept. -/
def write (truth : Truth) (held : Table String Seen) : Table String Seen :=
  truth.gone.foldl Table.erase
    (truth.seen.foldl (fun held entry => held.modify entry.1 fun _ => entry.2) held)

end Truth

/-! ## A pass -/

inductive Phase where
  | idle
  | changing (since : Nat) (wanted : List String) (rounds : Nat)
  | counting (state : Nat) (wanted : List String)
  /-- A listing, from the moment its first page was asked for. -/
  | listing (state : Option Nat) (wanted listed : List String) (position opened : Nat)
  | fetching (state : Nat) (left : List String)
deriving DecidableEq

structure World where
  now : Nat
  /-- The addresses held, and what was last written at each. -/
  held : Table String Seen
  cursor : Option Nat
  phase : Phase
  /-- When the pass began, the mailboxes it was told then, and how many headers it may fetch. -/
  began : Nat
  mailboxes : Mailboxes
  budget : Nat
  /-- The addresses the pass marked gone. -/
  marked : List String
  /-- Whether it left out some email for its budget or its headers. -/
  short : Bool

namespace World

variable (server : Server)

def start : World where
  now := 0
  held := .empty
  cursor := none
  phase := .idle
  began := 0
  mailboxes := ⟨[]⟩
  budget := 0
  marked := []
  short := false

def begins (world : World) (budget : Nat) : World :=
  { world with
    phase :=
      match world.cursor with
      | some since => .changing since [] 0
      | none => .listing none [] [] 0 world.now
    began := world.now
    mailboxes := server.mailboxes
    budget := budget
    marked := []
    short := false }

/-- What of a list is not held, each once. -/
def missing (held : Table String Seen) (wanted : List String) : List String :=
  (wanted.filter fun id => !held.contains id).eraseDups

/-- Fetch what is missing, as far as the budget goes. -/
def fetches (world : World) (held : Table String Seen) (state : Nat) (wanted : List String) :
    World :=
  { world with
    phase := .fetching state ((missing held wanted).take world.budget)
    short := world.short || decide (world.budget < (missing held wanted).length) }

/-- The changes since a state, and what the changed emails are now. -/
def changed (world : World) (wanted : List String) (rounds : Nat) (changes : Changes) : World :=
  let updated := server.get changes.updated
  let saw := updated.foldl (Truth.saw world.mailboxes) ⟨[], []⟩
  let truth : Truth := { saw with gone := saw.gone ++ changes.destroyed }
  let wanted := wanted ++
    (updated.filter fun email => (sees world.mailboxes email).isSome).map EmailSummary.id ++
    changes.created
  { world with
    held := truth.write world.held
    marked := world.marked ++ truth.gone
    phase :=
      if changes.more = .yes ∧ rounds + 1 < changeRounds then
        .changing changes.newState wanted (rounds + 1)
      else .counting changes.newState wanted }

/-- How many followed emails the server holds, against what is held and what is named as new. -/
def counted (world : World) (state : Nat) (wanted : List String) : World :=
  let total := (query server world.mailboxes.unfollowed).length
  if total = world.held.keys.length + (missing world.held wanted).length then
    world.fetches world.held state wanted
  else { world with phase := .listing (some state) wanted [] 0 world.now }

def pageIds (world : World) (size position : Nat) : List String :=
  ((query server world.mailboxes.unfollowed).drop position).take size

def lastPage (world : World) (size position : Nat) : Prop :=
  (world.pageIds server size position).length = 0 ∨
    (query server world.mailboxes.unfollowed).length ≤
      position + (world.pageIds server size position).length

instance (world : World) (size position : Nat) :
    Decidable (world.lastPage server size position) := inferInstanceAs (Decidable (_ ∨ _))

def openedAt (world : World) (position opened : Nat) : Nat :=
  if position = 0 then world.now else opened

/-- A page of the listing. The last one settles what is gone. -/
def paged (world : World) (size : Nat) (state : Option Nat) (wanted listed : List String)
    (position opened : Nat) : World :=
  let listed := listed ++ world.pageIds server size position
  let opened := world.openedAt position opened
  if world.lastPage server size position then
    let gone := world.held.keys.filter fun id => !listed.contains id
    let settled := { world with
      held := (⟨[], gone⟩ : Truth).write world.held
      marked := world.marked ++ gone }
    settled.fetches world.held (state.getD opened) (wanted ++ listed)
  else
    { world with
      phase := .listing state wanted listed
        (position + (world.pageIds server size position).length) opened }

def keep (mailboxes : Mailboxes) (held : Table String Seen) (email : EmailSummary) :
    Table String Seen :=
  match sees mailboxes email with
  | some seen => held.set email.id seen
  | none => held

/-- The headers of a chunk, kept where they can be read. -/
def fetched (world : World) (state : Nat) (chunk rest unreadable : List String) : World :=
  let emails := server.get chunk
  let kept := emails.filter fun email => !unreadable.contains email.id
  { world with
    held := kept.foldl (keep world.mailboxes) world.held
    short := world.short || emails.any fun email =>
      (sees world.mailboxes email).isSome && unreadable.contains email.id
    phase := .fetching state rest }

end World

inductive Event where
  | change
  | «begin» (budget : Nat)
  | changes (changes : Changes)
  /-- The server cannot say what changed since. -/
  | cannot
  | count
  | page (size : Nat)
  | fetched (chunk unreadable : List String)
  | stored
  | failed

inductive Step (history : History) : World → Event → World → Prop where
  | change (world : World) : Step history world .change { world with now := world.now + 1 }
  | «begin» (world : World) (budget : Nat) (idle : world.phase = .idle) :
      Step history world (.begin budget) (world.begins (history.snapshot world.now) budget)
  | changes (world : World) (since rounds : Nat) (wanted : List String) (changes : Changes)
      (asked : world.phase = .changing since wanted rounds)
      (reports : history.Reports since world.now changes) :
      Step history world (.changes changes)
        (world.changed (history.snapshot world.now) wanted rounds changes)
  | cannot (world : World) (since rounds : Nat) (wanted : List String)
      (asked : world.phase = .changing since wanted rounds) (old : since < world.now) :
      Step history world .cannot { world with phase := .listing none [] [] 0 world.now }
  | count (world : World) (state : Nat) (wanted : List String)
      (asked : world.phase = .counting state wanted) :
      Step history world .count
        (world.counted (history.snapshot world.now) state wanted)
  | page (world : World) (size : Nat) (state : Option Nat) (wanted listed : List String)
      (position opened : Nat) (asked : world.phase = .listing state wanted listed position opened)
      (some : 0 < size) (limit : size ≤ pageLimit) :
      Step history world (.page size)
        (world.paged (history.snapshot world.now) size state wanted listed position opened)
  | fetched (world : World) (state : Nat) (chunk rest unreadable : List String)
      (asked : world.phase = .fetching state (chunk ++ rest)) (some : chunk ≠ []) :
      Step history world (.fetched chunk unreadable)
        (world.fetched (history.snapshot world.now) state chunk rest unreadable)
  | stored (world : World) (state : Nat) (done : world.phase = .fetching state []) :
      Step history world .stored { world with cursor := some state, phase := .idle }
  | failed (world : World) : Step history world .failed { world with phase := .idle }

end Mailo.Runtime.Jmap.Sync
