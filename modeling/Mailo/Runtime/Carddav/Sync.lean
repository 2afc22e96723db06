import Mailo.Library.Versions
import Mailo.Pim.VCard.Card
import Mailo.Store.Contacts

/-!
# Bringing an address book's cards into the contacts table

What changed is learned from a report since the stored token, from a report of everything, or from
every etag, and the cards that changed are fetched a batch at a time. The book is stored, with the
token the listing ended with, once every batch has been written.
-/

namespace Mailo.Runtime.Carddav

open Domain Library Store
open Pim.Line (Encodings)

abbrev Url := String
abbrev Href := String

structure BookCard where
  uid : Option String
  etag : String
  addresses : List String
  vcard : String

abbrev Cards := Table Href BookCard

/-- What the last sync of an address book left behind. -/
structure AddressBook where
  token : Option String
  cards : Cards

section Card

variable [Unicode] (E : Encodings)

def cardOf (data : String) : Option Pim.VCard.Card := (Pim.VCard.parse E data.toList).head?

def addressesOf (data : String) : List String :=
  ((cardOf E data).map Pim.VCard.Card.addresses).getD []

def nameOf (data : String) : Option String :=
  ((cardOf E data).bind Pim.VCard.Card.displayName).map String.ofList

def lists (cards : Cards) (address : String) : Bool :=
  cards.values.any fun card => card.addresses.contains address

variable (url : Url)

/-- Let go of an address a card of this book no longer lists: unless another card still does, an
entry this book owns goes back to its mail history, or away if it has none. -/
def release (cards : Cards) (contacts : Contacts) (address : String) : Contacts :=
  if lists cards address then contacts
  else
    match contacts.get address with
    | none => contacts
    | some contact =>
      if contact.origin ≠ .book url then contacts
      else if contact.written = 0 ∧ contact.received = 0 then contacts.erase address
      else contacts.put address none .history

/-- An address the user typed is theirs to keep. -/
def claim (name : Option String) (contacts : Contacts) (address : String) : Contacts :=
  if (contacts.get address).any fun contact => contact.origin = .manual then contacts
  else contacts.put address name (.book url)

structure Held where
  contacts : Contacts
  cards : Cards

def dropCard (held : Held) (href : Href) : Held :=
  match held.cards.get href with
  | none => held
  | some card =>
    ⟨card.addresses.foldl (release url (held.cards.erase href)) held.contacts,
      held.cards.erase href⟩

/-- Store one card: its addresses become contacts with its name, and addresses it used to list and
no longer does are let go of. -/
def putCard (held : Held) (href : Href) (etag data : String) : Held :=
  let addresses := addressesOf E data
  let cards := held.cards.erase href
  let before := ((held.cards.get href).map BookCard.addresses).getD []
  let released := (before.filter fun address => !addresses.contains address).foldl
    (release url cards) held.contacts
  ⟨addresses.foldl (claim url (nameOf E data)) released,
    cards.set href
      ⟨((cardOf E data).bind Pim.VCard.Card.uid).map String.ofList, etag, addresses, data⟩⟩

end Card

structure Listing where
  members : List (Href × Option String)
  removed : List Href
  /-- Whether `members` is everything, so that anything stored and not listed went too. -/
  complete : Bool
  token : Option String

namespace Listing

/-- The members to fetch: all but those held with the etag listed. -/
def changed (listing : Listing) (cards : Cards) : List Href :=
  (listing.members.filter fun member =>
    match cards.get member.1, member.2 with
    | some held, some etag => held.etag != etag
    | _, _ => true).map Prod.fst

def gone (listing : Listing) (cards : Cards) : List Href :=
  listing.removed ++
    if listing.complete then
      cards.keys.filter fun href => !(listing.members.map Prod.fst).contains href
    else []

/-- One member of a reply: what it says replaces what was said. -/
def say (listing : Listing) (href : Href) (member : Option (Option String)) : Listing :=
  let members := listing.members.filter fun held => held.1 != href
  let removed := listing.removed.filter fun held => held != href
  match member with
  | none => { listing with members, removed := removed ++ [href] }
  | some etag => { listing with members := members ++ [(href, etag)], removed }

end Listing

structure Member where
  etag : String
  text : String
deriving DecidableEq

/-- What a sync may know of each member: the version it was last told. -/
abbrev Known := Href → Nat

/-- A collection's changes, and what each token it has given stands for. -/
structure Server where
  changes : List (Href × Option Member)
  tokens : Table String Known

namespace Server

def version (server : Server) : Known := Versions.version server.changes

def current (server : Server) (href : Href) : Option Member :=
  Versions.current server.changes href

def stateAt (server : Server) (href : Href) (n : Nat) : Option Member :=
  Versions.stateAt server.changes href n

/-- What is known once a reply has told of some members. A member that was not there and is not
there need not be told of. -/
def learn (server : Server) (known : Known) (told : List Href) : Known := fun href =>
  if href ∈ told ∨ (server.stateAt href (known href) = none ∧ server.current href = none) then
    server.version href
  else known href

/-- What a reply says of a member, its etag given or left out. -/
def tells (server : Server) (told : Href × Bool) : Option (Option String) :=
  (server.current told.1).map fun member => if told.2 then some member.etag else none

def tellAll (server : Server) (told : List (Href × Bool)) (listing : Listing) : Listing :=
  told.foldl (fun listing entry => listing.say entry.1 (server.tells entry)) listing

def names (server : Server) (told : List (Href × Bool)) : Listing :=
  ⟨told.filterMap fun entry => (server.tells entry).map fun etag => (entry.1, etag), [], true, none⟩

end Server

/-! ## Syncs -/

/-- How many cards one request asks for. -/
def batch : Nat := 50

/-- Where a sync stands. `known` is what the listing has told of, and `begun` the number of changes
the collection had when the sync began. -/
inductive Phase where
  | idle
  | reporting (url : Url) (since : Option String) (listing : Listing) (known : Known) (begun : Nat)
  | naming (url : Url) (begun : Nat)
  | fetching (url : Url) (cards : Cards) (remaining : List Href) (token : Option String)
      (known : Known) (begun : Nat)

structure World where
  contacts : Contacts
  books : Table Url AddressBook
  servers : Url → Server
  /-- The number of changes of a collection that had none during its last whole sync. -/
  settled : Table Url Nat
  phase : Phase

inductive Event where
  | opened (url : Url)
  | changed (url : Url) (href : Href) (member : Option Member)
  /-- Mail taught the contacts of an address. -/
  | heard (address : String) (contact : Contact)
  | typed (address : String) (name : Option String)
  | start (url : Url)
  /-- A report answered, whole or in part. -/
  | reported (told : List (Href × Bool)) (truncated : Bool) (token : Option String)
  | refused
  | named (told : List (Href × Bool))
  | fetched (answered : List (Href × Bool))
  | finish
  | lost

namespace World

def empty : World :=
  ⟨.empty, .empty, fun _ => ⟨[], .empty⟩, .empty, .idle⟩

section Step

variable [Unicode] (E : Encodings) (world : World)

def cardsOf (url : Url) : Cards := ((world.books.get url).map AddressBook.cards).getD .empty

/-- A report from everything. -/
def scratch (url : Url) (begun : Nat) : Phase :=
  .reporting url none ⟨[], [], true, none⟩ (fun _ => 0) begun

def asked (url : Url) : Phase :=
  let server := world.servers url
  match (world.books.get url).bind AddressBook.token with
  | none => scratch url server.changes.length
  | some token => .reporting url (some token) ⟨[], [], false, none⟩
      ((server.tokens.get token).getD fun _ => 0) server.changes.length

/-- A token that is no longer good, or a server without reports, is asked another way. -/
def refuse : World :=
  match world.phase with
  | .reporting url _ listing _ begun =>
    { world with phase := if listing.complete then .naming url begun else scratch url begun }
  | _ => world

/-- The listing is whole: what went is let go of, and what changed is to be fetched. -/
def listed (url : Url) (listing : Listing) (known : Known) (begun : Nat) : World :=
  let cards := world.cardsOf url
  let held := (listing.gone cards).foldl (dropCard url) ⟨world.contacts, cards⟩
  { world with
    contacts := held.contacts
    phase := .fetching url held.cards (listing.changed cards) listing.token known begun }

def setServer (url : Url) (server : Server) : World :=
  { world with servers := fun other => if other = url then server else world.servers other }

/-- A token that goes out stands for what its reply has told. -/
def mint (url : Url) (token : Option String) (known : Known) : World :=
  match token with
  | none => world
  | some token =>
    world.setServer url
      { world.servers url with tokens := (world.servers url).tokens.set token known }

def reported (told : List (Href × Bool)) (truncated : Bool) (token : Option String) : World :=
  match world.phase with
  | .reporting url since listing known begun =>
    let server := world.servers url
    let learnt := server.learn known (told.map Prod.fst)
    let listing := server.tellAll told listing
    let minted := world.mint url token learnt
    if truncated then
      match token with
      | none => minted.refuse
      | some next =>
        if since = some next then minted.refuse
        else { minted with phase := .reporting url (some next) listing learnt begun }
    else minted.listed url { listing with token } learnt begun
  | _ => world

def named (told : List (Href × Bool)) : World :=
  match world.phase with
  | .naming url begun =>
    world.listed url ((world.servers url).names told) (world.servers url).version begun
  | _ => world

/-- One card of a batch: its text and etag, or that it is not there. -/
def take (url : Url) (server : Server) (held : Held) (answer : Href × Bool) : Held :=
  match server.current answer.1 with
  | some member => putCard E url held answer.1 (if answer.2 then member.etag else "") member.text
  | none => dropCard url held answer.1

def fetched (answered : List (Href × Bool)) : World :=
  match world.phase with
  | .fetching url cards remaining token known begun =>
    let held := answered.foldl (take E url (world.servers url)) ⟨world.contacts, cards⟩
    { world with
      contacts := held.contacts
      phase := .fetching url held.cards (remaining.drop batch) token known begun }
  | _ => world

def finish : World :=
  match world.phase with
  | .fetching url cards [] token _ begun =>
    { world with
      books := world.books.set url ⟨token, cards⟩
      settled := if (world.servers url).changes.length = begun then world.settled.set url begun
        else world.settled
      phase := .idle }
  | _ => world

def step : Event → World
  | .opened url => { world with books := world.books.insertNew url ⟨none, .empty⟩ }
  | .changed url href member =>
    world.setServer url
      { world.servers url with changes := (world.servers url).changes ++ [(href, member)] }
  | .heard address contact => { world with contacts := world.contacts.set address contact }
  | .typed address name => { world with contacts := world.contacts.put address name .manual }
  | .start url =>
    match world.phase with
    | .idle => { world with phase := world.asked url }
    | _ => world
  | .reported told truncated token => world.reported told truncated token
  | .refused => world.refuse
  | .named told => world.named told
  | .fetched answered => world.fetched E answered
  | .finish => world.finish
  | .lost => { world with phase := .idle }

end Step

/-- What can happen. A strong etag is given again to the same text alone; mail leaves an entry
whose it is; and a server tells in a report's replies of every member that changed, gives a token
for one state of what it has told, and answers a batch about each member at most once. -/
def Allowed (world : World) : Event → Prop
  | .changed url href member => ∀ new, member = some new → new.etag ≠ "" ∧
      ∀ old, (href, some old) ∈ (world.servers url).changes → old.etag = new.etag →
        old.text = new.text
  | .heard address contact =>
    contact.origin = ((world.contacts.get address).map Contact.origin).getD .history
  | .start url => world.books.contains url = true
  | .reported told truncated token =>
    match world.phase with
    | .reporting url _ _ known _ =>
      let server := world.servers url
      let learnt := server.learn known (told.map Prod.fst)
      (truncated = false → ∀ href, learnt href = server.version href) ∧
        ∀ given, token = some given → server.tokens.get given = none ∨
          server.tokens.get given = some learnt
    | _ => True
  | .named told =>
    match world.phase with
    | .naming url _ => ∀ href, (world.servers url).current href ≠ none →
        href ∈ told.map Prod.fst
    | _ => True
  | .fetched answered =>
    match world.phase with
    | .fetching _ _ remaining _ _ _ => (answered.map Prod.fst).Nodup ∧
        ∀ href ∈ answered.map Prod.fst, href ∈ remaining.take batch
    | _ => True
  | _ => True

/-- The worlds reached by events that meet a condition, each where it happens. -/
inductive Run [Unicode] (E : Encodings) (meets : World → Event → Prop) : World → Prop
  | empty : Run E meets .empty
  | step {world : World} (event : Event) : Run E meets world → world.Allowed event →
      meets world event → Run E meets (world.step E event)

end World

end Mailo.Runtime.Carddav
