import Mathlib.Data.List.Induction
import Mailo.Runtime.Carddav.Owning

/-!
# What a listing has told

Each reply of a report tells of members as they stand, and a later reply replaces what was said. A
whole listing, with the cards held before it, tells of every member: what it does not mention is
held as it stands, or is not there.
-/

namespace Mailo.Runtime.Carddav

open Domain Library Store

namespace Server

/-- A strong etag stands for one text. -/
def Strong (server : Server) : Prop :=
  ∀ href member, (href, some member) ∈ server.changes → member.etag ≠ "" ∧
    ∀ other, (href, some other) ∈ server.changes → other.etag = member.etag →
      other.text = member.text

/-- A card is held at the version known or a later one. -/
def Tracks (server : Server) (known : Known) (cards : Cards) (href : Href) : Prop :=
  Versions.Follows server.changes Member.text href (known href)
    ((cards.get href).map BookCard.vcard)

/-- An etag held is one the server gave to the text held. -/
def Etagged (server : Server) (cards : Cards) : Prop :=
  ∀ href card, cards.get href = some card → card.etag ≠ "" →
    ∃ member, (href, some member) ∈ server.changes ∧ member.etag = card.etag ∧
      member.text = card.vcard

variable {server : Server} {known : Known} {cards : Cards} {href : Href}

theorem Tracks.known_le (h : server.Tracks known cards href) :
    known href ≤ server.version href :=
  Versions.Follows.known_le h

variable {member : Member} {told : List Href}

theorem mem_of_current (h : server.current href = some member) :
    (href, some member) ∈ server.changes :=
  Versions.mem_of_stateAt h

theorem mem_of_stateAt {n : Nat} (h : server.stateAt href n = some member) :
    (href, some member) ∈ server.changes :=
  Versions.mem_of_stateAt h

theorem learn_told (h : href ∈ told) :
    server.learn known told href = server.version href := if_pos (.inl h)

theorem learn_untold {told : List Href} (h : href ∉ told) :
    server.learn known told href = known href ∨
      (server.learn known told href = server.version href ∧
        server.stateAt href (known href) = none ∧ server.current href = none) := by
  unfold learn
  by_cases hnone : server.stateAt href (known href) = none ∧ server.current href = none
  · exact .inr ⟨if_pos (.inr hnone), hnone⟩
  · exact .inl (if_neg (fun hboth => hboth.elim h hnone))

theorem learn_le (h : known href ≤ server.version href) :
    server.learn known told href ≤ server.version href := by
  unfold learn
  split
  · exact Nat.le_refl _
  · exact h

end Server

/-! ## Reading replies -/

namespace Listing

variable {listing : Listing} {href other : Href}

variable {member : Option (Option String)}

theorem mem_say_members {etag : Option String} :
    (other, etag) ∈ (listing.say href member).members ↔
      if other = href then member = some etag else (other, etag) ∈ listing.members := by
  unfold say
  cases member with
  | none =>
    by_cases h : other = href <;> simp [h]
  | some told =>
    by_cases h : other = href
    · subst h
      simp only [List.mem_append, List.mem_filter, bne_self_eq_false, Bool.false_eq_true, and_false,
        List.mem_singleton, Prod.mk.injEq, true_and, false_or, if_true, Option.some.injEq]
      exact eq_comm
    · simp [h]

theorem mem_say_removed :
    other ∈ (listing.say href member).removed ↔
      if other = href then member = none else other ∈ listing.removed := by
  unfold say
  cases member with
  | none | some => by_cases h : other = href <;> simp [h]

theorem say_complete (member : Option (Option String)) :
    (listing.say href member).complete = listing.complete := by
  cases member <;> rfl

end Listing

namespace Server

variable {server : Server} {listing : Listing} {told : List (Href × Bool)} {href : Href}

theorem tellAll_concat (entry : Href × Bool) :
    server.tellAll (told ++ [entry]) listing =
      (server.tellAll told listing).say entry.1 (server.tells entry) := by
  rw [tellAll, List.foldl_append]
  rfl

theorem tellAll_complete : (server.tellAll told listing).complete = listing.complete := by
  induction told using List.reverseRecOn with
  | nil => rfl
  | append_singleton rest entry ih => rw [tellAll_concat, Listing.say_complete, ih]

theorem tellAll_untold (h : href ∉ told.map Prod.fst) :
    (∀ etag, (href, etag) ∈ (server.tellAll told listing).members ↔
        (href, etag) ∈ listing.members) ∧
      (href ∈ (server.tellAll told listing).removed ↔ href ∈ listing.removed) := by
  induction told using List.reverseRecOn with
  | nil => exact ⟨fun _ => Iff.rfl, Iff.rfl⟩
  | append_singleton rest entry ih =>
    rw [List.map_append, List.mem_append, not_or] at h
    have hne : href ≠ entry.1 := fun heq => h.2 (by simp [heq])
    obtain ⟨hmembers, hremoved⟩ := ih h.1
    rw [tellAll_concat]
    constructor
    · intro etag
      rw [Listing.mem_say_members, if_neg hne]
      exact hmembers etag
    · rw [Listing.mem_say_removed, if_neg hne]
      exact hremoved

theorem tellAll_told (h : href ∈ told.map Prod.fst) :
    (∀ etag, (href, etag) ∈ (server.tellAll told listing).members →
        ∃ shown, server.tells (href, shown) = some etag) ∧
      (href ∈ (server.tellAll told listing).removed → server.current href = none) ∧
      ((∃ etag, (href, etag) ∈ (server.tellAll told listing).members) ∨
        href ∈ (server.tellAll told listing).removed) := by
  induction told using List.reverseRecOn with
  | nil => exact absurd h List.not_mem_nil
  | append_singleton rest entry ih =>
    rw [tellAll_concat]
    by_cases heq : href = entry.1
    · subst heq
      refine ⟨fun etag hmem => ?_, fun hmem => ?_, ?_⟩
      · rw [Listing.mem_say_members, if_pos rfl] at hmem
        exact ⟨entry.2, hmem⟩
      · rw [Listing.mem_say_removed, if_pos rfl] at hmem
        exact Option.map_eq_none_iff.mp hmem
      · cases htells : server.tells entry with
        | none => exact .inr (by rw [Listing.mem_say_removed, if_pos rfl])
        | some etag => exact .inl ⟨etag, by rw [Listing.mem_say_members, if_pos rfl]⟩
    · have hrest : href ∈ rest.map Prod.fst := by
        rw [List.map_append, List.mem_append] at h
        exact h.resolve_right fun hlast => heq (by simpa using hlast)
      obtain ⟨hmembers, hremoved, hmention⟩ := ih hrest
      simp only [Listing.mem_say_members, Listing.mem_say_removed, if_neg heq]
      exact ⟨hmembers, hremoved, hmention⟩

theorem tells_eq_some {shown : Bool} {etag : Option String}
    (h : server.tells (href, shown) = some etag) :
    ∃ member, server.current href = some member ∧ ∀ given, etag = some given →
      given = member.etag := by
  obtain ⟨member, hcurrent, htold⟩ := Option.map_eq_some_iff.mp h
  refine ⟨member, hcurrent, fun given hgiven => ?_⟩
  rw [hgiven] at htold
  cases shown with
  | true => exact (Option.some.inj htold).symm
  | false => cases htold

end Server

/-! ## Listings so far -/

/-- What a listing has said is so at the versions known, and what it has not mentioned is as it was
before. -/
structure Told (server : Server) (held : Cards) (listing : Listing) (known : Known) : Prop where
  known_le : ∀ href, known href ≤ server.version href
  members : ∀ href etag, (href, etag) ∈ listing.members → ∃ member,
    server.stateAt href (known href) = some member ∧ ∀ given, etag = some given →
      given = member.etag
  removed : ∀ href ∈ listing.removed, server.stateAt href (known href) = none
  rest : ∀ href, (∀ etag, (href, etag) ∉ listing.members) → href ∉ listing.removed →
    if listing.complete then server.stateAt href (known href) = none
    else server.Tracks known held href

theorem told_scratch (server : Server) (held : Cards) :
    Told server held ⟨[], [], true, none⟩ fun _ => 0 where
  known_le _ := Nat.zero_le _
  members _ _ h := absurd h List.not_mem_nil
  removed _ h := absurd h List.not_mem_nil
  rest _ _ _ := rfl

variable {held : Cards} {server : Server}

variable {known : Known}

theorem told_since (h : ∀ href, server.Tracks known held href) :
    Told server held ⟨[], [], false, none⟩ known where
  known_le href := (h href).known_le
  members _ _ h := absurd h List.not_mem_nil
  removed _ h := absurd h List.not_mem_nil
  rest href _ _ := h href

/-- One more reply read. -/
theorem Told.tellAll {listing : Listing} (h : Told server held listing known)
    (told : List (Href × Bool)) :
    Told server held (server.tellAll told listing)
      (server.learn known (told.map Prod.fst)) where
  known_le href := Server.learn_le (h.known_le href)
  members := by
    intro href etag hmem
    by_cases htold : href ∈ told.map Prod.fst
    · obtain ⟨shown, htells⟩ := (Server.tellAll_told htold).1 etag hmem
      rw [Server.learn_told htold]
      exact Server.tells_eq_some htells
    · obtain ⟨member, hstate, hetag⟩ := h.members href etag (((Server.tellAll_untold htold).1 etag).mp hmem)
      rcases @Server.learn_untold server known href _ htold with hsame | ⟨_, hnone, _⟩
      · rw [hsame]
        exact ⟨member, hstate, hetag⟩
      · rw [hstate] at hnone
        cases hnone
  removed := by
    intro href hmem
    by_cases htold : href ∈ told.map Prod.fst
    · rw [Server.learn_told htold]
      exact (Server.tellAll_told htold).2.1 hmem
    · have hnone := h.removed href ((Server.tellAll_untold htold).2.mp hmem)
      rcases @Server.learn_untold server known href _ htold with hsame | ⟨hversion, _, hcurrent⟩
      · rw [hsame]
        exact hnone
      · rw [hversion]
        exact hcurrent
  rest := by
    intro href hmembers hremoved
    by_cases htold : href ∈ told.map Prod.fst
    · rcases (Server.tellAll_told htold).2.2 with ⟨etag, hmem⟩ | hmem
      · exact absurd hmem (hmembers etag)
      · exact absurd hmem hremoved
    · have hbefore := h.rest href
        (fun etag hmem => hmembers etag (((Server.tellAll_untold htold).1 etag).mpr hmem))
        (fun hmem => hremoved ((Server.tellAll_untold htold).2.mpr hmem))
      rw [Server.tellAll_complete]
      rcases @Server.learn_untold server known href _ htold with
        hsame | ⟨hversion, hnone, hcurrent⟩
      · split
        · rename_i hcomplete
          rw [if_pos hcomplete] at hbefore
          rw [hsame]
          exact hbefore
        · rename_i hcomplete
          rw [if_neg hcomplete] at hbefore
          unfold Server.Tracks at hbefore ⊢
          rw [hsame]
          exact hbefore
      · split
        · rw [hversion]
          exact hcurrent
        · rename_i hcomplete
          rw [if_neg hcomplete] at hbefore
          have habsent := hbefore.absent hnone
          unfold Server.Tracks
          rw [hversion, habsent]
          apply Versions.Follows.at_known (Nat.le_refl _)
          change none = (server.current href).map Member.text
          rw [hcurrent, Option.map_none]

/-- A listing of every member. -/
theorem told_names {told : List (Href × Bool)}
    (h : ∀ href, server.current href ≠ none → href ∈ told.map Prod.fst) :
    Told server held (server.names told) server.version where
  known_le _ := Nat.le_refl _
  members := by
    intro href etag hmem
    obtain ⟨entry, _, htells⟩ := List.mem_filterMap.mp hmem
    obtain ⟨found, htells, heq⟩ := Option.map_eq_some_iff.mp htells
    cases heq
    exact Server.tells_eq_some htells
  removed _ hmem := absurd hmem List.not_mem_nil
  rest := by
    intro href hmembers _
    change server.current href = none
    by_contra hthere
    obtain ⟨entry, hentry, rfl⟩ := List.mem_map.mp (h href hthere)
    obtain ⟨member, hmember⟩ := Option.ne_none_iff_exists'.mp hthere
    have htells : server.tells entry = some (if entry.2 then some member.etag else none) := by
      rw [Server.tells, hmember]
      rfl
    exact hmembers _ (List.mem_filterMap.mpr ⟨entry, hentry, by rw [htells]; rfl⟩)

/-! ## A whole listing -/

section Whole

variable {server : Server} {held : Cards} {listing : Listing} {known : Known}

variable {href : Href}

theorem mem_changed (h : href ∈ listing.changed held) :
    ∃ etag, (href, etag) ∈ listing.members := by
  obtain ⟨⟨found, etag⟩, hmem, rfl⟩ := List.mem_map.mp h
  exact ⟨etag, List.mem_of_mem_filter hmem⟩

theorem held_of_unchanged {etag : Option String} (hmem : (href, etag) ∈ listing.members)
    (h : href ∉ listing.changed held) :
    ∃ card, held.get href = some card ∧ etag = some card.etag := by
  by_contra hnot
  refine h (List.mem_map.mpr ⟨(href, etag), List.mem_filter.mpr ⟨hmem, ?_⟩, rfl⟩)
  cases hget : held.get href with
  | none => simp
  | some card =>
    cases etag with
    | none => simp
    | some etag =>
      simp only [bne_iff_ne, ne_eq]
      rintro rfl
      exact hnot ⟨card, hget, rfl⟩

/-- Once what went is dropped, every card not to be fetched is held as it stood when it was told
of. -/
theorem Told.tracks (h : Told server held listing known) (strong : server.Strong)
    (etagged : server.Etagged held) {after : Cards}
    (hafter : ∀ href, after.get href = if href ∈ listing.gone held then none else held.get href)
    (hunchanged : href ∉ listing.changed held) :
    server.Tracks known after href := by
  have habsent : server.stateAt href (known href) = none → after.get href = none →
      server.Tracks known after href := by
    intro hstate hget
    apply Versions.Follows.at_known (h.known_le href)
    change _ = (server.stateAt href (known href)).map Member.text
    rw [hstate, hget]
    rfl
  have hgone : href ∈ listing.gone held → after.get href = none := fun hmem => by
    rw [hafter, if_pos hmem]
  by_cases hmember : ∃ etag, (href, etag) ∈ listing.members
  · obtain ⟨etag, hmem⟩ := hmember
    obtain ⟨card, hget, rfl⟩ := held_of_unchanged hmem hunchanged
    obtain ⟨member, hstate, hetag⟩ := h.members href _ hmem
    obtain ⟨_, hone⟩ := strong href member (Server.mem_of_stateAt hstate)
    have hkeep : href ∉ listing.gone held := by
      intro hin
      rcases List.mem_append.mp hin with hin | hin
      · rw [h.removed href hin] at hstate
        cases hstate
      · split at hin
        · have hlisted : href ∈ listing.members.map Prod.fst := List.mem_map_of_mem hmem
          have hnot := (List.mem_filter.mp hin).2
          rw [List.contains_iff_mem.mpr hlisted] at hnot
          cases hnot
        · cases hin
    have hsame := hetag card.etag rfl
    obtain ⟨given, hgiven, hgetag, hgtext⟩ := etagged href card hget (by
      rw [hsame]
      exact (strong href member (Server.mem_of_stateAt hstate)).1)
    apply Versions.Follows.at_known (h.known_le href)
    change _ = (server.stateAt href (known href)).map Member.text
    rw [hafter, if_neg hkeep, hget, hstate, Option.map_some, Option.map_some, ← hgtext,
      hone given hgiven (hgetag.trans hsame)]
  · have hmembers : ∀ etag, (href, etag) ∉ listing.members := fun etag hmem =>
      hmember ⟨etag, hmem⟩
    by_cases hremoved : href ∈ listing.removed
    · exact habsent (h.removed href hremoved) (hgone (List.mem_append_left _ hremoved))
    · have hrest := h.rest href hmembers hremoved
      split at hrest
      · rename_i hcomplete
        apply habsent hrest
        rw [hafter]
        split
        · rfl
        · rename_i hkeep
          cases hget : held.get href with
          | none => rfl
          | some card =>
            refine absurd (List.mem_append_right _ ?_) hkeep
            rw [if_pos hcomplete]
            refine List.mem_filter.mpr ⟨Table.mem_keys.mpr ⟨card, hget⟩, ?_⟩
            rw [Bool.not_eq_true', List.contains_eq_mem, decide_eq_false_iff_not]
            intro hin
            obtain ⟨⟨found, etag⟩, hmem, rfl⟩ := List.mem_map.mp hin
            exact hmembers etag hmem
      · rename_i hcomplete
        have hkeep : href ∉ listing.gone held := by
          intro hin
          rcases List.mem_append.mp hin with hin | hin
          · exact hremoved hin
          · rw [if_neg hcomplete] at hin
            cases hin
        unfold Server.Tracks at hrest ⊢
        rw [hafter, if_neg hkeep]
        exact hrest

end Whole

end Mailo.Runtime.Carddav

/-!
## Address books and contacts agree

What holds whatever the servers did, as long as each batch is answered in full, no sync ends part
way having changed what its book lists, and no book lets go of an address that a card of another
book lists.
-/

namespace Mailo.Runtime.Carddav

open Domain Library Store
open Pim.Line (Encodings)

namespace World

/-- A stored book lists an address. -/
def on (world : World) (address : String) (url : Url) : Prop :=
  ∃ book, world.books.get url = some book ∧ lists book.cards address = true

/-- What a whole listing drops takes no entry of the book that a card of another book lists. -/
def DropsApart (world : World) (url : Url) (listing : Listing) : Prop :=
  Keeps url world.on ⟨world.contacts, world.cardsOf url⟩ (listing.gone (world.cardsOf url)) []

/-- Every card asked for is answered about; an entry of the book that a card of another book lists
remains on a card of the book, whatever is dropped or written; and a sync that ends part way has
changed the listing of no address, unless the entry is the user's or another book's. -/
def Meets [Unicode] (E : Encodings) (world : World) : Event → Prop
  | .reported told truncated _ =>
    match world.phase with
    | .reporting url _ listing _ _ => truncated = false →
        world.DropsApart url ((world.servers url).tellAll told listing)
    | _ => True
  | .named told =>
    match world.phase with
    | .naming url _ => world.DropsApart url ((world.servers url).names told)
    | _ => True
  | .fetched answered =>
    match world.phase with
    | .fetching url cards remaining _ _ _ =>
      (∀ href ∈ remaining.take batch, href ∈ answered.map Prod.fst) ∧
        Keeps url world.on ⟨world.contacts, cards⟩ (answered.map Prod.fst)
          (answered.flatMap fun answer => addressesNow E (world.servers url) answer.1)
    | _ => True
  | .lost =>
    match world.phase with
    | .fetching url cards _ _ _ _ =>
      ∀ address, lists cards address = lists (world.cardsOf url) address ∨
        originOf world.contacts address = some .manual ∨
        ∃ owner, owner ≠ url ∧ originOf world.contacts address = some (.book owner)
    | _ => True
  | _ => True

/-! ## What holds -/

/-- The cards held of a book, with what a sync has written so far. -/
def heldOf (world : World) (url : Url) : Cards :=
  match world.phase with
  | .fetching syncing cards _ _ _ _ => if url = syncing then cards else world.cardsOf url
  | _ => world.cardsOf url

/-- What holds in every state. -/
structure Agreeing (world : World) : Prop where
  /-- After a whole sync during which nothing changed, the cards are the server's. -/
  current : ∀ url n book, world.settled.get url = some n →
    (world.servers url).changes.length = n → world.books.get url = some book → ∀ href,
    (book.cards.get href).map BookCard.vcard =
      ((world.servers url).current href).map Member.text
  /-- Each address a card lists is the user's entry, or owned by a book that lists it. -/
  known : ∀ url href card, (world.heldOf url).get href = some card → ∀ address ∈ card.addresses,
    ∃ contact, world.contacts.get address = some contact ∧
      (contact.origin = .manual ∨ ∃ owner, contact.origin = .book owner ∧
        lists (world.heldOf owner) address = true)
  /-- A book owns no entry that none of its cards lists. -/
  owned : ∀ address contact url, world.contacts.get address = some contact →
    contact.origin = .book url → lists (world.heldOf url) address = true
  /-- Every card is held at least as new as the token stored knows it. -/
  token : ∀ url book token, world.books.get url = some book → book.token = some token →
    ∃ known, (world.servers url).tokens.get token = some known ∧ ∀ href, ∃ n, known href ≤ n ∧
      n ≤ (world.servers url).version href ∧ (book.cards.get href).map BookCard.vcard =
        ((world.servers url).stateAt href n).map Member.text

/-- A stored book follows its server from the token it holds. -/
structure BookSound (server : Server) (book : AddressBook) : Prop where
  etagged : server.Etagged book.cards
  token : ∀ token, book.token = some token → ∃ known, server.tokens.get token = some known ∧
    ∀ href, server.Tracks known book.cards href

/-- What the last whole sync that nothing changed during left of a book. -/
def Settled (server : Server) (book : Option AddressBook) (n : Nat) : Prop :=
  n ≤ server.changes.length ∧ ∃ held, book = some held ∧
    (server.changes.length = n → ∀ href, (held.cards.get href).map BookCard.vcard =
      (server.current href).map Member.text)

/-- What holds of a collection while it is synced, `n` its last settled number of changes. -/
structure Syncing (world : World) (url : Url) (begun : Nat) : Prop where
  opened : world.books.contains url = true
  begun_le : begun ≤ (world.servers url).changes.length
  settled_le : ∀ n, world.settled.get url = some n → n ≤ begun

/-- The books that list an address now, the one being synced with the cards written so far. -/
def onNow (world : World) : String → Url → Prop :=
  match world.phase with
  | .fetching url cards _ _ _ _ => onWith url world.on cards
  | _ => world.on

def PhaseSound (world : World) : Phase → Prop
  | .idle => True
  | .reporting url since listing known begun =>
    world.Syncing url begun ∧
      (∀ token, since = some token → (world.servers url).tokens.get token = some known) ∧
      Told (world.servers url) (world.cardsOf url) listing known
  | .naming url begun => world.Syncing url begun
  | .fetching url cards remaining token known begun =>
    world.Syncing url begun ∧ (world.servers url).Etagged cards ∧
      (∀ given, token = some given → (world.servers url).tokens.get given = some known) ∧
      (∀ href, href ∉ remaining → (world.servers url).Tracks known cards href) ∧
      (∀ href ∈ remaining, known href ≤ (world.servers url).version href ∧
        (world.servers url).stateAt href (known href) ≠ none) ∧
      ((world.servers url).changes.length = begun →
        ∀ href, known href = (world.servers url).version href)

structure Sound (world : World) : Prop where
  strong : ∀ url, (world.servers url).Strong
  books : ∀ url book, world.books.get url = some book → BookSound (world.servers url) book
  settled : ∀ url n, world.settled.get url = some n →
    Settled (world.servers url) (world.books.get url) n
  owned : Owned world.contacts world.onNow
  phase : world.PhaseSound world.phase

variable {world : World}

variable {address : String} {url : Url}

theorem on_iff :
    world.on address url ↔ lists (world.cardsOf url) address = true := by
  unfold on cardsOf
  cases world.books.get url with
  | none => simp [lists, Table.values, Table.empty]
  | some book => simp

theorem onNow_iff :
    world.onNow address url ↔ lists (world.heldOf url) address = true := by
  unfold onNow heldOf
  cases world.phase with
  | fetching syncing cards remaining token known begun =>
    dsimp only
    unfold onWith
    split
    · rfl
    · exact on_iff
  | _ => exact on_iff

/-- What is sound agrees. -/
theorem Sound.agreeing (h : world.Sound) : world.Agreeing where
  current := by
    intro url n book hsettled hlength hbook href
    obtain ⟨_, held, hheld, hcurrent⟩ := h.settled url n hsettled
    rw [hbook, Option.some.injEq] at hheld
    rw [hheld]
    exact hcurrent hlength href
  known := by
    intro url href card hcard address haddress
    have hon : world.onNow address url :=
      onNow_iff.mpr (lists_iff.mpr ⟨href, card, hcard, haddress⟩)
    have howns := h.owned address
    unfold originOf at howns
    cases hget : world.contacts.get address with
    | none =>
      rw [hget] at howns
      exact absurd hon (howns url)
    | some contact =>
      refine ⟨contact, rfl, ?_⟩
      rw [hget, Option.map_some] at howns
      cases horigin : contact.origin with
      | history =>
        rw [horigin] at howns
        exact absurd hon (howns url)
      | manual => exact .inl rfl
      | book owner =>
        rw [horigin] at howns
        exact .inr ⟨owner, rfl, onNow_iff.mp howns⟩
  owned := by
    intro address contact url hget horigin
    have howns := h.owned address
    rw [originOf, hget, Option.map_some, horigin] at howns
    exact onNow_iff.mp howns
  token := by
    intro url book token hbook htoken
    obtain ⟨known, hknown, htracks⟩ := (h.books url book hbook).token token htoken
    exact ⟨known, hknown, fun href => (htracks href).later⟩

end World

end Mailo.Runtime.Carddav
