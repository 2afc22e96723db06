import Mailo.Pim.Kept
import Mailo.Runtime.Carddav.Listings

/-!
# What every sync keeps

A server only grows: its changes are added to, and a token given keeps what it stands for. Each
event keeps a world sound, and so does every run of them.
-/

namespace Mailo.Runtime.Carddav

open Domain Library Store
open Pim.Line (Encodings)

namespace Server

structure Grown (before after : Server) : Prop where
  changes : ∃ more, after.changes = before.changes ++ more
  tokens : ∀ token known, before.tokens.get token = some known →
    after.tokens.get token = some known

variable {before after : Server}

theorem grown_changed (server : Server) (change : Href × Option Member) :
    server.Grown { server with changes := server.changes ++ [change] } :=
  ⟨⟨[change], rfl⟩, fun _ _ h => h⟩

theorem grown_minted {server : Server} {token : String} {known : Known}
    (h : server.tokens.get token = none ∨ server.tokens.get token = some known) :
    server.Grown { server with tokens := server.tokens.set token known } where
  changes := ⟨[], (List.append_nil _).symm⟩
  tokens := by
    intro other stands hother
    rw [Table.get_set]
    split
    · rename_i heq
      rw [heq] at hother
      rcases h with h | h
      · rw [h] at hother
        cases hother
      · exact h.symm.trans hother
    · exact hother

namespace Grown

variable (h : before.Grown after)

include h

variable {href : Href} {n : Nat} {cards : Cards} {known : Known}

theorem stateAt (hn : n ≤ before.version href) :
    after.stateAt href n = before.stateAt href n := by
  obtain ⟨more, hmore⟩ := h.changes
  rw [Server.stateAt, hmore]
  exact Versions.stateAt_append more hn

theorem version_le (href : Href) : before.version href ≤ after.version href := by
  obtain ⟨more, hmore⟩ := h.changes
  rw [Server.version, Server.version, hmore]
  exact Versions.version_le_append _ _ _

theorem tracks (htracks : before.Tracks known cards href) : after.Tracks known cards href := by
  obtain ⟨more, hmore⟩ := h.changes
  rw [Tracks, hmore]
  exact Versions.Follows.append htracks more

theorem etagged (hetagged : before.Etagged cards) : after.Etagged cards := by
  intro href card hget hetag
  obtain ⟨more, hmore⟩ := h.changes
  obtain ⟨member, hmem, hsame⟩ := hetagged href card hget hetag
  exact ⟨member, by rw [hmore]; exact List.mem_append_left _ hmem, hsame⟩

theorem told {held : Cards} {listing : Listing} (htold : Told before held listing known) :
    Told after held listing known where
  known_le href := Nat.le_trans (htold.known_le href) (h.version_le href)
  members href etag hmem := by
    rw [h.stateAt (htold.known_le href)]
    exact htold.members href etag hmem
  removed href hmem := by
    rw [h.stateAt (htold.known_le href)]
    exact htold.removed href hmem
  rest href hmembers hremoved := by
    have hrest := htold.rest href hmembers hremoved
    rw [h.stateAt (htold.known_le href)]
    split
    · rename_i hcomplete
      rw [if_pos hcomplete] at hrest
      exact hrest
    · rename_i hcomplete
      rw [if_neg hcomplete] at hrest
      exact h.tracks hrest

theorem length_le : before.changes.length ≤ after.changes.length := by
  obtain ⟨more, hmore⟩ := h.changes
  rw [hmore, List.length_append]
  omega

/-- A server with no more changes than before stands as it did. -/
theorem same (hn : n ≤ before.changes.length) (hlength : after.changes.length = n) :
    after.changes = before.changes := by
  obtain ⟨more, hmore⟩ := h.changes
  rw [hmore, List.length_append] at hlength
  obtain rfl : more = [] := List.length_eq_zero_iff.mp (by omega)
  rw [hmore, List.append_nil]

end Grown

end Server

namespace World

/-! ## Frames -/

variable {after before : Server}

theorem BookSound.grown (h : before.Grown after) {book : AddressBook}
    (hbook : BookSound before book) : BookSound after book where
  etagged := h.etagged hbook.etagged
  token token htoken := by
    obtain ⟨known, hknown, htracks⟩ := hbook.token token htoken
    exact ⟨known, h.tokens token known hknown, fun href => h.tracks (htracks href)⟩

theorem Settled.grown (h : before.Grown after) {book : Option AddressBook} {n : Nat}
    (hsettled : Settled before book n) : Settled after book n := by
  obtain ⟨hn, held, hbook, hcurrent⟩ := hsettled
  refine ⟨Nat.le_trans hn h.length_le, held, hbook, fun hlength href => ?_⟩
  have hsame := h.same hn hlength
  rw [hsame] at hlength
  rw [hcurrent hlength href, Server.current, Server.current, hsame]

section Frames

variable {world : World}

@[simp] theorem setServer_self (url : Url) (server : Server) :
    (world.setServer url server).servers url = server := if_pos rfl

/-- A collection's server grows, and nothing else changes. -/
theorem Sound.setServer (h : world.Sound) {url : Url} {server : Server}
    (grown : (world.servers url).Grown server) (strong : server.Strong) :
    (world.setServer url server).Sound := by
  have hgrown : ∀ other, (world.servers other).Grown ((world.setServer url server).servers other) := by
    intro other
    unfold World.setServer
    dsimp only
    split
    · rename_i heq
      rw [heq]
      exact grown
    · exact ⟨⟨[], (List.append_nil _).symm⟩, fun _ _ h => h⟩
  have hsyncing : ∀ {other begun}, world.Syncing other begun →
      (world.setServer url server).Syncing other begun := fun hsyncing =>
    ⟨hsyncing.opened, Nat.le_trans hsyncing.begun_le (hgrown _).length_le, hsyncing.settled_le⟩
  exact
    { strong := by
        intro other
        unfold World.setServer
        dsimp only
        split
        · exact strong
        · exact h.strong other
      books := fun other book hbook => (h.books other book hbook).grown (hgrown other)
      settled := fun other n hn => (h.settled other n hn).grown (hgrown other)
      owned := h.owned
      phase := by
        have hphase := h.phase
        change PhaseSound _ world.phase
        cases hat : world.phase with
        | idle => trivial
        | reporting other since listing known begun =>
          rw [hat] at hphase
          obtain ⟨hsync, hsince, htold⟩ := hphase
          exact ⟨hsyncing hsync, fun token htoken => (hgrown other).tokens _ _ (hsince token htoken),
            (hgrown other).told htold⟩
        | naming other begun =>
          rw [hat] at hphase
          exact hsyncing hphase
        | fetching other cards remaining token known begun =>
          rw [hat] at hphase
          obtain ⟨hsync, hetagged, htoken, htracks, hthere, hwhole⟩ := hphase
          refine ⟨hsyncing hsync, (hgrown other).etagged hetagged,
            fun given hgiven => (hgrown other).tokens _ _ (htoken given hgiven),
            fun href hnot => (hgrown other).tracks (htracks href hnot), fun href hmem => ?_,
            fun hlength href => ?_⟩
          · obtain ⟨hle, hstate⟩ := hthere href hmem
            refine ⟨Nat.le_trans hle ((hgrown other).version_le href), ?_⟩
            rw [(hgrown other).stateAt hle]
            exact hstate
          · have hsame := (hgrown other).same hsync.begun_le hlength
            rw [hsame] at hlength
            rw [hwhole hlength href, Server.version, Server.version, hsame] }

/-- A phase rests on the servers, on the cards stored, and on which books there are. -/
theorem PhaseSound.congr {after : World} {phase : Phase} (h : world.PhaseSound phase)
    (hservers : after.servers = world.servers) (hsettled : after.settled = world.settled)
    (hcards : ∀ url, after.cardsOf url = world.cardsOf url)
    (hopened : ∀ url, world.books.contains url = true → after.books.contains url = true) :
    after.PhaseSound phase := by
  have hsyncing : ∀ {url begun}, world.Syncing url begun → after.Syncing url begun := fun hsync =>
    ⟨hopened _ hsync.opened, hservers ▸ hsync.begun_le, hsettled ▸ hsync.settled_le⟩
  cases phase with
  | idle => trivial
  | reporting url since listing known begun =>
    obtain ⟨hsync, hrest⟩ := h
    rw [PhaseSound, hservers, hcards]
    exact ⟨hsyncing hsync, hrest⟩
  | naming url begun => exact hsyncing h
  | fetching url cards remaining token known begun =>
    obtain ⟨hsync, hrest⟩ := h
    rw [PhaseSound, hservers]
    exact ⟨hsyncing hsync, hrest⟩

/-- The contacts change, and a sync moves on. -/
theorem Sound.moved (h : world.Sound) {contacts : Contacts} {phase : Phase}
    (sound : world.PhaseSound phase) (owned : Owned contacts (onNow { world with phase })) :
    Sound { world with contacts, phase } where
  strong := h.strong
  books := h.books
  settled := h.settled
  owned := owned
  phase := sound.congr rfl rfl (fun _ => rfl) fun _ => id

theorem onWith_cardsOf (url : Url) (address : String) (other : Url) :
    onWith url world.on (world.cardsOf url) address other ↔ world.on address other := by
  unfold onWith
  split
  · rename_i heq
    rw [heq]
    exact on_iff.symm
  · rfl

end Frames

theorem sound_empty : Sound .empty where
  strong _ _ _ h := absurd h List.not_mem_nil
  books _ _ h := by cases h
  settled _ _ h := by cases h
  owned _ := by
    intro url hon
    obtain ⟨_, hbook, _⟩ := hon
    cases hbook
  phase := trivial

/-! ## Events outside a sync -/

section Outside

variable {world : World}

theorem sound_opened (h : world.Sound) (url : Url) :
    Sound { world with books := world.books.insertNew url ⟨none, .empty⟩ } := by
  have hget : ∀ other book, (world.books.insertNew url ⟨none, .empty⟩).get other = some book →
      world.books.get other = some book ∨ book = ⟨none, .empty⟩ := by
    intro other book hbook
    rw [Table.get_insertNew] at hbook
    split at hbook
    · rename_i heq
      rw [heq]
      cases hstored : world.books.get url with
      | none =>
        rw [hstored] at hbook
        exact .inr (Option.some.inj hbook).symm
      | some stored =>
        rw [hstored] at hbook
        exact .inl hbook
    · exact .inl hbook
  have hkept : ∀ other book, world.books.get other = some book →
      (world.books.insertNew url ⟨none, .empty⟩).get other = some book := by
    intro other book hbook
    rw [Table.get_insertNew]
    split
    · rename_i heq
      rw [← heq, hbook]
      rfl
    · exact hbook
  have hcards : ∀ other, cardsOf { world with books := world.books.insertNew url ⟨none, .empty⟩ }
      other = world.cardsOf other := by
    intro other
    unfold cardsOf
    rw [Table.get_insertNew]
    split
    · rename_i heq
      rw [heq]
      cases world.books.get url <;> rfl
    · rfl
  have hon : ∀ address other,
      on { world with books := world.books.insertNew url ⟨none, .empty⟩ } address other ↔
        world.on address other := by
    intro address other
    constructor
    · rintro ⟨book, hbook, hlists⟩
      rcases hget other book hbook with hbook | rfl
      · exact ⟨book, hbook, hlists⟩
      · cases hlists
    · rintro ⟨book, hbook, hlists⟩
      exact ⟨book, hkept other book hbook, hlists⟩
  exact
    { strong := h.strong
      books := by
        intro other book hbook
        rcases hget other book hbook with hbook | rfl
        · exact h.books other book hbook
        · exact ⟨fun _ _ hcard => (by cases hcard), fun _ htoken => (by cases htoken)⟩
      settled := by
        intro other n hn
        obtain ⟨hle, held, hheld, hcurrent⟩ := h.settled other n hn
        exact ⟨hle, held, hkept other held hheld, hcurrent⟩
      owned := by
        intro address
        refine (h.owned address).congr fun other => ?_
        unfold onNow
        cases world.phase with
        | fetching syncing cards remaining token known begun =>
          dsimp only
          unfold onWith
          split
          · rfl
          · exact hon address other
        | _ => exact hon address other
      phase := by
        refine h.phase.congr rfl rfl hcards fun other hopened => ?_
        obtain ⟨book, hbook⟩ := Table.contains_iff.mp hopened
        exact Table.contains_iff.mpr ⟨book, hkept other book hbook⟩ }

theorem sound_changed (h : world.Sound) {url : Url} {href : Href} {member : Option Member}
    (hallowed : world.Allowed (.changed url href member)) :
    (world.setServer url { world.servers url with
      changes := (world.servers url).changes ++ [(href, member)] }).Sound := by
  apply h.setServer (Server.grown_changed _ _)
  intro other found hfound
  have hcases : ∀ other found, (other, some found) ∈ (world.servers url).changes ++ [(href, member)] →
      (other, some found) ∈ (world.servers url).changes ∨ (other = href ∧ member = some found) := by
    intro other found hfound
    rcases List.mem_append.mp hfound with hfound | hfound
    · exact .inl hfound
    · obtain ⟨rfl, rfl⟩ := Prod.mk.inj (List.mem_singleton.mp hfound)
      exact .inr ⟨rfl, rfl⟩
  rcases hcases other found hfound with hold | ⟨rfl, hnew⟩
  · obtain ⟨hetag, hone⟩ := h.strong url other found hold
    refine ⟨hetag, fun again hagain hsame => ?_⟩
    rcases hcases other again hagain with hold' | ⟨rfl, hnew⟩
    · exact hone again hold' hsame
    · exact ((hallowed again hnew).2 found hold hsame.symm).symm
  · obtain ⟨hetag, hone⟩ := hallowed found hnew
    refine ⟨hetag, fun again hagain hsame => ?_⟩
    rcases hcases other again hagain with hold | ⟨_, hagain⟩
    · exact hone again hold hsame
    · rw [hnew, Option.some.injEq] at hagain
      rw [hagain]

theorem sound_heard (h : world.Sound) {address : String} {contact : Contact}
    (hallowed : world.Allowed (.heard address contact)) :
    Sound { world with contacts := world.contacts.set address contact } := by
  apply h.moved h.phase
  intro other
  have hon := h.owned other
  unfold originOf at hon ⊢
  rw [Table.get_set]
  split
  · rename_i heq
    subst heq
    rw [Option.map_some, hallowed]
    cases horigin : (world.contacts.get other).map Contact.origin with
    | none | some =>
      rw [horigin] at hon
      exact hon
  · exact hon

theorem sound_typed [Unicode] (h : world.Sound) (address : String) (name : Option String) :
    Sound { world with contacts := world.contacts.put address name .manual } := by
  apply h.moved h.phase
  intro other
  have hon := h.owned other
  unfold originOf at hon ⊢
  rw [Contacts.get_put]
  split
  · rw [Option.map_some, Contact.given_origin]
    trivial
  · exact hon

end Outside

/-! ## Listing -/

section Listed

variable {world : World}

variable {url : Url} {begun : Nat} {known : Known} {token : Option String} {E : Encodings}

theorem syncing_now (h : world.Sound) (hopened : world.books.contains url = true) :
    world.Syncing url (world.servers url).changes.length :=
  ⟨hopened, Nat.le_refl _, fun n hn => (h.settled url n hn).1⟩

theorem scratch_sound (h : world.Syncing url begun) :
    world.PhaseSound (scratch url begun) :=
  ⟨h, fun _ hsince => (by cases hsince), told_scratch _ _⟩

theorem asked_sound (h : world.Sound) (hopened : world.books.contains url = true) :
    world.PhaseSound (world.asked url) := by
  have hsync := syncing_now h hopened
  unfold asked
  cases htoken : (world.books.get url).bind AddressBook.token with
  | none => exact scratch_sound hsync
  | some token =>
    obtain ⟨book, hbook, htoken⟩ := Option.bind_eq_some_iff.mp htoken
    obtain ⟨known, hknown, htracks⟩ := (h.books url book hbook).token token htoken
    have hcards : world.cardsOf url = book.cards := by
      rw [cardsOf, hbook]
      rfl
    dsimp only
    rw [hknown]
    refine ⟨hsync, fun again hagain => ?_, told_since fun href => ?_⟩
    · rw [← Option.some.inj hagain]
      exact hknown
    · rw [hcards]
      exact htracks href

theorem onNow_listing {phase : Phase} (hphase : ∀ url cards remaining token known begun,
    phase ≠ .fetching url cards remaining token known begun) :
    onNow { world with phase } = world.on := by
  unfold onNow
  cases phase with
  | fetching url cards remaining token known begun => exact absurd rfl (hphase _ _ _ _ _ _)
  | _ => rfl

theorem asked_listing (url : Url) (other : Url) (cards : Cards) (remaining : List Href)
    (token : Option String) (known : Known) (begun : Nat) :
    world.asked url ≠ .fetching other cards remaining token known begun := by
  unfold asked scratch
  split <;> exact Phase.noConfusion

theorem owned_on (h : world.Sound) {phase : Phase} (hat : world.phase = phase)
    (hphase : ∀ url cards remaining token known begun,
      phase ≠ .fetching url cards remaining token known begun) :
    Owned world.contacts world.on := by
  have hon := h.owned
  rw [← @onNow_listing world _ hphase, ← hat]
  exact hon

theorem sound_start (h : world.Sound) (hidle : world.phase = .idle)
    (hopened : world.books.contains url = true) :
    Sound { world with phase := world.asked url } := by
  apply h.moved (asked_sound h hopened)
  rw [onNow_listing (asked_listing url)]
  exact owned_on h hidle fun _ _ _ _ _ _ => Phase.noConfusion

theorem sound_refuse (h : world.Sound) : world.refuse.Sound := by
  unfold refuse
  cases hat : world.phase with
  | reporting url since listing known begun =>
    have howned := owned_on h hat fun _ _ _ _ _ _ => Phase.noConfusion
    have hphase := h.phase
    rw [hat] at hphase
    apply h.moved
    · split
      · exact hphase.1
      · exact scratch_sound hphase.1
    · rw [onNow_listing]
      · exact howned
      · intro _ _ _ _ _ _
        split <;> exact Phase.noConfusion
  | _ => exact h

theorem sound_mint (h : world.Sound)
    (hgiven : ∀ given, token = some given → (world.servers url).tokens.get given = none ∨
      (world.servers url).tokens.get given = some known) :
    (world.mint url token known).Sound ∧
      (world.servers url).Grown ((world.mint url token known).servers url) ∧
      ((world.mint url token known).servers url).changes = (world.servers url).changes ∧
      ∀ given, token = some given →
        ((world.mint url token known).servers url).tokens.get given = some known := by
  cases token with
  | none =>
    exact ⟨h, ⟨⟨[], (List.append_nil _).symm⟩, fun _ _ htoken => htoken⟩, rfl,
      fun _ hnone => (by cases hnone)⟩
  | some token =>
    have hgrown := Server.grown_minted (hgiven token rfl)
    have hself : (world.mint url (some token) known).servers url =
        { world.servers url with tokens := (world.servers url).tokens.set token known } :=
      setServer_self _ _
    rw [hself]
    refine ⟨h.setServer hgrown (h.strong url), hgrown, rfl, fun given hsome => ?_⟩
    rw [Option.some.inj hsome, Table.get_set, if_pos rfl]

theorem mint_frame (world : World) (url : Url) (token : Option String) (known : Known) :
    (world.mint url token known).books = world.books ∧
      (world.mint url token known).contacts = world.contacts ∧
      (world.mint url token known).settled = world.settled ∧
      (world.mint url token known).phase = world.phase := by
  cases token <;> exact ⟨rfl, rfl, rfl, rfl⟩

variable [Unicode]

/-- A whole listing: what went is let go of, and every card not to be fetched is held as the listing
knows it. -/
theorem sound_listed (h : world.Sound) {listing : Listing} (howned : Owned world.contacts world.on)
    (hsync : world.Syncing url begun)
    (htoken : ∀ token, listing.token = some token →
      (world.servers url).tokens.get token = some known)
    (htold : Told (world.servers url) (world.cardsOf url) listing known)
    (hwhole : (world.servers url).changes.length = begun →
      ∀ href, known href = (world.servers url).version href) (apart : world.DropsApart url listing)
    : (world.listed url listing known begun).Sound := by
  have hetagged : (world.servers url).Etagged (world.cardsOf url) := by
    obtain ⟨book, hbook⟩ := Table.contains_iff.mp hsync.opened
    rw [cardsOf, hbook]
    exact (h.books url book hbook).etagged
  have hheld := @dropAll_get _ url (listing.gone (world.cardsOf url))
    ⟨world.contacts, world.cardsOf url⟩
  have hdropped := @dropAll_owned _ url world.on (listing.gone (world.cardsOf url))
    ⟨world.contacts, world.cardsOf url⟩
    (fun address => (howned address).congr (onWith_cardsOf url address)) apart
  unfold listed
  dsimp only
  generalize (listing.gone (world.cardsOf url)).foldl (dropCard url)
    ⟨world.contacts, world.cardsOf url⟩ = held at hheld hdropped
  refine h.moved ⟨hsync, ?_, htoken, ?_, ?_, hwhole⟩ hdropped
  · intro href card hget
    rw [hheld] at hget
    split at hget
    · cases hget
    · exact hetagged href card hget
  · intro href hnot
    exact htold.tracks (h.strong url) hetagged hheld hnot
  · intro href hmem
    obtain ⟨etag, hmember⟩ := mem_changed hmem
    obtain ⟨member, hstate, _⟩ := htold.members href etag hmember
    refine ⟨htold.known_le href, ?_⟩
    rw [hstate]
    exact Option.some_ne_none member

theorem sound_reported (h : world.Sound) {told : List (Href × Bool)} {truncated : Bool}
    (hallowed : world.Allowed (.reported told truncated token))
    (hmeets : world.Meets E (.reported told truncated token)) :
    (world.reported told truncated token).Sound := by
  unfold reported
  unfold Allowed at hallowed
  unfold Meets at hmeets
  cases hat : world.phase with
  | reporting url since listing known begun =>
    have hphase := h.phase
    rw [hat] at hphase hallowed hmeets
    dsimp only at hallowed hmeets ⊢
    obtain ⟨hsync, _, htold⟩ := hphase
    obtain ⟨hall, hgiven⟩ := hallowed
    have howned := owned_on h hat fun _ _ _ _ _ _ => Phase.noConfusion
    have hlearnt := htold.tellAll told
    generalize hlearn : (world.servers url).learn known (told.map Prod.fst) = learnt
      at hall hgiven hlearnt ⊢
    obtain ⟨hminted, hgrown, hchanges, hstands⟩ := sound_mint h hgiven
    obtain ⟨hbooks, hcontacts, hsettled, hphase⟩ := mint_frame world url token learnt
    generalize world.mint url token learnt = minted at *
    have hon : minted.on = world.on := by
      unfold on
      rw [hbooks]
    have hcards : minted.cardsOf url = world.cardsOf url := by
      unfold cardsOf
      rw [hbooks]
    have hsync : minted.Syncing url begun :=
      ⟨by rw [hbooks]; exact hsync.opened, by rw [hchanges]; exact hsync.begun_le,
        by rw [hsettled]; exact hsync.settled_le⟩
    have howned : Owned minted.contacts minted.on := by
      rw [hcontacts, hon]
      exact howned
    have htold : Told (minted.servers url) (minted.cardsOf url)
        ((world.servers url).tellAll told listing) learnt := by
      rw [hcards]
      exact hgrown.told hlearnt
    cases truncated with
    | true =>
      rw [if_pos rfl]
      cases token with
      | none => exact sound_refuse hminted
      | some next =>
        dsimp only
        split
        · exact sound_refuse hminted
        · refine hminted.moved ⟨hsync, fun given hsome => ?_, htold⟩ howned
          exact hstands given hsome
    | false =>
      rw [if_neg Bool.false_ne_true]
      apply sound_listed hminted howned hsync hstands
      · exact ⟨htold.known_le, htold.members, htold.removed, htold.rest⟩
      · intro _ href
        rw [hall rfl href, Server.version, Server.version, hchanges]
      · rw [DropsApart, hcards, hon, hcontacts]
        exact hmeets rfl
  | _ => exact h

theorem sound_named (h : world.Sound) {told : List (Href × Bool)}
    (hallowed : world.Allowed (.named told)) (hmeets : world.Meets E (.named told)) :
    (world.named told).Sound := by
  unfold named
  unfold Allowed at hallowed
  unfold Meets at hmeets
  cases hat : world.phase with
  | naming url begun =>
    have hphase := h.phase
    rw [hat] at hphase hallowed hmeets
    exact sound_listed h (owned_on h hat fun _ _ _ _ _ _ => Phase.noConfusion) hphase
      (fun _ hnone => (by cases hnone)) (told_names hallowed) (fun _ _ => rfl) hmeets
  | _ => exact h

end Listed

/-! ## Fetching -/

section Fetching

variable [Unicode] (E : Encodings) {world : World}

/-- A batch answered in full leaves every card of it as the server has it. -/
theorem sound_fetched (h : world.Sound) {answered : List (Href × Bool)}
    (hallowed : world.Allowed (.fetched answered)) (hmeets : world.Meets E (.fetched answered)) :
    (world.fetched E answered).Sound := by
  unfold fetched
  unfold Allowed at hallowed
  unfold Meets at hmeets
  cases hat : world.phase with
  | fetching url cards remaining token known begun =>
    have hphase := h.phase
    have howned := h.owned
    rw [onNow, hat] at howned
    rw [hat] at hphase hallowed hmeets
    dsimp only at hallowed hmeets howned ⊢
    obtain ⟨hsync, hetagged, htoken, htracks, hthere, hwhole⟩ := hphase
    obtain ⟨honce, hasked⟩ := hallowed
    obtain ⟨hall, hapart⟩ := hmeets
    have hwritten := @takeAll_owned _ E url world.on (world.servers url) answered
      ⟨world.contacts, cards⟩ howned honce hapart
    have hget := @takeAll_get _ E url (world.servers url) answered
      ⟨world.contacts, cards⟩
    generalize answered.foldl (take E url (world.servers url)) ⟨world.contacts, cards⟩ = held
      at hwritten hget ⊢
    refine h.moved ⟨hsync, ?_, htoken, ?_, ?_, hwhole⟩ hwritten
    · intro href card hcard hetag
      rcases hget href with ⟨_, hsame⟩ | ⟨_, shown, hnew⟩
      · rw [hsame] at hcard
        exact hetagged href card hcard hetag
      · rw [hnew, Option.map_eq_some_iff] at hcard
        obtain ⟨member, hcurrent, rfl⟩ := hcard
        cases shown with
        | true => exact ⟨member, Server.mem_of_current hcurrent, rfl, rfl⟩
        | false => exact absurd rfl hetag
    · intro href hnot
      rcases hget href with ⟨hleft, hsame⟩ | ⟨hmem, shown, hnew⟩
      · have hbefore : href ∉ remaining := by
          intro hin
          rw [← List.take_append_drop batch remaining, List.mem_append] at hin
          exact hin.elim (fun hin => hleft (hall href hin)) hnot
        have htrack := htracks href hbefore
        unfold Server.Tracks at htrack ⊢
        rw [hsame]
        exact htrack
      · obtain ⟨hle, hstate⟩ := hthere href (List.mem_of_mem_take (hasked href hmem))
        unfold Server.Tracks
        apply Versions.Follows.at_current hle _ hstate
        rw [hnew, Option.map_map]
        rfl
    · intro href hmem
      exact hthere href (List.mem_of_mem_drop hmem)
  | _ => exact h

omit [Unicode] in
theorem sound_finish (h : world.Sound) : world.finish.Sound := by
  unfold finish
  cases hat : world.phase with
  | fetching url cards remaining token known begun =>
    cases remaining with
    | cons => exact h
    | nil =>
      have hphase := h.phase
      have howned := h.owned
      rw [onNow, hat] at howned
      rw [hat] at hphase
      obtain ⟨hsync, hetagged, htoken, htracks, _, hwhole⟩ := hphase
      have hget : ∀ other, (world.books.set url ⟨token, cards⟩).get other =
          if other = url then some ⟨token, cards⟩ else world.books.get other :=
        fun other => Table.get_set _ _ _ _
      have hcurrent : (world.servers url).changes.length = begun → ∀ href,
          (cards.get href).map BookCard.vcard =
            ((world.servers url).current href).map Member.text := fun hlength href =>
        (htracks href List.not_mem_nil).current_of_known (hwhole hlength href)
      refine ⟨h.strong, fun other book hbook => ?_, fun other n hn => ?_, ?_, trivial⟩
      · rw [hget] at hbook
        split at hbook
        · rename_i heq
          rw [heq, ← Option.some.inj hbook]
          exact ⟨hetagged, fun given hgiven =>
            ⟨known, htoken given hgiven, fun href => htracks href List.not_mem_nil⟩⟩
        · exact h.books other book hbook
      · dsimp only at hn ⊢
        rw [hget]
        by_cases heq : other = url
        · subst heq
          rw [if_pos rfl]
          by_cases hlength : (world.servers other).changes.length = begun
          · rw [if_pos hlength, Table.get_set, if_pos rfl] at hn
            obtain rfl := Option.some.inj hn
            exact ⟨hsync.begun_le, _, rfl, hcurrent⟩
          · -- What changed since the sync began is past what was settled before it.
            rw [if_neg hlength] at hn
            have hle := hsync.settled_le n hn
            have hbegun := hsync.begun_le
            exact ⟨by omega, _, rfl, fun hagain => by omega⟩
        · rw [if_neg heq]
          apply h.settled other n
          split at hn
          · rw [Table.get_set, if_neg heq] at hn
            exact hn
          · exact hn
      · intro address
        refine (howned address).congr fun other => ?_
        unfold onNow on onWith
        dsimp only
        rw [hget]
        split
        · simp
        · rfl
  | _ => exact h

theorem sound_lost (h : world.Sound) (hmeets : world.Meets E .lost) :
    Sound { world with phase := .idle } := by
  refine @Sound.moved world h world.contacts .idle trivial ?_
  unfold Meets at hmeets
  have howned := h.owned
  unfold onNow at howned
  cases hat : world.phase with
  | fetching url cards remaining token known begun =>
    rw [hat] at howned hmeets
    intro address
    change Owns _ (world.on address)
    have howns : Owns (originOf world.contacts address) (onWith url world.on cards address) :=
      howned address
    rcases hmeets address with hsame | hmanual | ⟨owner, hother, hbook⟩
    · refine howns.congr fun other => ?_
      rw [← onWith_cardsOf url]
      exact onWith_congr (by rw [hsame]) other
    · rw [hmanual]
      trivial
    · rw [hbook] at howns ⊢
      have hon : onWith url world.on cards address owner := howns
      rw [onWith, if_neg hother] at hon
      exact hon
  | _ =>
    rw [hat] at howned
    exact howned

end Fetching

section Runs

variable [Unicode] {E : Encodings} {world : World}

theorem sound_step (h : world.Sound) (event : Event) (hallowed : world.Allowed event)
    (hmeets : world.Meets E event) : (world.step E event).Sound := by
  cases event with
  | opened url => exact sound_opened h url
  | changed url href member => exact sound_changed h hallowed
  | heard address contact => exact sound_heard h hallowed
  | typed address name => exact sound_typed h address name
  | start url =>
    unfold step
    cases hat : world.phase with
    | idle => exact sound_start h hat hallowed
    | _ => exact h
  | reported told truncated token => exact sound_reported h hallowed hmeets
  | refused => exact sound_refuse h
  | named told => exact sound_named h hallowed hmeets
  | fetched answered => exact sound_fetched E h hallowed hmeets
  | finish => exact sound_finish h
  | lost => exact sound_lost E h hmeets

theorem sound_run (h : Run E (Meets E) world) : world.Sound := by
  induction h with
  | empty => exact sound_empty
  | step event _ hallowed hmeets ih => exact sound_step ih event hallowed hmeets

/-- In every run that leaves no card out, loses no sync part way through its writes and lets go of
no address that a card of another book lists, books and contacts agree. -/
theorem agreeing_run (h : Run E (Meets E) world) : world.Agreeing := (sound_run h).agreeing

end Runs

section One

attribute [local instance] Unicode.ascii

open Pim.Line (utf8Only)

/-- A member of a collection with one address. -/
def ada : Member := ⟨"1", "BEGIN:VCARD\r\nFN:Ada\r\nEMAIL:ada@x.test\r\nEND:VCARD\r\n"⟩

theorem version_other {server : Server} (only : ∀ change ∈ server.changes, change.1 = "card")
    {href : Href} (hcard : href ≠ "card") : server.version href = 0 := by
  have hnone : server.changes.filter (fun change => change.1 = href) = [] := by
    refine List.filter_eq_nil_iff.mpr fun change hchange => ?_
    simpa [only change hchange] using Ne.symm hcard
  rw [Server.version, Versions.version, Versions.states, hnone]
  rfl

/-- A reply about the one member that ever changed tells everything. -/
theorem learn_card {server : Server} {known : Known}
    (only : ∀ change ∈ server.changes, change.1 = "card")
    (unknown : ∀ href, href ≠ "card" → known href = 0) (href : Href) :
    server.learn known ["card"] href = server.version href := by
  by_cases hcard : href = "card"
  · rw [hcard]
    exact Server.learn_told (.head _)
  · rw [Server.learn, version_other only hcard, unknown href hcard]
    split <;> rfl

def oneListed : World :=
  [.opened "book", .changed "book" "card" (some ada), .start "book",
    .reported [("card", true)] false (some "token")].foldl (step utf8Only) .empty

theorem oneListed_run : Run utf8Only (Meets utf8Only) oneListed := by
  refine .step (.reported [("card", true)] false (some "token")) (.step (.start "book")
    (.step (.changed "book" "card" (some ada)) (.step (.opened "book") .empty trivial trivial)
      ?_ trivial) rfl trivial) ⟨?_, ?_⟩ ?_
  · intro new hnew
    obtain rfl := Option.some.inj hnew
    exact ⟨by decide, fun old hold => absurd hold List.not_mem_nil⟩
  · exact fun _ => @learn_card ⟨[("card", some ada)], .empty⟩ _ (by decide) fun _ _ => rfl
  · exact fun _ _ => .inl rfl
  · intro _ address hbook
    cases hbook

def oneStored (answered : List (Href × Bool)) : World :=
  ((oneListed.step utf8Only (.fetched answered)).step utf8Only .finish)

theorem stored_run : Run utf8Only (Meets utf8Only) (oneStored [("card", true)]) := by
  refine .step .finish (.step (.fetched [("card", true)]) oneListed_run ⟨?_, ?_⟩ ⟨?_, ?_⟩)
    trivial trivial
  · decide
  · decide
  · decide
  · intro address hbook
    cases hbook

/-- The card goes from the server, and the next sync is told so. -/
def unlisted : World :=
  [.changed "book" "card" none, .start "book", .reported [("card", false)] false (some "later"),
    .finish].foldl (step utf8Only) (oneStored [("card", true)])

theorem unlisted_run : Run utf8Only (Meets utf8Only) unlisted := by
  refine .step .finish (.step (.reported [("card", false)] false (some "later")) (.step
    (.start "book") (.step (.changed "book" "card" none) stored_run ?_ trivial) rfl trivial)
    ⟨?_, ?_⟩ ?_) trivial trivial
  · intro new hnew
    cases hnew
  · refine fun _ => @learn_card ⟨[("card", some ada), ("card", none)], _⟩ _ (by decide) ?_
    intro href hcard
    have hlearnt := @learn_card ⟨[("card", some ada)], .empty⟩ (fun _ => 0) (by decide)
      (fun _ _ => rfl) href
    exact hlearnt.trans (version_other (by decide) hcard)
  · intro given hgiven
    rw [← Option.some.inj hgiven]
    exact .inl (by decide)
  · rintro _ address _ ⟨other, hne, book, hbook, -⟩
    change (Table.set _ "book" _).get other = some book at hbook
    rw [Table.get_set, if_neg hne] at hbook
    change (Table.insertNew Table.empty "book" _).get other = some book at hbook
    rw [Table.get_insertNew, Table.get_empty, if_neg hne] at hbook
    cases hbook

/-- A card stored by one sync and taken off the server before the next: the entry goes with it. -/
theorem unlisted_agrees :
    unlisted.Agreeing ∧ unlisted.contacts.get "ada@x.test" = none :=
  ⟨agreeing_run unlisted_run, by decide⟩

theorem Run.mono {E : Encodings} {meets more : World → Event → Prop} {world : World}
    (h : Run E meets world) (hmore : ∀ world event, meets world event → more world event) :
    Run E more world := by
  induction h with
  | empty => exact .empty
  | step event _ hallowed hmeets ih => exact .step event ih hallowed (hmore _ event hmeets)

/-- The token is stored past a card that the answer left out, and the card is not held. -/
theorem leftOut_disagrees :
    Run utf8Only (fun _ _ => True) (oneStored []) ∧ ¬ (oneStored []).Agreeing := by
  constructor
  · refine .step .finish (.step (.fetched []) (oneListed_run.mono fun _ _ _ => trivial) ⟨?_, ?_⟩
      trivial) trivial trivial
    · decide
    · decide
  · intro h
    have hcard := h.current "book" 1 ⟨some "token", .empty⟩ rfl rfl rfl "card"
    cases hcard

end One

end World

end Mailo.Runtime.Carddav
