import Mailo.Runtime.Carddav.Sync

/-!
# Whose a contact is

An entry that a book owns is listed by a card of that book, and an address that any card lists is
the user's own entry or owned by a book. A card that goes, or stops listing an address, keeps this
as long as no card of another book lists the address.
-/

namespace Mailo.Runtime.Carddav

open Domain Library Store
open Pim.Line (Encodings)

variable {address : String} {cards : Cards} {after on : Url → Prop} {origin : Option Origin}

theorem lists_iff :
    lists cards address = true ↔
      ∃ href card, cards.get href = some card ∧ address ∈ card.addresses := by
  rw [lists, List.any_eq_true]
  constructor
  · rintro ⟨card, hcard, hlists⟩
    obtain ⟨⟨href, card⟩, hrow, rfl⟩ := List.mem_map.mp hcard
    exact ⟨href, card, Table.mem_rows.mp hrow, List.contains_iff_mem.mp hlists⟩
  · rintro ⟨href, card, hget, hmem⟩
    exact ⟨card, List.mem_map.mpr ⟨_, Table.mem_rows.mpr hget, rfl⟩, List.contains_iff_mem.mpr hmem⟩

theorem lists_erase {cards : Cards} {href : Href} {address : String} :
    lists cards address = true ↔ lists (cards.erase href) address = true ∨
      ∃ card, cards.get href = some card ∧ address ∈ card.addresses := by
  simp only [lists_iff, Table.get_erase]
  constructor
  · rintro ⟨other, card, hget, hmem⟩
    by_cases h : other = href
    · exact .inr ⟨card, h ▸ hget, hmem⟩
    · exact .inl ⟨other, card, by rw [if_neg h, hget], hmem⟩
  · rintro (⟨other, card, hget, hmem⟩ | ⟨card, hget, hmem⟩)
    · split at hget
      · cases hget
      · exact ⟨other, card, hget, hmem⟩
    · exact ⟨href, card, hget, hmem⟩

theorem lists_set {href : Href} {card : BookCard} :
    lists ((cards.erase href).set href card) address = true ↔
      lists (cards.erase href) address = true ∨ address ∈ card.addresses := by
  rw [@lists_erase _ href]
  simp only [Table.get_set, if_true, Option.some.injEq, exists_eq_left']
  have herase : lists (((cards.erase href).set href card).erase href) address = true ↔
      lists (cards.erase href) address = true := by
    simp only [lists_iff, Table.get_erase, Table.get_set]
    refine exists_congr fun other => exists_congr fun found => and_congr_left fun _ => ?_
    by_cases h : other = href <;> simp [h]
  rw [herase]

/-! ## Origins -/

/-- Whether an entry's origin is right for the books that list its address. -/
def Owns (origin : Option Origin) (on : Url → Prop) : Prop :=
  match origin with
  | none | some .history => ∀ url, ¬ on url
  | some .manual => True
  | some (.book owner) => on owner

theorem Owns.mono (h : Owns origin on) (hless : ∀ url, after url → on url)
    (hkeep : ∀ owner, origin = some (.book owner) → on owner → after owner) :
    Owns origin after := by
  match origin, h with
  | none, h => exact fun url hon => h url (hless url hon)
  | some .history, h => exact fun url hon => h url (hless url hon)
  | some .manual, _ => trivial
  | some (.book owner), h => exact hkeep owner rfl h

theorem Owns.congr (h : Owns origin on) (hsame : ∀ url, after url ↔ on url) : Owns origin after :=
  h.mono (fun url => (hsame url).mp) fun owner _ => (hsame owner).mpr

def originOf (contacts : Contacts) (address : String) : Option Origin :=
  (contacts.get address).map Contact.origin

/-- Every entry's origin is right. -/
def Owned (contacts : Contacts) (on : String → Url → Prop) : Prop :=
  ∀ address, Owns (originOf contacts address) (on address)

section Release

variable [Unicode] {url : Url} {cards : Cards} {contacts : Contacts}

/-- Whether letting go of an address changes an entry. -/
def LetsGo (url : Url) (cards : Cards) (contacts : Contacts) (address : String) : Prop :=
  lists cards address = false ∧ originOf contacts address = some (.book url)

def Gone (origin : Option Origin) : Prop := origin = none ∨ origin = some .history

theorem release_get (address other : String) :
    (other = address ∧ LetsGo url cards contacts address ∧
        Gone (originOf (release url cards contacts address) other)) ∨
      (¬ (other = address ∧ LetsGo url cards contacts address) ∧
        (release url cards contacts address).get other = contacts.get other) := by
  unfold release
  cases hlists : lists cards address with
  | true =>
    right
    refine ⟨fun h => ?_, by rw [if_pos rfl]⟩
    have hfalse := h.2.1
    rw [hlists] at hfalse
    cases hfalse
  | false =>
    rw [if_neg (by decide)]
    cases hget : contacts.get address with
    | none =>
      right
      refine ⟨fun h => ?_, rfl⟩
      have horigin := h.2.2
      rw [originOf, hget] at horigin
      cases horigin
    | some contact =>
      dsimp only
      by_cases horigin : contact.origin = .book url
      · rw [if_neg (not_not_intro horigin)]
        have hlets : LetsGo url cards contacts address :=
          ⟨hlists, by rw [originOf, hget, Option.map_some, horigin]⟩
        by_cases hother : other = address
        · left
          subst hother
          refine ⟨rfl, hlets, ?_⟩
          split
          · left
            rw [originOf, Table.get_erase, if_pos rfl, Option.map_none]
          · right
            rw [originOf, Contacts.get_put, if_pos rfl, Option.map_some, Contact.given_origin]
        · right
          refine ⟨fun h => hother h.1, ?_⟩
          split
          · rw [Table.get_erase, if_neg hother]
          · rw [Contacts.get_put, if_neg hother]
      · right
        refine ⟨fun h => ?_, by rw [if_pos horigin]⟩
        have hbook := h.2.2
        rw [originOf, hget, Option.map_some, Option.some.injEq] at hbook
        exact horigin hbook

theorem releaseAll_get (addresses : List String) (other : String) :
    (other ∈ addresses ∧ LetsGo url cards contacts other ∧
        Gone (originOf (addresses.foldl (release url cards) contacts) other)) ∨
      (¬ (other ∈ addresses ∧ LetsGo url cards contacts other) ∧
        (addresses.foldl (release url cards) contacts).get other = contacts.get other) := by
  induction addresses generalizing contacts with
  | nil => exact .inr ⟨fun h => List.not_mem_nil h.1, rfl⟩
  | cons address rest ih =>
    rw [List.foldl_cons]
    rcases @release_get _ url cards contacts address other with
      ⟨rfl, hlets, hgone⟩ | ⟨hnot, hsame⟩
    · left
      refine ⟨.head _, hlets, ?_⟩
      rcases @ih (release url cards contacts other) with ⟨_, hagain, _⟩ | ⟨_, h⟩
      · have hbook := hagain.2
        rcases hgone with hgone | hgone <;> rw [hgone] at hbook <;> cases hbook
      · have hkept : originOf (rest.foldl (release url cards)
            (release url cards contacts other)) other =
            originOf (release url cards contacts other) other := by
          rw [originOf, h]
          rfl
        rw [hkept]
        exact hgone
    · have hlets : LetsGo url cards (release url cards contacts address) other ↔
          LetsGo url cards contacts other := by
        unfold LetsGo originOf
        rw [hsame]
      rcases @ih (release url cards contacts address) with ⟨hmem, h, hgone⟩ | ⟨h, hrest⟩
      · exact .inl ⟨.tail _ hmem, hlets.mp h, hgone⟩
      · right
        refine ⟨fun ⟨hmem, hgo⟩ => ?_, hrest.trans hsame⟩
        rcases List.mem_cons.mp hmem with rfl | hmem
        · exact hnot ⟨rfl, hgo⟩
        · exact h ⟨hmem, hlets.mpr hgo⟩

end Release

theorem claimAll_origin [Unicode] {url : Url} {name : Option String} {contacts : Contacts}
    (addresses : List String) (other : String) :
    originOf (addresses.foldl (claim url name) contacts) other =
      if other ∈ addresses ∧ originOf contacts other ≠ some .manual then some (.book url)
      else originOf contacts other := by
  have hone : ∀ (contacts : Contacts) (address : String),
      originOf (claim url name contacts address) other =
        if other = address ∧ originOf contacts other ≠ some .manual then some (.book url)
        else originOf contacts other := by
    intro contacts address
    unfold claim
    by_cases hother : other = address
    · subst hother
      cases hget : contacts.get other with
      | none => simp [originOf, hget, Contacts.get_put]
      | some contact =>
        by_cases hmanual : contact.origin = .manual
        · simp [originOf, hget, hmanual]
        · simp [originOf, hget, hmanual, Contacts.get_put]
    · rw [if_neg (show ¬ (other = address ∧ originOf contacts other ≠ some .manual) from
        fun h => hother h.1)]
      split
      · rfl
      · rw [originOf, Contacts.get_put, if_neg hother]
        rfl
  induction addresses generalizing contacts with
  | nil => simp
  | cons address rest ih =>
    rw [List.foldl_cons, ih, hone]
    by_cases hmanual : originOf contacts other = some .manual
    · simp [hmanual]
    · by_cases haddress : other = address
      · subst haddress
        simp [hmanual]
      · by_cases hrest : other ∈ rest
        · simp [haddress, hrest, hmanual]
        · simp [haddress, hrest]

/-! ## Writing cards -/

section Writing

variable {url : Url} {others : String → Url → Prop}

/-- The books that list an address, one of them with these cards. -/
def onWith (url : Url) (others : String → Url → Prop) (cards : Cards) (address : String)
    (other : Url) : Prop :=
  if other = url then lists cards address = true else others address other

theorem onWith_congr {cards after : Cards} {address : String}
    (h : lists after address = true ↔ lists cards address = true) (other : Url) :
    onWith url others after address other ↔ onWith url others cards address other := by
  unfold onWith
  split
  · exact h
  · rfl

/-- What writing one card does: it lists `listed` from now on, those entries are the user's or the
book's, and an entry of the book that no card lists any more is let go of. -/
structure Writes (url : Url) (before after : Held) (href : Href) (listed : List String) : Prop where
  others : ∀ other, other ≠ href → after.cards.get other = before.cards.get other
  own : ∀ address, (∃ card, after.cards.get href = some card ∧ address ∈ card.addresses) ↔
    address ∈ listed
  claimed : ∀ address ∈ listed, originOf after.contacts address = some .manual ∨
    originOf after.contacts address = some (.book url)
  kept : ∀ address, address ∉ listed →
    originOf after.contacts address = originOf before.contacts address ∨
      (originOf before.contacts address = some (.book url) ∧ lists after.cards address = false ∧
        Gone (originOf after.contacts address))
  released : ∀ address, address ∉ listed → lists before.cards address = true →
    lists after.cards address = false → originOf before.contacts address = some (.book url) →
    Gone (originOf after.contacts address)

variable [Unicode]

theorem released_origin {cards : Cards} {contacts : Contacts} {href : Href} {dropped : List String}
    {address : String}
    (hmem : ∀ card, cards.get href = some card → address ∈ card.addresses → address ∈ dropped) :
    (originOf (dropped.foldl (release url (cards.erase href)) contacts) address =
        originOf contacts address ∨
      (originOf contacts address = some (.book url) ∧ lists (cards.erase href) address = false ∧
        Gone (originOf (dropped.foldl (release url (cards.erase href)) contacts) address))) ∧
    (lists cards address = true → lists (cards.erase href) address = false →
      originOf contacts address = some (.book url) →
      Gone (originOf (dropped.foldl (release url (cards.erase href)) contacts) address)) := by
  rcases @releaseAll_get _ url (cards.erase href) contacts dropped address with
    ⟨_, hlets, hgone⟩ | ⟨hnot, hsame⟩
  · exact ⟨.inr ⟨hlets.2, hlets.1, hgone⟩, fun _ _ _ => hgone⟩
  · constructor
    · left
      rw [originOf, hsame]
      rfl
    · intro hbefore hafter horigin
      rcases (@lists_erase _ href _).mp hbefore with hstill | ⟨card, hget, hin⟩
      · rw [hafter] at hstill
        cases hstill
      · exact absurd ⟨hmem card hget hin, hafter, horigin⟩ hnot

theorem dropCard_get (held : Held) (href other : Href) :
    (dropCard url held href).cards.get other =
      if other = href then none else held.cards.get other := by
  unfold dropCard
  cases hget : held.cards.get href with
  | none =>
    dsimp only
    split
    · rename_i heq
      rw [heq, hget]
    · rfl
  | some card => exact Table.get_erase _ _ _

theorem dropCard_writes (held : Held) (href : Href) :
    Writes url held (dropCard url held href) href [] := by
  have hothers : ∀ other, other ≠ href →
      (dropCard url held href).cards.get other = held.cards.get other := by
    intro other hother
    rw [dropCard_get, if_neg hother]
  have hown : ∀ address, (∃ card, (dropCard url held href).cards.get href = some card ∧
      address ∈ card.addresses) ↔ address ∈ ([] : List String) := by
    intro address
    rw [dropCard_get, if_pos rfl]
    simp
  unfold dropCard at hothers hown ⊢
  cases hget : held.cards.get href with
  | none =>
    rw [hget] at hothers hown
    refine ⟨hothers, hown, fun _ h => absurd h List.not_mem_nil, fun _ _ => .inl rfl, ?_⟩
    intro address _ hbefore hafter
    rw [hbefore] at hafter
    cases hafter
  | some card =>
    rw [hget] at hothers hown
    have hreleased := fun address => @released_origin url _ held.cards held.contacts href
      card.addresses address (by
        intro found hfound hin
        rw [hget, Option.some.injEq] at hfound
        rw [hfound]
        exact hin)
    exact ⟨hothers, hown, fun _ h => absurd h List.not_mem_nil,
      fun address _ => (hreleased address).1, fun address _ => (hreleased address).2⟩

theorem putCard_writes (E : Encodings) (held : Held) (href : Href) (etag data : String) :
    Writes url held (putCard E url held href etag data) href (addressesOf E data) := by
  unfold putCard
  dsimp only
  generalize addressesOf E data = addresses
  generalize hbefore : ((held.cards.get href).map BookCard.addresses).getD [] = before
  generalize hcard : BookCard.mk
    (((cardOf E data).bind Pim.VCard.Card.uid).map String.ofList) etag addresses data = card
  have haddresses : card.addresses = addresses := by rw [← hcard]
  have hlists : ∀ address, address ∉ addresses →
      lists ((held.cards.erase href).set href card) address =
        lists (held.cards.erase href) address := by
    intro address hnot
    rw [Bool.eq_iff_iff, lists_set, haddresses]
    exact or_iff_left hnot
  have hreleased := fun address (hnot : address ∉ addresses) =>
    @released_origin url _ held.cards held.contacts href
      (before.filter fun address => !addresses.contains address) address (by
        intro found hfound hin
        refine List.mem_filter.mpr ⟨?_, by simpa using hnot⟩
        rw [← hbefore, hfound]
        exact hin)
  refine ⟨fun other hother => ?_, fun address => ?_, fun address hin => ?_,
    fun address hnot => ?_, fun address hnot => ?_⟩
  · rw [Table.get_set, if_neg hother, Table.get_erase, if_neg hother]
  · rw [Table.get_set, if_pos rfl]
    simp [haddresses]
  · rw [claimAll_origin]
    split
    · exact .inr rfl
    · rename_i hmanual
      exact .inl (not_and_not_right.mp hmanual hin)
  · rw [claimAll_origin, if_neg (fun hboth => hnot hboth.1), hlists address hnot]
    exact (hreleased address hnot).1
  · rw [claimAll_origin, if_neg (fun hboth => hnot hboth.1), hlists address hnot]
    exact (hreleased address hnot).2

end Writing

/-! ## Several cards -/

section Several

variable {α : Type} {url : Url} {others : String → Url → Prop} {write : Held → α → Held}
  {href : α → Href} {listed : α → List String}

/-- Whether an address stands on a card of the book once some have been written: on one of these, or
on one left alone. -/
def Remains (cards : Cards) (hrefs : List Href) (listed : List String) (address : String) : Prop :=
  address ∈ listed ∨
    ∃ href card, cards.get href = some card ∧ href ∉ hrefs ∧ address ∈ card.addresses

/-- What the book owns, and a card of another book lists, remains on a card of the book. -/
def Keeps (url : Url) (others : String → Url → Prop) (held : Held) (hrefs : List Href)
    (listed : List String) : Prop :=
  ∀ address, originOf held.contacts address = some (.book url) →
    (∃ other, other ≠ url ∧ others address other) → Remains held.cards hrefs listed address

/-- One card written, with the address on none of the cards to come. -/
theorem Writes.owns {before after : Held} {href : Href} {listed : List String}
    (h : Writes url before after href listed) {address : String}
    (hbefore : address ∈ listed ∨
      Owns (originOf before.contacts address) (onWith url others before.cards address))
    (hkeep : originOf before.contacts address = some (.book url) →
      (∃ other, other ≠ url ∧ others address other) → lists after.cards address = true) :
    Owns (originOf after.contacts address) (onWith url others after.cards address) := by
  by_cases hlisted : address ∈ listed
  · have hon : onWith url others after.cards address url := by
      rw [onWith, if_pos rfl]
      obtain ⟨card, hget, hin⟩ := (h.own address).mpr hlisted
      exact lists_iff.mpr ⟨href, card, hget, hin⟩
    rcases h.claimed address hlisted with hmanual | hbook
    · rw [hmanual]
      trivial
    · rw [hbook]
      exact hon
  · have howns := hbefore.resolve_left hlisted
    have hless : lists after.cards address = true → lists before.cards address = true := by
      intro hafter
      obtain ⟨other, card, hget, hin⟩ := lists_iff.mp hafter
      by_cases hother : other = href
      · exact absurd ((h.own address).mp ⟨card, hother ▸ hget, hin⟩) hlisted
      · exact lists_iff.mpr ⟨other, card, (h.others other hother) ▸ hget, hin⟩
    rcases h.kept address hlisted with hsame | ⟨hbook, hnone, hgone⟩
    · rw [hsame]
      refine howns.mono (fun other hother => ?_) fun owner howner hon => ?_
      · unfold onWith at hother ⊢
        split at hother
        · rename_i heq
          rw [if_pos heq]
          exact hless hother
        · rename_i hne
          rw [if_neg hne]
          exact hother
      · unfold onWith at hon ⊢
        split at hon
        · rename_i heq
          rw [if_pos heq]
          subst heq
          by_contra hnot
          have hgone := h.released address hlisted hon (by simpa using hnot) howner
          rw [hsame, howner] at hgone
          rcases hgone with hgone | hgone <;> cases hgone
        · rename_i hne
          rw [if_neg hne]
          exact hon
    · have hnobody : ∀ other, ¬ onWith url others after.cards address other := by
        intro other hother
        have hlists : lists after.cards address = true := by
          unfold onWith at hother
          split at hother
          · exact hother
          · rename_i hne
            exact hkeep hbook ⟨other, hne, hother⟩
        rw [hnone] at hlists
        cases hlists
      rcases hgone with hgone | hgone <;> rw [hgone] <;> exact hnobody

/-- Cards written one after another leave every entry right, unless the book lets go of one that a
card of another book lists. -/
theorem writeAll_owns (hwrites : ∀ held step, Writes url held (write held step) (href step)
      (listed step)) {steps : List α}
    (once : steps.Pairwise fun a b => href a = href b → listed a = []) {held : Held}
    {address : String}
    (hbefore : address ∈ steps.flatMap listed ∨
      Owns (originOf held.contacts address) (onWith url others held.cards address))
    (hkeep : originOf held.contacts address = some (.book url) →
      (∃ other, other ≠ url ∧ others address other) →
      Remains held.cards (steps.map href) (steps.flatMap listed) address) :
    Owns (originOf (steps.foldl write held).contacts address)
      (onWith url others (steps.foldl write held).cards address) := by
  induction steps generalizing held with
  | nil => exact hbefore.resolve_left List.not_mem_nil
  | cons step rest ih =>
    have hstep := hwrites held step
    obtain ⟨hfirst, hlater⟩ := List.pairwise_cons.mp once
    rw [List.foldl_cons]
    rw [List.flatMap_cons, List.mem_append] at hbefore
    have hremains : Remains held.cards ((step :: rest).map href)
        ((step :: rest).flatMap listed) address → address ∉ listed step →
        Remains (write held step).cards (rest.map href) (rest.flatMap listed) address := by
      rintro (hin | ⟨other, card, hget, hout, hin⟩) hnot
      · rw [List.flatMap_cons, List.mem_append] at hin
        exact .inl (hin.resolve_left hnot)
      · rw [List.map_cons, List.mem_cons, not_or] at hout
        exact .inr ⟨other, card, (hstep.others other hout.1).trans hget, hout.2, hin⟩
    have hstands : address ∈ listed step →
        Remains (write held step).cards (rest.map href) (rest.flatMap listed) address := by
      intro hin
      obtain ⟨card, hget, haddress⟩ := (hstep.own address).mpr hin
      refine .inr ⟨href step, card, hget, fun hmem => ?_, haddress⟩
      obtain ⟨other, hother, hsame⟩ := List.mem_map.mp hmem
      rw [hfirst other hother hsame.symm] at hin
      exact List.not_mem_nil hin
    apply ih hlater
    · by_cases hrest : address ∈ rest.flatMap listed
      · exact .inl hrest
      · right
        apply hstep.owns
        · rcases hbefore with (hin | hin) | howns
          · exact .inl hin
          · exact absurd hin hrest
          · exact .inr howns
        · intro hbook hother
          have hleft : Remains (write held step).cards (rest.map href) (rest.flatMap listed)
              address := by
            by_cases hin : address ∈ listed step
            · exact hstands hin
            · exact hremains (hkeep hbook hother) hin
          rcases hleft with hin | ⟨other, card, hget, _, hin⟩
          · exact absurd hin hrest
          · exact lists_iff.mpr ⟨other, card, hget, hin⟩
    · intro hbook hother
      by_cases hin : address ∈ listed step
      · exact hstands hin
      · rcases hstep.kept address hin with hsame | ⟨_, _, hgone⟩
        · exact hremains (hkeep (hsame ▸ hbook) hother) hin
        · rw [hbook] at hgone
          rcases hgone with hgone | hgone <;> cases hgone

end Several

section Dropping

variable [Unicode] {url : Url} {others : String → Url → Prop}

theorem dropAll_get (hrefs : List Href) (held : Held) (other : Href) :
    (hrefs.foldl (dropCard url) held).cards.get other =
      if other ∈ hrefs then none else held.cards.get other := by
  induction hrefs generalizing held with
  | nil => simp
  | cons href rest ih =>
    rw [List.foldl_cons, ih, dropCard_get]
    by_cases hrest : other ∈ rest
    · simp [hrest]
    · by_cases hhref : other = href <;> simp [hrest, hhref]

theorem dropAll_owned {hrefs : List Href} {held : Held}
    (h : Owned held.contacts (onWith url others held.cards))
    (keeps : Keeps url others held hrefs []) :
    Owned (hrefs.foldl (dropCard url) held).contacts
      (onWith url others (hrefs.foldl (dropCard url) held).cards) := by
  intro address
  apply @writeAll_owns _ url others _ id (fun _ => []) dropCard_writes
  · exact List.pairwise_of_forall fun _ _ _ => rfl
  · exact .inr (h address)
  · intro hbook hother
    rw [List.map_id]
    exact (keeps address hbook hother).imp (fun hin => absurd hin List.not_mem_nil) id

end Dropping

section Taking

variable [Unicode] (E : Encodings) {url : Url} {others : String → Url → Prop} {server : Server}

theorem take_get (held : Held) (answer : Href × Bool) (other : Href) :
    (World.take E url server held answer).cards.get other =
      if other = answer.1 then (server.current other).map fun member =>
        ⟨((cardOf E member.text).bind Pim.VCard.Card.uid).map String.ofList,
          if answer.2 then member.etag else "", addressesOf E member.text, member.text⟩
      else held.cards.get other := by
  unfold World.take
  by_cases hother : other = answer.1
  · subst hother
    cases hcurrent : server.current answer.1 with
    | none => simp [dropCard_get]
    | some member => simp [putCard]
  · cases hcurrent : server.current answer.1 with
    | none => simp [dropCard_get, hother]
    | some member => simp [putCard, hother]

def addressesNow (server : Server) (href : Href) : List String :=
  ((server.current href).map fun member => addressesOf E member.text).getD []

theorem take_writes (held : Held) (answer : Href × Bool) :
    Writes url held (World.take E url server held answer) answer.1
      (addressesNow E server answer.1) := by
  unfold World.take addressesNow
  cases server.current answer.1 with
  | none => exact dropCard_writes held answer.1
  | some member => exact putCard_writes E held answer.1 _ member.text

/-- A batch written, each card answered about once. -/
theorem takeAll_owned {answered : List (Href × Bool)} {held : Held}
    (h : Owned held.contacts (onWith url others held.cards))
    (once : (answered.map Prod.fst).Nodup)
    (keeps : Keeps url others held (answered.map Prod.fst)
      (answered.flatMap fun answer => addressesNow E server answer.1)) :
    Owned (answered.foldl (World.take E url server) held).contacts
      (onWith url others (answered.foldl (World.take E url server) held).cards) := by
  intro address
  apply writeAll_owns (take_writes E)
  · exact (List.pairwise_map.mp once).imp fun hne heq => absurd heq hne
  · exact .inr (h address)
  · exact keeps address

/-- What a batch leaves of each card: the server's text for one answered about, and its etag or
none. -/
theorem takeAll_get (answered : List (Href × Bool)) (held : Held) (other : Href) :
    (other ∉ answered.map Prod.fst ∧
        (answered.foldl (World.take E url server) held).cards.get other = held.cards.get other) ∨
      (other ∈ answered.map Prod.fst ∧ ∃ shown : Bool,
        (answered.foldl (World.take E url server) held).cards.get other =
          (server.current other).map fun member =>
            ⟨((cardOf E member.text).bind Pim.VCard.Card.uid).map String.ofList,
              if shown then member.etag else "", addressesOf E member.text, member.text⟩) := by
  induction answered generalizing held with
  | nil => exact .inl ⟨List.not_mem_nil, rfl⟩
  | cons answer rest ih =>
    rw [List.foldl_cons]
    rcases ih (World.take E url server held answer) with ⟨hnot, hsame⟩ | ⟨hmem, htaken⟩
    · rw [hsame, take_get]
      by_cases hother : other = answer.1
      · exact .inr ⟨by rw [hother]; exact .head _, answer.2, by rw [if_pos hother]⟩
      · left
        rw [if_neg hother, List.map_cons, List.mem_cons, not_or]
        exact ⟨⟨hother, hnot⟩, rfl⟩
    · exact .inr ⟨.tail _ hmem, htaken⟩

end Taking

end Mailo.Runtime.Carddav
