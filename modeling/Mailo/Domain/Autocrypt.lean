import Mailo.Domain.State
import Mailo.Domain.Text
import Mailo.Library.Runs

/-!
# Autocrypt peer state

What is kept of a correspondent is two dated registers in one record: the key of the last header
they sent, and the key others gossiped of them. Each follows its own newest write.
-/

namespace Mailo.Domain

open Library

inductive PreferEncrypt where
  | noPreference | mutual
deriving DecidableEq

inductive Fingerprint where
  | v4 (bytes : BitVec 160) | v6 (bytes : BitVec 256)
deriving DecidableEq

structure AutocryptPeer where
  address : String
  lastSeen : Option DateTime
  autocryptTimestamp : Option DateTime
  key : Option Fingerprint
  preferEncrypt : PreferEncrypt
  gossipTimestamp : Option DateTime
  gossipKey : Option Fingerprint
deriving DecidableEq

/-- One message from `address`, dated `at_`. -/
structure Sighting where
  address : String
  at_ : DateTime
  header : Option (Fingerprint × PreferEncrypt)

namespace Autocrypt

def effectiveDate (date : Option DateTime) (arrived : DateTime) : DateTime :=
  date.elim arrived fun date => min date arrived

def stranger (address : String) : AutocryptPeer where
  address := String.ofList (Text.toAsciiLowercase (Text.trim address.toList))
  lastSeen := none
  autocryptTimestamp := none
  key := none
  preferEncrypt := .noPreference
  gossipTimestamp := none
  gossipKey := none

/-- The peer state after a message, where there is one before it or the message begins it. -/
def update (before : Option AutocryptPeer) (seen : Sighting) : Option AutocryptPeer :=
  (before.or (seen.header.map fun _ => stranger seen.address)).map fun peer =>
    if peer.autocryptTimestamp.any fun at_ => seen.at_ < at_ then peer
    else
      let lastSeen := some (peer.lastSeen.elim seen.at_ fun at_ => max at_ seen.at_)
      match seen.header with
      | none => { peer with lastSeen }
      | some (key, preferEncrypt) =>
        { peer with lastSeen, autocryptTimestamp := some seen.at_, key := some key, preferEncrypt }

def gossip (before : Option AutocryptPeer) (address : String) (key : Fingerprint)
    (at_ : DateTime) : AutocryptPeer :=
  let peer := before.getD (stranger address)
  if peer.gossipTimestamp.any fun then_ => at_ ≤ then_ then peer
  else { peer with gossipTimestamp := some at_, gossipKey := some key }

/-! ## Messages in the order they arrive -/

/-- What a message tells of an address: it is theirs, with a valid header or without one, or it
gossips a key of them. -/
inductive Tells where
  | theirs (header : Option (Fingerprint × PreferEncrypt))
  | gossip (key : Fingerprint)

structure Heard where
  address : String
  date : Option DateTime
  arrived : DateTime
  tells : Tells

namespace Heard

def at_ (heard : Heard) : DateTime := effectiveDate heard.date heard.arrived

def header (heard : Heard) : Option (Fingerprint × PreferEncrypt) :=
  match heard.tells with
  | .theirs header => header
  | .gossip _ => none

def gossiped (heard : Heard) : Option Fingerprint :=
  match heard.tells with
  | .theirs _ => none
  | .gossip key => some key

def isTheirs (heard : Heard) : Bool := heard.gossiped.isNone

end Heard

def hear (before : Option AutocryptPeer) (heard : Heard) : Option AutocryptPeer :=
  match heard.tells with
  | .theirs header => update before ⟨heard.address, heard.at_, header⟩
  | .gossip key => some (gossip before heard.address key heard.at_)

def hearAll (messages : List Heard) : Option AutocryptPeer := messages.foldl hear none

/-- The header a state remembers: its date, its key and its preference. -/
def said (peer : Option AutocryptPeer) : Option DateTime × Option Fingerprint × PreferEncrypt :=
  peer.elim (none, none, .noPreference) fun p => (p.autocryptTimestamp, p.key, p.preferEncrypt)

def whispered (peer : Option AutocryptPeer) : Option DateTime × Option Fingerprint :=
  peer.elim (none, none) fun p => (p.gossipTimestamp, p.gossipKey)

variable (before : Option AutocryptPeer)

theorem said_update (seen : Sighting) :
    said (update before seen) =
      renew (· < ·) (said before) (seen.header.map fun h => (seen.at_, some h.1, h.2)) := by
  cases before <;> cases hheader : seen.header <;>
    simp [update, hheader, said, renew, stranger] <;> split <;> simp_all

theorem said_gossip (address : String) (key : Fingerprint) (at_ : DateTime) :
    said (some (gossip before address key at_)) = said before := by
  unfold gossip
  dsimp only
  cases before with
  | none => rw [Option.getD_none]; split <;> rfl
  | some peer => rw [Option.getD_some]; split <;> rfl

theorem whispered_update (seen : Sighting) :
    whispered (update before seen) = whispered before := by
  cases before <;> cases hheader : seen.header <;> simp [update, hheader, whispered, stranger] <;>
    split <;> exact ⟨rfl, rfl⟩

theorem whispered_gossip (address : String) (key : Fingerprint) (at_ : DateTime) :
    whispered (some (gossip before address key at_)) =
      renew (· ≤ ·) (whispered before) (some (at_, some key)) := by
  cases before <;> simp [gossip, whispered, stranger, renew]
  split <;> simp_all

def Heard.utters (heard : Heard) : Option (DateTime × Option Fingerprint × PreferEncrypt) :=
  heard.header.map fun h => (heard.at_, some h.1, h.2)

def Heard.whispers (heard : Heard) : Option (DateTime × Option Fingerprint) :=
  heard.gossiped.map fun key => (heard.at_, some key)

theorem utters_at {heard : Heard} {w : DateTime × Option Fingerprint × PreferEncrypt}
    (h : w ∈ heard.utters) : heard.header.isSome ∧ heard.isTheirs ∧ w.1 = heard.at_ := by
  rcases heard with ⟨address, date, arrived, header | key⟩
  · cases header with
    | none => cases h
    | some header =>
      rw [← Option.some.inj h]
      exact ⟨rfl, rfl, rfl⟩
  · cases h

theorem whispers_at {heard : Heard} {w : DateTime × Option Fingerprint}
    (h : w ∈ heard.whispers) : heard.gossiped.isSome ∧ w.1 = heard.at_ := by
  rcases heard with ⟨address, date, arrived, header | key⟩
  · cases h
  · rw [← Option.some.inj h]
    exact ⟨rfl, rfl⟩

theorem said_hear (heard : Heard) :
    said (hear before heard) = renew (· < ·) (said before) heard.utters := by
  unfold hear Heard.utters Heard.header
  split
  · exact said_update _ _
  · exact said_gossip _ _ _ _

theorem whispered_hear (heard : Heard) :
    whispered (hear before heard) = renew (· ≤ ·) (whispered before) heard.whispers := by
  unfold hear Heard.whispers Heard.gossiped
  split
  · exact whispered_update _ _
  · exact whispered_gossip _ _ _ _

theorem said_hearAll (messages : List Heard) :
    said (hearAll messages) =
      (messages.map Heard.utters).foldl (renew (· < ·)) (none, none, .noPreference) := by
  rw [List.foldl_map]
  exact (List.foldl_hom said fun before heard => (said_hear before heard).symm).symm

theorem whispered_hearAll (messages : List Heard) :
    whispered (hearAll messages) =
      (messages.map Heard.whispers).foldl (renew (· ≤ ·)) (none, none) := by
  rw [List.foldl_map]
  exact (List.foldl_hom whispered fun before heard => (whispered_hear before heard).symm).symm

/-- The state follows the newest header and the newest gossip, in whatever order messages come. -/
theorem hearAll_newest (messages : List Heard)
    (hdates : (messages.filter Heard.isTheirs).Pairwise fun a b => a.at_ ≠ b.at_) :
    (∀ heard ∈ messages, ∀ key prefer, heard.header = some (key, prefer) →
      (∀ other ∈ messages, other.header.isSome → other.at_ ≤ heard.at_) →
      said (hearAll messages) = (some heard.at_, some key, prefer)) ∧
    ((∀ heard ∈ messages, heard.header = none) →
      said (hearAll messages) = (none, none, .noPreference)) ∧
    (∀ front heard back key, messages = front ++ heard :: back → heard.gossiped = some key →
      (∀ other ∈ front, other.gossiped.isSome → other.at_ < heard.at_) →
      (∀ other ∈ back, other.gossiped.isSome → other.at_ ≤ heard.at_) →
      whispered (hearAll messages) = (some heard.at_, some key)) ∧
    (∀ before address key at_, said (some (gossip before address key at_)) = said before) ∧
    (∀ peer seen at_, peer.autocryptTimestamp = some at_ → seen.at_ < at_ →
      update (some peer) seen = some peer) := by
  refine ⟨fun heard hmem key prefer hheader hnewest => ?_, fun hnone => ?_,
    fun front heard back key hsplit hkey hfront hback => ?_, said_gossip, fun peer seen at_ hat hold => ?_⟩
  · obtain ⟨front, back, rfl⟩ := List.append_of_mem hmem
    have hutters : heard.utters = some (heard.at_, some key, prefer) := by simp [Heard.utters, hheader]
    have htheirs := (utters_at hutters).2.1
    rw [List.filter_append, List.filter_cons_of_pos htheirs, List.pairwise_append,
      List.pairwise_cons] at hdates
    rw [said_hearAll, List.map_append, List.map_cons, hutters]
    refine renew_newest ?_ ?_ <;> simp only [List.forall_mem_map] <;> intro other hother w hw <;>
      obtain ⟨hsome, hits, hat⟩ := utters_at hw <;> rw [hat]
    · exact Int.not_lt.mpr (hnewest other (by simp [hother]) hsome)
    · exact Std.lt_of_le_of_ne (hnewest other (by simp [hother]) hsome)
        (hdates.2.1.1 other (List.mem_filter.mpr ⟨hother, hits⟩)).symm
  · rw [said_hearAll]
    refine renew_none fun write hwrite => ?_
    obtain ⟨heard, hmem, rfl⟩ := List.mem_map.mp hwrite
    simp [Heard.utters, hnone heard hmem]
  · subst hsplit
    have hwhispers : heard.whispers = some (heard.at_, some key) := by simp [Heard.whispers, hkey]
    rw [whispered_hearAll, List.map_append, List.map_cons, hwhispers]
    refine renew_newest ?_ ?_ <;> simp only [List.forall_mem_map] <;> intro other hother w hw <;>
      obtain ⟨hsome, hat⟩ := whispers_at hw <;> rw [hat]
    · exact Int.not_le.mpr (hfront other hother hsome)
    · exact hback other hother hsome
  · simp [update, hat, hold]

/-- A header delivered after a later one, and gossip. -/
def latecomer : List Heard :=
  [⟨"peer@example.test", some 5, 9, .theirs (some (.v4 10, .mutual))⟩,
    ⟨"peer@example.test", some 4, 9, .theirs (some (.v4 11, .noPreference))⟩,
    ⟨"peer@example.test", none, 9, .gossip (.v4 12)⟩]

theorem hearAll_latecomer : said (hearAll latecomer) = (some 5, some (.v4 10), .mutual) :=
  (hearAll_newest latecomer (by decide)).1 _ (.head _) _ _ rfl (by decide)

end Autocrypt

end Mailo.Domain
