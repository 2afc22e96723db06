import Mailo.Domain.Remote

/-!
# A reply's recipients

Who a reply goes to. `Reply-To` wins over `From`; a reply to everyone keeps both, and the original
recipients, but never ourselves and nobody twice.
-/

namespace Mailo.Domain

/-- A file the user attached, already read into the blob store. -/
structure PendingAttachment where
  name : String
  mime : String
  blob : BlobId
  cid : Option String
deriving DecidableEq

inductive ReceiptRequest where
  | unrequested | requested
deriving DecidableEq

/-- How a message is protected when it is sent. -/
inductive Mode where
  | sign | encrypt | signAndEncrypt
deriving DecidableEq

inductive Priority where
  | high | normal | low
deriving DecidableEq

/-- Who a message is written as. -/
structure Identity where
  id : Nat
  account : AccountId
  sender : Address
  replyTo : Option Address
deriving DecidableEq

/-- A message being composed. -/
structure Composed extends Draft where
  identity : Nat
  «to» : List Address
  cc : List Address
  bcc : List Address
  subject : String
  inReplyTo : Option MessageId
  forwardOf : Option MessageId
  text : String
  html : Option String
  attachments : List PendingAttachment
  receipt : ReceiptRequest
  openpgp : Option Mode
  smime : Option Mode
  priority : Priority
  delivery : DeliveryReport
  automatic : Bool
deriving DecidableEq

/-- Who a reply goes to: the sender alone, or everyone on the original but ourselves. -/
inductive ReplyScope where
  | sender | all
deriving DecidableEq

def prefixed (subject lead : String) (existing : List String) : String :=
  let head := Text.trimStart subject.toList
  if existing.any fun p => Text.eqIgnoreAsciiCase (head.take p.length) p.toList then subject
  else lead ++ subject

/-- The mailbox an address names, its display name left out. -/
def Address.mailbox (address : Address) : List Char := Text.toAsciiLowercase address.email.toList

def sameMailbox (a b : Address) : Bool := Text.eqIgnoreAsciiCase a.email.toList b.email.toList

/-- Ours is the identity's sender and where it asks for replies. -/
def Identity.ours (identity : Identity) (address : Address) : Bool :=
  sameMailbox address identity.sender || identity.replyTo.any (sameMailbox address)

/-- One more address, kept where it is not ours and its mailbox is new. -/
def keepNew (identity : Identity) (kept : List Address) (address : Address) : List Address :=
  if identity.ours address || kept.any (sameMailbox · address) then kept else kept ++ [address]

def dedupAddresses (identity : Identity) (addresses : List Address) : List Address :=
  addresses.foldl (keepNew identity) []

/-- A reply to a message, `fresh` the draft's id. -/
def replyTo (fresh : DraftId) (msg : Message) (identity : Identity) (scope : ReplyScope)
    (now : DateTime) : Composed :=
  let senders := if msg.replyTo.isEmpty then [msg.sender] else msg.replyTo
  let all := if scope = .all then senders ++ msg.sender :: msg.to else senders
  let «to» := dedupAddresses identity all
  let cc := dedupAddresses identity (if scope = .all then msg.cc else [])
  { id := fresh, account := identity.account, identity := identity.id, «to»,
    cc := cc.filter fun address => !«to».any (sameMailbox · address),
    bcc := [], subject := prefixed msg.subject "Re: " ["re:"], inReplyTo := some msg.id,
    forwardOf := none, text := "", html := none, attachments := [], receipt := .unrequested,
    openpgp := none, smime := none, priority := .normal, delivery := .unrequested,
    automatic := false, state := .editing, updated := now }

/-! ## Recipients -/

variable {a b address : Address}

theorem sameMailbox_iff : sameMailbox a b = true ↔ a.mailbox = b.mailbox := by
  rw [sameMailbox, Text.eqIgnoreAsciiCase, beq_iff_eq, Address.mailbox, Address.mailbox]

variable {identity : Identity}

theorem ours_congr (h : a.mailbox = b.mailbox) :
    identity.ours a = identity.ours b := by
  have hsame : ∀ own, sameMailbox a own = sameMailbox b own := by
    intro own
    rw [Bool.eq_iff_iff, sameMailbox_iff, sameMailbox_iff, h]
  cases hreply : identity.replyTo with
  | none => simp only [Identity.ours, hreply, hsame, Option.any_none]
  | some own => simp only [Identity.ours, hreply, hsame, Option.any_some]

/-- Each mailbox once, and none ours. -/
structure Once (identity : Identity) (kept : List Address) : Prop where
  others : ∀ address ∈ kept, identity.ours address = false
  distinct : (kept.map Address.mailbox).Nodup

variable {kept : List Address}

theorem any_sameMailbox :
    kept.any (sameMailbox · address) = true ↔ address.mailbox ∈ kept.map Address.mailbox := by
  rw [List.any_eq_true, List.mem_map]
  constructor
  · intro ⟨own, hown, hsame⟩
    exact ⟨own, hown, sameMailbox_iff.mp hsame⟩
  · intro ⟨own, hown, hsame⟩
    exact ⟨own, hown, sameMailbox_iff.mpr hsame⟩

theorem once_keepNew (hkept : Once identity kept) (address : Address) :
    Once identity (keepNew identity kept address) ∧
      ∀ box, box ∈ (keepNew identity kept address).map Address.mailbox ↔
        box ∈ kept.map Address.mailbox ∨ box = address.mailbox ∧ identity.ours address = false := by
  rw [keepNew]
  cases hours : identity.ours address with
  | true =>
    rw [Bool.true_or, if_pos rfl]
    exact ⟨hkept, fun box => by simp⟩
  | false =>
    rw [Bool.false_or]
    by_cases hthere : kept.any (sameMailbox · address) = true
    · rw [if_pos hthere]
      refine ⟨hkept, fun box => ⟨Or.inl, ?_⟩⟩
      rintro (hold | ⟨rfl, _⟩)
      · exact hold
      · exact any_sameMailbox.mp hthere
    · rw [if_neg hthere]
      refine ⟨⟨?_, ?_⟩, fun box => ?_⟩
      · intro other hother
        rcases List.mem_append.mp hother with hold | hlast
        · exact hkept.others other hold
        · rw [List.mem_singleton.mp hlast, hours]
      · rw [List.map_append, List.map_singleton]
        apply List.nodup_append.mpr
        refine ⟨hkept.distinct, List.nodup_singleton _, fun box hbox other hlast heq => ?_⟩
        rw [List.mem_singleton.mp hlast] at heq
        exact hthere (any_sameMailbox.mpr (heq ▸ hbox))
      · rw [List.map_append, List.mem_append, List.map_singleton, List.mem_singleton]
        simp

theorem once_foldl (addresses : List Address) (hkept : Once identity kept) :
    Once identity (addresses.foldl (keepNew identity) kept) ∧
      ∀ box, box ∈ (addresses.foldl (keepNew identity) kept).map Address.mailbox ↔
        box ∈ kept.map Address.mailbox ∨
          ∃ address ∈ addresses, box = address.mailbox ∧ identity.ours address = false := by
  induction addresses generalizing kept with
  | nil => exact ⟨hkept, fun box => by simp⟩
  | cons address rest ih =>
    obtain ⟨hnext, hstep⟩ := once_keepNew hkept address
    obtain ⟨honce, hboxes⟩ := ih hnext
    refine ⟨honce, fun box => ?_⟩
    rw [List.foldl_cons, hboxes box, hstep box]
    simp only [List.mem_cons, exists_eq_or_imp, or_assoc]

theorem once_dedup (identity : Identity) (addresses : List Address) :
    Once identity (dedupAddresses identity addresses) ∧
      ∀ box, box ∈ (dedupAddresses identity addresses).map Address.mailbox ↔
        ∃ address ∈ addresses, box = address.mailbox ∧ identity.ours address = false := by
  obtain ⟨honce, hboxes⟩ := once_foldl addresses
    (show Once identity [] from ⟨fun _ h => absurd h List.not_mem_nil, List.nodup_nil⟩)
  refine ⟨honce, fun box => ?_⟩
  rw [dedupAddresses, hboxes box]
  simp

theorem ours_eq_false :
    identity.ours address = false ↔ sameMailbox address identity.sender = false ∧
      ∀ own ∈ identity.replyTo, sameMailbox address own = false := by
  rw [Identity.ours, Bool.or_eq_false_iff]
  cases identity.replyTo <;> simp

theorem once_append {a b : List Address} (ha : Once identity a) (hb : Once identity b) :
    Once identity (a ++ b.filter fun address => !a.any (sameMailbox · address)) ∧
      ∀ box, box ∈ (a ++ b.filter fun address => !a.any (sameMailbox · address)).map
          Address.mailbox ↔ box ∈ a.map Address.mailbox ∨ box ∈ b.map Address.mailbox := by
  have hnew : ∀ address, (!a.any (sameMailbox · address)) = true ↔
      address.mailbox ∉ a.map Address.mailbox := by
    intro address
    rw [Bool.not_eq_true', ← Bool.not_eq_true, any_sameMailbox]
  refine ⟨⟨?_, ?_⟩, fun box => ?_⟩
  · intro address h
    rcases List.mem_append.mp h with h | h
    · exact ha.others address h
    · exact hb.others address (List.mem_filter.mp h).1
  · rw [List.map_append]
    apply List.nodup_append.mpr
    refine ⟨ha.distinct, (List.filter_sublist.map _).nodup hb.distinct, ?_⟩
    intro box hbox other hother heq
    obtain ⟨address, hin, rfl⟩ := List.mem_map.mp hother
    exact (hnew address).mp (List.mem_filter.mp hin).2 (heq ▸ hbox)
  · rw [List.map_append, List.mem_append]
    constructor
    · intro h
      exact h.imp_right fun h => (List.filter_sublist.map _).subset h
    · intro h
      by_cases hold : box ∈ a.map Address.mailbox
      · exact Or.inl hold
      · obtain ⟨address, hin, rfl⟩ := List.mem_map.mp (h.resolve_left hold)
        exact Or.inr (List.mem_map_of_mem (List.mem_filter.mpr ⟨hin, (hnew address).mpr hold⟩))

/-- A reply to everyone goes to each mailbox on the original that is not ours, once. -/
theorem replyTo_all (fresh : DraftId) (msg : Message) (identity : Identity) (now : DateTime) :
    let reply := replyTo fresh msg identity .all now
    (∀ address ∈ reply.to ++ reply.cc, sameMailbox address identity.sender = false ∧
        ∀ own ∈ identity.replyTo, sameMailbox address own = false) ∧
      (reply.to ++ reply.cc).Pairwise (fun a b => sameMailbox a b = false) ∧ reply.bcc = [] ∧
      ∀ address, (∃ kept ∈ reply.to ++ reply.cc, sameMailbox kept address = true) ↔
        (∃ original ∈ msg.sender :: (msg.replyTo ++ msg.to ++ msg.cc),
          sameMailbox original address = true) ∧
        sameMailbox address identity.sender = false ∧
        ∀ own ∈ identity.replyTo, sameMailbox address own = false := by
  obtain ⟨hto, htoBoxes⟩ := once_dedup identity
    ((if msg.replyTo.isEmpty then [msg.sender] else msg.replyTo) ++ msg.sender :: msg.to)
  obtain ⟨hcc, hccBoxes⟩ := once_dedup identity msg.cc
  obtain ⟨honce, hboxes⟩ := once_append hto hcc
  refine ⟨fun address h => ours_eq_false.mp (honce.others address h), ?_, rfl, fun address => ?_⟩
  · refine (List.pairwise_map.mp honce.distinct).imp fun {a b} h => ?_
    rw [← Bool.not_eq_true, sameMailbox_iff]
    exact h
  · rw [← ours_eq_false, ← List.any_eq_true, any_sameMailbox]
    refine (hboxes address.mailbox).trans ?_
    rw [htoBoxes, hccBoxes]
    constructor
    · rintro (⟨original, hin, hbox, hours⟩ | ⟨original, hin, hbox, hours⟩)
      · refine ⟨⟨original, ?_, sameMailbox_iff.mpr hbox.symm⟩, (ours_congr hbox).trans hours⟩
        split at hin <;> simp at hin ⊢ <;> tauto
      · refine ⟨⟨original, ?_, sameMailbox_iff.mpr hbox.symm⟩, (ours_congr hbox).trans hours⟩
        simp [hin]
    · rintro ⟨⟨original, hin, hsame⟩, hours⟩
      have hbox := (sameMailbox_iff.mp hsame).symm
      have hother := (ours_congr hbox).symm.trans hours
      by_cases hcopied : original ∈ msg.cc
      · exact Or.inr ⟨original, hcopied, hbox, hother⟩
      · refine Or.inl ⟨original, ?_, hbox, hother⟩
        split
        · rename_i hnone
          rw [List.isEmpty_iff.mp hnone] at hin
          simp [hcopied] at hin ⊢
          tauto
        · simp [hcopied] at hin ⊢
          tauto

end Mailo.Domain
