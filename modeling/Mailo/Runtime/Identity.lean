import Mailo.Domain.Remote
import Mailo.Library.Utf8

/-!
# The identity of a message

A message with a usable `Message-ID` is known by it. One without is known by a digest of what it
says of itself, end to end with where a server holds it, or with the digest of its bytes.
-/

namespace Mailo.Runtime.Identity

open Domain Library

/-- The digest of bytes, and a moment as RFC 3339 writes it. -/
class Digests where
  blake3 : List UInt8 → List UInt8
  length_blake3 : ∀ bytes, (blake3 bytes).length = 32
  rfc3339 : DateTime → List UInt8

/-- What is read of a message, in its headers and past them. -/
structure Parsed where
  rfcMessageId : Option String
  subject : String
  sender : Option String
  date : Option DateTime
  text : Option String

inductive Tiebreak where
  | remote (held : RemoteRef)
  | bytes (digest : List UInt8)

def utf8 (text : String) : List UInt8 := Utf8.encode text.toList

def leBytes (n : UInt32) : List UInt8 :=
  (List.range 4).map fun place => UInt8.ofNat (n.toNat / 256 ^ place)

def placeBytes : RemoteRef → List UInt8
  | .pop uidl => utf8 uidl
  | .jmap emailId => utf8 emailId
  | .imap mailbox _ uid => utf8 mailbox ++ leBytes uid
  | .graph _ id => utf8 id

def Tiebreak.hashed : Tiebreak → List UInt8
  | .remote held => placeBytes held
  | .bytes digest => digest

variable [Digests]

def said (fields : Parsed) : List UInt8 :=
  utf8 fields.subject ++ utf8 (fields.sender.getD "") ++ fields.date.elim [] Digests.rfc3339

def messageKey (fields : Parsed) (tiebreak : Tiebreak) : MessageKey :=
  match fields.rfcMessageId with
  | some id => .rfc id
  | none => .synthetic ((Digests.blake3 (said fields ++ tiebreak.hashed)).map UInt8.toNat)

/-- Two readings have one id, or say the same of subject, sender and date put end to end. -/
def Parsed.SayTheSame (a b : Parsed) : Prop :=
  a.rfcMessageId = b.rfcMessageId ∧ (a.rfcMessageId = none → said a = said b)

/-- A message as it was read, from its headers or from all its bytes, and where a server holds it,
if one does. -/
structure Arrived where
  parsed : Parsed
  remote : Option RemoteRef
  raw : List UInt8

namespace Arrived

def tiebreak (message : Arrived) : Tiebreak :=
  message.remote.elim (.bytes (Digests.blake3 message.raw)) .remote

def key (message : Arrived) : MessageKey := messageKey message.parsed message.tiebreak

def hashed (message : Arrived) : List UInt8 := said message.parsed ++ message.tiebreak.hashed

/-- Two messages at two addresses, or at none and with different bytes. -/
def Differ (a b : Arrived) : Prop :=
  match a.remote, b.remote with
  | some p, some q => p ≠ q
  | none, none => a.raw ≠ b.raw
  | _, _ => False

/-- The digest tells apart everything hashed for two messages. -/
def NoCollision (a b : Arrived) : Prop :=
  ∀ x ∈ [a.raw, b.raw, a.hashed, b.hashed], ∀ y ∈ [a.raw, b.raw, a.hashed, b.hashed],
    Digests.blake3 x = Digests.blake3 y → x = y

/-- What two messages say is not the same, put end to end with where a server holds them: of two
on IMAP servers the last is the UID, which is as long in both. -/
def ToldApart (a b : Arrived) : Prop :=
  match a.remote, b.remote with
  | some (.imap mailbox _ uid), some (.imap other _ uid') =>
    uid ≠ uid' ∨ said a.parsed ++ utf8 mailbox ≠ said b.parsed ++ utf8 other
  | some p, some q => said a.parsed ++ placeBytes p ≠ said b.parsed ++ placeBytes q
  | _, _ => True

end Arrived

omit [Digests] in
theorem leBytes_inj {a b : UInt32} (h : leBytes a = leBytes b) : a = b := by
  have hbyte : ∀ m n : Nat, UInt8.ofNat m = UInt8.ofNat n → m % 256 = n % 256 := by
    intro m n h
    simpa using congrArg UInt8.toNat h
  simp only [leBytes, List.range_succ, List.range_zero, List.nil_append, List.map_cons,
    List.map_nil, List.cons_append, List.cons.injEq, and_true] at h
  obtain ⟨h0, h1, h2, h3⟩ := h
  have ha := a.toNat_lt
  have hb := b.toNat_lt
  have := hbyte _ _ h0
  have := hbyte _ _ h1
  have := hbyte _ _ h2
  have := hbyte _ _ h3
  apply UInt32.toNat_inj.mp
  omega

omit [Digests] in
theorem append_leBytes_inj {a b : List UInt8} {uid other : UInt32} :
    a ++ leBytes uid = b ++ leBytes other ↔ uid = other ∧ a = b := by
  constructor
  · intro h
    obtain ⟨hfront, huid⟩ := List.append_inj' h (by simp [leBytes])
    exact ⟨leBytes_inj huid, hfront⟩
  · rintro ⟨rfl, rfl⟩
    rfl

variable {a b : Arrived}

theorem key_eq_iff (hnone : a.parsed.rfcMessageId = none ∧ b.parsed.rfcMessageId = none)
    (hclear : a.NoCollision b) : a.key = b.key ↔ a.hashed = b.hashed := by
  rw [Arrived.key, messageKey, hnone.1, Arrived.key, messageKey, hnone.2, MessageKey.synthetic.injEq]
  refine ⟨fun h => hclear _ (by simp) _ (by simp) ?_, fun h => ?_⟩
  · exact List.map_injective_iff.mpr (fun _ _ => UInt8.toNat_inj.mp) h
  · change List.map _ (Digests.blake3 a.hashed) = List.map _ (Digests.blake3 b.hashed)
    rw [h]

@[reducible] def cutShort : Digests where
  blake3 bytes := (bytes ++ List.replicate 32 0).take 32
  length_blake3 bytes := by simp
  rfc3339 _ := []

omit [Digests]

/-- A message of the inbox with neither a date nor an id, its subject as it was read. -/
def reminder (subject : String) (uidvalidity uid : UInt32) : Arrived where
  parsed := ⟨none, subject, some "a@b.test", none, none⟩
  remote := some (.imap "INBOX" uidvalidity uid)
  raw := utf8 "Subject: Hi"

/-- The reminder with its body. -/
def reminderWhole : Arrived where
  parsed := ⟨none, "Hi", some "a@b.test", none, some "Tea at four"⟩
  remote := some (.imap "INBOX" 1 7)
  raw := utf8 "Subject: Hi\r\n\r\nTea at four"

end Mailo.Runtime.Identity
