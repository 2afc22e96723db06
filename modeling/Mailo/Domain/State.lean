import Mailo.Library.Lists

/-!
# Ids and the closed vocabulary of mail state

Every id is local. The enumerations are the ones the store keeps and the operations change;
a mailbox set is the bitmask the code keeps, with its two spare bits known to be clear.
-/

namespace Mailo.Domain

structure AccountId where
  raw : Nat
deriving DecidableEq

structure MessageId where
  raw : Nat
deriving DecidableEq

structure ThreadId where
  raw : Nat
deriving DecidableEq

structure LabelId where
  raw : Nat
deriving DecidableEq

structure DraftId where
  raw : Nat
deriving DecidableEq

structure BlobId where
  raw : Nat
deriving DecidableEq

structure ChangeId where
  raw : Nat
deriving DecidableEq

structure OutboxId where
  raw : Nat
deriving DecidableEq

/-- The lower of two thread ids, as ids are ordered. -/
def ThreadId.min (a b : ThreadId) : ThreadId := ⟨Nat.min a.raw b.raw⟩

abbrev DateTime := Int

abbrev NaiveDate := Int

/-! ## Mailbox roles -/

inductive MailboxRole where
  | inbox | archive | sent | drafts | trash | spam
deriving DecidableEq

namespace MailboxRole

/-- Every role, in display order. -/
def all : List MailboxRole := [inbox, archive, sent, drafts, trash, spam]

variable (role : MailboxRole)

@[simp] theorem mem_all : role ∈ all := by
  cases role <;> decide

def index : MailboxRole → Nat
  | inbox => 0
  | archive => 1
  | sent => 2
  | drafts => 3
  | trash => 4
  | spam => 5

theorem index_lt : role.index < 6 := by
  cases role <;> decide

theorem index_inj {a b : MailboxRole} (h : a.index = b.index) : a = b := by
  cases a <;> cases b <;> first | rfl | simp [index] at h

theorem exists_index {i : Nat} (h : i < 6) : ∃ role : MailboxRole, role.index = i := by
  match i, h with
  | 0, _ => exact ⟨inbox, rfl⟩
  | 1, _ => exact ⟨archive, rfl⟩
  | 2, _ => exact ⟨sent, rfl⟩
  | 3, _ => exact ⟨drafts, rfl⟩
  | 4, _ => exact ⟨trash, rfl⟩
  | 5, _ => exact ⟨spam, rfl⟩

def bit (role : MailboxRole) : BitVec 8 := 1#8 <<< role.index

theorem getLsbD_bit (i : Nat) :
    role.bit.getLsbD i = decide (i = role.index) := by
  have h := role.index_lt
  simp only [bit, BitVec.getLsbD_shiftLeft, BitVec.getLsbD_one]
  by_cases hi : i = role.index
  · subst hi
    simp; omega
  · simp [hi]; omega

end MailboxRole

/-- The set of roles a thread spans: a bit a role, the two bits past the roles clear. -/
structure MailboxSet where
  bits : BitVec 8
  spare : ∀ i, 6 ≤ i → bits.getLsbD i = false
deriving DecidableEq

namespace MailboxSet

def empty : MailboxSet := ⟨0#8, by simp⟩

def only (role : MailboxRole) : MailboxSet :=
  ⟨role.bit, fun i hi => by
    have h := role.index_lt
    rw [MailboxRole.getLsbD_bit, decide_eq_false_iff_not]
    omega⟩

def contains (set : MailboxSet) (role : MailboxRole) : Bool :=
  set.bits &&& role.bit != 0#8

def insert (set : MailboxSet) (role : MailboxRole) : MailboxSet :=
  ⟨set.bits ||| role.bit, fun i hi => by
    rw [BitVec.getLsbD_or, set.spare i hi, Bool.false_or]
    exact (only role).spare i hi⟩

def without (set : MailboxSet) (role : MailboxRole) : MailboxSet :=
  ⟨set.bits &&& ~~~ role.bit, fun i hi => by
    rw [BitVec.getLsbD_and, set.spare i hi, Bool.false_and]⟩

/-- The roles present, in display order. -/
def roles (set : MailboxSet) : List MailboxRole := MailboxRole.all.filter set.contains

def ofList (roles : List MailboxRole) : MailboxSet := roles.foldl insert empty

variable (set : MailboxSet)

theorem contains_eq (role : MailboxRole) :
    set.contains role = set.bits.getLsbD role.index := by
  have hand : ∀ i, (set.bits &&& role.bit).getLsbD i =
      (set.bits.getLsbD i && decide (i = role.index)) := by
    intro i
    rw [BitVec.getLsbD_and, MailboxRole.getLsbD_bit]
  unfold contains
  cases hbit : set.bits.getLsbD role.index with
  | false =>
    have hzero : set.bits &&& role.bit = 0#8 := by
      apply BitVec.eq_of_getLsbD_eq
      intro i _
      rw [hand, BitVec.getLsbD_zero]
      by_cases hi : i = role.index
      · rw [hi, hbit]; rfl
      · simp [hi]
    simp [hzero]
  | true =>
    have hne : set.bits &&& role.bit ≠ 0#8 := by
      intro hzero
      have := hand role.index
      rw [hzero, hbit] at this
      simp at this
    simpa using hne

/-- Two sets of the same roles are one bitmask: the spare bits say nothing. -/
theorem ext_contains {a b : MailboxSet} (h : ∀ role, a.contains role = b.contains role) :
    a = b := by
  obtain ⟨abits, aspare⟩ := a
  obtain ⟨bbits, bspare⟩ := b
  have hbits : abits = bbits := by
    apply BitVec.eq_of_getLsbD_eq
    intro i _
    by_cases hi : i < 6
    · obtain ⟨role, rfl⟩ := MailboxRole.exists_index hi
      simpa only [contains_eq] using h role
    · rw [aspare i (by omega), bspare i (by omega)]
  cases hbits
  rfl

@[simp] theorem contains_empty (role : MailboxRole) : empty.contains role = false := by
  simp [contains_eq, empty]

@[simp] theorem contains_only (role other : MailboxRole) :
    (only role).contains other = decide (other = role) := by
  rw [contains_eq]
  change role.bit.getLsbD other.index = _
  rw [MailboxRole.getLsbD_bit]
  exact decide_eq_decide.mpr ⟨MailboxRole.index_inj, fun h => h ▸ rfl⟩

@[simp] theorem contains_insert (role other : MailboxRole) :
    (set.insert role).contains other = (set.contains other || decide (other = role)) := by
  have honly := contains_only role other
  rw [contains_eq] at honly ⊢
  rw [contains_eq]
  change (set.bits ||| role.bit).getLsbD other.index = _
  rw [BitVec.getLsbD_or]
  exact congrArg _ honly

@[simp] theorem contains_without (role other : MailboxRole) :
    (set.without role).contains other = (set.contains other && !decide (other = role)) := by
  have h := other.index_lt
  have honly := contains_only role other
  rw [contains_eq] at honly ⊢
  rw [contains_eq]
  change (set.bits &&& ~~~ role.bit).getLsbD other.index = _
  rw [BitVec.getLsbD_and, BitVec.getLsbD_not]
  have hlt : other.index < 8 := by omega
  change role.bit.getLsbD other.index = _ at honly
  rw [honly]
  simp [hlt]

@[simp] theorem mem_roles (role : MailboxRole) :
    role ∈ set.roles ↔ set.contains role = true := by
  simp [roles]

theorem contains_foldl_insert (roles : List MailboxRole) (set : MailboxSet) (role : MailboxRole) :
    (roles.foldl insert set).contains role = (set.contains role || decide (role ∈ roles)) := by
  induction roles generalizing set with
  | nil => simp
  | cons head rest ih =>
    simp only [List.foldl_cons, ih, contains_insert, List.mem_cons]
    cases set.contains role <;> simp

@[simp] theorem contains_ofList (roles : List MailboxRole) (role : MailboxRole) :
    (ofList roles).contains role = decide (role ∈ roles) := by
  simp [ofList, contains_foldl_insert]

end MailboxSet

inductive ReadState where
  | unread | read
deriving DecidableEq

inductive Star where
  | unstarred | starred
deriving DecidableEq

/-- Which way a label assignment moves. -/
inductive Membership where
  | «in» | out
deriving DecidableEq

def Membership.flip : Membership → Membership
  | .in => .out
  | .out => .in

/-- A flag's colour. -/
inductive Hue where
  | red | orange | yellow | green | blue | purple | gray
deriving DecidableEq

inductive Snooze where
  | inactive
  | until (due : DateTime)
deriving DecidableEq

inductive Pin where
  | unpinned
  | rank (position : Int)
deriving DecidableEq

inductive Mute where
  | unmuted | muted
deriving DecidableEq

inductive FollowUp where
  | inactive
  | until (due asked : DateTime)
  | returned (due asked : DateTime)
deriving DecidableEq

/-- Attachment presence; the count of a present one is never zero. -/
inductive Attachments where
  | none
  | present (count : Nat)
deriving DecidableEq

def Attachments.of (count : Nat) : Attachments :=
  if count = 0 then .none else .present count

end Mailo.Domain
