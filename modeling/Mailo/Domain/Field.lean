import Mailo.Library.Registers
import Mailo.Domain.Op

/-!
# The fields of a message that changes write

A message's read state, star, flag colour, mailbox and each label are registers, and the changes
of an operation are writes to them. The rest of a message no change touches.
-/

namespace Mailo.Domain

open Library

inductive Field where
  | read | star | flag | mailbox
  | label (label : LabelId)
deriving DecidableEq

/-- A field with the value it is given. -/
inductive Setting where
  | read (state : ReadState)
  | star (star : Star)
  | flag (hue : Hue)
  | mailbox (role : MailboxRole)
  | label (label : LabelId) (membership : Membership)
deriving DecidableEq

def Setting.field : Setting → Field
  | .read _ => .read
  | .star _ => .star
  | .flag _ => .flag
  | .mailbox _ => .mailbox
  | .label held _ => .label held

namespace Message

def membership (m : Message) (label : LabelId) : Membership :=
  if m.labels.contains label then .in else .out

def setting (m : Message) : Field → Setting
  | .read => .read m.read
  | .star => .star m.star
  | .flag => .flag m.flag
  | .mailbox => .mailbox m.mailbox
  | .label label => .label label (m.membership label)

def put (m : Message) : Setting → Message
  | .read state => { m with read := state }
  | .star star => { m with star := star }
  | .flag hue => { m with flag := hue }
  | .mailbox role => { m with mailbox := role }
  | .label label .in => { m with labels := addLabel m.labels label }
  | .label label .out => { m with labels := m.labels.filter fun held => held ≠ label }

variable {label : LabelId} {a b : Message}

theorem membership_eq_in {m : Message} :
    m.membership label = .in ↔ label ∈ m.labels := by
  by_cases h : label ∈ m.labels <;> simp [membership, h]

theorem membership_eq_iff {other : LabelId} :
    a.membership label = b.membership other ↔ (label ∈ a.labels ↔ other ∈ b.labels) := by
  by_cases ha : label ∈ a.labels <;> by_cases hb : other ∈ b.labels <;>
    simp [membership, ha, hb]

variable (m : Message)

theorem setting_put (s : Setting) (f : Field) :
    (m.put s).setting f = if f = s.field then s else m.setting f := by
  cases s with
  | label label membership =>
    cases f with
    | label other =>
      by_cases h : other = label
      · subst h
        cases membership <;> simp [put, setting, Setting.field, Message.membership, mem_addLabel]
      · cases membership <;>
          simp [put, setting, Setting.field, Message.membership, mem_addLabel, h]
    | _ => cases membership <;> rfl
  | _ => cases f <;> rfl

instance : Registers Message Field Setting where
  key := Setting.field
  get := setting
  put := put
  key_get m f := by cases f <;> rfl
  get_put := by
    intro _ m s f
    rw [setting_put]
    congr

/-- What no change writes. -/
def rest (m : Message) : Message :=
  { m with read := .read, star := .unstarred, flag := .red, mailbox := .inbox, labels := [] }

@[simp] theorem rest_put (s : Setting) : (m.put s).rest = m.rest := by
  cases s with
  | label label membership => cases membership <;> rfl
  | _ => rfl

@[simp] theorem rest_putAll (log : List Setting) :
    (Registers.putAll m log).rest = m.rest := by
  induction log generalizing m with
  | nil => rfl
  | cons s log ih =>
    rw [Registers.putAll_cons, ih]
    exact rest_put m s

/-- Equal, with the labels compared as sets. -/
def Same (a b : Message) : Prop := a.rest = b.rest ∧ ∀ f, a.setting f = b.setting f

theorem Same.refl : Same m m := ⟨rfl, fun _ => rfl⟩

theorem Same.symm (h : Same a b) : Same b a :=
  ⟨h.1.symm, fun f => (h.2 f).symm⟩

theorem Same.trans {c : Message} (h : Same a b) (k : Same b c) : Same a c :=
  ⟨h.1.trans k.1, fun f => (h.2 f).trans (k.2 f)⟩

theorem Same.mem_labels (h : Same a b) (label : LabelId) :
    label ∈ a.labels ↔ label ∈ b.labels := by
  have := h.2 (.label label)
  simp only [setting, Setting.label.injEq, true_and] at this
  exact membership_eq_iff.mp this

end Message

namespace Change

/-- The message field a change writes. -/
def setting : Change → Option (MessageId × Setting)
  | .messageRead id state => some (id, .read state)
  | .messageStar id star => some (id, .star star)
  | .messageFlag id hue => some (id, .flag hue)
  | .messageMailbox id role => some (id, .mailbox role)
  | .messageLabel id label membership => some (id, .label label membership)
  | _ => none

def ofSetting (id : MessageId) : Setting → Change
  | .read state => .messageRead id state
  | .star star => .messageStar id star
  | .flag hue => .messageFlag id hue
  | .mailbox role => .messageMailbox id role
  | .label label membership => .messageLabel id label membership

@[simp] theorem setting_ofSetting (id : MessageId) (s : Setting) :
    (ofSetting id s).setting = some (id, s) := by
  cases s <;> rfl

variable {id : MessageId} {s : Setting}

theorem ofSetting_inj {other : MessageId} {t : Setting} (h : ofSetting id s = ofSetting other t) :
    id = other ∧ s = t := by
  have hpair := setting_ofSetting id s
  rw [h, setting_ofSetting, Option.some.injEq, Prod.mk.injEq] at hpair
  exact ⟨hpair.1.symm, hpair.2.symm⟩

theorem eq_ofSetting {change : Change} (h : change.setting = some (id, s)) :
    change = ofSetting id s := by
  cases change <;> simp_all [setting, ofSetting] <;> obtain ⟨rfl, rfl⟩ := h <;> rfl

end Change

def settingsOf (id : MessageId) (changes : List Change) : List Setting :=
  changes.filterMap fun change =>
    match change.setting with
    | some (other, s) => if other = id then some s else none
    | none => none

@[simp] theorem settingsOf_nil (id : MessageId) : settingsOf id [] = [] := rfl

theorem settingsOf_append (id : MessageId) (changes more : List Change) :
    settingsOf id (changes ++ more) = settingsOf id changes ++ settingsOf id more :=
  List.filterMap_append

theorem mem_settingsOf {id : MessageId} {changes : List Change} {s : Setting} :
    s ∈ settingsOf id changes ↔ Change.ofSetting id s ∈ changes := by
  simp only [settingsOf, List.mem_filterMap]
  constructor
  · rintro ⟨change, hmem, h⟩
    cases hs : change.setting with
    | none => simp [hs] at h
    | some pair =>
      obtain ⟨other, t⟩ := pair
      by_cases heq : other = id
      · simp only [hs, heq, if_true, Option.some.injEq] at h
        subst h heq
        exact Change.eq_ofSetting hs ▸ hmem
      · simp [hs, heq] at h
  · intro hmem
    exact ⟨_, hmem, by simp⟩

end Mailo.Domain
