import Mailo.Domain.Field

/-!
# What a summary says of its messages

Each derived field of a summary, characterised by the messages: which of them it depends on, and
what it is when they are rewritten without changing what no change writes.
-/

namespace Mailo.Domain

namespace ThreadSummary

/-- Equal, with the labels compared as sets. -/
def Same (a b : ThreadSummary) : Prop :=
  { a with labels := [] } = { b with labels := [] } ∧ ∀ label, label ∈ a.labels ↔ label ∈ b.labels

theorem Same.refl (summary : ThreadSummary) : Same summary summary := ⟨rfl, fun _ => Iff.rfl⟩

variable {order : List Message}

theorem readOf_eq_unread :
    readOf order = .unread ↔ ∃ m ∈ order, m.read = .unread := by
  have hfold : ∀ (order : List Message) (held : ReadState),
      order.foldl (fun held m => if m.read = .unread then .unread else held) held = .unread ↔
        held = .unread ∨ ∃ m ∈ order, m.read = .unread := by
    intro order
    induction order with
    | nil => simp
    | cons m rest ih =>
      intro held
      rw [List.foldl_cons, ih]
      by_cases h : m.read = .unread <;> simp [h]
  simpa [readOf] using hfold order .read

theorem starOf_eq_starred :
    starOf order = .starred ↔ ∃ m ∈ order, m.star = .starred := by
  have hfold : ∀ (order : List Message) (held : Star),
      order.foldl (fun held m => if m.star = .starred then .starred else held) held = .starred ↔
        held = .starred ∨ ∃ m ∈ order, m.star = .starred := by
    intro order
    induction order with
    | nil => simp
    | cons m rest ih =>
      intro held
      rw [List.foldl_cons, ih]
      by_cases h : m.star = .starred <;> simp [h]
  simpa [starOf] using hfold order .unstarred

/-- With no message starred the colour is the default one. -/
theorem flagOf_of_unstarred (h : ∀ m ∈ order, m.star = .unstarred) :
    flagOf order = .red := by
  have hfold : ∀ (order : List Message) (held : Hue), (∀ m ∈ order, m.star = .unstarred) →
      order.foldl (fun held m => if m.star = .starred then m.flag else held) held = held := by
    intro order
    induction order with
    | nil => intro held _; rfl
    | cons m rest ih =>
      intro held hall
      rw [List.foldl_cons, hall m List.mem_cons_self]
      exact ih held fun n hn => hall n (.tail _ hn)
  exact hfold order .red h

/-- With every message starred in one colour that colour is left standing. -/
theorem flagOf_of_starred {hue : Hue} (nonempty : order ≠ [])
    (h : ∀ m ∈ order, m.star = .starred ∧ m.flag = hue) : flagOf order = hue := by
  have hfold : ∀ (order : List Message), (∀ m ∈ order, m.star = .starred ∧ m.flag = hue) →
      order.foldl (fun held m => if m.star = .starred then m.flag else held) hue = hue := by
    intro order
    induction order with
    | nil => intro _; rfl
    | cons m rest ih =>
      intro hall
      obtain ⟨hstar, hflag⟩ := hall m (.head _)
      rw [List.foldl_cons, if_pos hstar, hflag]
      exact ih fun n hn => hall n (.tail _ hn)
  cases order with
  | nil => exact absurd rfl nonempty
  | cons m rest =>
    obtain ⟨hstar, hflag⟩ := h m (.head _)
    unfold flagOf
    rw [List.foldl_cons, if_pos hstar, hflag]
    exact hfold rest fun n hn => h n (.tail _ hn)

theorem mem_labelsOf {label : LabelId} :
    label ∈ labelsOf order ↔ ∃ m ∈ order, label ∈ m.labels := by
  have hadd : ∀ (labels out : List LabelId),
      label ∈ labels.foldl addLabel out ↔ label ∈ out ∨ label ∈ labels := by
    intro labels
    induction labels with
    | nil => simp
    | cons head rest ih =>
      intro out
      rw [List.foldl_cons, ih, mem_addLabel, List.mem_cons, or_assoc]
  have hfold : ∀ (order : List Message) (out : List LabelId),
      label ∈ order.foldl (fun out m => m.labels.foldl addLabel out) out ↔
        label ∈ out ∨ ∃ m ∈ order, label ∈ m.labels := by
    intro order
    induction order with
    | nil => simp
    | cons m rest ih =>
      intro out
      rw [List.foldl_cons, ih, hadd]
      simp [or_assoc]
  simpa [labelsOf] using hfold order []

theorem contains_mailboxes {role : MailboxRole} :
    (MailboxSet.ofList (order.map Message.mailbox)).contains role = true ↔
      ∃ m ∈ order, m.mailbox = role := by
  simp

/-! ## Messages rewritten one by one -/

variable {messages : List Message}

section Rewritten

variable {order : List Message} {g : Message → Message}

theorem readOf_map (h : ∀ m ∈ order, (g m).read = m.read) :
    readOf (order.map g) = readOf order := by
  unfold readOf
  rw [List.foldl_map]
  exact List.foldl_ext _ _ _ fun held m hm => by rw [h m hm]

theorem starOf_map (h : ∀ m ∈ order, (g m).star = m.star) :
    starOf (order.map g) = starOf order := by
  unfold starOf
  rw [List.foldl_map]
  exact List.foldl_ext _ _ _ fun held m hm => by rw [h m hm]

theorem flagOf_map (h : ∀ m ∈ order, (g m).star = m.star ∧ (g m).flag = m.flag) :
    flagOf (order.map g) = flagOf order := by
  unfold flagOf
  rw [List.foldl_map]
  exact List.foldl_ext _ _ _ fun held m hm => by rw [(h m hm).1, (h m hm).2]

theorem deriveFrom_map [Unicode] (id : ThreadId) {oldest newest : Message}
    (holdest : oldest ∈ order) (hnewest : newest ∈ order) (snooze : Snooze) (pin : Pin)
    (mute : Mute) (followUp : FollowUp) (h : ∀ m ∈ order, (g m).rest = m.rest) :
    deriveFrom id (g oldest) (g newest) (order.map g) snooze pin mute followUp =
      { deriveFrom id oldest newest order snooze pin mute followUp with
        read := readOf (order.map g)
        star := starOf (order.map g)
        flag := flagOf (order.map g)
        mailboxes := MailboxSet.ofList ((order.map g).map Message.mailbox)
        labels := labelsOf (order.map g) } := by
  have hproj : ∀ {β : Type} (f : Message → β), (∀ m : Message, f m.rest = f m) →
      ∀ m ∈ order, f (g m) = f m := by
    intro β f hf m hm
    rw [← hf (g m), h m hm, hf m]
  have hparticipants : participantsOf (order.map g) = participantsOf order := by
    unfold participantsOf
    rw [List.foldl_map]
    exact List.foldl_ext _ _ _ fun out m hm =>
      congrArg (addAddress out) (hproj Message.sender (fun _ => rfl) m hm)
  have hrecipients : recipientsOf (order.map g) = recipientsOf order := by
    unfold recipientsOf
    rw [List.foldl_map]
    exact List.foldl_ext _ _ _ fun out m hm =>
      congrArg (fun (addresses : List Address) => addresses.foldl addAddress out)
        (hproj (fun m => m.«to» ++ m.cc) (fun _ => rfl) m hm)
  have hfiles : filesOf (order.map g) = filesOf order := by
    unfold filesOf
    rw [List.foldl_map]
    exact List.foldl_ext _ _ _ fun count m hm =>
      congrArg (fun files => count + files)
        (hproj (fun m => (m.attachments.filter fun a => a.inline == .attached).length)
          (fun _ => rfl) m hm)
  unfold deriveFrom
  rw [hproj Message.account (fun _ => rfl) newest hnewest,
    hproj Message.subject (fun _ => rfl) oldest holdest,
    hproj (fun m => m.body.text) (fun _ => rfl) newest hnewest,
    hproj Message.sender (fun _ => rfl) newest hnewest,
    hproj Message.date (fun _ => rfl) newest hnewest,
    hparticipants, hrecipients, hfiles, List.length_map]

theorem ordered_map (h : ∀ m ∈ messages, (g m).date = m.date) :
    ordered (messages.map g) = (ordered messages).map g := by
  unfold ordered
  refine (List.map_insertionSort _ _ g messages ?_).symm
  intro a ha b hb
  rw [h a ha, h b hb]

end Rewritten

theorem mem_ordered {m : Message} : m ∈ ordered messages ↔ m ∈ messages := List.mem_insertionSort _

theorem ordered_ne_nil (h : messages ≠ []) : ordered messages ≠ [] := by
  obtain ⟨m, hm⟩ := List.exists_mem_of_ne_nil _ h
  exact List.ne_nil_of_mem (mem_ordered.mpr hm)

variable {followUp : FollowUp} {id : ThreadId} {mute : Mute} {pin : Pin} {snooze : Snooze}
  {summary : ThreadSummary}

/-- A derived summary names the first and the last of the messages in order. -/
theorem derive_eq_some [Unicode] (h : derive id messages snooze pin mute followUp = some summary) :
    ∃ oldest newest, (ordered messages).head? = some oldest ∧
      (ordered messages).getLast? = some newest ∧
      summary = deriveFrom id oldest newest (ordered messages) snooze pin mute followUp := by
  unfold derive at h
  split at h
  · rename_i oldest newest holdest hnewest
    exact ⟨oldest, newest, holdest, hnewest, (Option.some.inj h).symm⟩
  · cases h

/-- The summary of rewritten messages, from the one of the messages before. -/
theorem derive_map [Unicode] (h : derive id messages snooze pin mute followUp = some summary)
    {g : Message → Message} (rest : ∀ m ∈ messages, (g m).rest = m.rest) (snooze' : Snooze)
    (pin' : Pin) (mute' : Mute) (followUp' : FollowUp) :
    derive id (messages.map g) snooze' pin' mute' followUp' = some
      { summary with
        snooze := snooze'
        pin := pin'
        mute := mute'
        followUp := followUp'
        read := readOf ((ordered messages).map g)
        star := starOf ((ordered messages).map g)
        flag := flagOf ((ordered messages).map g)
        mailboxes := MailboxSet.ofList (((ordered messages).map g).map Message.mailbox)
        labels := labelsOf ((ordered messages).map g) } := by
  obtain ⟨oldest, newest, holdest, hnewest, rfl⟩ := derive_eq_some h
  have hdate : ∀ m ∈ messages, (g m).date = m.date := fun m hm => by
    have hsame := congrArg Message.date (rest m hm)
    exact hsame
  have hrest : ∀ m ∈ ordered messages, (g m).rest = m.rest := fun m hm =>
    rest m (mem_ordered.mp hm)
  have hfrom := deriveFrom_map id (List.mem_of_mem_head? holdest)
    (List.mem_of_mem_getLast? hnewest) snooze' pin' mute' followUp' hrest
  unfold derive
  rw [ordered_map hdate, List.head?_map, List.getLast?_map, holdest, hnewest]
  simp only [Option.map_some]
  rw [hfrom]
  rfl

end ThreadSummary

end Mailo.Domain
