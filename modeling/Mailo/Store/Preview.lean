import Mailo.Domain.Summary
import Mailo.Store.Undo

/-!
# A preview agrees with the store

`Op.writes` says what an operation makes of one message. The forward changes of the operation
leave every message of a thread so, and the summary derived from what they leave is the one the
preview says.
-/

namespace Mailo.Domain.Op

open Library

/-- The fields an operation writes of a message it selects. -/
def writes (op : Op) (m : Message) : List Setting :=
  match op with
  | .archive => if m.mailbox ≠ .archive then [.mailbox .archive] else []
  | .trash => if m.mailbox ≠ .trash then [.mailbox .trash] else []
  | .spam => if m.mailbox ≠ .spam then [.mailbox .spam] else []
  | .restore =>
    if m.mailbox = .trash ∨ m.mailbox = .archive ∨ m.mailbox = .spam then [.mailbox .inbox]
    else []
  | .setRead state => if m.read ≠ state then [.read state] else []
  | .setStar star =>
    (if m.star ≠ star then [.star star] else []) ++
      if star = .unstarred ∧ m.flag ≠ .red then [.flag .red] else []
  | .flag hue =>
    (if m.star ≠ .starred then [.star .starred] else []) ++
      if m.flag ≠ hue then [.flag hue] else []
  | .label held membership =>
    if m.membership held ≠ membership then [.label held membership] else []
  | .copy held => if m.membership held ≠ .in then [.label held .in] else []
  | .file held =>
    (if m.mailbox ≠ .archive then [.mailbox .archive] else []) ++
      if m.membership held ≠ .in then [.label held .in] else []
  | .destroy | .setSnooze _ | .setPin _ | .setMute _ | .setFollowUp _ => []

/-- What an operation makes of a message it selects and leaves. -/
def outcome (op : Op) (m : Message) : Message := Registers.putAll m (op.writes m)

theorem writes_functional (op : Op) (m : Message) :
    ∀ s ∈ op.writes m, ∀ t ∈ op.writes m, s.field = t.field → s = t := by
  intro s hs t ht hfield
  cases op <;> simp only [writes] at hs ht <;> grind [Setting.field]

variable {id : MessageId} {s : Setting} {selected : List Message}

private theorem mem_settingsOf_forEach {halves : Message → Halves} {w : Message → List Setting}
    (h : ∀ m, (halves m).1 = (w m).map (Change.ofSetting m.id)) :
    s ∈ settingsOf id (Halves.forEach selected halves).1 ↔
      ∃ m ∈ selected, m.id = id ∧ s ∈ w m := by
  rw [mem_settingsOf]
  simp only [Halves.forEach, List.mem_flatMap, h, List.mem_map]
  constructor
  · rintro ⟨m, hm, t, ht, heq⟩
    obtain ⟨hid, rfl⟩ := Change.ofSetting_inj heq
    exact ⟨m, hm, hid, ht⟩
  · rintro ⟨m, hm, rfl, hs⟩
    exact ⟨m, hm, s, hs, rfl⟩

private theorem mem_settingsOf_moveInto {role : MailboxRole} :
    s ∈ settingsOf id (moveInto selected role).1 ↔
      ∃ m ∈ selected, m.id = id ∧ s ∈ if m.mailbox ≠ role then [Setting.mailbox role] else [] := by
  refine mem_settingsOf_forEach fun m => ?_
  split <;> rfl

private theorem mem_settingsOf_setLabel {label : LabelId} {membership : Membership} :
    s ∈ settingsOf id (setLabel selected label membership).1 ↔
      ∃ m ∈ selected, m.id = id ∧
        s ∈ if m.membership label ≠ membership then [Setting.label label membership] else [] := by
  refine mem_settingsOf_forEach fun m => ?_
  by_cases hmem : label ∈ m.labels <;> cases membership <;>
    simp [Message.membership, hmem, Change.ofSetting]

theorem mem_settingsOf_forward (op : Op) {target : Target} {thread : Thread}
    {messages : List Message} :
    s ∈ settingsOf id (op.halves target thread messages).1 ↔
      ∃ m ∈ select target messages, m.id = id ∧ s ∈ op.writes m := by
  have hsilent : ∀ {α : Type} [DecidableEq α] (targeted : Bool) {change : α → Change}
      (_ : ∀ value, (change value).setting = none) (prior next : α),
      s ∈ settingsOf id (threadHalves targeted change prior next).1 ↔ False := by
    intro α _ targeted change silent prior next
    rw [iff_false, mem_settingsOf]
    unfold threadHalves
    split
    · intro h
      have := silent next
      rw [← List.mem_singleton.mp h] at this
      simp at this
    · exact List.not_mem_nil
  cases op with
  | archive | trash | spam => exact mem_settingsOf_moveInto
  | restore | setRead =>
    refine mem_settingsOf_forEach fun m => ?_
    dsimp only [writes]
    split <;> rfl
  | setStar | flag =>
    refine mem_settingsOf_forEach fun m => ?_
    dsimp only [writes]
    rw [List.map_append]
    congr 1 <;> split <;> rfl
  | label | copy => exact mem_settingsOf_setLabel
  | file held =>
    change s ∈ settingsOf id ((moveInto _ .archive).1 ++ (setLabel _ held .in).1) ↔ _
    rw [settingsOf_append, List.mem_append, mem_settingsOf_moveInto, mem_settingsOf_setLabel]
    simp only [writes, List.mem_append, and_or_left, exists_or]
  | destroy =>
    rw [mem_settingsOf]
    simp only [halves, Domain.destroy, writes, List.mem_map, List.not_mem_nil, and_false,
      exists_false, iff_false]
    rintro ⟨m, _, heq⟩
    cases s <;> cases heq
  | setSnooze | setPin | setMute | setFollowUp => simpa [writes, halves] using hsilent _ (fun _ => rfl) _ _

theorem outcome_rest (op : Op) (m : Message) : (op.outcome m).rest = m.rest :=
  Message.rest_putAll m (op.writes m)

def readAfter (op : Op) (held : ReadState) : ReadState :=
  match op with
  | .setRead state => state
  | _ => held

def starAfter (op : Op) (held : Star) : Star :=
  match op with
  | .setStar star => star
  | .flag _ => .starred
  | _ => held

def flagAfter (op : Op) (held : Hue) : Hue :=
  match op with
  | .setStar .unstarred => .red
  | .flag hue => hue
  | _ => held

def mailboxAfter (op : Op) (held : MailboxRole) : MailboxRole :=
  match op with
  | .archive | .file _ => .archive
  | .trash => .trash
  | .spam => .spam
  | .restore => if away.contains held then .inbox else held
  | _ => held

def membershipAfter (op : Op) (label : LabelId) (held : Membership) : Membership :=
  match op with
  | .label other membership => if label = other then membership else held
  | .copy other | .file other => if label = other then .in else held
  | _ => held

def mailboxesAfter (op : Op) (held : MailboxSet) : MailboxSet :=
  match op with
  | .archive | .file _ => MailboxSet.only .archive
  | .trash => MailboxSet.only .trash
  | .spam => MailboxSet.only .spam
  | .restore =>
    if away.any held.contains then (away.foldl MailboxSet.without held).insert .inbox else held
  | _ => held

def LabelAfter (op : Op) (label : LabelId) (held : Prop) : Prop :=
  match op with
  | .label other .in | .copy other | .file other => held ∨ label = other
  | .label other .out => held ∧ label ≠ other
  | _ => held

def settingAfter (op : Op) (m : Message) : Field → Setting
  | .read => .read (op.readAfter m.read)
  | .star => .star (op.starAfter m.star)
  | .flag => .flag (op.flagAfter m.flag)
  | .mailbox => .mailbox (op.mailboxAfter m.mailbox)
  | .label tag => .label tag (op.membershipAfter tag (m.membership tag))

theorem outcome_setting (op : Op) (m : Message) (f : Field) :
    (op.outcome m).setting f = op.settingAfter m f := by
  have hget : (op.outcome m).setting f =
      (Registers.last Message f (op.writes m)).getD (m.setting f) :=
    Registers.get_putAll m (op.writes m) f
  have hkey : ∀ s : Setting, Registers.key Message s = s.field := fun _ => rfl
  rw [hget]
  cases op <;> cases f <;>
    simp only [writes, settingAfter, readAfter, starAfter, flagAfter, mailboxAfter,
      membershipAfter, Message.setting] <;>
    grind [Registers.last, Registers.last_append, Setting.field, away, Option.or]

end Mailo.Domain.Op

/-! ## The messages a write leaves -/

namespace Mailo.Store

open Domain Library

def remaining (store : Memory) (messages : List Message) : List Message :=
  messages.filterMap fun m => store.messages.get m.id

variable {g : Message → Message} {messages : List Message} {thread : Thread}

variable {store after : Memory} {id : ThreadId} {op : Op}

theorem remaining_eq_map (h : ∀ m ∈ messages, store.messages.get m.id = some (g m)) :
    remaining store messages = messages.map g := by
  unfold remaining
  rw [← List.filterMap_eq_map']
  exact List.filterMap_congr fun m hm => h m hm

def stateAfter (op : Op) (held : ThreadState) : ThreadState :=
  match op with
  | .setSnooze snooze => { held with snooze := snooze }
  | .setPin pin => { held with pin := pin }
  | .setMute mute => { held with mute := mute }
  | .setFollowUp followUp => { held with followUp := followUp }
  | _ => held

/-- Each message is held as `g` gives it, which is what the operation makes of it. -/
def Leaves (op : Op) (messages : List Message) (after : Memory) (g : Message → Message) : Prop :=
  ∀ m ∈ messages, after.messages.get m.id = some (g m) ∧ (g m).Same (op.outcome m)

theorem select_whole (belong : ∀ m ∈ messages, m.thread = id) :
    select (.threads [id]) messages = messages := by
  unfold select
  rw [List.filter_eq_self]
  intro m hm
  simp [belong m hm]

theorem threadTargeted_whole (thread : Thread) (messages : List Message) :
    Op.threadTargeted (.threads [thread.summary.id]) thread messages = true := by
  simp [Op.threadTargeted]

section Left

variable {thread : Thread} {messages : List Message} {store : Memory}

private theorem leaves_sets {op : Op} (sets : op.setsFields = true)
    (belong : ∀ m ∈ messages, m.thread = thread.summary.id)
    (held : ∀ m ∈ messages, store.messages.get m.id = some m) :
    ∃ after g,
      store.writeChanges (op.halves (.threads [thread.summary.id]) thread messages).1 =
        .ok after ∧
      Leaves op messages after g ∧
      after.threads = store.threads := by
  obtain ⟨after, hok, hthreads, hget⟩ :=
    store.writeChanges_sets (Undoes.halves sets _ thread messages).sets_forward
  refine ⟨after, fun m => Registers.putAll m (settingsOf m.id
    (op.halves (.threads [thread.summary.id]) thread messages).1), hok, ?_, hthreads⟩
  intro m hm
  rw [hget, held m hm]
  refine ⟨rfl, by simp [Op.outcome_rest], fun f => ?_⟩
  have hmem : ∀ s, s ∈ settingsOf m.id (op.halves (.threads [thread.summary.id]) thread messages).1
      ↔ s ∈ op.writes m := by
    intro s
    rw [op.mem_settingsOf_forward, select_whole belong]
    constructor
    · rintro ⟨other, hother, hid, hs⟩
      -- One id is held once, so the message written is this one.
      have hsame : other = m := Option.some.inj ((hid ▸ held other hother).symm.trans (held m hm))
      exact hsame ▸ hs
    · exact fun hs => ⟨m, hm, rfl, hs⟩
  refine Registers.get_putAll_congr m hmem ?_ f
  intro s hs t ht hfield
  exact op.writes_functional m s ((hmem s).mp hs) t ((hmem t).mp ht) hfield

private theorem leaves_threadHalves {α : Type} [DecidableEq α] {change : α → Change}
    {write : α → ThreadState → ThreadState} {state : ThreadState} {prior next : α}
    (held : ∀ m ∈ messages, store.messages.get m.id = some m)
    (stored : store.threads.get thread.summary.id = some state)
    (writes : ∀ value, (change value).threadState = some (thread.summary.id, write value))
    (unchanged : prior = next → write next state = state) :
    ∃ after,
      store.writeChanges (Op.threadHalves true change prior next).1 = .ok after ∧
      (∀ m ∈ messages, after.messages.get m.id = some m) ∧
      after.threads.get thread.summary.id = some (write next state) := by
  unfold Op.threadHalves
  by_cases h : prior = next
  · refine ⟨store, ?_, held, ?_⟩
    · simp [h]
    · rw [stored, unchanged h]
  · refine ⟨{ store with threads := store.threads.modify thread.summary.id (write next) },
      ?_, held, ?_⟩
    · rw [if_pos ⟨rfl, h⟩, Memory.writeChanges_cons,
        Memory.writeChange_threadState store (writes next)]
      rfl
    · simp [stored]

/-- The forward changes of an operation leave every message, and the thread's state, as the
operation makes them. -/
theorem leaves_outcome (op : Op) (keeps : op ≠ .destroy)
    (belong : ∀ m ∈ messages, m.thread = thread.summary.id)
    (held : ∀ m ∈ messages, store.messages.get m.id = some m)
    (stored : store.threads.get thread.summary.id = some (.shown thread.summary)) :
    ∃ after g,
      store.writeChanges (op.halves (.threads [thread.summary.id]) thread messages).1 =
        .ok after ∧
      Leaves op messages after g ∧
      after.threads.get thread.summary.id = some (stateAfter op (.shown thread.summary)) := by
  have hfields : op.setsFields = true →
      stateAfter op (.shown thread.summary) = .shown thread.summary →
      ∃ after g,
        store.writeChanges (op.halves (.threads [thread.summary.id]) thread messages).1 =
          .ok after ∧
        Leaves op messages after g ∧
        after.threads.get thread.summary.id = some (stateAfter op (.shown thread.summary)) := by
    intro sets hstate
    obtain ⟨after, g, hok, hleft, hthreads⟩ := leaves_sets sets belong held
    exact ⟨after, g, hok, hleft, by rw [hthreads, stored, hstate]⟩
  have hstate : ∀ {α : Type} [DecidableEq α] (change : α → Change)
      (write : α → ThreadState → ThreadState) (prior next : α),
      (∀ value, (change value).threadState = some (thread.summary.id, write value)) →
      (prior = next → write next (.shown thread.summary) = .shown thread.summary) →
      (∀ m : Message, op.outcome m = m) →
      ∃ after g, store.writeChanges (Op.threadHalves true change prior next).1 = .ok after ∧
        Leaves op messages after g ∧
        after.threads.get thread.summary.id = some (write next (.shown thread.summary)) := by
    intro α _ change write prior next writes unchanged same
    obtain ⟨after, hok, hleft, hthread⟩ := leaves_threadHalves held stored writes unchanged
    refine ⟨after, id, hok, fun m hm => ⟨hleft m hm, ?_⟩, hthread⟩
    rw [same m]
    exact Message.Same.refl m
  cases op with
  | destroy => exact absurd rfl keeps
  | setSnooze snooze =>
    simp only [Op.halves, threadTargeted_whole]
    exact hstate (.threadSnooze thread.summary.id) (fun value held => { held with snooze := value })
      thread.summary.snooze snooze (fun _ => rfl) (fun h => h ▸ rfl) fun _ => rfl
  | setPin pin =>
    simp only [Op.halves, threadTargeted_whole]
    exact hstate (.threadPin thread.summary.id) (fun value held => { held with pin := value })
      thread.summary.pin pin (fun _ => rfl) (fun h => h ▸ rfl) fun _ => rfl
  | setMute mute =>
    simp only [Op.halves, threadTargeted_whole]
    exact hstate (.threadMute thread.summary.id) (fun value held => { held with mute := value })
      thread.summary.mute mute (fun _ => rfl) (fun h => h ▸ rfl) fun _ => rfl
  | setFollowUp followUp =>
    simp only [Op.halves, threadTargeted_whole]
    exact hstate (.threadFollowUp thread.summary.id) (fun value held => { held with followUp := value })
      thread.summary.followUp followUp (fun _ => rfl) (fun h => h ▸ rfl) fun _ => rfl
  | _ => exact hfields rfl rfl

end Left

/-! ## The summary of the messages left -/

private theorem contains_foldl_without (roles : List MailboxRole) (set : MailboxSet)
    (role : MailboxRole) :
    (roles.foldl MailboxSet.without set).contains role =
      (set.contains role && !roles.contains role) := by
  induction roles generalizing set with
  | nil => simp
  | cons head rest ih =>
    rw [List.foldl_cons, ih, MailboxSet.contains_without, List.contains_cons, Bool.not_or,
      Bool.and_assoc]
    rfl

section Derived

variable {op : Op} {order : List Message} {g : Message → Message}

theorem settings_of_same {m : Message} (h : (g m).Same (op.outcome m)) :
    (g m).read = op.readAfter m.read ∧ (g m).star = op.starAfter m.star ∧
      (g m).flag = op.flagAfter m.flag ∧ (g m).mailbox = op.mailboxAfter m.mailbox ∧
      ∀ label, (g m).membership label = op.membershipAfter label (m.membership label) := by
  have hf : ∀ f, (g m).setting f = op.settingAfter m f := fun f =>
    (h.2 f).trans (op.outcome_setting m f)
  refine ⟨?_, ?_, ?_, ?_, fun label => ?_⟩
  · exact Setting.read.inj (hf .read)
  · exact Setting.star.inj (hf .star)
  · exact Setting.flag.inj (hf .flag)
  · exact Setting.mailbox.inj (hf .mailbox)
  · exact (Setting.label.inj (hf (.label label))).2

variable (nonempty : order ≠ []) (same : ∀ m ∈ order, (g m).Same (op.outcome m))

include nonempty same

theorem readOf_outcome :
    ThreadSummary.readOf (order.map g) = op.readAfter (ThreadSummary.readOf order) := by
  have hread : ∀ m ∈ order, (g m).read = op.readAfter m.read := fun m hm =>
    (settings_of_same (same m hm)).1
  obtain ⟨some, hsome⟩ := List.exists_mem_of_ne_nil _ nonempty
  cases op with
  | setRead state =>
    cases state with
    | unread =>
      exact ThreadSummary.readOf_eq_unread.mpr
        ⟨g some, List.mem_map_of_mem hsome, hread some hsome⟩
    | read =>
      have hnot : ThreadSummary.readOf (order.map g) ≠ .unread := by
        rw [Ne, ThreadSummary.readOf_eq_unread]
        rintro ⟨m', hm', hunread⟩
        obtain ⟨m, hm, rfl⟩ := List.mem_map.mp hm'
        rw [hread m hm] at hunread
        cases hunread
      cases h : ThreadSummary.readOf (order.map g) with
      | unread => exact absurd h hnot
      | read => rfl
  | _ => exact ThreadSummary.readOf_map hread

theorem starOf_outcome :
    ThreadSummary.starOf (order.map g) = op.starAfter (ThreadSummary.starOf order) := by
  have hstar : ∀ m ∈ order, (g m).star = op.starAfter m.star := fun m hm =>
    (settings_of_same (same m hm)).2.1
  obtain ⟨some, hsome⟩ := List.exists_mem_of_ne_nil _ nonempty
  cases op with
  | setStar star =>
    cases star with
    | starred =>
      exact ThreadSummary.starOf_eq_starred.mpr
        ⟨g some, List.mem_map_of_mem hsome, hstar some hsome⟩
    | unstarred =>
      have hnot : ThreadSummary.starOf (order.map g) ≠ .starred := by
        rw [Ne, ThreadSummary.starOf_eq_starred]
        rintro ⟨m', hm', hstarred⟩
        obtain ⟨m, hm, rfl⟩ := List.mem_map.mp hm'
        rw [hstar m hm] at hstarred
        cases hstarred
      cases h : ThreadSummary.starOf (order.map g) with
      | starred => exact absurd h hnot
      | unstarred => rfl
  | flag hue =>
    exact ThreadSummary.starOf_eq_starred.mpr
      ⟨g some, List.mem_map_of_mem hsome, hstar some hsome⟩
  | _ => exact ThreadSummary.starOf_map hstar

theorem flagOf_outcome (known : op ≠ .setStar .starred) :
    ThreadSummary.flagOf (order.map g) = op.flagAfter (ThreadSummary.flagOf order) := by
  have hset : ∀ m ∈ order, (g m).star = op.starAfter m.star ∧ (g m).flag = op.flagAfter m.flag :=
    fun m hm =>
      ⟨(settings_of_same (same m hm)).2.1, (settings_of_same (same m hm)).2.2.1⟩
  have hmapped : ∀ m' ∈ order.map g, ∃ m ∈ order, m' = g m := by
    intro m' hm'
    obtain ⟨m, hm, heq⟩ := List.mem_map.mp hm'
    exact ⟨m, hm, heq.symm⟩
  cases op with
  | setStar star =>
    cases star with
    | starred => exact absurd rfl known
    | unstarred =>
      refine ThreadSummary.flagOf_of_unstarred fun m' hm' => ?_
      obtain ⟨m, hm, rfl⟩ := hmapped m' hm'
      exact (hset m hm).1
  | flag hue =>
    refine ThreadSummary.flagOf_of_starred (by simpa using nonempty) fun m' hm' => ?_
    obtain ⟨m, hm, rfl⟩ := hmapped m' hm'
    exact hset m hm
  | _ => exact ThreadSummary.flagOf_map hset

theorem mem_labelsOf_outcome (label : LabelId) :
    label ∈ ThreadSummary.labelsOf (order.map g) ↔
      op.LabelAfter label (label ∈ ThreadSummary.labelsOf order) := by
  have hmember : ∀ m ∈ order, label ∈ (g m).labels ↔
      op.membershipAfter label (m.membership label) = .in := by
    intro m hm
    rw [← Message.membership_eq_in, (settings_of_same (same m hm)).2.2.2.2 label]
  obtain ⟨some, hsome⟩ := List.exists_mem_of_ne_nil _ nonempty
  have hleft : label ∈ ThreadSummary.labelsOf (order.map g) ↔
      ∃ m ∈ order, op.membershipAfter label (m.membership label) = .in := by
    rw [ThreadSummary.mem_labelsOf]
    constructor
    · rintro ⟨m', hm', hl⟩
      obtain ⟨m, hm, rfl⟩ := List.mem_map.mp hm'
      exact ⟨m, hm, (hmember m hm).mp hl⟩
    · rintro ⟨m, hm, hl⟩
      exact ⟨g m, List.mem_map_of_mem hm, (hmember m hm).mpr hl⟩
  have hheld : label ∈ ThreadSummary.labelsOf order ↔ ∃ m ∈ order, m.membership label = .in := by
    simp only [ThreadSummary.mem_labelsOf, Message.membership_eq_in]
  rw [hleft]
  cases op with
  | label other membership =>
    cases membership <;> simp only [Op.membershipAfter, Op.LabelAfter, hheld] <;>
      by_cases h : label = other <;> simp [h]
    exact ⟨some, hsome⟩
  | copy other =>
    simp only [Op.membershipAfter, Op.LabelAfter, hheld]
    by_cases h : label = other <;> simp [h]
    exact ⟨some, hsome⟩
  | file other =>
    simp only [Op.membershipAfter, Op.LabelAfter, hheld]
    by_cases h : label = other <;> simp [h]
    exact ⟨some, hsome⟩
  | _ => exact hheld.symm

theorem mailboxes_outcome :
    MailboxSet.ofList ((order.map g).map Message.mailbox) =
      op.mailboxesAfter (MailboxSet.ofList (order.map Message.mailbox)) := by
  have hmail : ∀ m ∈ order, (g m).mailbox = op.mailboxAfter m.mailbox := fun m hm =>
    (settings_of_same (same m hm)).2.2.2.1
  obtain ⟨some, hsome⟩ := List.exists_mem_of_ne_nil _ nonempty
  have hmap : (order.map g).map Message.mailbox =
      order.map fun m => op.mailboxAfter m.mailbox := by
    rw [List.map_map]
    exact List.map_congr_left hmail
  have honly : ∀ role, (∀ m ∈ order, op.mailboxAfter m.mailbox = role) →
      MailboxSet.ofList ((order.map g).map Message.mailbox) = MailboxSet.only role := by
    intro role hall
    refine MailboxSet.ext_contains fun other => ?_
    rw [hmap, MailboxSet.contains_ofList, MailboxSet.contains_only, decide_eq_decide]
    constructor
    · intro h
      obtain ⟨m, hm, heq⟩ := List.mem_map.mp h
      exact heq ▸ hall m hm
    · rintro rfl
      exact List.mem_map.mpr ⟨some, hsome, hall some hsome⟩
  cases op with
  | archive | file => exact honly .archive fun _ _ => rfl
  | trash => exact honly .trash fun _ _ => rfl
  | spam => exact honly .spam fun _ _ => rfl
  | restore =>
    dsimp only [Op.mailboxesAfter]
    split
    · rename_i haway
      obtain ⟨filed, hfiled, hcontains⟩ := List.any_eq_true.mp haway
      obtain ⟨m, hm, hrole⟩ := ThreadSummary.contains_mailboxes.mp hcontains
      have hback : Op.restore.mailboxAfter m.mailbox = .inbox := by
        simp [Op.mailboxAfter, hrole, hfiled]
      refine MailboxSet.ext_contains fun role => ?_
      rw [hmap, Bool.eq_iff_iff, MailboxSet.contains_ofList, decide_eq_true_iff,
        MailboxSet.contains_insert, contains_foldl_without]
      simp only [List.mem_map, Bool.or_eq_true, Bool.and_eq_true, decide_eq_true_eq,
        MailboxSet.contains_ofList, Bool.not_eq_true']
      constructor
      · rintro ⟨n, hn, rfl⟩
        by_cases hgone : Op.away.contains n.mailbox = true
        · exact Or.inr (by simp only [Op.mailboxAfter, hgone, if_true])
        · refine Or.inl ?_
          simp only [Op.mailboxAfter, hgone, if_false, Bool.false_eq_true]
          exact ⟨⟨n, hn, rfl⟩, trivial⟩
      · rintro (⟨⟨n, hn, rfl⟩, hstays⟩ | rfl)
        · exact ⟨n, hn, by simp only [Op.mailboxAfter, hstays, if_false, Bool.false_eq_true]⟩
        · exact ⟨m, hm, hback⟩
    · rename_i haway
      rw [hmap]
      refine congrArg MailboxSet.ofList (List.map_congr_left fun m hm => ?_)
      have hstays : Op.away.contains m.mailbox = false := by
        rw [Bool.eq_false_iff]
        intro hmem
        refine haway (List.any_eq_true.mpr ⟨m.mailbox, by simpa using hmem, ?_⟩)
        exact ThreadSummary.contains_mailboxes.mpr ⟨m, hm, rfl⟩
      simp only [Op.mailboxAfter, hstays, if_false, Bool.false_eq_true]
  | _ => exact congrArg MailboxSet.ofList hmap

end Derived

/-- The summary of what an operation leaves is the one its preview says, where it says one. -/
theorem derive_outcome [Unicode] (keeps : op ≠ .destroy)
    (same : ∀ m ∈ messages, (g m).Same (op.outcome m)) {summary predicted : ThreadSummary}
    (derived : ThreadSummary.derive id messages summary.snooze summary.pin summary.mute
      summary.followUp = some summary) (h : op.preview summary = .becomes predicted) :
    ∃ left, ThreadSummary.derive id (messages.map g) (stateAfter op (.shown summary)).snooze
        (stateAfter op (.shown summary)).pin (stateAfter op (.shown summary)).mute
        (stateAfter op (.shown summary)).followUp = some left ∧ predicted.Same left := by
  refine ⟨_, ThreadSummary.derive_map derived
    (fun m hm => (same m hm).1.trans (op.outcome_rest m)) _ _ _ _, ?_⟩
  obtain ⟨oldest, newest, holdest, _, hsummary⟩ := ThreadSummary.derive_eq_some derived
  have hne : ThreadSummary.ordered messages ≠ [] := by
    intro hnil
    rw [hnil] at holdest
    cases holdest
  have hsame : ∀ m ∈ ThreadSummary.ordered messages, (g m).Same (op.outcome m) := fun m hm =>
    same m (ThreadSummary.mem_ordered.mp hm)
  have hread := readOf_outcome hne hsame
  have hstar := starOf_outcome hne hsame
  have hflag := flagOf_outcome hne hsame
  have hmail := mailboxes_outcome hne hsame
  have hlabels := mem_labelsOf_outcome hne hsame
  have hfields : summary.read = ThreadSummary.readOf (ThreadSummary.ordered messages) ∧
      summary.star = ThreadSummary.starOf (ThreadSummary.ordered messages) ∧
      summary.flag = ThreadSummary.flagOf (ThreadSummary.ordered messages) ∧
      summary.mailboxes =
        MailboxSet.ofList ((ThreadSummary.ordered messages).map Message.mailbox) ∧
      summary.labels = ThreadSummary.labelsOf (ThreadSummary.ordered messages) :=
    ⟨congrArg _ hsummary, congrArg _ hsummary, congrArg _ hsummary, congrArg _ hsummary,
      congrArg _ hsummary⟩
  obtain ⟨eread, estar, eflag, email, elabels⟩ := hfields
  rw [← eread] at hread
  rw [← estar] at hstar
  rw [← eflag] at hflag
  rw [← email] at hmail
  rw [← elabels] at hlabels
  have hknown : op ≠ .setStar .starred := by
    rintro rfl
    cases h
  unfold ThreadSummary.Same
  rw [hread, hstar, hflag hknown, hmail]
  cases op with
  | destroy => exact absurd rfl keeps
  | setStar star =>
    cases star with
    | starred => exact absurd rfl hknown
    | unstarred =>
      cases h
      exact ⟨rfl, fun label => (hlabels label).symm⟩
  | restore =>
    refine ⟨?_, fun label => ?_⟩ <;> simp only [Op.preview] at h <;> split at h <;> cases h
    · rename_i haway
      rw [show Op.restore.mailboxesAfter summary.mailboxes = _ from if_pos haway]
      rfl
    · rename_i haway
      rw [show Op.restore.mailboxesAfter summary.mailboxes = _ from if_neg haway]
      rfl
    · exact (hlabels label).symm
    · exact (hlabels label).symm
  | label held membership =>
    cases membership <;> cases h <;> refine ⟨rfl, fun label => ?_⟩ <;> rw [hlabels]
    · exact mem_addLabel
    · simp [Op.LabelAfter]
  | copy | file =>
    cases h
    exact ⟨rfl, fun label => mem_addLabel.trans (hlabels label).symm⟩
  | _ =>
    cases h
    exact ⟨rfl, fun label => (hlabels label).symm⟩

theorem writeChanges_deletes (store : Memory) (ids : List MessageId) :
    ∃ after, store.writeChanges (ids.map Change.messageDelete) = .ok after ∧
      ∀ id, after.messages.get id = if id ∈ ids then none else store.messages.get id := by
  induction ids generalizing store with
  | nil => exact ⟨store, rfl, fun _ => by simp⟩
  | cons head rest ih =>
    obtain ⟨after, hok, hget⟩ := ih (store.deleteMessage head)
    refine ⟨after, hok, fun id => ?_⟩
    have hdelete : (store.deleteMessage head).messages.get id =
        if id = head then none else store.messages.get id := by
      unfold Memory.deleteMessage
      split
      · rename_i hnone
        split
        · rename_i heq
          rw [heq, hnone]
        · rfl
      · unfold Memory.dropEmptyThread
        split <;> exact Table.get_erase _ _ _
    rw [hget, hdelete]
    by_cases hid : id = head <;> simp [hid]

theorem remaining_destroy (belong : ∀ m ∈ messages, m.thread = thread.summary.id)
    (held : ∀ m ∈ messages, store.messages.get m.id = some m) :
    ∃ after,
      store.writeChanges (Op.destroy.halves (.threads [thread.summary.id]) thread messages).1 =
        .ok after ∧
      remaining after messages = messages.filter fun m => !Op.goes m.mailbox := by
  obtain ⟨after, hok, hget⟩ := writeChanges_deletes store
    ((messages.filter fun m => m.mailbox = .trash ∨ m.mailbox = .spam).map Message.id)
  refine ⟨after, ?_, ?_⟩
  · simp only [Op.halves, destroy, select_whole belong]
    rwa [List.map_map] at hok
  · unfold remaining
    rw [← List.filterMap_eq_filter]
    refine List.filterMap_congr fun m hm => ?_
    have hgoes : m.id ∈ (messages.filter fun n => n.mailbox = .trash ∨ n.mailbox = .spam).map
        Message.id ↔ Op.goes m.mailbox = true := by
      simp only [List.mem_map, List.mem_filter, Op.goes, Bool.or_eq_true, decide_eq_true_eq]
      constructor
      · rintro ⟨n, ⟨hn, hrole⟩, hid⟩
        have hsame : n = m := Option.some.inj ((hid ▸ held n hn).symm.trans (held m hm))
        exact hsame ▸ hrole
      · exact fun hrole => ⟨m, ⟨hm, hrole⟩, rfl⟩
    rw [hget, held m hm]
    by_cases hrole : Op.goes m.mailbox = true
    · rw [if_pos (hgoes.mpr hrole)]
      simp [hrole, Option.guard]
    · rw [if_neg (mt hgoes.mp hrole)]
      simp [hrole, Option.guard]

theorem forall_roles {order : List Message} {p : MailboxRole → Bool} :
    (MailboxSet.ofList (order.map Message.mailbox)).roles.all p = true ↔
      ∀ m ∈ order, p m.mailbox = true := by
  rw [List.all_eq_true]
  constructor
  · intro h m hm
    exact h m.mailbox (by simpa using ⟨m, hm, rfl⟩)
  · intro h role hrole
    rw [MailboxSet.mem_roles, ThreadSummary.contains_mailboxes] at hrole
    obtain ⟨m, hm, rfl⟩ := hrole
    exact h m hm

/-! ## The agreement -/

/-- What a preview promises: gone exactly when nothing is left, and a summary it says is the one
derived of what is left, its labels compared as sets. -/
structure Agrees [Unicode] (op : Op) (summary : ThreadSummary) (messages : List Message)
    (after : Memory) : Prop where
  gone : op.preview summary = .gone ↔ remaining after messages = []
  becomes : ∀ predicted, op.preview summary = .becomes predicted →
    ∃ state left, after.threads.get summary.id = some state ∧
      ThreadSummary.derive summary.id (remaining after messages) state.snooze state.pin state.mute
        state.followUp = some left ∧ predicted.Same left

private theorem agrees_leaves [Unicode] (keeps : op ≠ .destroy)
    (derived : ThreadSummary.derive thread.summary.id messages thread.summary.snooze
      thread.summary.pin thread.summary.mute thread.summary.followUp = some thread.summary)
    (left : Leaves op messages after g)
    (state : after.threads.get thread.summary.id = some (stateAfter op (.shown thread.summary))) :
    Agrees op thread.summary messages after := by
  have hremaining : remaining after messages = messages.map g :=
    remaining_eq_map fun m hm => (left m hm).1
  have hne : messages ≠ [] := by
    rintro rfl
    cases derived
  constructor
  · rw [hremaining, List.map_eq_nil_iff]
    refine ⟨fun h => ?_, fun h => absurd h hne⟩
    cases op with
    | destroy => exact absurd rfl keeps
    | setStar star => cases star <;> cases h
    | label held membership => cases membership <;> cases h
    | restore =>
      simp only [Op.preview] at h
      split at h <;> cases h
    | _ => cases h
  · intro predicted h
    obtain ⟨summary, hderive, hsame⟩ :=
      derive_outcome keeps (fun m hm => (left m hm).2) derived h
    exact ⟨_, summary, state, hremaining ▸ hderive, hsame⟩

private theorem agrees_destroy [Unicode]
    (derived : ThreadSummary.derive thread.summary.id messages thread.summary.snooze
      thread.summary.pin thread.summary.mute thread.summary.followUp = some thread.summary)
    (left : remaining after messages = messages.filter fun m => !Op.goes m.mailbox)
    (state : (∀ m ∈ messages, Op.goes m.mailbox = false) →
      after.threads.get thread.summary.id = some (.shown thread.summary)) :
    Agrees .destroy thread.summary messages after := by
  obtain ⟨oldest, newest, holdest, _, hsummary⟩ := ThreadSummary.derive_eq_some derived
  have hroles : ∀ p, thread.summary.mailboxes.roles.all p = true ↔
      ∀ m ∈ messages, p m.mailbox = true := by
    intro p
    have hmail : thread.summary.mailboxes = MailboxSet.ofList
        ((ThreadSummary.ordered messages).map Message.mailbox) := congrArg _ hsummary
    rw [hmail, forall_roles]
    simp only [ThreadSummary.mem_ordered]
  have hany : thread.summary.mailboxes.roles.any Op.goes = false ↔
      ∀ m ∈ messages, Op.goes m.mailbox = false := by
    have h := hroles fun role => !Op.goes role
    simpa [List.any_eq_false, List.all_eq_true] using h
  constructor
  · rw [left, List.filter_eq_nil_iff]
    simp only [Op.preview]
    split
    · rename_i hall
      exact ⟨fun _ m hm => by simp [(hroles _).mp hall m hm], fun _ => rfl⟩
    · rename_i hall
      constructor
      · intro h
        split at h <;> cases h
      · intro h
        refine absurd ((hroles _).mpr fun m hm => ?_) hall
        simpa using h m hm
  · intro predicted h
    simp only [Op.preview] at h
    split at h
    · cases h
    · split at h
      · rename_i hnone
        rw [Bool.not_eq_true', hany] at hnone
        cases h
        have hleft : remaining after messages = messages := by
          rw [left, List.filter_eq_self]
          intro m hm
          rw [hnone m hm, Bool.not_false]
        exact ⟨_, thread.summary, state hnone, hleft.symm ▸ derived, .refl _⟩
      · cases h

/-- A preview of a whole conversation agrees with the store: written on a store that holds the
messages, the operation's forward changes leave what the preview says. -/
theorem preview_agrees [Unicode] (op : Op) (thread : Thread) (messages : List Message)
    (caps : AccountCaps) (forwardId inverseId : ChangeId) (store : Memory)
    (belong : ∀ m ∈ messages, m.thread = thread.summary.id)
    (held : ∀ m ∈ messages, store.messages.get m.id = some m)
    (state : store.threads.get thread.summary.id = some (.shown thread.summary))
    (derived : ThreadSummary.derive thread.summary.id messages thread.summary.snooze
      thread.summary.pin thread.summary.mute thread.summary.followUp = some thread.summary) :
    ∃ after,
      store.writeChanges (op.apply (.threads [thread.summary.id]) thread messages caps forwardId
        inverseId).forward.changes = .ok after ∧
      Agrees op thread.summary messages after := by
  by_cases h : op = .destroy
  · subst h
    obtain ⟨after, hok, hleft⟩ := remaining_destroy belong held
    refine ⟨after, hok, agrees_destroy derived hleft fun hnone => ?_⟩
    have hnothing : (Op.destroy.halves (.threads [thread.summary.id]) thread messages).1 = [] := by
      simp only [Op.halves, destroy, select_whole belong, List.map_eq_nil_iff]
      rw [List.filter_eq_nil_iff]
      intro m hm
      simpa [Op.goes] using hnone m hm
    rw [hnothing] at hok
    cases hok
    exact state
  · obtain ⟨after, g, hok, hleft, hstate⟩ := leaves_outcome op h belong held state
    exact ⟨after, hok, agrees_leaves h derived hleft hstate⟩

/-- Archiving a received message and the reply to it. -/
theorem preview_agrees_archive :
    ∃ after,
      pairStore.writeChanges (Op.archive.apply (.threads [⟨1⟩]) pairThread pair
        ⟨.localOnly, .dropInbox, ⟨[]⟩⟩ ⟨1⟩ ⟨2⟩).forward.changes = .ok after ∧
      @Agrees .ascii .archive pairThread.summary pair after :=
  @preview_agrees .ascii .archive pairThread pair ⟨.localOnly, .dropInbox, ⟨[]⟩⟩ ⟨1⟩ ⟨2⟩ pairStore
    (by decide) (by decide) rfl rfl

end Mailo.Store
