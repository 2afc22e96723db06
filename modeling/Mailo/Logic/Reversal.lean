import Mailo.Logic.TakeBack
import Mailo.Store.Sqlite.Outbox

/-!
# What the reverse of an act asks for

One intent carries one state. Where every message an act changed was in one state before it, the
reverse asks the server for all that the act's inverse puts back; else it asks for the largest part.
-/

namespace Mailo.Logic

open Domain Library Store

/-- Every message of an act was in one state before it, and its inverse puts that back. -/
inductive OneWord (inverse : Patch) : RemoteIntent → Prop
  | moved {messages : List MessageId} {role : MailboxRole} (before : MailboxRole)
      (h : ∀ change ∈ inverse.changes, ∃ id, change = .messageMailbox id before) :
      OneWord inverse (.setMailbox messages role)
  | read {messages : List MessageId} {read : Option ReadState} {star : Option Star}
      (before : ReadState) (h : ∀ change ∈ inverse.changes, ∃ id, change = .messageRead id before) :
      OneWord inverse (.setFlags messages read star)
  | starred {messages : List MessageId} {read : Option ReadState} {star : Option Star}
      (before : Star) (h : ∀ change ∈ inverse.changes, ∃ id, change = .messageStar id before) :
      OneWord inverse (.setFlags messages read star)
  | wore {messages : List MessageId} {read : Option ReadState} {star : Option Star} (before : Hue)
      (other : before ≠ .red)
      (h : ∀ change ∈ inverse.changes, ∃ id, .messageFlag id before ∈ inverse.changes ∧
        (change = .messageStar id .starred ∨ change = .messageFlag id before)) :
      OneWord inverse (.setFlags messages read star)
  | unflagged {messages : List MessageId} {hue : Hue}
      (h : ∀ change ∈ inverse.changes, ∃ id ∈ messages,
        change = .messageStar id .unstarred ∨ ∃ before, change = .messageFlag id before)
      (each : ∀ id ∈ messages, .messageStar id .unstarred ∈ inverse.changes) :
      OneWord inverse (.setFlag messages hue)
  | flagged {messages : List MessageId} {hue : Hue} (before : Hue)
      (h : ∀ change ∈ inverse.changes, ∃ id ∈ messages, change = .messageFlag id before)
      (each : ∀ id ∈ messages, .messageFlag id before ∈ inverse.changes) :
      OneWord inverse (.setFlag messages hue)
  | labelled {messages : List MessageId} {add remove : List LabelId} (label : LabelId)
      (membership : Membership)
      (h : ∀ change ∈ inverse.changes, ∃ id, change = .messageLabel id label membership) :
      OneWord inverse (.setLabels messages add remove)

/-- The last word of a list of settings is the setting, or that the message wears no flag, which
leaves no colour to tell. -/
def Tells (settings : List Setting) (setting : Setting) : Prop :=
  Registers.last Message setting.field settings = some setting ∨
    setting.field = .flag ∧ Registers.last Message .star settings = some (.star .unstarred)

instance (settings : List Setting) (setting : Setting) : Decidable (Tells settings setting) :=
  inferInstanceAs (Decidable (_ ∨ _))

/-- An intent asks for what a change sets, whatever the server's addresses are. -/
structure AsksBack (intent : RemoteIntent) (changes : List Change) : Prop where
  each : ∀ change ∈ changes, ∃ message setting, change.setting = some (message, setting) ∧
    message ∈ messagesOf intent ∧ Tells (asksFor intent) setting
  operates : ∀ (store : Sqlite) remotes, store.operationOn remotes intent ≠ none

/-! ## The largest part -/

section Groups

variable {α κ : Type} [DecidableEq κ]

theorem maxByKey_mem {key : α → Nat} {rows : List α} {row : α}
    (h : maxByKey key rows = some row) : row ∈ rows := by
  have hfold : ∀ (f : Option α → α → Option α),
      (∀ best next, f best next = some row → next = row ∨ best = some row) →
      ∀ (rows : List α) best, rows.foldl f best = some row → row ∈ rows ∨ best = some row := by
    intro f hf rows
    induction rows with
    | nil => exact fun _ h => .inr h
    | cons head rest ih =>
      intro best h
      rcases ih _ h with hmem | hbest
      · exact .inl (.tail _ hmem)
      · refine (hf best head hbest).imp_left fun hsame => ?_
        rw [hsame]
        exact .head _
  refine (hfold _ (fun best next hnext => ?_) rows none h).resolve_right (by simp)
  split at hnext
  · exact .inl (Option.some.inj hnext)
  · split at hnext
    · exact .inl (Option.some.inj hnext)
    · exact .inr hnext

theorem maxByKey_ne_none {key : α → Nat} {rows : List α} (h : rows ≠ []) :
    maxByKey key rows ≠ none := by
  have hfold : ∀ (f : Option α → α → Option α), (∀ best next, f best next ≠ none) →
      ∀ (rows : List α) best, (rows = [] → best ≠ none) → rows.foldl f best ≠ none := by
    intro f hf rows
    induction rows with
    | nil => exact fun _ hbest => hbest rfl
    | cons head rest ih => exact fun best _ => ih _ fun _ => hf best head
  refine hfold _ (fun best next => ?_) rows none fun hnil => absurd hnil h
  split
  · simp
  · split <;> simp

/-- Rows all of one state are one group, and that is the largest. -/
theorem maxByKey_groupBy {key : κ × List MessageId → Nat} {states : List κ} {state : κ}
    {rows : List (κ × MessageId)} (known : state ∈ states) (one : ∀ row ∈ rows, row.1 = state)
    (some_row : rows ≠ []) :
    maxByKey key (groupBy states rows) = some (state, rows.map Prod.snd) := by
  have hall : rows.filter (fun row => row.1 = state) = rows :=
    List.filter_eq_self.mpr fun row hrow => by simpa using one row hrow
  have hmem : ∀ group ∈ groupBy states rows, group = (state, rows.map Prod.snd) := by
    intro group hgroup
    obtain ⟨hmade, hne⟩ := List.mem_filter.mp hgroup
    obtain ⟨other, _, rfl⟩ := List.mem_map.mp hmade
    by_cases hsame : other = state
    · rw [hsame, hall]
    · have hnone : rows.filter (fun row => row.1 = other) = [] :=
        List.filter_eq_nil_iff.mpr fun row hrow => by
          simpa [one row hrow] using fun h : state = other => hsame h.symm
      simp [hnone] at hne
  cases hmax : maxByKey key (groupBy states rows) with
  | some group => rw [hmem group (maxByKey_mem hmax)]
  | none =>
    have hgroup : (state, rows.map Prod.snd) ∈ groupBy states rows := by
      refine List.mem_filter.mpr ⟨List.mem_map.mpr ⟨state, known, by rw [hall]⟩, ?_⟩
      simpa using some_row
    exact absurd hmax (maxByKey_ne_none (List.ne_nil_of_mem hgroup))

theorem mem_destutter {α : Type} [DecidableEq α] {a : α} {rows : List α} :
    a ∈ rows.destutter (· ≠ ·) ↔ a ∈ rows := by
  refine ⟨fun h => (List.destutter_sublist _ rows).subset h, fun h => ?_⟩
  have hstart : ∀ (rows : List α) (first : α), a ∈ first :: rows →
      a ∈ rows.destutter' (· ≠ ·) first := by
    intro rows
    induction rows with
    | nil => exact fun _ h => h
    | cons head rest ih =>
      intro first h
      rw [List.destutter'_cons]
      split
      · rcases List.mem_cons.mp h with rfl | h
        · exact .head _
        · exact .tail _ (ih head h)
      · rename_i hsame
        rw [not_not] at hsame
        subst hsame
        refine ih first ?_
        simpa using h
  cases rows with
  | nil => exact absurd h List.not_mem_nil
  | cons head rest => exact hstart rest head h

end Groups

/-! ## One kind of act at a time -/

variable {inverse : Patch}

theorem exists_map {changes : List Change} {put : MessageId → Change}
    (h : ∀ change ∈ changes, ∃ id, change = put id) :
    ∃ ids : List MessageId, changes = ids.map put := by
  induction changes with
  | nil => exact ⟨[], rfl⟩
  | cons change rest ih =>
    obtain ⟨id, rfl⟩ := h change (.head _)
    obtain ⟨ids, hids⟩ := ih fun other hother => h other (.tail _ hother)
    exact ⟨id :: ids, by rw [hids, List.map_cons]⟩

theorem mem_allRoles (role : MailboxRole) : role ∈ allRoles := by
  cases role <;> decide

theorem mem_allHues (hue : Hue) : hue ∈ allHues := by
  cases hue <;> decide

theorem reverseMailbox_one {before : MailboxRole} (some_change : inverse.changes ≠ [])
    (h : ∀ change ∈ inverse.changes, ∃ id, change = .messageMailbox id before) :
    ∃ intent, reverseMailbox inverse = some intent ∧ AsksBack intent inverse.changes := by
  obtain ⟨ids, hids⟩ := exists_map h
  have hne : ids ≠ [] := fun hnil => some_change (by rw [hids, hnil, List.map_nil])
  refine ⟨.setMailbox ids before, ?_, ?_, fun _ _ => by simp [Sqlite.operationOn]⟩
  · unfold reverseMailbox
    rw [hids, List.filterMap_map]
    have hmoved : (ids.map fun id => (before, id)).map Prod.snd = ids := by simp
    change (maxByKey _ (groupBy allRoles (ids.filterMap fun id => some (before, id)))).map _ = _
    rw [List.filterMap_eq_map', maxByKey_groupBy (mem_allRoles before) (by simp) (by simpa using hne),
      Option.map_some, hmoved]
  · rw [hids]
    intro change hchange
    obtain ⟨id, hid, rfl⟩ := List.mem_map.mp hchange
    exact ⟨id, _, rfl, hid, .inl rfl⟩

theorem tells_all {settings : List Setting} {setting : Setting}
    (all : ∀ s ∈ settings, s = setting) (some_setting : settings ≠ []) : Tells settings setting := by
  obtain ⟨first, hfirst⟩ := List.exists_mem_of_ne_nil _ some_setting
  obtain ⟨value, hvalue⟩ := Registers.exists_last (σ := Message) hfirst
  rw [all first hfirst] at hvalue
  refine .inl (hvalue.trans (congrArg some ?_))
  exact all value (Registers.last_eq_some hvalue).1

theorem reverseLabels_one {label : LabelId} {membership : Membership}
    (some_change : inverse.changes ≠ [])
    (h : ∀ change ∈ inverse.changes, ∃ id, change = .messageLabel id label membership) :
    ∃ intent, reverseLabels inverse = some intent ∧ AsksBack intent inverse.changes := by
  obtain ⟨ids, hids⟩ := exists_map h
  have hne : ids ≠ [] := fun hnil => some_change (by rw [hids, hnil, List.map_nil])
  unfold reverseLabels
  rw [hids, List.filterMap_map]
  generalize hrows : ids.filterMap _ = rows
  have hmade : rows = ids.map fun id => (id, label, membership) := by
    rw [← hrows]
    exact congrFun List.filterMap_eq_map' ids
  have hside : ∀ side held, held ∈ ((rows.filter fun row => row.2.2 = side).map
      fun row => row.2.1).eraseDups ↔ held = label ∧ side = membership := by
    intro side held
    obtain ⟨id, hid⟩ := List.exists_mem_of_ne_nil _ hne
    rw [hmade, List.mem_eraseDups]
    simp only [List.mem_map, List.mem_filter, decide_eq_true_eq]
    constructor
    · rintro ⟨_, ⟨⟨other, _, rfl⟩, rfl⟩, rfl⟩
      exact ⟨rfl, rfl⟩
    · rintro ⟨rfl, rfl⟩
      exact ⟨_, ⟨⟨id, hid, rfl⟩, rfl⟩, rfl⟩
  have hnamed : ∀ id, id ∈ (rows.map Prod.fst).destutter (· ≠ ·) ↔ id ∈ ids := by
    intro id
    rw [mem_destutter, hmade]
    simp
  dsimp only
  rw [if_neg]
  · refine ⟨_, rfl, fun change hchange => ?_, fun _ _ => by simp [Sqlite.operationOn]⟩
    obtain ⟨id, hid, rfl⟩ := List.mem_map.mp hchange
    refine ⟨id, _, rfl, (hnamed id).mpr hid, tells_all (fun s hs => ?_) ?_⟩
    · rcases List.mem_append.mp hs with hs | hs
      all_goals
        obtain ⟨held, hheld, rfl⟩ := List.mem_map.mp hs
        obtain ⟨rfl, rfl⟩ := (hside _ held).mp hheld
        rfl
    · have hmem := (hside membership label).mpr ⟨rfl, rfl⟩
      intro hnil
      obtain ⟨hin, hout⟩ := List.append_eq_nil_iff.mp hnil
      cases membership with
      | «in» => rw [List.map_eq_nil_iff.mp hin] at hmem; cases hmem
      | out => rw [List.map_eq_nil_iff.mp hout] at hmem; cases hmem
  · obtain ⟨id, hid⟩ := List.exists_mem_of_ne_nil _ hne
    rw [List.isEmpty_iff]
    exact List.ne_nil_of_mem ((hnamed id).mpr hid)

/-! ## Flags -/

theorem mem_foldl_fresh {ids held : List MessageId} {id : MessageId} :
    id ∈ ids.foldl (fun held id => if held.contains id then held else held ++ [id]) held ↔
      id ∈ held ∨ id ∈ ids := by
  induction ids generalizing held with
  | nil => simp
  | cons first rest ih =>
    rw [List.foldl_cons, ih]
    split
    · rename_i hheld
      rw [List.contains_iff_mem] at hheld
      rw [List.mem_cons]
      constructor
      · exact fun hor => hor.imp_right .inr
      · rintro (hin | rfl | hin)
        · exact .inl hin
        · exact .inl hheld
        · exact .inr hin
    · rw [List.mem_append, List.mem_singleton, List.mem_cons, or_assoc]

/-- An unflagging of what wore no colour but red goes back by its star. -/
theorem recolour_plain (h : ∀ change ∈ inverse.changes, ∀ id hue, change ≠ .messageFlag id hue) :
    recolour inverse = none := by
  unfold recolour
  generalize hcoloured : inverse.changes.filterMap _ = coloured
  have hnone : coloured = [] := by
    rw [← hcoloured, List.filterMap_eq_nil_iff]
    intro change hchange
    split
    · exact absurd rfl (h _ hchange _ _)
    · rfl
  subst hnone
  dsimp only
  generalize hstarred : List.foldl _ _ _ = starred
  by_cases hnil : starred = []
  · rw [hnil]
    rfl
  · rw [maxByKey_groupBy (mem_allHues .red) (by simp) (by simpa using hnil)]
    simp

/-- One that wore another colour goes back by that colour. -/
theorem recolour_one {before : Hue} (other : before ≠ .red) (some_change : inverse.changes ≠ [])
    (h : ∀ change ∈ inverse.changes, ∃ id, .messageFlag id before ∈ inverse.changes ∧
      (change = .messageStar id .starred ∨ change = .messageFlag id before)) :
    ∃ ids, recolour inverse = some (.setFlag ids before) ∧
      ∀ id, .messageFlag id before ∈ inverse.changes → id ∈ ids := by
  unfold recolour
  generalize hcoloured : inverse.changes.filterMap _ = coloured
  have hmem : ∀ row, row ∈ coloured ↔
      row.2 = before ∧ .messageFlag row.1 before ∈ inverse.changes := by
    rintro ⟨id, hue⟩
    rw [← hcoloured, List.mem_filterMap]
    constructor
    · rintro ⟨change, hchange, hsome⟩
      split at hsome <;> cases hsome
      obtain ⟨_, hheld, hstar | hflag⟩ := h _ hchange
      · cases hstar
      · cases hflag
        exact ⟨rfl, hheld⟩
    · rintro ⟨rfl, hchange⟩
      exact ⟨_, hchange, rfl⟩
  dsimp only
  generalize hflagged : inverse.changes.filterMap _ = flagged
  have hstar : ∀ id ∈ flagged, .messageFlag id before ∈ inverse.changes := by
    intro id hid
    rw [← hflagged, List.mem_filterMap] at hid
    obtain ⟨change, hchange, hsome⟩ := hid
    split at hsome <;> cases hsome
    obtain ⟨_, hheld, hstar | hflag⟩ := h _ hchange
    · cases hstar
      exact hheld
    · cases hflag
  generalize hkeys : List.insertionSort (fun a b : MessageId => a.raw ≤ b.raw) _ = keys
  have hkey : ∀ id, id ∈ keys ↔ .messageFlag id before ∈ inverse.changes := by
    intro id
    rw [← hkeys, List.mem_insertionSort, List.mem_eraseDups, List.mem_map]
    constructor
    · rintro ⟨row, hrow, rfl⟩
      exact ((hmem row).mp hrow).2
    · exact fun hheld => ⟨(id, before), (hmem _).mpr ⟨rfl, hheld⟩, rfl⟩
  generalize hstarred : List.foldl _ _ _ = starred
  have hin : ∀ id, id ∈ starred ↔ .messageFlag id before ∈ inverse.changes := by
    intro id
    rw [← hstarred, mem_foldl_fresh, hkey]
    exact ⟨fun hor => hor.elim (hstar id) fun hheld => hheld, .inr⟩
  have hwore : ∀ id ∈ starred,
      (((coloured.reverse.find? fun row => row.1 = id).map Prod.snd).getD .red) = before := by
    intro id hid
    cases hfind : coloured.reverse.find? fun row => row.1 = id with
    | none =>
      have hrow := (hmem (id, before)).mpr ⟨rfl, (hin id).mp hid⟩
      have hdiffers := List.find?_eq_none.mp hfind _ (List.mem_reverse.mpr hrow)
      exact absurd (decide_eq_true rfl) hdiffers
    | some row =>
      exact ((hmem row).mp (List.mem_reverse.mp (List.mem_of_find?_eq_some hfind))).1
  have hne : starred ≠ [] := by
    obtain ⟨change, hchange⟩ := List.exists_mem_of_ne_nil _ some_change
    obtain ⟨id, hheld, _⟩ := h change hchange
    exact List.ne_nil_of_mem ((hin id).mpr hheld)
  refine ⟨starred, ?_, fun id hheld => (hin id).mpr hheld⟩
  rw [maxByKey_groupBy (mem_allHues before) (fun row hrow => ?_) (by simpa using hne)]
  · simp [other, Function.comp_def]
  · obtain ⟨id, hid, rfl⟩ := List.mem_map.mp hrow
    exact hwore id hid

theorem asksBack_setFlags {ids : List MessageId} {read : Option ReadState} {star : Option Star}
    {setting : Setting} {put : MessageId → Change} (some_id : ids ≠ [])
    (hput : ∀ id, (put id).setting = some (id, setting))
    (asks : asksFor (.setFlags [] read star) = [setting]) :
    ∃ intent, (if (ids.destutter (· ≠ ·)).isEmpty then none
        else some (RemoteIntent.setFlags (ids.destutter (· ≠ ·)) read star)) = some intent ∧
      AsksBack intent (ids.map put) := by
  refine ⟨.setFlags (ids.destutter (· ≠ ·)) read star, if_neg ?_, fun change hchange => ?_,
    fun _ _ => by simp [Sqlite.operationOn]⟩
  · rw [List.isEmpty_iff, List.destutter_eq_nil]
    exact some_id
  · obtain ⟨id, hid, rfl⟩ := List.mem_map.mp hchange
    refine ⟨id, setting, hput id, mem_destutter.mpr hid, .inl ?_⟩
    change Registers.last Message setting.field (asksFor (.setFlags [] read star)) = _
    rw [asks, Registers.last_singleton]
    exact if_pos rfl

/-- One flag of each message was one value before. -/
theorem reverseFlags_same {put : MessageId → Change} (some_change : inverse.changes ≠ [])
    (kind : (∃ before, put = fun id => .messageRead id before) ∨
      ∃ before, put = fun id => .messageStar id before)
    (h : ∀ change ∈ inverse.changes, ∃ id, change = put id) :
    ∃ intent, reverseFlags inverse = some intent ∧ AsksBack intent inverse.changes := by
  obtain ⟨ids, hids⟩ := exists_map h
  have hne : ids ≠ [] := fun hnil => some_change (by rw [hids, hnil, List.map_nil])
  have hlast : ids.getLast? = some (ids.getLast hne) := List.getLast?_eq_getLast_of_ne_nil hne
  unfold reverseFlags
  rw [recolour_plain fun change hchange id hue => ?_]
  · rw [hids]
    obtain ⟨before, rfl⟩ | ⟨before, rfl⟩ := kind
    all_goals
      simp only [List.filterMap_map, Function.comp_def, List.filterMap_some,
        List.filterMap_eq_map', List.getLast?_map, hlast, Option.map_some, List.filterMap_none,
        List.getLast?_nil]
      exact asksBack_setFlags hne (fun _ => rfl) rfl
  · obtain ⟨other, rfl⟩ := h change hchange
    obtain ⟨before, rfl⟩ | ⟨before, rfl⟩ := kind <;> exact nofun

theorem reverseFlags_wore {before : Hue} (other : before ≠ .red) (some_change : inverse.changes ≠ [])
    (h : ∀ change ∈ inverse.changes, ∃ id, .messageFlag id before ∈ inverse.changes ∧
      (change = .messageStar id .starred ∨ change = .messageFlag id before)) :
    ∃ intent, reverseFlags inverse = some intent ∧ AsksBack intent inverse.changes := by
  obtain ⟨ids, hrecolour, hids⟩ := recolour_one other some_change h
  refine ⟨.setFlag ids before, ?_, fun change hchange => ?_, fun _ _ => by simp [Sqlite.operationOn]⟩
  · unfold reverseFlags
    rw [hrecolour]
  · obtain ⟨id, hheld, rfl | rfl⟩ := h change hchange
    · exact ⟨id, _, rfl, hids id hheld, .inl rfl⟩
    · exact ⟨id, _, rfl, hids id hheld, .inl rfl⟩

/-- Every message flagged was in one state before: the reverse of the flag names them all. -/
theorem reverseFlag_one {messages : List MessageId} {hue : Hue} (state : Option Hue)
    (some_message : messages ≠ [])
    (one : ∀ message ∈ messages,
      (if inverse.changes.any (fun change =>
          match change with
          | .messageStar id .unstarred => id = message
          | _ => false) then none
        else some ((inverse.changes.findSome? fun change =>
          match change with
          | .messageFlag id before => if id = message then some before else none
          | _ => none).getD hue)) = state) :
    reverseFlag messages hue inverse = some (match state with
      | some before => .setFlag messages before
      | none => .setFlags messages none (some .unstarred)) := by
  unfold reverseFlag
  dsimp only
  have known : state ∈ none :: allHues.map some := by
    cases state with
    | none => exact .head _
    | some before => exact .tail _ (List.mem_map_of_mem (mem_allHues before))
  rw [maxByKey_groupBy known (fun row hrow => ?_) (by simpa using some_message)]
  · cases state <;> simp [Function.comp_def]
  · obtain ⟨message, hmessage, rfl⟩ := List.mem_map.mp hrow
    exact one message hmessage

theorem reverseFlag_unflagged {messages : List MessageId} {hue : Hue}
    (some_change : inverse.changes ≠ [])
    (h : ∀ change ∈ inverse.changes, ∃ id ∈ messages,
      change = .messageStar id .unstarred ∨ ∃ before, change = .messageFlag id before)
    (each : ∀ id ∈ messages, .messageStar id .unstarred ∈ inverse.changes) :
    ∃ intent, reverseFlag messages hue inverse = some intent ∧ AsksBack intent inverse.changes := by
  have hne : messages ≠ [] := by
    obtain ⟨change, hchange⟩ := List.exists_mem_of_ne_nil _ some_change
    obtain ⟨id, hid, _⟩ := h change hchange
    exact List.ne_nil_of_mem hid
  refine ⟨_, reverseFlag_one none hne fun message hmessage => if_pos ?_,
    fun change hchange => ?_, fun _ _ => by simp [Sqlite.operationOn]⟩
  · exact List.any_eq_true.mpr ⟨_, each message hmessage, by simp⟩
  · obtain ⟨id, hid, rfl | ⟨before, rfl⟩⟩ := h change hchange
    · exact ⟨id, _, rfl, hid, .inl rfl⟩
    · exact ⟨id, _, rfl, hid, .inr ⟨rfl, rfl⟩⟩

theorem reverseFlag_flagged {messages : List MessageId} {hue before : Hue}
    (some_change : inverse.changes ≠ [])
    (h : ∀ change ∈ inverse.changes, ∃ id ∈ messages, change = .messageFlag id before)
    (each : ∀ id ∈ messages, .messageFlag id before ∈ inverse.changes) :
    ∃ intent, reverseFlag messages hue inverse = some intent ∧ AsksBack intent inverse.changes := by
  have hne : messages ≠ [] := by
    obtain ⟨change, hchange⟩ := List.exists_mem_of_ne_nil _ some_change
    obtain ⟨id, hid, _⟩ := h change hchange
    exact List.ne_nil_of_mem hid
  refine ⟨_, reverseFlag_one (some before) hne fun message hmessage => ?_,
    fun change hchange => ?_, fun _ _ => by simp [Sqlite.operationOn]⟩
  · rw [if_neg]
    · congr 1
      generalize hwas : inverse.changes.findSome? _ = was
      cases was with
      | none =>
        have hnone := List.findSome?_eq_none_iff.mp hwas _ (each message hmessage)
        simp at hnone
      | some found =>
        obtain ⟨change, hchange, hfound⟩ := List.exists_of_findSome?_eq_some hwas
        obtain ⟨id, _, rfl⟩ := h change hchange
        dsimp only at hfound
        split at hfound <;> cases hfound
        rfl
    · rw [List.any_eq_true]
      rintro ⟨change, hchange, hstar⟩
      obtain ⟨id, _, rfl⟩ := h change hchange
      cases hstar
  · obtain ⟨id, hid, rfl⟩ := h change hchange
    exact ⟨id, _, rfl, hid, .inl rfl⟩

/-- Where an act found all it changed in one state, its reverse asks for all that is put back. -/
theorem reverseIntent_asksBack {remote : RemoteIntent} (h : OneWord inverse remote)
    (some_change : inverse.changes ≠ []) :
    ∃ intent, reverseIntent remote inverse = some intent ∧ AsksBack intent inverse.changes := by
  cases h with
  | moved before h => exact reverseMailbox_one some_change h
  | read before h => exact reverseFlags_same some_change (.inl ⟨before, rfl⟩) h
  | starred before h => exact reverseFlags_same some_change (.inr ⟨before, rfl⟩) h
  | wore before other h => exact reverseFlags_wore other some_change h
  | unflagged h each => exact reverseFlag_unflagged some_change h each
  | flagged before h each => exact reverseFlag_flagged some_change h each
  | labelled label membership h => exact reverseLabels_one some_change h

end Mailo.Logic
