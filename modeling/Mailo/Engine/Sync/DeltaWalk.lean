import Mailo.Engine.Sync.Graph

/-!
# What is held after a walk

The addresses and the flags held of a folder are what the walk up to the stored link comes to,
as long as each pass takes out only what its pages left out.
-/

namespace Mailo.Engine.Graph

open Domain Library Runtime.Graph

variable {keyOf : String → MessageKey}

/-! ## What one pass writes -/

namespace Rows

def Addressed (keyOf : String → MessageKey) (rows : Rows) : Prop :=
  ∀ id key, rows.remotes.get id = some key →
    key = keyOf id ∧ ∃ flags, rows.messages.get key = some flags

variable {id : String} {key : MessageKey}

variable {rows : Rows}

theorem held_eq (h : rows.remotes.get id = some key) :
    rows.held id = rows.messages.get key := by
  rw [held, h]
  rfl

theorem held_none (addressed : rows.Addressed keyOf) :
    rows.held id = none ↔ rows.remotes.get id = none := by
  cases hget : rows.remotes.get id with
  | none => simp [held, hget]
  | some key =>
    obtain ⟨_, flags, hflags⟩ := addressed id key hget
    simp [held, hget, hflags]

theorem held_isSome (addressed : rows.Addressed keyOf) (id : String) :
    (rows.held id).isSome = (rows.remotes.get id).isSome := by
  cases hget : rows.remotes.get id with
  | none =>
    rw [(held_none addressed).mpr hget]
    rfl
  | some key =>
    obtain ⟨_, flags, hflags⟩ := addressed id key hget
    rw [held_eq hget, hflags]
    rfl

theorem reset_addressed (rows : Rows) : rows.reset.Addressed keyOf := by
  intro id key h
  cases h

theorem absorb_remotes (rows : Rows) (ids : List String) (id : String) :
    (ids.foldl (absorb keyOf) rows).remotes.get id =
      if id ∈ ids then some (keyOf id) else rows.remotes.get id := by
  induction ids generalizing rows with
  | nil => rfl
  | cons head rest ih =>
    rw [List.foldl_cons, ih]
    show (if id ∈ rest then _ else (rows.remotes.set head (keyOf head)).get id) = _
    rw [Table.get_set]
    by_cases hrest : id ∈ rest
    · simp [hrest]
    · by_cases hhead : id = head
      · simp [hhead]
      · simp [hrest, hhead]

theorem absorb_messages {flags : Flags} (ids : List String)
    (h : rows.messages.get key = some flags) :
    (ids.foldl (absorb keyOf) rows).messages.get key = some flags := by
  induction ids generalizing rows with
  | nil => exact h
  | cons head rest ih =>
    rw [List.foldl_cons]
    refine ih ?_
    show (rows.messages.insertNew (keyOf head) _).get key = some flags
    rw [Table.get_insertNew]
    split
    · rename_i heq
      rw [← heq, h]
      rfl
    · exact h

theorem absorb_addressed (addressed : rows.Addressed keyOf) (ids : List String) :
    (ids.foldl (absorb keyOf) rows).Addressed keyOf := by
  induction ids generalizing rows with
  | nil => exact addressed
  | cons head rest ih =>
    rw [List.foldl_cons]
    refine ih fun id key h => ?_
    change (rows.remotes.set head (keyOf head)).get id = some key at h
    show _ ∧ ∃ flags, (rows.messages.insertNew (keyOf head) _).get key = some flags
    rw [Table.get_set] at h
    rw [Table.get_insertNew]
    split at h
    · rename_i heq
      cases h
      exact ⟨by rw [heq], _, if_pos rfl⟩
    · obtain ⟨hkey, flags, hflags⟩ := addressed id key h
      refine ⟨hkey, ?_⟩
      split
      · exact ⟨_, rfl⟩
      · exact ⟨flags, hflags⟩

theorem flag_remotes (rows : Rows) (entries : List (String × Flags)) :
    (entries.foldl flag rows).remotes = rows.remotes := by
  induction entries generalizing rows with
  | nil => rfl
  | cons head rest ih =>
    rw [List.foldl_cons, ih]
    unfold flag
    split <;> rfl

/-- The entries by the message each is of. -/
def keyed (keyOf : String → MessageKey) (entries : List (String × Flags)) :
    List (MessageKey × Flags) :=
  entries.map fun entry => (keyOf entry.1, entry.2)

theorem flag_messages (addressed : rows.Addressed keyOf) {entries : List (String × Flags)}
    (mapped : ∀ entry ∈ entries, ∃ key, rows.remotes.get entry.1 = some key) {flags : Flags}
    (h : rows.messages.get key = some flags) :
    (entries.foldl flag rows).messages.get key =
      some ((Said.lastOf key (keyed keyOf entries)).getD flags) := by
  induction entries using List.reverseRecOn with
  | nil => exact h
  | append_singleton rest entry ih =>
    have hrest := ih fun each heach => mapped each (List.mem_append_left _ heach)
    obtain ⟨other, hother⟩ := mapped entry (List.mem_append_right _ (.head _))
    have hmapped : (rest.foldl flag rows).remotes.get entry.1 = some other := by
      rw [flag_remotes, hother]
    rw [List.foldl_append, keyed, List.map_append, List.map_cons, List.map_nil,
      Said.lastOf_concat, ← (addressed entry.1 other hother).1]
    show (flag (rest.foldl flag rows) entry).messages.get key = _
    rw [flag, hmapped]
    rw [Table.get_modify]
    by_cases heq : key = other
    · rw [if_pos heq, if_pos heq.symm, hrest]
      rfl
    · rw [if_neg heq, if_neg (Ne.symm heq)]
      exact hrest

theorem flag_addressed (addressed : rows.Addressed keyOf) (entries : List (String × Flags)) :
    (entries.foldl flag rows).Addressed keyOf := by
  induction entries generalizing rows with
  | nil => exact addressed
  | cons head rest ih =>
    rw [List.foldl_cons]
    refine ih ?_
    unfold flag
    split
    · exact addressed
    · rename_i other hother
      intro id key h
      obtain ⟨hkey, flags, hflags⟩ := addressed id key h
      refine ⟨hkey, ?_⟩
      rw [Table.get_modify]
      split
      · exact ⟨head.2, by rw [hflags]; rfl⟩
      · exact ⟨flags, hflags⟩

/-- An address that leaves takes only itself out, and its message where that has no other. -/
theorem leave_get (rows : Rows) (gone id : String) :
    (rows.leave gone).remotes.get id = if id = gone then none else rows.remotes.get id := by
  unfold leave
  split
  · rename_i hnone
    split
    · rename_i heq
      rw [heq, hnone]
    · rfl
  · rename_i key hkey
    have herase : (rows.remotes.erase gone).get id = if id = gone then none
        else rows.remotes.get id := Table.get_erase _ _ _
    dsimp only
    split <;> exact herase

theorem leave_messages (rows : Rows) {gone : String} (hne : id ≠ gone)
    (h : rows.remotes.get id = some key) :
    (rows.leave gone).messages.get key = rows.messages.get key := by
  unfold leave
  split
  · rfl
  · rename_i other hother
    dsimp only
    split
    · rfl
    · rename_i hlast
      have hstays : (rows.remotes.erase gone).get id = some key := by
        rw [Table.get_erase, if_neg hne, h]
      have hmem : key ∈ (rows.remotes.erase gone).values :=
        List.mem_map_of_mem (f := Prod.snd) (Table.mem_rows.mpr hstays)
      have hother : key ≠ other := fun heq => by
        rw [heq] at hmem
        exact hlast (by simp [hmem])
      rw [Table.get_erase, if_neg hother]

theorem leave_all_get (rows : Rows) (gone : List String) (id : String) :
    (gone.foldl leave rows).remotes.get id = if id ∈ gone then none else rows.remotes.get id := by
  induction gone generalizing rows with
  | nil => rfl
  | cons head rest ih =>
    rw [List.foldl_cons, ih, leave_get]
    by_cases hrest : id ∈ rest
    · simp [hrest]
    · by_cases hhead : id = head
      · simp [hhead]
      · simp [hrest, hhead]

theorem leave_all_messages (rows : Rows) {gone : List String} (hne : id ∉ gone)
    (h : rows.remotes.get id = some key) :
    (gone.foldl leave rows).messages.get key = rows.messages.get key := by
  induction gone generalizing rows with
  | nil => rfl
  | cons head rest ih =>
    rw [List.mem_cons, not_or] at hne
    rw [List.foldl_cons, ih _ hne.2 (by rw [leave_get, if_neg hne.1, h]),
      leave_messages rows hne.1 h]

theorem leave_addressed (addressed : rows.Addressed keyOf) (gone : List String) :
    (gone.foldl leave rows).Addressed keyOf := by
  intro id key h
  rw [leave_all_get] at h
  split at h
  · cases h
  · rename_i hne
    obtain ⟨hkey, flags, hflags⟩ := addressed id key h
    exact ⟨hkey, flags, by rw [leave_all_messages rows hne h, hflags]⟩

end Rows

/-! ## A whole walk, kept -/

/-- A walk holds what its pages have said since it began, or started over. -/
structure Gathered (log : List Entry) (walk : Walk) : Prop where
  flags : walk.flags = Said.puts log
  gone : walk.gone = Said.drops log
  described : walk.described = (Said.puts log).map Prod.fst

/-- No message the pages removed is in the folder at their end. -/
def Removed (base : Folder) (log : List Entry) : Prop :=
  ∀ id ∈ Said.drops log, Said.tellAll base log id = none

/-- Of the addresses that the pages describe of one message, the one described last is as the
message is at each address where it stays. -/
def Agree (keyOf : String → MessageKey) (base : Folder) (log : List Entry) : Prop :=
  ∀ id flags, Said.tellAll base log id = some flags →
    ∀ said, Said.lastOf (keyOf id) (Rows.keyed keyOf (Said.puts log)) = some said → said = flags

theorem lastOf_keyed (inj : Function.Injective keyOf) (id : String)
    (entries : List (String × Flags)) :
    Said.lastOf (keyOf id) (Rows.keyed keyOf entries) = Said.lastOf id entries := by
  induction entries using List.reverseRecOn with
  | nil => rfl
  | append_singleton rest entry ih =>
    rw [Rows.keyed, List.map_append, List.map_cons, List.map_nil, Said.lastOf_concat,
      Said.lastOf_concat]
    by_cases heq : entry.1 = id
    · rw [if_pos heq, if_pos (congrArg keyOf heq)]
    · rw [if_neg heq, if_neg fun h => heq (inj h)]
      exact ih

/-- Where no two addresses are of one message, there is nothing to agree on. -/
theorem agree_of_injective (inj : Function.Injective keyOf) {base : Folder} {log : List Entry}
    (removed : Removed base log) : Agree keyOf base log := by
  intro id flags htell said hsaid
  rw [lastOf_keyed inj] at hsaid
  by_cases hdrop : id ∈ Said.drops log
  · rw [removed id hdrop] at htell
    cases htell
  · rw [Said.tellAll_eq hdrop, hsaid] at htell
    exact Option.some.inj htell

section Keep

variable {rows : Rows} {base : Folder} {log : List Entry} {walk : Walk}

/-- The rows as the walk found them, every address gone where it started over. -/
def opened (rows : Rows) (walk : Walk) : Rows :=
  if walk.validity = .reset then rows.reset else rows

theorem opened_addressed (addressed : rows.Addressed keyOf) (walk : Walk) :
    (opened rows walk).Addressed keyOf := by
  unfold opened
  split
  · exact Rows.reset_addressed rows
  · exact addressed

/-- The rows once the messages new to the folder are kept. -/
def arrived (keyOf : String → MessageKey) (rows : Rows) (walk : Walk) : Rows :=
  (walk.described.filter fun id => !(opened rows walk).remotes.contains id).foldl
    (Rows.absorb keyOf) (opened rows walk)

theorem arrived_addressed (addressed : rows.Addressed keyOf) (walk : Walk) :
    (arrived keyOf rows walk).Addressed keyOf :=
  Rows.absorb_addressed (opened_addressed addressed walk) _

theorem arrived_remotes (addressed : rows.Addressed keyOf) (walk : Walk) (id : String) :
    (arrived keyOf rows walk).remotes.get id =
      if id ∈ walk.described then some (keyOf id) else (opened rows walk).remotes.get id := by
  unfold arrived
  rw [Rows.absorb_remotes]
  cases hheld : (opened rows walk).remotes.get id with
  | none => simp [List.mem_filter, Table.contains, hheld]
  | some key =>
    obtain ⟨hkey, _⟩ := opened_addressed addressed walk id key hheld
    simp [List.mem_filter, Table.contains, hheld, hkey]

/-- A walk that said nothing leaves the rows, its cursor apart, as one that wrote it all. -/
theorem keep_eq (walk : Walk) : rows.keep keyOf walk =
    if walk.flags.isEmpty && walk.gone.isEmpty && walk.cursor = (arrived keyOf rows walk).cursor
    then arrived keyOf rows walk
    else (walk.gone.foldl Rows.leave (walk.flags.foldl Rows.flag
      (arrived keyOf rows walk))).setCursor walk.cursor := rfl

theorem setCursor_rows (rows : Rows) (cursor : Option String) :
    (rows.setCursor cursor).remotes = rows.remotes ∧
      (rows.setCursor cursor).messages = rows.messages := by
  cases cursor <;> exact ⟨rfl, rfl⟩

/-- A walk that names a link stores it. -/
theorem keep_cursor {link : String} (h : walk.cursor = some link) :
    (rows.keep keyOf walk).cursor = some link := by
  rw [keep_eq]
  split
  · rename_i hnothing
    simp only [Bool.and_eq_true, decide_eq_true_eq] at hnothing
    rw [← hnothing.2, h]
  · rw [h]
    rfl

/-- What a kept walk leaves under each address. -/
theorem keep_rows (walk : Walk) :
    (rows.keep keyOf walk).remotes = (walk.gone.foldl Rows.leave (walk.flags.foldl Rows.flag
      (arrived keyOf rows walk))).remotes ∧
    (rows.keep keyOf walk).messages = (walk.gone.foldl Rows.leave (walk.flags.foldl Rows.flag
      (arrived keyOf rows walk))).messages := by
  rw [keep_eq]
  split
  · rename_i hnothing
    simp only [Bool.and_eq_true, List.isEmpty_iff] at hnothing
    rw [hnothing.1.1, hnothing.1.2]
    exact ⟨rfl, rfl⟩
  · exact setCursor_rows _ _

theorem keep_remotes (addressed : rows.Addressed keyOf) (walk : Walk) (id : String) :
    (rows.keep keyOf walk).remotes.get id =
      if id ∈ walk.gone then none
      else if id ∈ walk.described then some (keyOf id)
      else (opened rows walk).remotes.get id := by
  rw [(keep_rows walk).1, Rows.leave_all_get, Rows.flag_remotes, arrived_remotes addressed]

theorem keep_addressed (addressed : rows.Addressed keyOf) (walk : Walk) :
    (rows.keep keyOf walk).Addressed keyOf := by
  have h := Rows.leave_addressed (Rows.flag_addressed (arrived_addressed addressed walk) walk.flags)
    walk.gone
  intro id key hget
  rw [(keep_rows walk).1] at hget
  rw [(keep_rows walk).2]
  exact h id key hget

/-- The addresses held after a pass are the messages its walk comes to exactly where no message it
removed is one of them. -/
theorem keep_exact (addressed : rows.Addressed keyOf) (gathered : Gathered log walk)
    (began : ∀ id, ((opened rows walk).held id).isSome = (base id).isSome) :
    (∀ id, ((rows.keep keyOf walk).held id).isSome = (Said.tellAll base log id).isSome) ↔
      Removed base log := by
  have hbase : ∀ id, ((opened rows walk).remotes.get id).isSome = (base id).isSome := fun id => by
    rw [← began, Rows.held_isSome (opened_addressed addressed walk)]
  simp only [Rows.held_isSome (keep_addressed addressed walk)]
  have hother : ∀ id, id ∉ Said.drops log →
      ((rows.keep keyOf walk).remotes.get id).isSome = (Said.tellAll base log id).isSome := by
    intro id hid
    rw [keep_remotes addressed, if_neg (by rw [gathered.gone]; exact hid), Said.tellAll_eq hid,
      gathered.described]
    cases hlast : Said.lastOf id (Said.puts log) with
    | none =>
      rw [if_neg (Said.lastOf_eq_none.mp hlast), hbase]
      rfl
    | some flags =>
      rw [if_pos (by
        by_contra hmem
        rw [Said.lastOf_eq_none.mpr hmem] at hlast
        cases hlast)]
      rfl
  constructor
  · intro h id hid
    have hsame := h id
    rw [keep_remotes addressed, if_pos (by rw [gathered.gone]; exact hid)] at hsame
    exact Option.isNone_iff_eq_none.mp (by rw [← Option.not_isSome, ← hsame]; rfl)
  · intro h id
    by_cases hid : id ∈ Said.drops log
    · rw [keep_remotes addressed, if_pos (by rw [gathered.gone]; exact hid), h id hid]
      rfl
    · exact hother id hid

/-- What is held after a careful pass is what its walk comes to. -/
theorem keep_held (addressed : rows.Addressed keyOf) (gathered : Gathered log walk)
    (began : (opened rows walk).held = base) (removed : Removed base log)
    (agree : Agree keyOf base log) :
    (rows.keep keyOf walk).held = Said.tellAll base log := by
  funext id
  have hexact := (keep_exact addressed gathered fun id => by rw [began]).mpr removed id
  rw [Rows.held_isSome (keep_addressed addressed walk)] at hexact
  cases hget : (rows.keep keyOf walk).remotes.get id with
  | none =>
    rw [hget] at hexact
    rw [(Rows.held_none (keep_addressed addressed walk)).mpr hget]
    exact (Option.isNone_iff_eq_none.mp (by rw [← Option.not_isSome, ← hexact]; rfl)).symm
  | some key =>
    rw [hget] at hexact
    obtain ⟨flags, hflags⟩ := Option.isSome_iff_exists.mp hexact.symm
    have hgone : id ∉ walk.gone := fun hid => by
      rw [keep_remotes addressed, if_pos hid] at hget
      cases hget
    have hdrops : id ∉ Said.drops log := by rw [← gathered.gone]; exact hgone
    rw [Rows.held_eq hget, hflags, (keep_rows walk).2]
    rw [keep_remotes addressed, if_neg hgone] at hget
    have harrived : (arrived keyOf rows walk).remotes.get id = some key := by
      rw [arrived_remotes addressed]
      exact hget
    obtain ⟨hkey, before, hbefore⟩ := arrived_addressed addressed walk id key harrived
    have hmapped : ∀ entry ∈ walk.flags,
        ∃ key, (arrived keyOf rows walk).remotes.get entry.1 = some key := by
      intro entry hentry
      refine ⟨keyOf entry.1, ?_⟩
      rw [arrived_remotes addressed, if_pos]
      rw [gathered.described, ← gathered.flags]
      exact List.mem_map_of_mem (f := Prod.fst) hentry
    rw [Rows.leave_all_messages _ hgone (by rw [Rows.flag_remotes]; exact harrived),
      Rows.flag_messages (arrived_addressed addressed walk) hmapped hbefore, gathered.flags, hkey]
    cases hlast : Said.lastOf (keyOf id) (Rows.keyed keyOf (Said.puts log)) with
    | some said =>
      rw [agree id flags hflags said hlast]
      rfl
    | none =>
      -- Nothing was said of the message, so it is as it was held before.
      have hnever : id ∉ (Said.puts log).map Prod.fst := fun hmem => by
        refine Said.lastOf_eq_none.mp hlast ?_
        obtain ⟨entry, hentry, rfl⟩ := List.mem_map.mp hmem
        exact List.mem_map.mpr ⟨_, List.mem_map_of_mem hentry, rfl⟩
      rw [Said.tellAll_eq hdrops, Said.lastOf_eq_none.mpr hnever, Option.none_or,
        ← began] at hflags
      rw [if_neg (by rw [gathered.described]; exact hnever)] at hget
      rw [Rows.held_eq hget] at hflags
      have hsame : (arrived keyOf rows walk).messages.get key = some flags :=
        Rows.absorb_messages _ hflags
      rw [hsame] at hbefore
      cases hbefore
      rfl

end Keep

end Mailo.Engine.Graph
