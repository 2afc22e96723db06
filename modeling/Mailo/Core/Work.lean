import Mailo.Core.Shows

/-!
# What one operation queues, and the labels names find

The work of an operation on one message is queued in one way, and moves no message but that one.
A label made where a name found none changes what no other name finds.
-/

namespace Mailo.Store.Sqlite

open Domain Library Mailo.Core Logic

/-! ## The work of one operation -/

theorem queueAll_skip (store : Sqlite) (account : AccountId) (now : DateTime)
    {when : Commit.Resolve} {queue : List Commit.Queue} (h : ∀ work ∈ queue, work.resolve ≠ when) :
    store.queueAll account now when queue = .ok (store, queue.map fun _ => none) := by
  induction queue with
  | nil => rfl
  | cons work rest ih =>
    rw [queueAll, if_neg (h work List.mem_cons_self),
      ih fun other hmem => h other (.tail _ hmem)]
    rfl

section Carried

variable {store : Sqlite} {labels : List LabelId} {id : MessageId} {intent : RemoteIntent}

theorem pendingRows_carries (h : Carries labels id intent) (other : MessageId) :
    (pendingRows intent).contains other = decide (other = id) := by
  have hset : ∀ settings : List Setting,
      ((Table.empty : Table MessageId (List Setting)).set id settings).contains other =
        decide (other = id) := by
    intro settings
    unfold Table.contains
    rw [Table.get_set]
    by_cases heq : other = id <;> simp [heq]
  cases h <;> exact hset _

def folderOf (store : Sqlite) (folder : ProtoOp → Option String) (account : AccountId)
    (intent : RemoteIntent) : Option String :=
  (store.resolveIntent account intent).bind folder

theorem queueIn_carries (h : Carries labels id intent) (held : store.messages.contains id = true)
    (account : AccountId) (undo : Patch) (forward : Option ChangeId) (now : DateTime) :
    ∃ after made, store.queueIn account intent undo forward now = .ok (after, made) ∧
      ∀ (folder : ProtoOp → Option String) (other : MessageId),
        after.foldersQueued folder other = store.foldersQueued folder other ++
          if other = id then (store.folderOf folder account intent).toList else [] := by
  have hpending := pendingRows_carries h
  have hkeys : (pendingRows intent).keys.all store.messages.contains = true := by
    rw [List.all_eq_true]
    intro key hkey
    obtain ⟨value, hvalue⟩ := Table.mem_keys.mp hkey
    have hcontains := hpending key
    rw [Table.contains_iff.mpr ⟨value, hvalue⟩] at hcontains
    rw [of_decide_eq_true hcontains.symm]
    exact held
  have hstale : store.staleCopies account intent = [] := by
    cases h <;> rfl
  unfold queueIn
  split
  · rename_i hnone
    refine ⟨_, _, rfl, fun folder other => ?_⟩
    rw [folderOf, hnone]
    simp
  · rename_i op hop
    have hall : (store.entryFor account intent op hop undo forward now).pending.keys.all
        store.messages.contains = true := hkeys
    rw [if_pos hall]
    refine ⟨_, _, rfl, fun folder other => ?_⟩
    have hfilter : (store.outbox.filter fun held _ =>
        !(List.map Prod.fst (store.staleCopies account intent)).contains held) = store.outbox := by
      refine Series.ext_rows rfl ?_
      rw [hstale]
      exact List.filter_eq_self.mpr fun _ _ => rfl
    unfold foldersQueued
    rw [hfilter, Series.values_push, List.filterMap_append]
    congr 1
    have hfolder : store.folderOf folder account intent = folder op := by
      unfold folderOf
      rw [hop]
      rfl
    rw [hfolder]
    have hone : (store.entryFor account intent op hop undo forward now).pending.contains other =
        decide (other = id) := hpending other
    have hentry : (store.entryFor account intent op hop undo forward now).op = op := rfl
    by_cases heq : other = id
    · have hin := hone.trans (decide_eq_true heq)
      simp only [List.filterMap_cons, List.filterMap_nil, hin, hentry, if_true, if_pos heq]
      cases folder op <;> rfl
    · have hout := hone.trans (decide_eq_false heq)
      simp only [List.filterMap_cons, List.filterMap_nil, hout, if_neg heq, Bool.false_eq_true,
        if_false]

/-- The work of one operation is queued, and is all that is added to the queue. -/
theorem queueAll_carries {queue : List Commit.Queue} (one : queue.length ≤ 1)
    (h : ∀ work ∈ queue, work.resolve = .afterForward ∧ work.unplaced = .skip ∧
      Carries labels id work.intent) (held : store.messages.contains id = true)
    (account : AccountId) (now : DateTime) :
    ∃ after made, store.queueAll account now .afterForward queue = .ok (after, made) ∧
      ∀ (folder : ProtoOp → Option String) (other : MessageId),
        after.foldersQueued folder other = store.foldersQueued folder other ++
          if other = id then
            queue.filterMap fun work => store.folderOf folder account work.intent
          else [] := by
  match queue, one with
  | [], _ => exact ⟨store, [], rfl, fun folder other => by simp⟩
  | [work], _ =>
    obtain ⟨hresolve, hunplaced, hcarries⟩ := h work (.head _)
    obtain ⟨after, made, hone, hfolders⟩ :=
      queueIn_carries hcarries held account work.undo work.id now
    have hlist : ∀ (folder : ProtoOp → Option String),
        ([work].filterMap fun work => store.folderOf folder account work.intent) =
          (store.folderOf folder account work.intent).toList := by
      intro folder
      cases hfolder : store.folderOf folder account work.intent <;>
        simp [hfolder]
    refine ⟨after, [made], ?_, fun folder other => ?_⟩
    · rw [queueAll, if_pos hresolve, hone]
      cases made with
      | none =>
        have hsame : after = store := by
          obtain ⟨hqueues, hmade⟩ := queueIn_queues hone
          have hnone : store.resolveIntent account work.intent = none := by simpa using hmade
          unfold queueIn at hone
          split at hone
          · cases hone
            rfl
          · rename_i op hop
            rw [hnone] at hop
            cases hop
        simp [hunplaced, queueAll, hsame]
      | some made => rfl
    · rw [hfolders, hlist]

theorem bind_none_or {c : Prop} {_ : Decidable c} {op : ProtoOp} {folder : ProtoOp → Option String}
    (h : folder op = none) : (if c then none else some op).bind folder = none := by
  split
  · rfl
  · exact h

theorem folderOf_carries (h : Carries labels id intent) (account : AccountId) :
    store.folderOf copiedTo account intent = none ∧
      store.folderOf movedTo account intent =
        match intent with
        | .file _ label =>
          if store.refsFor account [id] = [] ∧ store.isUnplaced account id = false then none
          else (store.labels.get label).map Label.name
        | _ => none := by
  have hempty : ∀ held : List RemoteRef, held.isEmpty = decide (held = []) := fun held => by
    cases held <;> rfl
  unfold folderOf
  cases h with
  | file label _ =>
    simp only [resolveIntent, unaddressed, Store.messagesOf, List.any_cons, List.any_nil,
      Bool.or_false, hempty, operationOn, labelNames]
    by_cases hrefs : store.refsFor account [id] = [] <;>
      cases hunplaced : store.isUnplaced account id <;>
      cases hlabel : store.labels.get label <;>
      simp [hrefs, hlabel, copiedTo, movedTo]
  | _ =>
    exact ⟨bind_none_or rfl, bind_none_or rfl⟩

/-- A message held has an address on its account exactly when it has one. -/
theorem refsFor_eq_nil (coherent : store.Coherent) {m : Message}
    (hm : store.messages.get id = some m) :
    store.refsFor m.account [id] = [] ↔ store.mailboxesOf id = [] := by
  have hrows : (store.remoteMap.rows.filter fun row => row.1.1 = m.account && row.2 = id) =
      store.remoteMap.rows.filter fun row => row.2 = id := by
    refine List.filter_congr fun row hrow => ?_
    by_cases heq : row.2 = id
    · have hget : store.remoteMap.get (row.1.1, row.1.2) = some id := by
        rw [← heq]
        exact Table.mem_rows.mp hrow
      have haccount := coherent.addressed _ _ id m hget hm
      simp [heq, haccount]
    · simp [heq]
  unfold refsFor addressesOf mailboxesOf
  rw [List.flatMap_cons, List.flatMap_nil, List.append_nil, List.map_eq_nil_iff, hrows]
  constructor
  · intro h
    rw [h]
    rfl
  · intro h
    cases hfilter : store.remoteMap.rows.filter fun row => decide (row.2 = id) with
    | nil => rfl
    | cons row rest =>
      rw [hfilter] at h
      have hmem : (columns row.1.2).mailbox ∈
          (List.map (fun row => (columns row.1.2).mailbox) (row :: rest)).eraseDups :=
        List.mem_eraseDups.mpr (.head _)
      rw [h] at hmem
      exact absurd hmem List.not_mem_nil

end Carried

end Mailo.Store.Sqlite

namespace Mailo.Core

open Domain Logic Store Library ArrivalFold

/-! ## Labels in the order of their names -/

section Sorting

variable {α : Type} {r : α → α → Prop} [DecidableRel r] [IsTrans α r]

theorem filter_orderedInsert (p : α → Bool) (a : α) {l : List α} (sorted : l.Pairwise r) :
    (l.orderedInsert r a).filter p =
      if p a then (l.filter p).orderedInsert r a else l.filter p := by
  induction l with
  | nil => cases h : p a <;> simp [h]
  | cons b l ih =>
    rw [List.pairwise_cons] at sorted
    by_cases hab : r a b
    · rw [List.orderedInsert_cons_of_le r l hab]
      cases hp : p a with
      | false => simp [hp]
      | true =>
        rw [List.filter_cons_of_pos hp, if_pos rfl]
        have hall : ∀ c ∈ (b :: l).filter p, r a c := by
          intro c hc
          rcases List.mem_cons.mp (List.mem_filter.mp hc).1 with rfl | hmem
          · exact hab
          · exact IsTrans.trans _ _ _ hab (sorted.1 c hmem)
        cases hfilter : (b :: l).filter p with
        | nil => rfl
        | cons c rest =>
          rw [hfilter] at hall
          rw [List.orderedInsert_cons_of_le r rest (hall c List.mem_cons_self)]
    · rw [List.orderedInsert_of_not_le r l hab]
      cases hp : p b with
      | false => simp only [List.filter_cons, hp, Bool.false_eq_true, if_false, ih sorted.2]
      | true =>
        simp only [List.filter_cons, hp, if_true, ih sorted.2]
        split
        · rw [List.orderedInsert_of_not_le r _ hab]
        · rfl

theorem filter_insertionSort [Std.Total r] (p : α → Bool) (l : List α) :
    (l.insertionSort r).filter p = (l.filter p).insertionSort r := by
  induction l with
  | nil => rfl
  | cons a l ih =>
    rw [List.insertionSort_cons, filter_orderedInsert p a (List.pairwise_insertionSort r l), ih,
      List.filter_cons]
    split <;> rfl

end Sorting

instance byNameTotal : Std.Total fun a b : Label => a.name ≤ b.name :=
  ⟨fun a b => String.le_total a.name b.name⟩

instance byNameTrans : IsTrans Label fun a b => a.name ≤ b.name :=
  ⟨fun _ _ _ hab hbc => String.le_trans hab hbc⟩

/-- Whether a label has a name, in whatever case. -/
def named (name : String) (label : Label) : Bool :=
  Text.eqIgnoreAsciiCase label.name.toList name.toList

theorem named_self (label : Label) : named label.name label = true := by
  simp [named, Text.eqIgnoreAsciiCase]

variable {labels : List Label} {name : String}

/-- Which label a name finds is settled by those of the name in any case. -/
theorem labelFound_congr {more : List Label}
    (h : labels.filter (named name) = more.filter (named name)) :
    labelFound labels name = labelFound more name := by
  have hexact : ∀ labels : List Label, (labels.find? fun label => label.name = name) =
      (labels.filter (named name)).find? fun label => label.name = name := by
    intro labels
    rw [List.find?_filter]
    congr 1
    funext label
    by_cases heq : label.name = name
    · have hnamed : named name label = true := heq ▸ named_self label
      simp [heq, hnamed]
    · simp [heq]
  have hcase : ∀ labels : List Label,
      (labels.find? fun label => Text.eqIgnoreAsciiCase label.name.toList name.toList) =
        (labels.filter (named name)).head? := fun labels => List.head?_filter.symm
  unfold labelFound
  rw [hexact, hexact more, hcase, hcase more, h]

theorem labelFound_eq_none (h : labelFound labels name = none) :
    labels.filter (named name) = [] := by
  unfold labelFound at h
  rw [Option.map_eq_none_iff, Option.or_eq_none_iff] at h
  rw [List.filter_eq_nil_iff]
  exact List.find?_eq_none.mp h.2

theorem labelFound_mem {id : LabelId} (h : labelFound labels name = some id) :
    ∃ label ∈ labels, label.id = id := by
  unfold labelFound at h
  obtain ⟨label, hlabel, hid⟩ := Option.map_eq_some_iff.mp h
  rcases Option.or_eq_some_iff.mp hlabel with hfound | ⟨-, hfound⟩
  · exact ⟨label, List.mem_of_find?_eq_some hfound, hid⟩
  · exact ⟨label, List.mem_of_find?_eq_some hfound, hid⟩

/-- One label more, of a name no label has, is found by that name alone. -/
theorem filter_named_more {sorted : List Label} {label : Label}
    (h : labels.filter (named name) =
      (sorted.insertionSort fun a b => a.name ≤ b.name).filter (named name))
    (new : labels.filter (named label.name) = []) :
    (labels ++ [label]).filter (named name) =
      ((sorted ++ [label]).insertionSort fun a b => a.name ≤ b.name).filter (named name) := by
  rw [filter_insertionSort] at h ⊢
  rw [List.filter_append, List.filter_append]
  by_cases hnamed : named name label = true
  · have hnil : labels.filter (named name) = [] := by
      rw [List.filter_eq_nil_iff] at new ⊢
      intro other hother hmem
      refine new other hother ?_
      unfold named Text.eqIgnoreAsciiCase at hnamed hmem ⊢
      rw [beq_iff_eq] at hnamed hmem ⊢
      rw [hmem, hnamed]
    have hsorted : sorted.filter (named name) = [] := by
      have hperm := List.perm_insertionSort (fun a b : Label => a.name ≤ b.name)
        (sorted.filter (named name))
      rw [← h, hnil] at hperm
      exact hperm.symm.eq_nil
    rw [hnil, hsorted, List.filter_cons_of_pos hnamed]
    rfl
  · rw [List.filter_cons_of_neg hnamed, List.filter_nil, List.append_nil, List.append_nil, h]

end Mailo.Core
